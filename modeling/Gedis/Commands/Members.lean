import Gedis.Commands.Lists
import Gedis.Commands.Stores

/-!
# Set and sorted set commands

A set or sorted set is read as a whole, edited and written back; an empty one removes the record.
Go enumerates maps and draws members in an arbitrary order, which enters as a sequence of choices.
Arguments are taken as already parsed.
-/

namespace Gedis.Commands

open Gedis.Core Datastruct Storage

namespace Sets

variable (maxAlloc : Nat)

/-- The members of a set, without the encoding tag. -/
def decodeMembers (raw : Bytes) : Decoder Members := do
  let s ← decodeSet maxAlloc raw
  pure s.1

def names (s : Members) : List Bytes := s.toList.map (·.1)

def encodeMembers (s : Members) : Bytes := encodeSet (names s)

/-- Write a set, or remove the record when it is empty. -/
def writeOrRemove (s : Members) (expiry : Int64) (reply : Reply) : Update :=
  if s.isEmpty then .remove reply else .write expiry (encodeMembers s) reply

/-- `SADD` of at least one member. -/
def sadd (key member : Bytes) (members : List Bytes) : Session .set Reply [] :=
  modifyDecoded .set (decodeMembers maxAlloc) key fun old =>
    let (s, expiry) := old.getD (∅, 0)
    let s' := (member :: members).foldl (fun s m => s.insert m ()) s
    .write expiry (encodeMembers s') (.int (Int64.ofNat (s'.size - s.size)))

/-- `SREM key member ...`. -/
def srem (key : Bytes) (members : List Bytes) : Session .set Reply [] :=
  modifyDecoded .set (decodeMembers maxAlloc) key fun
    | none => .keep (.int 0)
    | some (s, expiry) =>
      let s' := members.foldl (fun s m => s.erase m) s
      writeOrRemove s' expiry (.int (Int64.ofNat (s.size - s'.size)))

/-- `SPOP key [count]`, with the order in which members are drawn. -/
def spop (order : List Nat) (key : Bytes) (count : Option Nat) : Session .set Reply [] :=
  modifyDecoded .set (decodeMembers maxAlloc) key fun
    | none => .keep (if count.isSome then .bulks [] else .nil)
    | some (s, expiry) =>
      let popped := (arrange order (names s)).take (count.getD 1)
      writeOrRemove (popped.foldl (fun s m => s.erase m) s) expiry
        (if count.isSome then .bulks popped else popped.head?.elim .nil .bulk)

/-- `SMOVE src dst member`. -/
def move (src dst member : Bytes) : Session .set Reply [] :=
  let dec (payload : Bytes) : Except Reply Members :=
    decoded (decodeMembers maxAlloc) ⟨typeSet, 0, payload⟩
  smove src dst
    (fun payload => do
      let s ← dec payload
      pure (if member ∈ s then
        some (if (s.erase member).isEmpty then none else some (encodeMembers (s.erase member)))
      else none))
    (fun old => do
      let s ← old.elim (.ok ∅) dec
      pure (encodeMembers (s.insert member ())))

/-- The set operations. -/
inductive Op where
  | inter | union | diff
  deriving DecidableEq, Repr

/-- The set with the given members. -/
def ofNames (ms : List Bytes) : Members := ms.foldl (fun s m => s.insert m ()) ∅

/-- The result of an operation on the first set and the others. -/
def Op.apply (op : Op) : List Members → Members
  | [] => ∅
  | s :: rest =>
    match op with
    | .inter => ofNames ((names s).filter fun m => rest.all fun t => m ∈ t)
    | .union => ofNames ((s :: rest).flatMap names)
    | .diff => ofNames ((names s).filter fun m => !rest.any fun t => m ∈ t)

/-- `SINTERSTORE`, `SUNIONSTORE` and `SDIFFSTORE`; a missing set is empty. -/
def store (op : Op) (dst : Bytes) (keys : List Bytes) : Handler Reply :=
  storeSetOp dst keys (fun payload => decoded (decodeMembers maxAlloc) ⟨typeSet, 0, payload⟩)
    fun sets =>
      let result := op.apply (sets.map fun s => s.getD ∅)
      (if result.isEmpty then none else some (encodeMembers result), Int64.ofNat result.size)

end Sets

/-- Arithmetic and text of scores. -/
structure ScoreLibrary where
  add : UInt64 → UInt64 → UInt64
  mul : UInt64 → UInt64 → UInt64
  formatScore : UInt64 → Bytes

namespace SortedSets

variable (lib : ScoreLibrary) (maxAlloc : Nat) (order : List Nat)

/-- The scores of a sorted set, without the encoding tag. -/
def decodeScores (raw : Bytes) : Decoder Scores := do
  let z ← decodeZSet maxAlloc raw
  pure z.1

/-- The payload of a sorted set, none for an empty one. -/
def payload (z : Scores) : Option Bytes := if z.isEmpty then none else some (encodeZSet order z)

/-- Write a sorted set; an empty one removes the record. -/
def writeScores (z : Scores) (expiry : Int64) (reply : Reply) : Update :=
  match payload order z with
  | none => .remove reply
  | some bytes => .write expiry bytes reply

def isInf (bits : UInt64) : Bool := bits &&& 0x7FFFFFFFFFFFFFFF = 0x7FF0000000000000

def floatLe (a b : UInt64) : Bool := floatLt a b || floatEq a b

/-- The options of `ZADD`. -/
structure ZAddFlags where
  nx : Bool
  xx : Bool
  gt : Bool
  lt : Bool
  ch : Bool
  incr : Bool
  deriving DecidableEq, Repr

/-- The sorted set and the numbers of added and changed members. -/
structure ZAddState where
  z : Scores
  added : Int64
  changed : Int64

/-- One pair of `ZADD`. -/
def zaddPair (fl : ZAddFlags) (s : ZAddState) (p : UInt64 × Bytes) : ZAddState :=
  match s.z[p.2]? with
  | none => if fl.xx then s else ⟨s.z.insert p.2 p.1, s.added + 1, s.changed + 1⟩
  | some cur =>
    if fl.nx then s
    else if fl.gt ∧ floatLe p.1 cur then s
    else if fl.lt ∧ floatLe cur p.1 then s
    else if floatEq p.1 cur then s
    else { s with z := s.z.insert p.2 p.1, changed := s.changed + 1 }

def scoreRange : Reply :=
  .error "ERR resulting score is out of range (result of INCRBY would be out of range)"

/-- The increment of a member, for `ZADD ... INCR` and `ZINCRBY`. -/
def incrMember (old : Option (Scores × Int64)) (delta : UInt64) (member : Bytes) : Update :=
  let (z, expiry) := old.getD (∅, 0)
  let score := lib.add (z[member]?.getD 0) delta
  if isNaN score || isInf score then .keep scoreRange
  else writeScores order (z.insert member score) expiry (.bulk (lib.formatScore score))

/-- `ZADD key [options] score member ...`. -/
def zadd (fl : ZAddFlags) (key : Bytes) (pair : UInt64 × Bytes) (pairs : List (UInt64 × Bytes)) :
    Session .zset Reply [] :=
  modifyDecoded .zset (decodeScores maxAlloc) key fun old =>
    let (z, expiry) := old.getD (∅, 0)
    if fl.incr then
      match z[pair.2]? with
      | none => if fl.xx then .keep .nil else incrMember lib order old pair.1 pair.2
      | some cur =>
        if fl.nx then .keep (.bulk (lib.formatScore cur))
        else incrMember lib order old pair.1 pair.2
    else
      let s := (pair :: pairs).foldl (zaddPair fl) ⟨z, 0, 0⟩
      writeScores order s.z expiry (.int (if fl.ch then s.changed else s.added))

/-- `ZINCRBY key increment member`. -/
def zincrby (key : Bytes) (delta : UInt64) (member : Bytes) : Session .zset Reply [] :=
  modifyDecoded .zset (decodeScores maxAlloc) key fun old => incrMember lib order old delta member

def eraseAll (z : Scores) (members : List Bytes) : Scores :=
  members.foldl (fun z m => z.erase m) z

/-- `ZREM key member ...`. -/
def zrem (key : Bytes) (members : List Bytes) : Session .zset Reply [] :=
  modifyDecoded .zset (decodeScores maxAlloc) key fun
    | none => .keep (.int 0)
    | some (z, expiry) =>
      let z' := eraseAll z members
      writeScores order z' expiry (.int (Int64.ofNat (z.size - z'.size)))

/-- `ZREMRANGEBYRANK`, `ZREMRANGEBYSCORE` and `ZREMRANGEBYLEX`: the range selects among the sorted
members; a range of ranks that is empty leaves the record alone. -/
def zremrange (key : Bytes) (range : List (Bytes × UInt64) → Option (List Bytes)) :
    Session .zset Reply [] :=
  modifyDecoded .zset (decodeScores maxAlloc) key fun
    | none => .keep (.int 0)
    | some (z, expiry) =>
      match range (sortZSetPairs (arrange order z.toList)) with
      | none => .keep (.int 0)
      | some members =>
        let z' := eraseAll z members
        writeScores order z' expiry (.int (Int64.ofNat (z.size - z'.size)))

/-- The members with the least scores, or the greatest. -/
def lowest (rev : Bool) (n : Nat) (z : Scores) : List (Bytes × UInt64) :=
  let sorted := sortZSetPairs (arrange order z.toList)
  (if rev then sorted.reverse else sorted).take n

/-- A member and its score as they are sent. -/
def sent (p : Bytes × UInt64) : List Bytes := [p.1, lib.formatScore p.2]

/-- `ZPOPMIN` and `ZPOPMAX`. -/
def zpop (rev : Bool) (key : Bytes) (count : Nat) : Session .zset Reply [] :=
  modifyDecoded .zset (decodeScores maxAlloc) key fun
    | none => .keep (.bulks [])
    | some (z, expiry) =>
      let popped := lowest order rev count z
      writeScores order (eraseAll z (popped.map (·.1))) expiry (.bulks (popped.flatMap (sent lib)))

/-- Take members from a sorted set that has some. -/
def takeLowest (rev : Bool) (count : Nat) (z : Scores) : Option (List Bytes × Option Bytes) :=
  if z.isEmpty then none
  else
    let popped := lowest order rev count z
    some (popped.flatMap (sent lib), payload order (eraseAll z (popped.map (·.1))))

/-- `ZMPOP`, and one round of `BZMPOP` when an error counts as nothing found. -/
def zmpop (blocking : Bool) (keys : List Bytes) (rev : Bool) (count : Nat) :
    Session .zset Reply [] :=
  checkKinds (decodeScores maxAlloc)
    (popRound (decodeScores maxAlloc) (takeLowest lib order rev count) .popped
      (fun r => if blocking then .nilArray else r) keys) keys

/-- One round of `BZPOPMIN` and `BZPOPMAX`. -/
def bzpop (keys : List Bytes) (rev : Bool) : Session .zset Reply [] :=
  checkKinds (decodeScores maxAlloc)
    (popRound (decodeScores maxAlloc) (takeLowest lib order rev 1)
      (fun key out => .bulks (key :: out)) (fun _ => .nilArray) keys) keys

def ofPairs (ps : List (Bytes × UInt64)) : Scores := ps.foldl (fun z p => z.insert p.1 p.2) ∅

/-- `ZRANGESTORE dst src ...`: the range selects among the sorted members. -/
def rangestore (dst src : Bytes) (range : List (Bytes × UInt64) → List (Bytes × UInt64)) :
    Session .zset Reply [] :=
  zrangestore dst src (decoded (decodeScores maxAlloc)) fun z =>
    let hit := range (sortZSetPairs (arrange order z.toList))
    (payload order (ofPairs hit), Int64.ofNat hit.length)

/-- How the scores of one member are combined. -/
inductive Aggregate where
  | sum | min | max
  deriving DecidableEq, Repr

def aggregateScore (agg : Aggregate) (cur : Option UInt64) (next : UInt64) : UInt64 :=
  match cur with
  | none => next
  | some cur =>
    match agg with
    | .min => if floatLt next cur then next else cur
    | .max => if floatLt cur next then next else cur
    | .sum => lib.add cur next

/-- The union of sorted sets with weights. -/
def unionZSets (agg : Aggregate) (sets : List (Scores × UInt64)) : Scores :=
  sets.foldl (fun out s => s.1.toList.foldl
    (fun out p => out.insert p.1 (aggregateScore lib agg out[p.1]? (lib.mul p.2 s.2))) out) ∅

/-- The score of a member of all sets. -/
def interScore (agg : Aggregate) (member : Bytes) : UInt64 → List (Scores × UInt64) → Option UInt64
  | acc, [] => some acc
  | acc, s :: rest =>
    match s.1[member]? with
    | none => none
    | some score =>
      interScore agg member (aggregateScore lib agg (some acc) (lib.mul score s.2)) rest

/-- The intersection of sorted sets with weights. -/
def interZSets (agg : Aggregate) : List (Scores × UInt64) → Scores
  | [] => ∅
  | s :: rest => ofPairs (s.1.toList.filterMap fun p =>
      (interScore lib agg p.1 (lib.mul p.2 s.2) rest).map fun score => (p.1, score))

/-- The first sorted set without the members of the others. -/
def diffZSets : List (Scores × UInt64) → Scores
  | [] => ∅
  | s :: rest => ofPairs (s.1.toList.filter fun p => !rest.any fun t => p.1 ∈ t.1)

/-- `ZUNIONSTORE`, `ZINTERSTORE` and `ZDIFFSTORE`, each key with its weight; a missing set is
empty. -/
def store (op : Sets.Op) (agg : Aggregate) (dst : Bytes) (keys : List Bytes)
    (weights : List UInt64) : Session .zset Reply [] :=
  storeZSetOp dst keys (decoded (decodeScores maxAlloc)) fun sets =>
    let weighted := (sets.map fun z => z.getD ∅).zip weights
    let result := match op with
      | .union => unionZSets lib agg weighted
      | .inter => interZSets lib agg weighted
      | .diff => diffZSets weighted
    (payload order result, Int64.ofNat result.size)

end SortedSets

end Gedis.Commands
