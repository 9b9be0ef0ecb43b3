import Gedis.Commands.Typed
import Gedis.Datastruct.Containers

/-!
# List commands

A list is read as a whole, edited and written back. Most commands remove the record when nothing is
left. A blocking command looks at its keys again and again; one round of it is a command here.
Arguments are taken as already parsed.
-/

namespace Gedis.Commands

open Gedis.Core Datastruct

/-- A panic while a payload is decoded ends the command before anything is written; no reply is
sent. -/
def panicked : Reply := .error ""

/-- The decoded payload of a record. -/
def decoded {β : Type} (dec : Bytes → Decoder β) (e : Entry) : Except Reply β :=
  match (dec e.payload).result with
  | .ok b => .ok b
  | .error (.failed err) => .error (.error err.message)
  | .error (.panicked _) => .error panicked

/-- Read and decode a key, then write it, remove it or leave it alone. -/
def modifyDecoded {β : Type} (kind : Kind) (dec : Bytes → Decoder β) (key : Bytes)
    (f : Option (β × Int64) → Update) : Session kind Reply [] :=
  modify kind key fun old =>
    match old with
    | none => f none
    | some e =>
      match decoded dec e with
      | .error reply => .keep reply
      | .ok b => f (some (b, e.expiry))

/-- Take something from the first of several keys that has something; `take` gives what is sent and
the payload that is left, if any. -/
def popRound {kind : Kind} {β : Type} (dec : Bytes → Decoder β)
    (take : β → Option (List Bytes × Option Bytes)) (reply : Bytes → List Bytes → Reply)
    (failed : Reply → Reply) : List Bytes → {seen : List Bytes} → Session kind Reply seen
  | [], _ => .done .nilArray
  | key :: keys, _ =>
    .load key (fun err => .done (failed err.reply)) fun
      | none => popRound dec take reply failed keys
      | some e =>
        match decoded dec e with
        | .error r => .done (failed r)
        | .ok b =>
          match take b with
          | none => popRound dec take reply failed keys
          | some (out, none) => .drop key (.done (reply key out))
          | some (out, some payload) =>
            .store key (List.mem_cons_self ..) e.expiry payload fun
              | .oom => .done (failed Failure.oom.reply)
              | .ok => .done (reply key out)

/-- Check that each key holds the kind, if anything. -/
def checkKinds {kind : Kind} {β : Type} (dec : Bytes → Decoder β)
    (next : {seen : List Bytes} → Session kind Reply seen) :
    List Bytes → {seen : List Bytes} → Session kind Reply seen
  | [], _ => next
  | key :: keys, _ =>
    .load key (fun err => .done err.reply) fun old =>
      Session.decoded (decoded dec) old fun _ => checkKinds dec next keys

namespace Lists

variable (maxAlloc : Nat)

/-- Write the elements of a list. -/
def writeList (elems : List Bytes) (expiry : Int64) (reply : Reply) : Update :=
  .write expiry (encodeList elems) reply

/-- Write the elements of a list, or remove the record when there are none. -/
def writeOrRemove (elems : List Bytes) (expiry : Int64) (reply : Reply) : Update :=
  if elems = [] then .remove reply else writeList elems expiry reply

/-- `LPUSH` and `RPUSH` of at least one value. -/
def push (head : Bool) (key value : Bytes) (values : List Bytes) : Session .list Reply [] :=
  modifyDecoded .list (decodeList maxAlloc) key fun old =>
    let (elems, expiry) := old.getD ([], 0)
    let elems := (value :: values).foldl
      (fun elems v => if head then v :: elems else elems ++ [v]) elems
    writeList elems expiry (.int (Int64.ofNat elems.length))

/-- The elements taken from one end, and what is left. -/
def takeEnd (tail : Bool) (n : Nat) (elems : List Bytes) : List Bytes × List Bytes :=
  if tail then (elems.drop (elems.length - n), elems.take (elems.length - n))
  else (elems.take n, elems.drop n)

/-- `LPOP` and `RPOP`, with or without a count that is not negative. -/
def popOne (tail : Bool) (key : Bytes) (count : Option Nat) : Session .list Reply [] :=
  modifyDecoded .list (decodeList maxAlloc) key fun
    | none => .keep (if count.isSome then .bulks [] else .nil)
    | some (elems, expiry) =>
      let (out, rest) := takeEnd tail (min (count.getD 1) elems.length) elems
      writeOrRemove rest expiry
        (if count.isSome then .bulks out else out.head?.elim .nil .bulk)

/-- A position from the front, or from the back when it is negative. -/
def normalizeIndex (idx : Int64) (n : Nat) : Option Nat :=
  let i := if idx.toInt < 0 then idx.toInt + n else idx.toInt
  if i < 0 ∨ n ≤ i then none else some i.toNat

/-- `LSET key index value`. -/
def lset (key : Bytes) (idx : Int64) (value : Bytes) : Session .list Reply [] :=
  modifyDecoded .list (decodeList maxAlloc) key fun
    | none => .keep (.error "ERR no such key")
    | some (elems, expiry) =>
      match normalizeIndex idx elems.length with
      | none => .keep (.error "ERR index out of range")
      | some pos => writeList (elems.set pos value) expiry .ok

/-- `LINSERT key BEFORE | AFTER pivot value`. -/
def linsert (key : Bytes) (after : Bool) (pivot value : Bytes) : Session .list Reply [] :=
  modifyDecoded .list (decodeList maxAlloc) key fun
    | none => .keep (.int 0)
    | some (elems, expiry) =>
      if pivot ∈ elems then
        let pos := if after then elems.idxOf pivot + 1 else elems.idxOf pivot
        let elems := elems.insertIdx pos value
        writeList elems expiry (.int (Int64.ofNat elems.length))
      else .keep (.int (-1))

/-- Remove the first occurrences of a value, at most a number of them; all of them for zero. The
smallest number counts as no occurrence at all, since it has no absolute value. -/
def removeFirst (limit : Option Nat) (value : Bytes) : List Bytes → List Bytes
  | [] => []
  | e :: elems =>
    if e = value ∧ limit ≠ some 0 then removeFirst (limit.map (· - 1)) value elems
    else e :: removeFirst limit value elems

def lremLimit (count : Int64) : Option Nat :=
  if count = 0 then none else if count = Int64.minValue then some 0 else some count.toInt.natAbs

/-- `LREM key count value`: a negative count removes from the back. -/
def lrem (key : Bytes) (count : Int64) (value : Bytes) : Session .list Reply [] :=
  modifyDecoded .list (decodeList maxAlloc) key fun
    | none => .keep (.int 0)
    | some (elems, expiry) =>
      let kept := if count < 0 then (removeFirst (lremLimit count) value elems.reverse).reverse
        else removeFirst (lremLimit count) value elems
      let removed := elems.length - kept.length
      let reply : Reply := .int (Int64.ofNat removed)
      if removed = 0 then .keep reply else writeOrRemove kept expiry reply

/-- `LTRIM key start stop`. -/
def ltrim (key : Bytes) (start stop : Int64) : Session .list Reply [] :=
  modifyDecoded .list (decodeList maxAlloc) key fun
    | none => .keep .ok
    | some (elems, expiry) =>
      let n : Int := elems.length
      let start := if start.toInt < 0 then start.toInt + n else start.toInt
      let stop := if stop.toInt < 0 then stop.toInt + n else stop.toInt
      let start := max start 0
      let stop := min stop (n - 1)
      let kept := if start > stop ∨ n ≤ start then []
        else (elems.take (stop + 1).toNat).drop start.toNat
      writeOrRemove kept expiry .ok

/-- `LMOVE`, `RPOPLPUSH` and one round of `BLMOVE` and `BRPOPLPUSH`. -/
def move (src dst : Bytes) (fromTail toTail : Bool) : Session .list Reply [] :=
  let dec (payload : Bytes) : Except Reply (List Bytes) :=
    decoded (decodeList maxAlloc) ⟨typeList, 0, payload⟩
  moveCore src dst
    (fun payload => do
      let elems ← dec payload
      let (out, rest) := takeEnd fromTail 1 elems
      pure (out.head?.map fun elem =>
        (elem, if rest = [] then none else some (encodeList rest))))
    (fun old elem => do
      let elems ← old.elim (.ok []) dec
      pure (encodeList (if toTail then elems ++ [elem] else elem :: elems)))

/-- Take at most a number of elements from a list that has some. -/
def takeCount (tail : Bool) (count : Nat) (elems : List Bytes) : Option (List Bytes × Option Bytes) :=
  if elems = [] then none
  else
    let (out, rest) := takeEnd tail (min count elems.length) elems
    some (out, if rest = [] then none else some (encodeList rest))

/-- `LMPOP`, and one round of `BLMPOP` and `BRMPOP`. -/
def lmpop (keys : List Bytes) (tail : Bool) (count : Nat) : Session .list Reply [] :=
  checkKinds (decodeList maxAlloc)
    (popRound (decodeList maxAlloc) (takeCount tail count) .popped id keys) keys

/-- One round of `BLPOP` and `BRPOP`: an error counts as nothing found. -/
def bpop (keys : List Bytes) (tail : Bool) : Session .list Reply [] :=
  checkKinds (decodeList maxAlloc)
    (popRound (decodeList maxAlloc) (takeCount tail 1) (fun key out => .bulks (key :: out))
      (fun _ => .nilArray) keys) keys

end Lists

end Gedis.Commands
