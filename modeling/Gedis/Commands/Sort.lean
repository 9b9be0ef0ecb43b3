import Gedis.Commands.Members
import Gedis.Commands.Scans

/-!
# Sorting a container into a list

`SORT ... STORE` reads a list, set or sorted set, orders its elements by themselves or by what a
pattern finds for them, cuts out a range and replaces the destination by the resulting list. The
patterns read strings and fields of hashes.
-/

namespace Gedis.Commands.Sort

open Gedis.Core Datastruct

/-- The options of `SORT`. -/
structure SortOptions where
  pattern : Option Bytes := none
  limit : Option (Int64 × Int64) := none
  gets : List Bytes := []
  desc : Bool := false
  alpha : Bool := false
  deriving DecidableEq, Repr

variable (parseFloat : Bytes → Option UInt64) (maxAlloc : Nat) (order : List Nat)

def look (key : Bytes) : Reader Found := Prog.perform (Look.key key)

def lookHash (key : Bytes) : Reader (Except Failure (Option (Fields × Int64))) :=
  Prog.perform (Look.hash key)

/-- The text before and behind the first occurrence of a word. -/
def cutAt (word : Bytes) : Bytes → Option (Bytes × Bytes)
  | [] => if word = [] then some ([], []) else none
  | b :: bs =>
    if word.isPrefixOf (b :: bs) then some ([], (b :: bs).drop word.length)
    else (cutAt word bs).map fun c => (b :: c.1, c.2)

/-- The key that a pattern names for an element: the first star stands for the element. -/
def patternKey (pattern elem : Bytes) : Bytes :=
  match cutAt [42] pattern with
  | none => pattern
  | some (before, behind) => before ++ elem ++ behind

/-- What a pattern finds for an element: the element itself, a field of a hash or a string. -/
def resolveSortPattern (pattern elem : Bytes) : Reader (Option Bytes) :=
  if pattern = [35] then pure (some elem)
  else
    let (key, field) := (cutAt [45, 62] (patternKey pattern elem)).getD (patternKey pattern elem, [])
    if field ≠ [] then do
      match ← lookHash key with
      | .ok (some (m, _)) => pure m[field]?
      | _ => pure none
    else do
      match ← look key with
      | .record _ e => pure (if e.typ = typeString then some e.payload else none)
      | _ => pure none

/-- Read a key again as a kind. -/
def reread {β : Type} (kind : Kind) (dec : Bytes → Decoder β) (key : Bytes) :
    Reader (Except Reply β) := do
  match ← look key with
  | .missing => pure (.error (.error "storage: key not found"))
  | .failed f => pure (.error f.reply)
  | .record _ e => pure (if e.typ = kind.tag then decoded dec e else .error kind.mismatch.reply)

/-- The elements to sort. A missing key ends the command with the reply zero. -/
def sortElements (key : Bytes) : Reader (Except Reply (List Bytes)) := do
  match ← look key with
  | .missing => pure (.error (.int 0))
  | .failed f => pure (.error f.reply)
  | .record _ e =>
    if e.typ = typeList then reread .list (decodeList maxAlloc) key
    else if e.typ = typeSet then do
      let s ← reread .set (Sets.decodeMembers maxAlloc) key
      pure (s.map Sets.names)
    else if e.typ = typeZSet then do
      let z ← reread .zset (SortedSets.decodeScores maxAlloc) key
      pure (z.map fun z => (sortZSetPairs (arrange order z.toList)).map (·.1))
    else pure (.error Failure.wrongType.reply)

/-- An element with what it is ordered by. -/
structure SortItem where
  elem : Bytes
  score : UInt64
  str : Bytes
  deriving DecidableEq, Repr

def badScore : Reply := .error "ERR One or more scores can't be converted into double"

/-- What an element is ordered by; without a pattern the element itself, and for a pattern that finds
nothing the empty text or zero. -/
def sortItem (o : SortOptions) (elem : Bytes) : Reader (Except Reply SortItem) := do
  let found ← match o.pattern with
    | none => pure (some elem)
    | some pattern => resolveSortPattern pattern elem
  if o.alpha then pure (.ok ⟨elem, 0, found.getD []⟩)
  else
    match found with
    | none => pure (.ok ⟨elem, 0, []⟩)
    | some text =>
      match parseFloat text with
      | none => pure (.error badScore)
      | some score => pure (.ok ⟨elem, score, []⟩)

def sortItems (o : SortOptions) : List Bytes → Reader (Except Reply (List SortItem))
  | [] => pure (.ok [])
  | elem :: elems => do
    match ← sortItem parseFloat o elem with
    | .error reply => pure (.error reply)
    | .ok item => do
      match ← sortItems o elems with
      | .error reply => pure (.error reply)
      | .ok items => pure (.ok (item :: items))

def itemLess (o : SortOptions) (a b : SortItem) : Bool :=
  if o.alpha then
    if o.desc then compare b.str a.str = .lt else compare a.str b.str = .lt
  else if o.desc then floatLt b.score a.score else floatLt a.score b.score

/-- The range of `LIMIT`. Its end is computed in 64 bits; when it wraps around, cutting out the range
panics. -/
def limitRange (limit : Option (Int64 × Int64)) (items : List SortItem) :
    Except Reply (List SortItem) :=
  match limit with
  | none => .ok items
  | some (off, cnt) =>
    let n : Int := items.length
    let lo := min (max off.toInt 0) n
    let hi := if cnt < 0 then n else min ((lo + cnt.toInt).bmod (2 ^ 64)) n
    if hi < lo then .error panicked else .ok ((items.take hi.toNat).drop lo.toNat)

/-- What is stored for an item: the element, or what each pattern finds and the empty text where it
finds nothing. -/
def getItem (elem : Bytes) : List Bytes → Reader (List Bytes)
  | [] => pure []
  | pattern :: patterns => do
    let found ← resolveSortPattern pattern elem
    let rest ← getItem elem patterns
    pure (found.getD [] :: rest)

def collectGet (gets : List Bytes) : List SortItem → Reader (List Bytes)
  | [] => pure []
  | item :: items => do
    let out ← if gets = [] then pure [item.elem] else getItem item.elem gets
    let rest ← collectGet gets items
    pure (out ++ rest)

/-- The elements of the result. -/
def sorted (o : SortOptions) (key : Bytes) : Reader (Except Reply (List Bytes)) := do
  match ← sortElements maxAlloc order key with
  | .error reply => pure (.error reply)
  | .ok elems =>
    match ← sortItems parseFloat o elems with
    | .error reply => pure (.error reply)
    | .ok items =>
      match limitRange o.limit (sortBy (itemLess o) items) with
      | .error reply => pure (.error reply)
      | .ok items => do
        let out ← collectGet o.gets items
        pure (.ok out)

/-- The result as the payload of a list, with its length. -/
def sortedPayload (o : SortOptions) (key : Bytes) : Reader (Except Reply (Bytes × Int64)) := do
  let r ← sorted parseFloat maxAlloc order o key
  pure (r.map fun out => (encodeList out, Int64.ofNat out.length))

end Gedis.Commands.Sort
