import Gedis.Core.Meter
import Gedis.Datastruct.Hash

/-!
# Payloads of containers

Lists, sets, sorted sets, vector sets and cardinality sketches have payloads of counts, lengths and
texts like hashes. Scores and components are 64-bit patterns of floating-point numbers. The decoders
are metered: what they allocate and where they can panic is part of the model.
-/

namespace Gedis.Datastruct

open Gedis.Core

/-- What is wrong with a payload. -/
inductive PayloadError where
  | hash (e : HashError)
  | truncatedList
  | badListCount
  | truncatedListElement (i : Nat)
  | truncatedSet
  | badSetCount
  | truncatedSetMember (i : Nat)
  | truncatedZSet
  | badZSetCount
  | truncatedZSetMember (i : Nat)
  | truncatedVectorCount
  | truncatedVectorDim
  | vectorDimMismatch (d : Nat) (dim : Int)
  | truncatedVectorValue
  | truncatedVectorName
  | truncatedVectorAttr
  | badStream
  | notHLL
  deriving DecidableEq, Repr

def PayloadError.message : PayloadError → String
  | .hash e => e.message
  | .truncatedList => "datastruct: truncated list payload"
  | .badListCount => "datastruct: bad list count"
  | .truncatedListElement i => s!"datastruct: truncated list element {i}"
  | .truncatedSet => "datastruct: truncated set payload"
  | .badSetCount => "datastruct: bad set count"
  | .truncatedSetMember i => s!"datastruct: truncated set member {i}"
  | .truncatedZSet => "datastruct: truncated zset payload"
  | .badZSetCount => "datastruct: bad zset count"
  | .truncatedZSetMember i => s!"datastruct: truncated zset member {i}"
  | .truncatedVectorCount => "datastruct: truncated vectorset count"
  | .truncatedVectorDim => "datastruct: truncated vectorset dim"
  | .vectorDimMismatch d dim => s!"datastruct: vectorset dim mismatch {d} != {dim}"
  | .truncatedVectorValue => "datastruct: truncated vectorset value"
  | .truncatedVectorName => "datastruct: truncated vectorset name"
  | .truncatedVectorAttr => "datastruct: truncated vectorset attr"
  | .badStream => "datastruct: bad stream payload"
  | .notHLL => "WRONGTYPE Key is not a valid HyperLogLog string value."

abbrev Decoder (α : Type) := Meter PayloadError α

/-- A 64-bit number as a signed one. -/
def asInt (n : Nat) : Int := if n < 2 ^ 63 then n else (n : Int) - 2 ^ 64

/-- A length-prefixed text and what follows it; nothing when the input ends before. -/
def readStr (b : Bytes) : Decoder (Option (Bytes × Bytes)) :=
  match uvarint b with
  | none => pure none
  | some (n, adv) =>
    if (b.drop adv).length < n then pure none
    else do
      let text ← .slice adv (adv + asInt n) b
      .alloc text.length
      let rest ← .slice (adv + asInt n) b.length b
      pure (some (text, rest))

def readHashStr (b : Bytes) : Decoder (Option (Bytes × Bytes)) := readStr b
def readListStr (b : Bytes) : Decoder (Option (Bytes × Bytes)) := readStr b
def readSetStr (b : Bytes) : Decoder (Option (Bytes × Bytes)) := readStr b

/-- One field with its value, into a map. -/
def hashBody (i : Nat) (s : Fields × Bytes) : Decoder (Fields × Bytes) := do
  match ← readHashStr s.2 with
  | none => .fail (.hash (.truncatedField i))
  | some (f, rest) =>
    match ← readHashStr rest with
    | none => .fail (.hash (.truncatedValue i))
    | some (v, rest) =>
      .grow 32 i
      pure (s.1.insert f v, rest)

/-- The metered decoder of hashes. -/
def meterHash (maxAlloc : Nat) : Bytes → Decoder (Fields × UInt8)
  | [] => .fail (.hash .truncatedPayload)
  | enc :: rest =>
    match uvarint rest with
    | none => .fail (.hash .badCount)
    | some (n, adv) => do
      .makeMap maxAlloc 32 n
      let s ← Meter.loop hashBody 0 n (∅, rest.drop adv)
      pure (s.1, enc)

def listEncodingZiplist : UInt8 := 0
def listEncodingQuicklist : UInt8 := 1
def listMaxZiplistEntries : Nat := 128
def listMaxZiplistValue : Nat := 64

def listEncoding (elems : List Bytes) : UInt8 :=
  if listMaxZiplistEntries < elems.length then listEncodingQuicklist
  else if elems.any (listMaxZiplistValue < ·.length) then listEncodingQuicklist
  else listEncodingZiplist

/-- `[encoding][count][elements]`. -/
def encodeList (elems : List Bytes) : Bytes :=
  listEncoding elems :: (appendUvarint elems.length ++ elems.flatMap prefixed)

def listBody (i : Nat) (s : List Bytes × Bytes) : Decoder (List Bytes × Bytes) := do
  match ← readListStr s.2 with
  | none => .fail (.truncatedListElement i)
  | some (e, rest) => pure (s.1 ++ [e], rest)

/-- The elements from head to tail. Room for all of them is made before the first is read. -/
def decodeList (maxAlloc : Nat) : Bytes → Decoder (List Bytes)
  | [] => .fail .truncatedList
  | _ :: rest =>
    match uvarint rest with
    | none => .fail .badListCount
    | some (n, adv) => do
      .makeSlice maxAlloc 16 n
      let s ← Meter.loop listBody 0 n ([], rest.drop adv)
      pure s.1

/-- The members of a set. -/
abbrev Members := OrdMap Bytes Unit

def encodingIntset : UInt8 := 0
def setMaxIntsetEntries : Nat := 512

def allInt64 (members : List Bytes) : Bool := members.all fun m => (parseInt m).isSome

def setEncoding (sorted : List Bytes) : UInt8 :=
  if sorted.length ≤ setMaxIntsetEntries ∧ allInt64 sorted then encodingIntset
  else encodingHashtable

/-- `[encoding][count][members]`, each member once and in order. -/
def encodeSet (members : List Bytes) : Bytes :=
  let uniq : Members := members.foldl (fun m x => m.insert x ()) ∅
  let sorted := uniq.toList.map (·.1)
  setEncoding sorted :: (appendUvarint sorted.length ++ sorted.flatMap prefixed)

def setBody (i : Nat) (s : Members × Bytes) : Decoder (Members × Bytes) := do
  match ← readSetStr s.2 with
  | none => .fail (.truncatedSetMember i)
  | some (m, rest) =>
    .grow 16 i
    pure (s.1.insert m (), rest)

/-- The members and the encoding tag. -/
def decodeSet (maxAlloc : Nat) : Bytes → Decoder (Members × UInt8)
  | [] => .fail .truncatedSet
  | enc :: rest =>
    match uvarint rest with
    | none => .fail .badSetCount
    | some (n, adv) => do
      .makeMap maxAlloc 16 n
      let s ← Meter.loop setBody 0 n (∅, rest.drop adv)
      pure (s.1, enc)

/-- The members of a sorted set with the bits of their scores. -/
abbrev Scores := OrdMap Bytes UInt64

/-- A bit pattern that is not a number. -/
def isNaN (bits : UInt64) : Bool := 0x7FF0000000000000 < bits &&& 0x7FFFFFFFFFFFFFFF

/-- A number's place in the order; both zeros have the same. -/
def floatRank (bits : UInt64) : Int :=
  if bits < 0x8000000000000000 then bits.toNat else -(bits.toNat - 2 ^ 63 : Nat)

def floatLt (a b : UInt64) : Bool := !isNaN a && !isNaN b && floatRank a < floatRank b

def floatEq (a b : UInt64) : Bool := !isNaN a && !isNaN b && floatRank a = floatRank b

/-- By score and then by member. -/
def pairLess (p q : Bytes × UInt64) : Bool :=
  floatLt p.2 q.2 || (floatEq p.2 q.2 && compare p.1 q.1 = .lt)

/-- Move a pair from the end towards the front past greater ones. The list is reversed. -/
def siftPair (p : Bytes × UInt64) : List (Bytes × UInt64) → List (Bytes × UInt64)
  | [] => [p]
  | q :: qs => if pairLess p q then q :: siftPair p qs else p :: q :: qs

/-- Insertion sort. -/
def sortZSetPairs (pairs : List (Bytes × UInt64)) : List (Bytes × UInt64) :=
  (pairs.foldl (fun sorted p => siftPair p sorted) []).reverse

def zsetEncodingListpack : UInt8 := 0
def zsetEncodingSkiplist : UInt8 := 1
def zsetMaxListpackEntries : Nat := 128
def zsetMaxListpackValue : Nat := 64

def zsetEncoding (z : Scores) : UInt8 :=
  if zsetMaxListpackEntries < z.size then zsetEncodingSkiplist
  else if z.toList.any (zsetMaxListpackValue < ·.1.length) then zsetEncodingSkiplist
  else zsetEncodingListpack

def encodeScore (p : Bytes × UInt64) : Bytes := prefixed p.1 ++ beBytes 8 p.2.toNat

/-- `[encoding][count][member and score]`, sorted from the order in which the map is enumerated. -/
def encodeZSet (order : List Nat) (z : Scores) : Bytes :=
  let pairs := sortZSetPairs (arrange order z.toList)
  zsetEncoding z :: (appendUvarint pairs.length ++ pairs.flatMap encodeScore)

/-- One member with its score. The length of both is added in 64 bits. -/
def zsetBody (i : Nat) (s : Scores × Bytes) : Decoder (Scores × Bytes) :=
  match uvarint s.2 with
  | none => .fail (.truncatedZSetMember i)
  | some (mlen, adv) => do
    let size ← .addLength mlen 8
    if (s.2.drop adv).length < size then .fail (.truncatedZSetMember i)
    else
      let m ← .slice adv (adv + asInt mlen) s.2
      .alloc m.length
      let rest ← .slice (adv + asInt mlen) s.2.length s.2
      let bits ← .slice 0 8 rest
      let rest ← .slice 8 rest.length rest
      .grow 24 i
      pure (s.1.insert m (UInt64.ofNat (beNat bits)), rest)

/-- The scores and the encoding tag. -/
def decodeZSet (maxAlloc : Nat) : Bytes → Decoder (Scores × UInt8)
  | [] => .fail .truncatedZSet
  | enc :: rest =>
    match uvarint rest with
    | none => .fail .badZSetCount
    | some (n, adv) => do
      .makeMap maxAlloc 24 n
      let s ← Meter.loop zsetBody 0 n (∅, rest.drop adv)
      pure (s.1, enc)

/-- A vector, with the bits of its components, and its attributes. -/
structure VEntry where
  vec : List UInt64
  attr : Bytes
  deriving DecidableEq, Repr

abbrev Vectors := OrdMap Bytes VEntry

/-- The first dimension that differs from those before it, and the dimension before. -/
def dimMismatch : Int → List Nat → Option (Nat × Int)
  | _, [] => none
  | dim, d :: ds =>
    if dim < 0 then dimMismatch d ds
    else if d ≠ dim then some (d, dim)
    else dimMismatch dim ds

def encodeVEntry (e : Bytes × VEntry) : Bytes :=
  appendUvarint e.2.vec.length ++ (e.2.vec.flatMap fun v => appendUvarint v.toNat) ++
    prefixed e.1 ++ prefixed e.2.attr

/-- `[count][dimension, components, name, attributes]` in name order. All dimensions agree. -/
def encodeVector (m : Vectors) : Except PayloadError Bytes :=
  match dimMismatch (-1) (m.toList.map (·.2.vec.length)) with
  | some (d, dim) => .error (.vectorDimMismatch d dim)
  | none => .ok (appendUvarint m.size ++ m.toList.flatMap encodeVEntry)

def vecBody (_ : Nat) (s : List UInt64 × Bytes) : Decoder (List UInt64 × Bytes) :=
  match uvarint s.2 with
  | none => .fail .truncatedVectorValue
  | some (bits, adv) => pure (s.1 ++ [UInt64.ofNat bits], s.2.drop adv)

/-- The components, the name and the attributes of a vector. -/
def readVEntry (d : Nat) (b : Bytes) : Decoder ((Bytes × VEntry) × Bytes) := do
  let v ← Meter.loop vecBody 0 d ([], b)
  match ← readStr v.2 with
  | none => .fail .truncatedVectorName
  | some (name, rest) =>
    match ← readStr rest with
    | none => .fail .truncatedVectorAttr
    | some (attr, rest) => pure ((name, ⟨v.1, attr⟩), rest)

/-- The dimension so far, the entries so far and the input that is left. -/
abbrev VState := (Int × Vectors) × Bytes

/-- One vector. Room for its components is made before the first is read. -/
def vectorBody (maxAlloc : Nat) (i : Nat) (s : VState) : Decoder VState :=
  match uvarint s.2 with
  | none => .fail .truncatedVectorDim
  | some (d, adv) =>
    let dim := if s.1.1 < 0 then asInt d else s.1.1
    if asInt d ≠ dim then .fail (.vectorDimMismatch d dim)
    else do
      .makeSlice maxAlloc 8 d
      let (e, rest) ← readVEntry d (s.2.drop adv)
      .grow 56 i
      pure ((dim, s.1.2.insert e.1 e.2), rest)

def decodeVector (maxAlloc : Nat) (raw : Bytes) : Decoder Vectors :=
  match uvarint raw with
  | none => .fail .truncatedVectorCount
  | some (count, n) => do
    let s ← Meter.loop (vectorBody maxAlloc) 0 count ((-1, ∅), raw.drop n)
    pure s.1.2

def hllHdrSize : Nat := 16
def hllDenseRegs : Nat := 12288

/-- The registers of a dense sketch, without the spare byte that follows them in memory. -/
structure Registers where
  bytes : Bytes
  length_bytes : bytes.length = hllDenseRegs
  deriving DecidableEq

def Registers.inMemory (r : Registers) : Bytes := r.bytes ++ [0]

def hllHeader : Bytes := ascii ['H', 'Y', 'L', 'L'] ++ List.replicate 12 0

/-- The header and as many registers as a dense sketch has. -/
def encodeHLL (reg : Bytes) : Bytes :=
  hllHeader ++ (reg.take hllDenseRegs ++ List.replicate (hllDenseRegs - reg.length) 0)

/-- The registers with the spare byte. -/
def decodeHLL (raw : Bytes) : Decoder Bytes :=
  if raw.length ≠ hllHdrSize + hllDenseRegs then .fail .notHLL
  else if raw.take 4 ≠ ascii ['H', 'Y', 'L', 'L'] then .fail .notHLL
  else if raw[4]? ≠ some 0 then .fail .notHLL
  else do
    .alloc (hllDenseRegs + 1)
    pure (raw.drop hllHdrSize ++ [0])

end Gedis.Datastruct
