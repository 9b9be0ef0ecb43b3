import Gedis.Protocol.Value

/-!
# Decoding protocol values

The reader is the list of bytes that are still to come, up to the end of the stream. A decoding
step returns what it read and the rest, or stops with an error, or panics where the source
allocates a slice whose size the client chose.
-/

namespace Gedis.Protocol

open Gedis.Core

/-- Errors of the decoder. -/
inductive DecodeError where
  /-- The stream ended before a type byte. -/
  | readType
  /-- The stream ended inside a line. -/
  | readLine
  | lineMissingCRLF
  | badInteger (s : Bytes)
  | badDouble (s : Bytes)
  | readBoolean
  | badBoolean (b : UInt8)
  | readCRLF
  | expectedCRLF
  | bulkLength (n : Int64)
  | arrayLength (n : Int64)
  | sizedLength (n : Int64)
  | setLength (n : Int64)
  | pushLength (n : Int64)
  | mapLength (n : Int64)
  /-- The stream ended inside a body. -/
  | readPayload
  | bulkMissingCRLF
  | sizedMissingCRLF
  | verbatimMissingFormat
  | unsupportedType (b : UInt8)
  deriving DecidableEq, Repr

/-- Why decoding stops without a value. -/
inductive Stop where
  | failed (e : DecodeError)
  | panicked (p : Panic)
  /-- The bound on nested values is used up. -/
  | tooDeep
  deriving DecidableEq, Repr

/-- A decoding step: what was read and the rest of the stream. -/
abbrev Step (α : Type) := Bytes → Except Stop (α × Bytes)

/-- Split behind the first line feed; the line keeps it. -/
def splitLine : Bytes → Option (Bytes × Bytes)
  | [] => none
  | b :: bs =>
    if b = 10 then some ([b], bs)
    else
      match splitLine bs with
      | none => none
      | some (l, rest) => some (b :: l, rest)

/-- The next line without its end. -/
def readLine : Step Bytes := fun r =>
  match splitLine r with
  | none => .error (.failed .readLine)
  | some (l, rest) =>
    if l.length < 2 ∨ l[l.length - 2]? ≠ some 13 then .error (.failed .lineMissingCRLF)
    else .ok (l.take (l.length - 2), rest)

/-- A line that holds a decimal integer. -/
def readInt : Step Int64 := fun r => do
  let (s, r) ← readLine r
  match parseInt s with
  | none => .error (.failed (.badInteger s))
  | some n => .ok (n, r)

def expectCRLF : Step Unit := fun r =>
  match r with
  | b1 :: b2 :: rest =>
    if b1 ≠ 13 ∨ b2 ≠ 10 then .error (.failed .expectedCRLF) else .ok ((), rest)
  | _ => .error (.failed .readCRLF)

/-- Fill a buffer of `n` bytes. -/
def readFull (n : Nat) : Step Bytes := fun r =>
  if r.length < n then .error (.failed .readPayload) else .ok (r.take n, r.drop n)

/-- Allocate a slice: the length is negative or the size exceeds what can be allocated. -/
def makeSlice (limit width : Nat) (n : Int64) : Except Stop Unit :=
  if n < 0 ∨ limit < n.toInt.toNat * width then .error (.panicked .makeSlice) else .ok ()

/-- A body of `n` bytes and the end of its line. The buffer has length `n + 2`, computed in 64
bits. -/
def readBody (limit : Nat) (missing : DecodeError) (n : Int64) : Step Bytes := fun r => do
  makeSlice limit 1 (n + 2)
  let (buf, r) ← readFull (n + 2).toInt.toNat r
  if buf.drop n.toInt.toNat ≠ crlf then .error (.failed missing)
  else .ok (buf.take n.toInt.toNat, r)

def decodeBulk (limit : Nat) : Step Value := fun r => do
  let (n, r) ← readInt r
  if n = -1 then .ok (.bulkString none, r)
  else if n < -1 then .error (.failed (.bulkLength n))
  else
    let (b, r) ← readBody limit .bulkMissingCRLF n r
    .ok (.bulkString (some b), r)

def decodeSized (limit : Nat) : Step Bytes := fun r => do
  let (n, r) ← readInt r
  if n < 0 then .error (.failed (.sizedLength n))
  else readBody limit .sizedMissingCRLF n r

/-- What stands before the first colon and what stands behind it. -/
def cutColon : Bytes → Option (Bytes × Bytes)
  | [] => none
  | b :: bs =>
    if b = 58 then some ([], bs)
    else
      match cutColon bs with
      | none => none
      | some (fmt, rest) => some (b :: fmt, rest)

def decodeVerbatim (limit : Nat) : Step Value := fun r => do
  let (b, r) ← decodeSized limit r
  match cutColon b with
  | none => .error (.failed .verbatimMissingFormat)
  | some (fmt, rest) => .ok (.verbatim fmt (some rest), r)

/-- Sizes of a value and of a pair of values in memory, in bytes. -/
def valueWidth : Nat := 136

def pairWidth : Nat := 272

/-- Decode the given number of elements. -/
def decodeElems (next : Step Value) : Nat → Step (List Value)
  | 0, r => .ok ([], r)
  | n + 1, r => do
    let (v, r) ← next r
    let (vs, r) ← decodeElems next n r
    .ok (v :: vs, r)

/-- Decode the given number of pairs. -/
def decodePairs (next : Step Value) : Nat → Step (List (Value × Value))
  | 0, r => .ok ([], r)
  | n + 1, r => do
    let (k, r) ← next r
    let (v, r) ← next r
    let (ps, r) ← decodePairs next n r
    .ok ((k, v) :: ps, r)

def decodeArray (limit : Nat) (next : Step Value) : Step Value := fun r => do
  let (n, r) ← readInt r
  if n = -1 then .ok (.array none, r)
  else if n < -1 then .error (.failed (.arrayLength n))
  else
    makeSlice limit valueWidth n
    let (vs, r) ← decodeElems next n.toInt.toNat r
    .ok (.array (some vs), r)

/-- The elements of a set or a push, which have no nil form. -/
def decodeN (limit : Nat) (next : Step Value) (invalid : Int64 → DecodeError) :
    Step (List Value) := fun r => do
  let (n, r) ← readInt r
  if n < 0 then .error (.failed (invalid n))
  else
    makeSlice limit valueWidth n
    decodeElems next n.toInt.toNat r

/-- The pairs of a map or an attribute. -/
def decodeMapAs (limit : Nat) (next : Step Value) : Step (List (Value × Value)) := fun r => do
  let (n, r) ← readInt r
  if n < 0 then .error (.failed (.mapLength n))
  else
    makeSlice limit pairWidth n
    decodePairs next n.toInt.toNat r

/-- How many bytes the white space at the front takes, zero when there is none. -/
def spaceWidth : Bytes → Nat
  | 0xC2 :: b :: _ => if b = 0x85 ∨ b = 0xA0 then 2 else 0
  | 0xE1 :: 0x9A :: 0x80 :: _ => 3
  | 0xE2 :: 0x80 :: b :: _ =>
    if (0x80 ≤ b ∧ b ≤ 0x8A) ∨ b = 0xA8 ∨ b = 0xA9 ∨ b = 0xAF then 3 else 0
  | 0xE2 :: 0x81 :: 0x9F :: _ => 3
  | 0xE3 :: 0x80 :: 0x80 :: _ => 3
  | b :: _ => if (9 ≤ b ∧ b ≤ 13) ∨ b = 32 then 1 else 0
  | [] => 0

/-- Cut a text at white space. `skip` bytes of the current space are still to be passed over,
`word` is the word that is being read. -/
def fieldsFrom (skip : Nat) (word : Bytes) : Bytes → List Bytes
  | [] => if word = [] then [] else [word]
  | b :: bs =>
    match skip with
    | skip + 1 => fieldsFrom skip word bs
    | 0 =>
      match spaceWidth (b :: bs) with
      | 0 => fieldsFrom 0 (word ++ [b]) bs
      | width + 1 =>
        if word = [] then fieldsFrom width [] bs else word :: fieldsFrom width [] bs

/-- The words of a text. -/
def fields (s : Bytes) : List Bytes := fieldsFrom 0 [] s

/-- A line of words as an array of bulk strings. -/
def decodeInline : Step Value := fun r => do
  let (l, r) ← readLine r
  .ok (arrayOf ((fields l).map bulkOf), r)

def isTypeByte (b : UInt8) : Bool :=
  b ∈ [43, 45, 58, 36, 42, 95, 35, 44, 40, 33, 61, 37, 126, 124, 62]

/-- Decode what stands behind a type byte. -/
def decodeTyped (fl : FloatText) (limit : Nat) (next : Step Value) (typ : UInt8) :
    Step Value := fun r =>
  match typ with
  | 43 => do
    let (s, r) ← readLine r
    .ok (.simpleString s, r)
  | 45 => do
    let (s, r) ← readLine r
    .ok (.error s, r)
  | 58 => do
    let (n, r) ← readInt r
    .ok (.integer n, r)
  | 36 => decodeBulk limit r
  | 42 => decodeArray limit next r
  | 95 => do
    let ((), r) ← expectCRLF r
    .ok (.null, r)
  | 35 =>
    match r with
    | [] => .error (.failed .readBoolean)
    | b :: r => do
      let ((), r) ← expectCRLF r
      match b with
      | 116 => .ok (.boolean true, r)
      | 102 => .ok (.boolean false, r)
      | b => .error (.failed (.badBoolean b))
  | 44 => do
    let (s, r) ← readLine r
    match fl.parseFloat s with
    | none => .error (.failed (.badDouble s))
    | some f => .ok (.double f, r)
  | 40 => do
    let (s, r) ← readLine r
    .ok (.bigNumber s, r)
  | 33 => do
    let (b, r) ← decodeSized limit r
    .ok (.bulkError (some b), r)
  | 61 => decodeVerbatim limit r
  | 37 => do
    let (pairs, r) ← decodeMapAs limit next r
    .ok (.map pairs, r)
  | 126 => do
    let (vs, r) ← decodeN limit next .setLength r
    .ok (.set (some vs), r)
  | 124 => do
    let (pairs, r) ← decodeMapAs limit next r
    .ok (.attribute pairs, r)
  | 62 => do
    let (vs, r) ← decodeN limit next .pushLength r
    .ok (.push (some vs), r)
  | typ => .error (.failed (.unsupportedType typ))

/-- Decode one value; values nest at most `depth` deep. -/
def decodeWithin (fl : FloatText) (limit : Nat) : Nat → Step Value
  | 0 => fun _ => .error .tooDeep
  | depth + 1 => fun r =>
    match r with
    | [] => .error (.failed .readType)
    | b :: rest =>
      if isTypeByte b then decodeTyped fl limit (decodeWithin fl limit depth) b rest
      else decodeInline r

/-- Decode one value. A nested value takes at least one byte, so the length of the stream bounds
the depth. -/
def decode (fl : FloatText) (limit : Nat) : Step Value := fun r =>
  decodeWithin fl limit (r.length + 1) r

end Gedis.Protocol
