import Gedis.Core.Runtime

/-!
# Protocol values and their encoding

Values of the serialization protocol. A nil byte slice or element list is `none`. Floating-point
numbers are kept as bit patterns; how finite ones are written and read is a parameter with the
laws that the library documents.
-/

namespace Gedis.Protocol

open Gedis.Core

/-- Floating-point numbers. All not-a-number patterns count as one value. -/
inductive Double where
  | inf
  | negInf
  | nan
  | finite (bits : UInt64)
  deriving DecidableEq, Repr

/-- Protocol values. -/
inductive Value where
  | simpleString (s : Bytes)
  | error (s : Bytes)
  | integer (i : Int64)
  | bulkString (bulk : Option Bytes)
  | array (elems : Option (List Value))
  | null
  | boolean (b : Bool)
  | double (f : Double)
  | bigNumber (s : Bytes)
  | bulkError (bulk : Option Bytes)
  | verbatim (verbatimFmt : Bytes) (bulk : Option Bytes)
  | map (pairs : List (Value × Value))
  | set (elems : Option (List Value))
  | attribute (pairs : List (Value × Value))
  | push (elems : Option (List Value))
  /-- A kind without an encoding. -/
  | hello

/-- A bulk string. -/
def bulkOf (s : Bytes) : Value := .bulkString (some s)

/-- An array. -/
def arrayOf (elems : List Value) : Value := .array (some elems)

/-- An argument of a command as its handler reads it: the text of a bulk string, and nothing for
other values. -/
abbrev Arg := Option Bytes

/-- The text of a bulk string; a nil one is empty. -/
def argString : Value → Arg
  | .bulkString bulk => some (bulk.getD [])
  | _ => none

/-- Writing and reading floating-point numbers: the shortest text that reads back as the same
number, without line breaks, and the three special names. -/
structure FloatText where
  formatFloat : UInt64 → Bytes
  parseFloat : Bytes → Option Double
  parse_format : ∀ bits, parseFloat (formatFloat bits) = some (.finite bits)
  parse_inf : parseFloat (ascii ['i', 'n', 'f']) = some .inf
  parse_negInf : parseFloat (ascii ['-', 'i', 'n', 'f']) = some .negInf
  parse_nan : parseFloat (ascii ['n', 'a', 'n']) = some .nan
  format_line : ∀ bits, ∀ b ∈ formatFloat bits, ¬ b = 10

/-- The text of a floating-point number. -/
def FloatText.formatDouble (fl : FloatText) : Double → Bytes
  | .inf => ascii ['i', 'n', 'f']
  | .negInf => ascii ['-', 'i', 'n', 'f']
  | .nan => ascii ['n', 'a', 'n']
  | .finite bits => fl.formatFloat bits

/-- The end of a line. -/
def crlf : Bytes := [13, 10]

/-- A length or count as it is written. -/
def size (n : Nat) : Bytes := formatInt (Int64.ofNat n)

/-- A type byte and the rest of its line. -/
def line (typ : UInt8) (s : Bytes) : Bytes := typ :: s ++ crlf

/-- A byte string behind its length; nil has length minus one and no body. -/
def sized (typ : UInt8) : Option Bytes → Bytes
  | none => line typ (ascii ['-', '1'])
  | some b => line typ (size b.length) ++ b ++ crlf

mutual

/-- The encoding of a value. -/
def Value.bytes (fl : FloatText) : Value → Bytes
  | .simpleString s => line 43 s
  | .error s => line 45 s
  | .integer i => line 58 (formatInt i)
  | .bulkString bulk => sized 36 bulk
  | .array elems => elemsBytes fl 42 elems
  | .null => line 95 []
  | .boolean b => line 35 [if b then 116 else 102]
  | .double f => line 44 (fl.formatDouble f)
  | .bigNumber s => line 40 s
  | .bulkError bulk => sized 33 bulk
  | .verbatim verbatimFmt bulk => sized 61 (some (verbatimFmt ++ 58 :: bulk.getD []))
  | .map pairs => line 37 (size pairs.length) ++ pairsBytes fl pairs
  | .set elems => elemsBytes fl 126 elems
  | .attribute pairs => line 124 (size pairs.length) ++ pairsBytes fl pairs
  | .push elems => elemsBytes fl 62 elems
  | .hello => line 45 (ascii "ERR unknown kind".toList)

/-- Elements behind their count; nil has count minus one. -/
def elemsBytes (fl : FloatText) (typ : UInt8) : Option (List Value) → Bytes
  | none => line typ (ascii ['-', '1'])
  | some elems => line typ (size elems.length) ++ listBytes fl elems

/-- Encodings one after the other. -/
def listBytes (fl : FloatText) : List Value → Bytes
  | [] => []
  | v :: vs => v.bytes fl ++ listBytes fl vs

/-- Keys and values in turn. -/
def pairsBytes (fl : FloatText) : List (Value × Value) → Bytes
  | [] => []
  | (k, v) :: ps => k.bytes fl ++ v.bytes fl ++ pairsBytes fl ps

end

/-- Append the encoding of a value. -/
def Value.append (fl : FloatText) (v : Value) (dst : Bytes) : Bytes := dst ++ v.bytes fl

end Gedis.Protocol
