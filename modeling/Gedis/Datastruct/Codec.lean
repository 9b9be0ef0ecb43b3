import Gedis.Core.Bytes

/-!
# Stored entries and raw keys

Every record of the store is an entry `[type][expiry][payload]` under a raw key, which is
the user key behind one of eight type prefixes. The prefixes are prefix-free, so a raw
key determines its type prefix and its user key.
-/

namespace Gedis.Datastruct

open Gedis.Core

def typeString : UInt8 := 0x73
/-- The type tag of a hash, also carried by the field deadlines beside a hash. -/
def typeHash : UInt8 := 0x68
def typeList : UInt8 := 0x6c
def typeSet : UInt8 := 0x74
def typeZSet : UInt8 := 0x7a
/-- The type tag of a cardinality sketch. -/
def typeHLL : UInt8 := 0x48
def typeStream : UInt8 := 0x78
def typeVector : UInt8 := 0x76

/-- A decoded record: type tag, deadline in nanoseconds (zero for none) and payload. -/
structure Entry where
  /-- The type tag, not validated by the decoder. -/
  typ : UInt8
  /-- Unix time in nanoseconds, zero when the record does not expire. -/
  expiry : Int64
  /-- The type's own encoding of the value. -/
  payload : Bytes
  deriving DecidableEq, Repr

/-- `[type][8 bytes of big-endian expiry][payload]`. -/
def encode (typ : UInt8) (expiry : Int64) (payload : Bytes) : Bytes :=
  typ :: (beBytes 8 expiry.toUInt64.toNat ++ payload)

/-- A record shorter than the nine header bytes is refused; the tag is returned as is. -/
def decode : Bytes → Option Entry
  | [] => none
  | typ :: rest =>
    if rest.length < 8 then none
    else some {
      typ
      expiry := (UInt64.ofNat (beNat (rest.take 8))).toInt64
      payload := rest.drop 8 }

/-- Decoding inverts encoding for every tag, deadline and payload. -/
@[simp] theorem decode_encode (typ : UInt8) (expiry : Int64) (payload : Bytes) :
    decode (encode typ expiry payload) = some ⟨typ, expiry, payload⟩ := by
  have hlt : expiry.toUInt64.toNat < 256 ^ 8 := expiry.toUInt64.toNat_lt
  have hlen : ¬ (beBytes 8 expiry.toUInt64.toNat ++ payload).length < 8 := by simp
  simp [decode, encode, hlen, ite_false, List.take_left' length_beBytes, List.drop_left' length_beBytes, beNat_beBytes, Nat.mod_eq_of_lt hlt, UInt64.ofNat_toNat, Int64.toInt64_toUInt64]

/-- The eight type prefixes of raw keys. -/
inductive Prefix where
  | s | h | l | st | z | hll | x | vs
  deriving DecidableEq, Repr

/-- The text of a type prefix. -/
def Prefix.bytes : Prefix → Bytes
  | .s => ascii ['s', ':']
  | .h => ascii ['h', ':']
  | .l => ascii ['l', ':']
  | .st => ascii ['s', 't', ':']
  | .z => ascii ['z', ':']
  | .hll => ascii ['h', 'l', 'l', ':']
  | .x => ascii ['x', ':']
  | .vs => ascii ['v', 's', ':']

/-- The raw key of a user key under a type prefix. -/
def rawKey (p : Prefix) (key : Bytes) : Bytes := p.bytes ++ key

/-- A raw key determines its type prefix and its user key. -/
theorem rawKey_inj {p q : Prefix} {key key' : Bytes} :
    rawKey p key = rawKey q key' ↔ p = q ∧ key = key' := by
  constructor
  · intro h
    cases p <;> cases q <;> simp_all [rawKey, Prefix.bytes, ascii]
  · rintro ⟨rfl, rfl⟩
    rfl

theorem rawKey_ne {p q : Prefix} (h : p ≠ q) {key key' : Bytes} : rawKey p key ≠ rawKey q key' :=
  fun he => h (rawKey_inj.mp he).1

def stringKey (key : Bytes) : Bytes := rawKey .s key
def hashKey (key : Bytes) : Bytes := rawKey .h key
/-- The raw key of a hash's field deadlines. -/
def hashExpKey (key : Bytes) : Bytes := rawKey .x key
def listKey (key : Bytes) : Bytes := rawKey .l key
def setKey (key : Bytes) : Bytes := rawKey .st key
def zsetKey (key : Bytes) : Bytes := rawKey .z key
/-- The raw key of a cardinality sketch. -/
def hllKey (key : Bytes) : Bytes := rawKey .hll key
def streamKey (key : Bytes) : Bytes := rawKey .x key
def vectorKey (key : Bytes) : Bytes := rawKey .vs key

end Gedis.Datastruct
