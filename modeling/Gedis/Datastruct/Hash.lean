import Gedis.Core.OrdMap
import Gedis.Datastruct.Codec

/-!
# Hash payloads

A hash is a map from fields to values. Its payload is an encoding tag, the number of
fields and the length-prefixed pairs in field order. The same format holds the deadlines
beside a hash. A payload that fits in memory is read back as the map it was made from.
-/

namespace Gedis.Datastruct

open Gedis.Core List

/-- The fields of a hash and their values. -/
abbrev Fields := OrdMap Bytes Bytes

def encodingListpack : UInt8 := 0
def encodingHashtable : UInt8 := 1
def hashMaxListpackEntries : Nat := 128
def hashMaxListpackValue : Nat := 64

/-- Many fields, or a long field or value, select the second encoding tag. -/
def hashEncoding (m : Fields) : UInt8 :=
  if hashMaxListpackEntries < m.size then encodingHashtable
  else if m.toList.any fun e =>
      hashMaxListpackValue < e.1.length || hashMaxListpackValue < e.2.length then
    encodingHashtable
  else encodingListpack

/-- One field with its value. -/
def encodePair (e : Bytes × Bytes) : Bytes := prefixed e.1 ++ prefixed e.2

/-- `[encoding][count][pairs in field order]`. -/
def encodeHash (m : Fields) : Bytes :=
  hashEncoding m :: (appendUvarint m.size ++ m.toList.flatMap encodePair)

/-- What is wrong with a hash payload. -/
inductive HashError where
  | truncatedPayload
  | badCount
  | truncatedField (i : Nat)
  | truncatedValue (i : Nat)
  deriving DecidableEq, Repr

def HashError.message : HashError → String
  | .truncatedPayload => "datastruct: truncated hash payload"
  | .badCount => "datastruct: bad hash count"
  | .truncatedField i => s!"datastruct: truncated hash field {i}"
  | .truncatedValue i => s!"datastruct: truncated hash value {i}"

/-- Read pairs from the `i`-th on into a map; a repeated field keeps its last value. -/
def readPairs (i : Nat) : Nat → Bytes → Fields → Except HashError Fields
  | 0, _, m => .ok m
  | n + 1, rest, m =>
    match splitPrefixed rest with
    | none => .error (.truncatedField i)
    | some (f, rest) =>
      match splitPrefixed rest with
      | none => .error (.truncatedValue i)
      | some (v, rest) => readPairs (i + 1) n rest (m.insert f v)

/-- The map and the encoding tag of a payload; input behind the pairs is ignored. -/
def decodeHash : Bytes → Except HashError (Fields × UInt8)
  | [] => .error .truncatedPayload
  | enc :: rest =>
    match uvarint rest with
    | none => .error .badCount
    | some (n, adv) =>
      match readPairs 0 n (rest.drop adv) ∅ with
      | .error e => .error e
      | .ok m => .ok (m, enc)

private theorem readPairs_flatMap (pairs : List (Bytes × Bytes))
    (hfit : ∀ e ∈ pairs, e.1.length < 2 ^ 64 ∧ e.2.length < 2 ^ 64) :
    ∀ (i : Nat) (m : Fields), readPairs i pairs.length (pairs.flatMap encodePair) m =
      .ok (pairs.foldl (fun m e => m.insert e.1 e.2) m) := by
  induction pairs with
  | nil => intro i m; rfl
  | cons e pairs ih =>
    intro i m
    obtain ⟨hf, hv⟩ := hfit e (mem_cons_self ..)
    have ih := ih fun e' he' => hfit e' (mem_cons_of_mem _ he')
    simp only [length_cons, flatMap_cons, encodePair, append_assoc, readPairs,
      splitPrefixed_prefixed hf, splitPrefixed_prefixed hv, foldl_cons]
    exact ih (i + 1) _

theorem appendUvarint_ne_nil {n : Nat} : appendUvarint n ≠ [] := by
  rw [appendUvarint, uvarintDigits]
  split <;> exact cons_ne_nil _ _

private theorem length_le_encodePair (e : Bytes × Bytes) :
    e.1.length + e.2.length + 1 ≤ (encodePair e).length := by
  have hpos := length_pos_iff.mpr (appendUvarint_ne_nil (n := e.1.length))
  simp only [encodePair, prefixed, length_append]
  omega

private theorem length_le_encodeHash {m : Fields} {e : Bytes × Bytes} (h : e ∈ m.toList) :
    e.1.length + e.2.length ≤ (encodeHash m).length := by
  have hpair := length_le_encodePair e
  have hsub : (encodePair e).Sublist (m.toList.flatMap encodePair) := by
    exact sublist_flatten_of_mem (mem_map_of_mem h)
  have hle := hsub.length_le
  simp only [encodeHash, length_cons, length_append]
  omega

theorem encodePair_ne_nil (e : Bytes × Bytes) : encodePair e ≠ [] := by
  have hpair := length_le_encodePair e
  exact length_pos_iff.mp (by omega)

theorem length_le_flatMap {γ : Type} {f : γ → Bytes} (hf : ∀ x, f x ≠ []) (items : List γ) :
    items.length ≤ (items.flatMap f).length := by
  induction items with
  | nil => exact Nat.le_refl _
  | cons x =>
    have hx := length_pos_iff.mpr (hf x)
    rw [flatMap_cons, length_append, length_cons]
    omega

private theorem size_le_encodeHash (m : Fields) : m.size ≤ (encodeHash m).length := by
  have hsum := length_le_flatMap encodePair_ne_nil m.toList
  rw [Std.ExtTreeMap.length_toList] at hsum
  simp only [encodeHash, length_cons, length_append]
  omega

/-- A payload that fits in memory is read back. -/
theorem decodeHash_encodeHash {m : Fields} (h : (encodeHash m).length < 2 ^ 64) :
    decodeHash (encodeHash m) = .ok (m, hashEncoding m) := by
  have hsize : m.size < 2 ^ 64 := Nat.lt_of_le_of_lt (size_le_encodeHash m) h
  have hfit : ∀ e ∈ m.toList, e.1.length < 2 ^ 64 ∧ e.2.length < 2 ^ 64 := by
    intro e he
    have hle := length_le_encodeHash he
    omega
  have hpairs := readPairs_flatMap m.toList hfit 0 ∅
  rw [Std.ExtTreeMap.length_toList, OrdMap.foldl_insert_toList] at hpairs
  simp [encodeHash, decodeHash, uvarint_appendUvarint hsize, drop_left, hpairs]

end Gedis.Datastruct
