import Gedis.Core.Bytes

/-!
# The snapshot format

A snapshot is a count followed by that many length-prefixed pairs of a raw key and its
encoded entry. Parsing inverts writing for every snapshot whose lengths are addressable.
-/

namespace Gedis.Replication

open Gedis.Core

/-- One record of a snapshot. -/
structure RawEntry where
  key : Bytes
  value : Bytes
  deriving DecidableEq, Repr

/-- The encoding of one record. -/
def RawEntry.bytes (e : RawEntry) : Bytes := prefixed e.key ++ prefixed e.value

/-- `[count]` followed by `[key length][key][value length][value]` for each record. -/
def marshalRDB (entries : List RawEntry) : Bytes :=
  appendUvarint entries.length ++ entries.flatMap RawEntry.bytes

/-- Read a number of records from the input. -/
def readEntries : Nat → Bytes → Option (List RawEntry)
  | 0, _ => some []
  | n + 1, bs =>
    match splitPrefixed bs with
    | none => none
    | some (key, bs) =>
      match splitPrefixed bs with
      | none => none
      | some (value, bs) => (readEntries n bs).map (⟨key, value⟩ :: ·)

/-- Parse a snapshot; input behind the announced number of records is ignored. -/
def unmarshalRDB (bs : Bytes) : Option (List RawEntry) :=
  match uvarint bs with
  | none => none
  | some (n, adv) => readEntries n (bs.drop adv)

/-- A record whose lengths fit a machine word. -/
def RawEntry.Addressable (e : RawEntry) : Prop :=
  e.key.length < 2 ^ 63 ∧ e.value.length < 2 ^ 63

instance (e : RawEntry) : Decidable e.Addressable := inferInstanceAs (Decidable (_ ∧ _))

theorem readEntries_bytes {entries : List RawEntry} (h : ∀ e ∈ entries, e.Addressable) :
    readEntries entries.length (entries.flatMap RawEntry.bytes) = some entries := by
  induction entries with
  | nil => rfl
  | cons e entries ih =>
    obtain ⟨hk, hv⟩ := h e (List.mem_cons_self ..)
    have hrest := ih fun e he => h e (List.mem_cons_of_mem _ he)
    simp [List.length_cons, List.flatMap_cons, readEntries, RawEntry.bytes, List.append_assoc, splitPrefixed_prefixed (Nat.lt_trans hk (by decide)), splitPrefixed_prefixed (Nat.lt_trans hv (by decide)), hrest, Option.map_some]

/-- Parsing recovers every addressable snapshot. -/
theorem unmarshalRDB_marshalRDB {entries : List RawEntry} (hlen : entries.length < 2 ^ 63)
    (h : ∀ e ∈ entries, e.Addressable) : unmarshalRDB (marshalRDB entries) = some entries := by
  have hcount := uvarint_appendUvarint (Nat.lt_trans hlen (by decide : 2 ^ 63 < 2 ^ 64))
    (entries.flatMap RawEntry.bytes)
  simp only [unmarshalRDB, marshalRDB, hcount, List.drop_left]
  exact readEntries_bytes h

end Gedis.Replication
