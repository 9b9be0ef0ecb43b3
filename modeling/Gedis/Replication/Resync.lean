import Gedis.Commands.UserKeys
import Gedis.Replication.Client

/-!
# Full synchronisation

The master gathers the first record of every user key and sends them as a snapshot; the
replica writes it over what it has. The replica ends up with the master's store exactly
when every raw record outside the snapshot is already the same on both sides.
-/

namespace Gedis.Replication

open Gedis.Core Datastruct Commands List

variable {m : OrdMap Bytes Bytes}

/-- Read the listed raw keys, skipping those that vanished. -/
def readRaws (m : OrdMap Bytes Bytes) (raws : List Bytes) : List RawEntry :=
  raws.filterMap fun raw => m[raw]?.map fun value => ⟨raw, value⟩

/-- The records of a snapshot: the first record of every user key. -/
def gatherRDB (m : OrdMap Bytes Bytes) : List RawEntry :=
  readRaws m ((allUserKeys m).map Prod.snd)

/-- A raw key under which probing finds a user key. -/
def FirstRecord (m : OrdMap Bytes Bytes) (raw : Bytes) : Prop :=
  ∃ name p, probe m name = some p ∧ raw = rawKey p name

/-- Whether a raw key is a first record can be checked by stripping each type prefix. -/
theorem firstRecord_iff {raw : Bytes} : FirstRecord m raw ↔
      ∃ p ∈ typePrefixes, p.bytes <+: raw ∧ probe m (raw.drop p.bytes.length) = some p := by
  constructor
  · rintro ⟨name, p, hp, rfl⟩
    refine ⟨p, mem_typePrefixes, prefix_append _ _, ?_⟩
    rw [rawKey, drop_left]
    exact hp
  · rintro ⟨p, -, ⟨name, rfl⟩, hp⟩
    rw [drop_left] at hp
    exact ⟨name, p, hp, rfl⟩

instance (m : OrdMap Bytes Bytes) (raw : Bytes) : Decidable (FirstRecord m raw) :=
  decidable_of_iff _ firstRecord_iff.symm

theorem mem_readRaws {raws : List Bytes} {e : RawEntry} :
    e ∈ readRaws m raws ↔ e.key ∈ raws ∧ m[e.key]? = some e.value := by
  simp only [readRaws, mem_filterMap, Option.map_eq_some_iff]
  constructor
  · rintro ⟨raw, hraw, value, hv, rfl⟩
    exact ⟨hraw, hv⟩
  · rintro ⟨hraw, hv⟩
    exact ⟨e.key, hraw, e.value, hv, rfl⟩

/-- What probing finds is stored. -/
theorem mem_of_probe {name : Bytes} {p : Prefix} (h : probe m name = some p) :
    rawKey p name ∈ m := by
  simpa using find?_some h

/-- The snapshot covers exactly the first records. -/
theorem mem_gatherRDB {e : RawEntry} :
    e ∈ gatherRDB m ↔ FirstRecord m e.key ∧ m[e.key]? = some e.value := by
  rw [gatherRDB, mem_readRaws]
  refine and_congr_left fun _ => ?_
  rw [mem_map]
  constructor
  · rintro ⟨⟨name, raw⟩, h, he⟩
    obtain ⟨p, hp, hraw⟩ := mem_allUserKeys.mp h
    exact ⟨name, p, hp, he.symm.trans hraw⟩
  · rintro ⟨name, p, hp, hraw⟩
    exact ⟨(name, e.key), mem_allUserKeys.mpr ⟨p, hp, hraw⟩, rfl⟩

/-- A key is outside the snapshot exactly when it is not a first record. -/
theorem untouched_gatherRDB {raw : Bytes} :
    Untouched ((gatherRDB m).map RawEntry.write) raw ↔ ¬ FirstRecord m raw := by
  constructor
  · intro h hfirst
    obtain ⟨name, p, hp, hraw⟩ := hfirst
    have hm := mem_of_probe hp
    rw [← hraw, Std.ExtTreeMap.mem_iff_isSome_getElem?, Option.isSome_iff_exists] at hm
    obtain ⟨value, hv⟩ := hm
    have he : (⟨raw, value⟩ : RawEntry) ∈ gatherRDB m :=
      mem_gatherRDB.mpr ⟨⟨name, p, hp, hraw⟩, hv⟩
    exact h _ (mem_map_of_mem he) rfl
  · intro h w hw he
    obtain ⟨e, hmem, rfl⟩ := mem_map.mp hw
    exact h (he ▸ (mem_gatherRDB.mp hmem).1)

/-- Writing a snapshot over a store brings over the first records and nothing else. -/
theorem getElem?_replay_gatherRDB {m store : OrdMap Bytes Bytes} {raw : Bytes} :
    (replay store ((gatherRDB m).map RawEntry.write))[raw]? =
      if FirstRecord m raw then m[raw]? else store[raw]? := by
  have hcopies : ∀ w ∈ (gatherRDB m).map RawEntry.write, w.value = m[w.key]? := by
    intro w hw
    obtain ⟨e, he, rfl⟩ := mem_map.mp hw
    exact (mem_gatherRDB.mp he).2.symm
  rw [getElem?_replay_of_copies hcopies]
  by_cases hfirst : FirstRecord m raw
  · have hu := mt untouched_gatherRDB.mp (not_not_intro hfirst)
    simp [hu, hfirst]
  · simp [untouched_gatherRDB.mpr hfirst, hfirst]

/-- The snapshot of a store is addressable: lengths are machine words. -/
structure Addressable (m : OrdMap Bytes Bytes) : Prop where
  count : (gatherRDB m).length < 2 ^ 63
  sizes : ∀ e ∈ gatherRDB m, e.Addressable

instance (m : OrdMap Bytes Bytes) : Decidable (Addressable m) :=
  decidable_of_iff ((gatherRDB m).length < 2 ^ 63 ∧ ∀ e ∈ gatherRDB m, e.Addressable)
    ⟨fun h => ⟨h.1, h.2⟩, fun h => ⟨h.count, h.sizes⟩⟩

/-- A snapshot that is applied without failing writes is written over the store that is left
after the keys of earlier rounds are cleared. -/
theorem applyRDB_gatherRDB (h : Addressable m) {c : Client} {dels : List Bool} {sets : List Bool}
    (hsets : ∀ b ∈ sets, b = true) : (c.applyRDB (marshalRDB (gatherRDB m)) dels sets).2 = true ∧
      (c.applyRDB (marshalRDB (gatherRDB m)) dels sets).1.store =
        replay (clearKeys c.keys.keys dels c.store) ((gatherRDB m).map RawEntry.write) := by
  have hparse := unmarshalRDB_marshalRDB h.count h.sizes
  have hok := Client.storeEntries_ok (gatherRDB m) hsets
    { c with store := clearKeys c.keys.keys dels c.store, keys := ∅ }
  simp only [Client.applyRDB, hparse]
  exact ⟨hok, Client.storeEntries_store hok⟩

end Gedis.Replication
