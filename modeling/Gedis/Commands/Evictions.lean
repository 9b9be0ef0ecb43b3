import Gedis.Commands.Effects

/-!
# Evictions and field deadlines

The storage layer evicts single records, so an eviction can take a hash away from beside its
field deadlines. It does not as long as no victim is the hash of field deadlines that are
stored or are about to be written. This is judged in the state before each eviction.
-/

namespace Gedis.Commands

open Gedis.Core Datastruct Storage Std

/-- A record may be evicted: it is not a hash whose field deadlines are stored or are among the
keys about to be written. -/
def Evictable (written : List Bytes) (m : OrdMap Bytes Bytes) (raw : Bytes) : Prop :=
  ∀ key, raw = hashKey key → hashExpKey key ∉ m ∧ hashExpKey key ∉ written

theorem evictable_iff {written : List Bytes} {m : OrdMap Bytes Bytes} {raw : Bytes} :
    Evictable written m raw ↔
      (Prefix.h.bytes.isPrefixOf raw = true →
        hashExpKey (raw.drop Prefix.h.bytes.length) ∉ m ∧
          ∀ w ∈ written, ¬ w = hashExpKey (raw.drop Prefix.h.bytes.length)) := by
  rw [List.isPrefixOf_iff_prefix, List.forall_mem_ne']
  constructor
  · rintro h ⟨key, rfl⟩
    exact h key rfl
  · rintro h key rfl
    have hkey := h (List.prefix_append ..)
    rwa [hashKey, rawKey] at hkey

instance (written : List Bytes) (m : OrdMap Bytes Bytes) (raw : Bytes) :
    Decidable (Evictable written m raw) :=
  decidable_of_iff _ evictable_iff.symm

/-- What a request must find: its evictions only take what may be evicted, a write of field
deadlines is not refused for lack of room, and the value has a representable length. -/
def Undivided (s : Pebble) : Request → Prop
  | .set key value =>
    value.length < 2 ^ 64 ∧
      s.EvictsOnly (Evictable [key]) (s.deltaFor key (key.length + value.length)) ∧
      (sidecarWrite key value = true → (s.makeRoom key value).2 = .ok)
  | .writeBatch ops =>
    ops ≠ [] → s.EvictsOnly (Evictable (ops.map BatchOp.key)) (s.batchDelta ops.reverse []) ∧
      ((s.reserve ops).2 = .ok → ((s.reserve ops).1.commit ops).EvictsOnly (Evictable []) 0)
  | _ => True

instance (s : Pebble) : (q : Request) → Decidable (Undivided s q)
  | .set .. => inferInstanceAs (Decidable (_ ∧ _))
  | .writeBatch _ => inferInstanceAs (Decidable (_ → _))
  | .get _ | .delete _ | .scan _ | .now => .isTrue trivial

variable {S : Prop} {s : Pebble} {delta : Int} {written : List Bytes}

/-- Removing what may be evicted leaves the hash of field deadlines that stay or come. -/
theorem Evictable.mem_erase {m : OrdMap Bytes Bytes} {raw key : Bytes}
    (h : Evictable written m raw) (hx : hashExpKey key ∈ m ∨ hashExpKey key ∈ written)
    (hk : hashKey key ∈ m) : hashKey key ∈ m.erase raw := by
  refine ExtTreeMap.mem_erase.mpr ⟨fun he => ?_, hk⟩
  obtain ⟨hm, hw⟩ := h key (LawfulEqOrd.compare_eq_iff_eq.mp he)
  exact hx.elim hm hw

/-- Making room leaves the hash of field deadlines that stay or are about to be written. -/
theorem mem_evictForDelta (h : s.EvictsOnly (Evictable written) delta) {key : Bytes}
    (hx : hashExpKey key ∈ (s.evictForDelta delta).1.db ∨ hashExpKey key ∈ written)
    (hk : hashKey key ∈ s.db) : hashKey key ∈ (s.evictForDelta delta).1.db := by
  refine h.induction (I := fun s' => hashExpKey key ∈ s'.db ∨ hashExpKey key ∈ written →
    hashKey key ∈ s'.db) (fun _ _ hi => hi) (fun s' raw _ hraw hi hx => ?_) (fun _ => hk) hx
  have hdb : (s'.evictKey raw).db = s'.db.erase raw := Pebble.deleteInternal_db
  rw [hdb] at hx ⊢
  have hx : hashExpKey key ∈ s'.db ∨ hashExpKey key ∈ written :=
    hx.imp_left (shrinks_erase raw).mem
  exact hraw.mem_erase hx (hi hx)

theorem loses_evictForDelta (h : S → s.EvictsOnly (Evictable written) delta) :
    Loses S s.db (s.evictForDelta delta).1.db :=
  ⟨s.shrinks_evictForDelta, fun hS _ hx hk => mem_evictForDelta (h hS) (.inl hx) hk⟩

/-- The same after writes to the keys that were taken into account. -/
theorem loses_replay_evictForDelta (ws : List (Write Bytes Bytes))
    (h : S → s.EvictsOnly (Evictable (ws.map Write.key)) delta) :
    Loses S (replay s.db ws) (replay (s.evictForDelta delta).1.db ws) := by
  refine ⟨s.shrinks_evictForDelta.replay, fun hS key hx hk => ?_⟩
  by_cases hu : Untouched ws (hashKey key)
  · rw [mem_replay_of_untouched hu] at hk ⊢
    refine mem_evictForDelta (h hS) ?_ hk
    by_cases hux : Untouched ws (hashExpKey key)
    · exact .inl ((mem_replay_of_untouched hux).mp hx)
    · right
      by_contra hw
      exact hux fun w hw' he => hw (List.mem_map.mpr ⟨w, hw', he⟩)
  · -- the writes themselves decide whether the hash is there
    rw [ExtTreeMap.mem_iff_isSome_getElem?] at hk ⊢
    rwa [getElem?_replay_of_touched hu _ s.db]

theorem drops_of_undivided {q : Request} (h : S → Undivided s q) : s.Drops (Loses S) q := by
  cases q with
  | set key value =>
    have honly := fun hS => (h hS).2.1
    exact ⟨loses_evictForDelta honly, loses_replay_evictForDelta [⟨key, some value⟩] honly⟩
  | writeBatch ops =>
    intro hne
    have honly := fun hS => (h hS hne).1
    refine ⟨loses_evictForDelta honly, fun hok => ?_⟩
    have hkeys : (ops.map BatchOp.write).map Write.key = ops.map BatchOp.key := by
      rw [List.map_map]
      rfl
    rw [← hkeys] at honly
    refine (loses_replay_evictForDelta (ops.map BatchOp.write) honly).trans ?_
    rw [← Pebble.commit_db]
    exact loses_evictForDelta fun hS => (h hS hne).2 hok
  | get => trivial
  | delete => trivial
  | scan => trivial
  | now => trivial

theorem granted_of_undivided {q : Request} {now : Int64} (h : Undivided s q) :
    Granted q (s.answer now q).2 := by
  cases q with
  | set key value =>
    refine ⟨h.1, fun hx => ?_⟩
    rcases s.set_cases key value with ⟨hoom, -⟩ | ⟨-, he⟩
    · rw [h.2.2 hx] at hoom
      cases hoom
    · simp [Pebble.answer, he]
  | writeBatch => trivial
  | get => trivial
  | delete => trivial
  | scan => trivial
  | now => trivial

/-- One eviction of what may be evicted does not separate them either. -/
theorem loses_evictOne (h : S → ∀ raw ∈ s.nextVictim, Evictable [] s.db raw) :
    Loses S s.db s.evictOne.1.db := by
  rcases s.evictOne_cases with ⟨raw, hraw, he⟩ | ⟨-, he⟩
  · have hdb : s.evictOne.1.db = s.db.erase raw := by
      rw [he]
      exact Pebble.deleteInternal_db
    rw [hdb]
    refine ⟨shrinks_erase raw, fun hS key hx hk => ?_⟩
    exact (h hS raw hraw).mem_erase (.inl ((shrinks_erase raw).mem hx)) hk
  · rw [he]
    exact Loses.refl _

end Gedis.Commands
