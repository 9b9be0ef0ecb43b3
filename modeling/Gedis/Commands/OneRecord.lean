import Gedis.Commands.Dispatch

/-!
# One record per user key

A user key has at most one live record among the eight type prefixes, not counting the field
deadlines beside a hash. This holds along every run in which the commands that write or replace
without looking at the destination find nothing there that they would leave behind.
-/

namespace Gedis.Commands

open Gedis.Core Datastruct Replication Storage

/-- A raw key holds a record that has not expired; one that cannot be decoded counts as well. -/
def live (m : OrdMap Bytes Bytes) (now : Int64) (raw : Bytes) : Bool :=
  m[raw]?.any fun v => (decode v).all fun e => !expired e now

/-- A live record of a user key, other than field deadlines beside a hash. -/
def Counted (m : OrdMap Bytes Bytes) (now : Int64) (key : Bytes) (p : Prefix) : Prop :=
  live m now (rawKey p key) = true ∧ ¬ (p = .x ∧ hasSidecar m key = true ∧ hashKey key ∈ m)

instance (m : OrdMap Bytes Bytes) (now : Int64) (key : Bytes) (p : Prefix) :
    Decidable (Counted m now key p) := inferInstanceAs (Decidable (_ ∧ _))

/-- At any time, every user key has at most one live record. -/
def OneRecord (m : OrdMap Bytes Bytes) : Prop :=
  ∀ now key p p', Counted m now key p → Counted m now key p' → p = p'

instance {P : Prefix → Prop} [DecidablePred P] : Decidable (∀ p, P p) :=
  decidable_of_iff (∀ p ∈ typePrefixes, P p) ⟨fun h p => h p mem_typePrefixes, fun h p _ => h p⟩

instance (m : OrdMap Bytes Bytes) (kind : Kind) (key : Bytes) : Decidable (Clear m kind key) :=
  inferInstanceAs (Decidable (∀ p, rawKey p key ∈ m → p = kind.pre))

instance (m : OrdMap Bytes Bytes) (key : Bytes) : Decidable (Replaceable m key) :=
  inferInstanceAs (Decidable (∀ p, ∀ e ∈ entryAt m (rawKey p key), prefixForType e.typ ≠ none))

instance (m : OrdMap Bytes Bytes) (c : DataCommand) : Decidable (c.Guarded m) := by
  cases c <;> unfold DataCommand.Guarded <;> infer_instance

instance (s : Pebble) (e : Event) : Decidable (e.Guarded s) := by
  cases e <;> unfold Event.Guarded <;> infer_instance

variable {S : Prop} {m : OrdMap Bytes Bytes}

/-- A counted record is an entry. -/
theorem Inv.entry_of_counted (h : Inv S m) {now : Int64} {key : Bytes} {p : Prefix}
    (hc : Counted m now key p) : ∃ e, entryAt m (rawKey p key) = some e := by
  obtain ⟨v, hv, -⟩ := (Option.any_eq_true ..).mp hc.1
  obtain ⟨t, ht⟩ := (h key).ofType
  obtain ⟨e, hd, -⟩ := ht p v hv
  exact ⟨e, entryAt_eq_some.mpr ⟨v, hv, hd⟩⟩

/-- Of the two records of a hash only the hash itself is counted. -/
theorem Inv.eq_hash (h : Inv S m) {now : Int64} {key : Bytes} {p : Prefix} {eh e : Entry}
    (hh : entryAt m (hashKey key) = some eh) (he : entryAt m (rawKey p key) = some e)
    (hc : Counted m now key p) : p = .h := by
  obtain ⟨hof, hfit⟩ := h.ofType he
  have htyp : e.typ = typeHash := (hof.entry hh).1.symm.trans (h.ofType hh).2
  rw [htyp] at hfit
  rcases fits_typeHash hfit with rfl | rfl
  · rfl
  · obtain ⟨v, hv, -⟩ := entryAt_eq_some.mp hh
    have hmem : hashKey key ∈ m := (Std.ExtTreeMap.getElem?_eq_some_iff.mp hv).1
    exact absurd ⟨rfl, hasSidecar_of_entry he htyp, hmem⟩ hc.2

theorem Inv.oneRecord (h : Inv S m) : OneRecord m := by
  intro now key p p' hp hp'
  obtain ⟨e, he⟩ := h.entry_of_counted hp
  obtain ⟨e', he'⟩ := h.entry_of_counted hp'
  obtain ⟨hof, hfit⟩ := h.ofType he
  obtain ⟨htyp, hfit'⟩ := hof.entry he'
  by_cases ht : e.typ = typeHash
  · -- the records of a hash: the hash itself, or field deadlines that are alone
    rw [ht] at hfit hfit'
    rcases fits_typeHash hfit with rfl | rfl
    · exact (h.eq_hash he he' hp').symm
    · rcases fits_typeHash hfit' with rfl | rfl
      · exact h.eq_hash he' he hp
      · rfl
  · exact fits_unique hfit hfit' ht

/-- From the empty store on, in every run whose steps are guarded, every user key has at most
one live record. -/
theorem run_oneRecord {s : Pebble} (hs : s.db = ∅) {events : List Event}
    (h : Along step (fun s e => e.Guarded s) s events) : OneRecord (run step s events).db := by
  have hinv : Inv False (run step s events).db := by
    refine run_induction (I := fun s => Inv False s.db) (fun s e hi hg => ?_) ?_ h
    · exact step_keeps hi hg False.elim
    · rw [hs]
      exact Inv.empty
  exact hinv.oneRecord

/-- A freshly opened empty store without a memory limit. -/
def emptyStore : Pebble := Pebble.opened ∅ 0 .allkeysLru (newHub 0) []

/-- `HSET k f v`, then `SETEX j 100 v`. -/
def hashThenString : List Event :=
  [.dispatch (.hset [107] [([102], [118])]) fun _ => 1,
    .dispatch (.setex [106] 100 [118]) fun _ => 1]

theorem run_oneRecord_two_keys :
    Along step (fun s e => e.Guarded s) emptyStore hashThenString ∧
      OneRecord (run step emptyStore hashThenString).db :=
  ⟨by decide, run_oneRecord rfl (by decide)⟩

/-- `HSET k f v`, then `SETEX k 100 v`. -/
def stringOverHash : List Event :=
  [.dispatch (.hset [107] [([102], [118])]) fun _ => 1,
    .dispatch (.setex [107] 100 [118]) fun _ => 1]

/-- `SETEX` leaves the hash under the same name in place. -/
theorem run_two_records : ¬ OneRecord (run step emptyStore stringOverHash).db := by
  intro h
  have hs : Counted (run step emptyStore stringOverHash).db 1 [107] .s := by decide
  have hh : Counted (run step emptyStore stringOverHash).db 1 [107] .h := by decide
  cases h 1 [107] .s .h hs hh

end Gedis.Commands
