import Gedis.Commands.OneRecord

/-!
# Field deadlines stay with their hash

The field deadlines of a hash are a record of their own. Along every run whose steps neither
take the hash away from beside them nor lose one of two related writes, they accompany a hash
that has all the fields they name, and no lookup mistakes them for the value of the key.
-/

namespace Gedis.Commands

open Gedis.Core Datastruct Replication Storage

/-- Field deadlines are stored beside a hash that has every field they name. -/
def Coherent (m : OrdMap Bytes Bytes) : Prop :=
  ∀ key e, entryAt m (hashExpKey key) = some e → e.typ = typeHash →
    ∃ e', entryAt m (hashKey key) = some e' ∧ e'.typ = typeHash ∧ ∀ f ∈ fieldsOf e, f ∈ fieldsOf e'

/-- No lookup returns field deadlines as the value of a key. -/
def NeverSidecar (s : Pebble) : Prop :=
  ∀ clock key e, ((lookupRaw key).exec World.answer ⟨s, clock⟩).2 = .record .x e → e.typ ≠ typeHash

variable {m : OrdMap Bytes Bytes}

theorem Inv.coherent (h : Inv True m) : Coherent m :=
  fun key e he ht => ((h key).covers trivial e he ht).2

theorem Inv.weaken {S : Prop} (h : Inv True m) : Inv S m :=
  fun key => ⟨(h key).ofType, fun _ => (h key).covers trivial⟩

theorem Inv.neverSidecar {s : Pebble} (h : Inv True s.db) : NeverSidecar s := by
  intro clock key e hfound ht
  have hlook : Looked False s.db key ((lookupRaw key).exec World.answer ⟨s, clock⟩).2
      ((lookupRaw key).exec World.answer ⟨s, clock⟩).1.store.db :=
    exec_world (T := fun _ => True) (fun _ => trivial) (lookupRaw_spec h.weaken)
      (Prog.During.of_forall _ (fun _ _ => False.elim) _)
  rw [hfound] at hlook
  obtain ⟨-, hp, he⟩ := hlook
  -- beside the field deadlines there is a hash, which the lookup would have found first
  obtain ⟨-, e', he', -⟩ := (h key).covers trivial e he ht
  rw [entryAt, probe_hash hp] at he'
  cases he'

/-- From the empty store on, in every run whose steps meet both conditions, field deadlines
stay with their hash and are never taken for the value of a key. -/
theorem run_coherent {s : Pebble} (hs : s.db = ∅) {events : List Event}
    (h : Along step (fun s e => e.Guarded s ∧ e.Whole s) s events) :
    Coherent (run step s events).db ∧ NeverSidecar (run step s events) := by
  have hinv : Inv True (run step s events).db := by
    refine run_induction (I := fun s => Inv True s.db) (fun s e hi hg => ?_) ?_ h
    · exact step_keeps hi hg.1 fun _ => hg.2
    · rw [hs]
      exact Inv.empty
  exact ⟨hinv.coherent, hinv.neverSidecar⟩

/-- `HSET k f v`, `HEXPIRE k 100 FIELDS 1 f`, then `EXPIRE k n`. -/
def expireHash (n : Int64) : List Event :=
  [.dispatch (.hset [107] [([102], [118])]) fun _ => 1,
    .dispatch (.hexpire .relativeSec [107] 100 .none [[102]]) fun _ => 1,
    .dispatch (.expire .relativeSec [107] n .none) fun _ => 1]

theorem run_coherent_future_deadline :
    Along step (fun s e => e.Guarded s ∧ e.Whole s) emptyStore (expireHash 50) ∧
      Coherent (run step emptyStore (expireHash 50)).db ∧
      NeverSidecar (run step emptyStore (expireHash 50)) := by
  have hlate : ∀ t t' : Int64, (∃ _ : Nat, 1 = t) → (∃ _ : Nat, 1 = t') →
      t' < ExpireKind.relativeSec.deadline 50 t := by
    rintro t t' ⟨-, rfl⟩ ⟨-, rfl⟩
    decide
  have h : Along step (fun s e => e.Guarded s ∧ e.Whole s) emptyStore (expireHash 50) :=
    ⟨⟨trivial, trivial, by decide⟩, ⟨trivial, trivial, by decide⟩,
      ⟨trivial, fun _ => hlate, by decide⟩, trivial⟩
  exact ⟨h, run_coherent rfl h⟩

/-- With a deadline that has passed, `EXPIRE` removes the hash and leaves its field deadlines,
which the next lookup returns as the value of the key. -/
theorem run_orphaned_sidecar :
    ¬ Coherent (run step emptyStore (expireHash (-1))).db ∧
      ¬ NeverSidecar (run step emptyStore (expireHash (-1))) := by
  constructor
  · intro h
    have hx : hasSidecar (run step emptyStore (expireHash (-1))).db [107] = true := by decide
    have hnone : entryAt (run step emptyStore (expireHash (-1))).db (hashKey [107]) = none := by
      decide
    obtain ⟨e, he, ht⟩ := (Option.any_eq_true ..).mp hx
    obtain ⟨e', he', -⟩ := h [107] e he (by simpa using ht)
    cases he'
  · intro h
    exact h (fun _ => 1) [107] _ rfl rfl

end Gedis.Commands
