import Mathlib.Data.Fintype.Card
import Mathlib.Tactic.Common

/-!
# Votes and majorities

A ledger of votes holds who voted for what and in which epoch. When no voter casts two different
votes in one epoch, at most one choice is carried by a majority in it, since two majorities have a
voter in common.
-/

namespace Gedis.Core

/-- One vote. -/
structure Vote (V E C : Type) where
  voter : V
  epoch : E
  choice : C
  deriving DecidableEq, Repr

variable {V E C : Type}

/-- No voter casts two different votes in one epoch. -/
def OneEach (votes : List (Vote V E C)) : Prop :=
  ∀ v e c c', ⟨v, e, c⟩ ∈ votes → ⟨v, e, c'⟩ ∈ votes → c = c'

/-- More than half of all voters have made the choice in the epoch. -/
def Carried [Fintype V] (votes : List (Vote V E C)) (e : E) (c : C) : Prop :=
  ∃ q : Finset V, Fintype.card V < 2 * q.card ∧ ∀ v ∈ q, ⟨v, e, c⟩ ∈ votes

theorem oneEach_nil : OneEach ([] : List (Vote V E C)) := by
  intro v e c c' h
  cases h

variable {votes : List (Vote V E C)} {e : E}

/-- A vote can be added when the voter's earlier votes in that epoch agree with it. -/
theorem OneEach.cons {v : V} {c : C} (h : OneEach votes)
    (hnew : ∀ c', ⟨v, e, c'⟩ ∈ votes → c' = c) : OneEach (⟨v, e, c⟩ :: votes) := by
  intro w f a b ha hb
  rcases List.mem_cons.mp ha with heq | ha
  · cases heq
    rcases List.mem_cons.mp hb with heq | hb
    · cases heq
      rfl
    · exact (hnew b hb).symm
  · rcases List.mem_cons.mp hb with heq | hb
    · cases heq
      exact hnew a ha
    · exact h w f a b ha hb

section
variable [Fintype V]

/-- Two majorities have a voter in common. -/
theorem exists_mem_inter [DecidableEq V] {p q : Finset V} (hp : Fintype.card V < 2 * p.card)
    (hq : Fintype.card V < 2 * q.card) : ∃ v, v ∈ p ∧ v ∈ q := by
  have hsum := Finset.card_union_add_card_inter p q
  have hall := Finset.card_le_univ (p ∪ q)
  have hpos : 0 < (p ∩ q).card := by omega
  obtain ⟨v, hv⟩ := Finset.card_pos.mp hpos
  exact ⟨v, Finset.mem_inter.mp hv⟩

theorem Carried.mono {votes votes' : List (Vote V E C)} {c : C} (h : Carried votes e c)
    (hsub : votes ⊆ votes') : Carried votes' e c := by
  obtain ⟨q, hcard, hq⟩ := h
  exact ⟨q, hcard, fun v hv => hsub (hq v hv)⟩

/-- At most one choice is carried in an epoch. -/
theorem Carried.unique {c c' : C} (hone : OneEach votes)
    (h : Carried votes e c) (h' : Carried votes e c') : c = c' := by
  classical
  obtain ⟨p, hp, hpv⟩ := h
  obtain ⟨q, hq, hqv⟩ := h'
  obtain ⟨v, hvp, hvq⟩ := exists_mem_inter hp hq
  exact hone v e c c' (hpv v hvp) (hqv v hvq)

/-- Voters that are listed once each and are more than half of all carry their choice. -/
theorem carried_of_nodup {c : C} {voters : List V}
    (hnodup : voters.Nodup) (hcard : Fintype.card V < 2 * voters.length)
    (hvoted : ∀ v ∈ voters, ⟨v, e, c⟩ ∈ votes) : Carried votes e c := by
  classical
  refine ⟨voters.toFinset, ?_, fun v hv => hvoted v (List.mem_toFinset.mp hv)⟩
  rwa [List.toFinset_card_of_nodup hnodup]

end

end Gedis.Core
