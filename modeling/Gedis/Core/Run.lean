import Mathlib.Data.List.Induction

/-!
# Runs of a transition function

A run folds a transition function over a list of labels. A condition that every step of
a run meets, judged in the state before that step, carries an invariant from the first
state to the last.
-/

namespace Gedis.Core

variable {σ κ : Type} (step : σ → κ → σ) {P : σ → κ → Prop} {s : σ} {ks : List κ} {I : σ → Prop}

/-- The state after a list of labels. -/
def run (s : σ) (ks : List κ) : σ := ks.foldl step s

@[simp] theorem run_nil : run step s [] = s := rfl

@[simp] theorem run_cons {k : κ} : run step s (k :: ks) = run step (step s k) ks := rfl

theorem run_append {ks ks' : List κ} : run step s (ks ++ ks') = run step (run step s ks) ks' := by
  simp [run]

theorem run_concat {k : κ} : run step s (ks ++ [k]) = step (run step s ks) k := by
  simp [run_append]

/-- Every step of a run meets a condition on its label and the state before it. -/
def Along (P : σ → κ → Prop) : σ → List κ → Prop
  | _, [] => True
  | s, k :: ks => P s k ∧ Along P (step s k) ks

/-- A condition along a run can be checked. -/
def Along.decide (P : σ → κ → Prop) [∀ s k, Decidable (P s k)] :
    ∀ (s : σ) (ks : List κ), Decidable (Along step P s ks)
  | _, [] => .isTrue trivial
  | s, k :: ks =>
    haveI := Along.decide P (step s k) ks
    inferInstanceAs (Decidable (P s k ∧ Along step P (step s k) ks))

instance (P : σ → κ → Prop) [∀ s k, Decidable (P s k)] (s : σ) (ks : List κ) :
    Decidable (Along step P s ks) := Along.decide step P s ks

variable {step}

theorem along_append {ks' : List κ} :
    Along step P s (ks ++ ks') ↔ Along step P s ks ∧ Along step P (run step s ks) ks' := by
  induction ks generalizing s with
  | nil => simp [Along]
  | cons k ks ih => simp only [List.cons_append, Along, run_cons, ih, and_assoc]

/-- A run that breaks a condition has a first part after which the next step breaks it. -/
theorem exists_of_not_along (h : ¬ Along step P s ks) :
    ∃ before k after, ks = before ++ k :: after ∧ ¬ P (run step s before) k := by
  induction ks generalizing s with
  | nil => exact absurd trivial h
  | cons k ks ih =>
    by_cases hk : P s k
    · obtain ⟨before, k', after, rfl, hnot⟩ := ih fun hks => h ⟨hk, hks⟩
      exact ⟨k :: before, k', after, rfl, hnot⟩
    · exact ⟨[], k, ks, rfl, hk⟩

/-- An invariant of the conditional steps holds at the end of a run that meets the condition. -/
theorem run_induction (hstep : ∀ s k, I s → P s k → I (step s k)) (hs : I s) (h : Along step P s ks)
    : I (run step s ks) := by
  induction ks generalizing s with
  | nil => exact hs
  | cons k ks ih => exact ih (hstep s k hs h.1) h.2

/-- Two conditions that agree where an invariant holds, and one of which keeps it, are met by
the same runs. -/
theorem along_congr {Q : σ → κ → Prop} {W : κ → Prop} (hiff : ∀ s k, I s → W k → (P s k ↔ Q s k))
    (hstep : ∀ s k, I s → W k → Q s k → I (step s k)) (hs : I s) (hks : ∀ k ∈ ks, W k) :
    Along step P s ks ↔ Along step Q s ks := by
  induction ks generalizing s with
  | nil => exact Iff.rfl
  | cons k ks ih =>
    have hk := hks k (List.mem_cons_self ..)
    have hrest : ∀ k' ∈ ks, W k' := fun k' hk' => hks k' (List.mem_cons_of_mem _ hk')
    simp only [Along, hiff s k hs hk]
    exact and_congr_right fun hq => ih (hstep s k hs hk hq) hrest

/-- A condition that every step of a run meets in the state before it is met along the run. -/
theorem along_of_reached (h : ∀ before k after, before ++ k :: after = ks → P (run step s before) k)
    : Along step P s ks := by
  by_contra hnot
  obtain ⟨before, k, after, heq, hk⟩ := exists_of_not_along hnot
  exact hk (h before k after heq.symm)

/-- Where a condition says exactly which steps keep a property, it is met along a run exactly when
the property holds in every state that the run reaches. -/
theorem along_iff_reached {J : σ → Prop} (hJ : ∀ s k, J s → J (step s k))
    (hiff : ∀ s k, J s → I s → (I (step s k) ↔ P s k)) (hJs : J s) (hIs : I s) :
    Along step P s ks ↔ ∀ before, before <+: ks → I (run step s before) := by
  induction ks generalizing s with
  | nil =>
    refine ⟨fun _ before hbefore => ?_, fun _ => trivial⟩
    rw [List.prefix_nil.mp hbefore]
    exact hIs
  | cons k ks ih =>
    constructor
    · rintro ⟨hk, hks⟩ before hbefore
      cases before with
      | nil => exact hIs
      | cons k' before =>
        obtain ⟨rfl, hrest⟩ := List.cons_prefix_cons.mp hbefore
        exact (ih (hJ s k' hJs) ((hiff s k' hJs hIs).mpr hk)).mp hks before hrest
    · intro h
      have hnext : I (step s k) := h [k] ⟨ks, rfl⟩
      refine ⟨(hiff s k hJs hIs).mp hnext, (ih (hJ s k hJs) hnext).mpr fun before hbefore => ?_⟩
      exact h (k :: before) (List.cons_prefix_cons.mpr ⟨rfl, hbefore⟩)

/-- An invariant of every step holds at the end of every run. -/
theorem run_invariant (hstep : ∀ s k, I s → I (step s k)) (hs : I s) (ks : List κ) :
    I (run step s ks) := by
  induction ks generalizing s with
  | nil => exact hs
  | cons k ks ih => exact ih (hstep s k hs)

/-- A condition that an invariant of every step implies is met along every run. -/
theorem along_of_invariant (hstep : ∀ s k, I s → I (step s k)) (himp : ∀ s k, I s → P s k)
    (hs : I s) (ks : List κ) : Along step P s ks := by
  induction ks generalizing s with
  | nil => trivial
  | cons k ks ih => exact ⟨himp s k hs, ih (hstep s k hs)⟩

end Gedis.Core
