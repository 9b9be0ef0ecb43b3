import Gedis.Core.Program
import Gedis.Core.Run

/-!
# Programs side by side

One main program and any number of others take turns on a shared state, one answered
question at a time. When no question of the main program depends on a question that the
others asked before it, the others can wait: letting the main program take all its turns
first leads to the same state, the same rest of every program and the same results.
-/

namespace Gedis.Core

/-- Who takes a turn. -/
inductive Who (ι : Type) where
  | main
  | other (i : ι)
  deriving DecidableEq, Repr

/-- The main program's turns. -/
def Who.isMain {ι : Type} : Who ι → Bool
  | .main => true
  | .other _ => false

namespace Prog

variable {Q : Type} {A : Q → Type} {α σ : Type}

/-- The question a program is about to ask. -/
def next? : Prog Q A α → Option Q
  | ret _ => none
  | ask q _ => some q

/-- The result of a finished program. -/
def result? : Prog Q A α → Option α
  | ret a => some a
  | ask _ _ => none

/-- One turn: the next question is answered. A finished program does nothing. -/
def advance (answer : σ → (q : Q) → σ × A q) (s : σ) : Prog Q A α → σ × Prog Q A α
  | ret a => (s, ret a)
  | ask q next => ((answer s q).1, next (answer s q).2)

end Prog

/-- A shared state, what is left of each program, and the questions of the others so far. -/
structure Procs (Q : Type) (A : Q → Type) (σ ι ρ υ : Type) where
  state : σ
  main : Prog Q A ρ
  others : ι → Prog Q A υ
  past : List Q

namespace Procs

variable {Q : Type} {A : Q → Type} {σ σ' ι ρ υ τ : Type} [DecidableEq ι]

section Step

variable (answer : τ → σ → (q : Q) → σ × A q)

/-- One turn, with the environment's input for it. -/
def step (c : Procs Q A σ ι ρ υ) (turn : Who ι × τ) : Procs Q A σ ι ρ υ :=
  match turn.1 with
  | .main =>
    let r := c.main.advance (answer turn.2) c.state
    { c with state := r.1, main := r.2 }
  | .other i =>
    let r := (c.others i).advance (answer turn.2) c.state
    { c with
      state := r.1
      others := fun j => if j = i then r.2 else c.others j
      past := (c.others i).next?.toList ++ c.past }

end Step

/-- The main program's next question is independent of everything the others asked so far. -/
def Undisturbed (indep : Q → Q → Prop) (c : Procs Q A σ ι ρ υ) (turn : Who ι × τ) : Prop :=
  turn.1.isMain → ∀ q ∈ c.main.next?, ∀ q' ∈ c.past, indep q q'

instance (indep : Q → Q → Prop) [∀ q q', Decidable (indep q q')] (c : Procs Q A σ ι ρ υ)
    (turn : Who ι × τ) : Decidable (c.Undisturbed indep turn) :=
  inferInstanceAs (Decidable (turn.1.isMain → ∀ q ∈ c.main.next?, ∀ q' ∈ c.past, indep q q'))

/-- Answers to independent questions do not depend on their order. -/
def Commutes (answer : τ → σ → (q : Q) → σ × A q) (indep : Q → Q → Prop) : Prop :=
  ∀ t t' s q q', indep q q' →
    (answer t (answer t' s q').1 q).1 = (answer t' (answer t s q).1 q').1 ∧
      (answer t (answer t' s q').1 q).2 = (answer t s q).2 ∧
      (answer t' (answer t s q).1 q').2 = (answer t' s q').2

variable {answer : τ → σ → (q : Q) → σ × A q} {indep : Q → Q → Prop}

variable {c : Procs Q A σ ι ρ υ} {turns : List (Who ι × τ)}

theorem past_subset_step {turn : Who ι × τ} : c.past ⊆ (c.step answer turn).past := by
  obtain ⟨_ | i, t⟩ := turn
  · exact List.Subset.refl _
  · exact List.subset_append_right _ _

theorem past_subset_run (c : Procs Q A σ ι ρ υ) (turns : List (Who ι × τ)) :
    c.past ⊆ (run (step answer) c turns).past := by
  induction turns generalizing c with
  | nil => exact List.Subset.refl _
  | cons turn turns ih => exact List.Subset.trans past_subset_step (ih _)

/-- The others' turns leave the main program alone. -/
theorem main_run_others (c : Procs Q A σ ι ρ υ)
    (h : ∀ turn ∈ turns, turn.1.isMain = false) : (run (step answer) c turns).main = c.main := by
  induction turns generalizing c with
  | nil => rfl
  | cons turn turns ih =>
    rw [run_cons, ih _ fun turn' h' => h turn' (List.mem_cons_of_mem _ h')]
    obtain ⟨_ | i, t⟩ := turn
    · cases h _ (List.mem_cons_self ..)
    · rfl

/-- Two turns with independent questions can be exchanged. -/
theorem step_comm (hcomm : Commutes answer indep) {t t' : τ} {i : ι}
    (h : ∀ q ∈ c.main.next?, ∀ q' ∈ (c.others i).next?, indep q q') :
    (c.step answer (.other i, t')).step answer (.main, t) =
      (c.step answer (.main, t)).step answer (.other i, t') := by
  cases hmain : c.main with
  | ret => simp only [step, hmain, Prog.advance]
  | ask q next =>
    cases hother : c.others i with
    | ret => simp only [step, hmain, hother, Prog.advance]
    | ask q' =>
      obtain ⟨hstate, hq, hq'⟩ := hcomm t t' c.state q q'
        (h q (by simp [hmain, Prog.next?]) q' (by simp [hother, Prog.next?]))
      simp [step, hmain, hother, Prog.advance, hstate, hq, hq']

/-- A turn of the main program can be taken before the others' turns that precede it. -/
theorem step_main_run_others (hcomm : Commutes answer indep) (c : Procs Q A σ ι ρ υ) {t : τ}
    (hothers : ∀ turn ∈ turns, turn.1.isMain = false)
    (h : (run (step answer) c turns).Undisturbed indep ((.main, t) : Who ι × τ)) :
    (run (step answer) c turns).step answer (.main, t) =
      run (step answer) (c.step answer (.main, t)) turns := by
  induction turns generalizing c with
  | nil => rfl
  | cons turn turns ih =>
    have hrest : ∀ turn ∈ turns, turn.1.isMain = false :=
      fun turn h' => hothers turn (List.mem_cons_of_mem _ h')
    obtain ⟨_ | i, t'⟩ := turn
    · cases hothers _ (List.mem_cons_self ..)
    · have hmain : (run (step answer) (c.step answer (.other i, t')) turns).main = c.main :=
        main_run_others _ hrest
      rw [run_cons, ih _ hrest h, run_cons, step_comm hcomm]
      intro q hq q' hq'
      refine h rfl q (by rwa [run_cons, hmain]) q' (past_subset_run _ turns ?_)
      exact List.mem_append_left _ (Option.mem_toList.mpr hq')

/-- In a run in which the main program is undisturbed, the others can wait for it. -/
theorem run_postpone (hcomm : Commutes answer indep)
    (h : Along (step answer) (Undisturbed indep) c turns) : run (step answer) c turns =
      run (step answer) c (turns.filter (·.1.isMain) ++ turns.filter (!·.1.isMain)) := by
  induction turns using List.reverseRecOn with
  | nil => rfl
  | append_singleton turns turn ih =>
    obtain ⟨hturns, hturn⟩ := along_append.mp h
    rw [run_concat, ih hturns, List.filter_append, List.filter_append]
    obtain ⟨_ | i, t⟩ := turn
    · -- the others' turns so far are taken after this one
      have hothers : ∀ turn ∈ turns.filter (!·.1.isMain), turn.1.isMain = false := by simp
      have hnext := hturn.1
      rw [ih hturns, run_append] at hnext
      have hmain : [((.main, t) : Who ι × τ)].filter (·.1.isMain) = [(.main, t)] := rfl
      have hother : [((.main, t) : Who ι × τ)].filter (!·.1.isMain) = [] := rfl
      rw [hmain, hother, List.append_nil, run_append, step_main_run_others hcomm _ hothers hnext,
        run_append, run_concat]
    · have hmain : [((.other i, t) : Who ι × τ)].filter (·.1.isMain) = [] := rfl
      have hother : [((.other i, t) : Who ι × τ)].filter (!·.1.isMain) = [(.other i, t)] := rfl
      rw [hmain, hother, List.append_nil, ← List.append_assoc, run_concat]

/-- The same programs over another state. -/
def map (f : σ → σ') (c : Procs Q A σ ι ρ υ) : Procs Q A σ' ι ρ υ :=
  ⟨f c.state, c.main, c.others, c.past⟩

variable {answer' : τ → σ' → (q : Q) → σ' × A q} {f : σ → σ'} {I : σ → Prop}

private theorem advance_map {s : σ} {t : τ} (h : ∀ q, f (answer t s q).1 = (answer' t (f s) q).1 ∧
    (answer t s q).2 = (answer' t (f s) q).2 ∧ I (answer t s q).1) (hs : I s) {α : Type}
    (p : Prog Q A α) :
    f (p.advance (answer t) s).1 = (p.advance (answer' t) (f s)).1 ∧
      (p.advance (answer t) s).2 = (p.advance (answer' t) (f s)).2 ∧
      I (p.advance (answer t) s).1 := by
  cases p with
  | ret => exact ⟨rfl, rfl, hs⟩
  | ask q next =>
    obtain ⟨hstate, ha, hi⟩ := h q
    exact ⟨hstate, congrArg next ha, hi⟩

section Map

variable (hsim : ∀ t s q, I s → f (answer t s q).1 = (answer' t (f s) q).1 ∧
  (answer t s q).2 = (answer' t (f s) q).2 ∧ I (answer t s q).1)
include hsim

/-- An environment that answers like another one, seen through a function of its state, takes
the same steps. -/
theorem step_map (hc : I c.state) {turn : Who ι × τ} :
    (c.step answer turn).map f = (c.map f).step answer' turn ∧ I (c.step answer turn).state := by
  obtain ⟨_ | i, t⟩ := turn
  · obtain ⟨hstate, hp, hi⟩ := advance_map (fun q => hsim t c.state q hc) hc c.main
    exact ⟨by simp [step, map, hstate, hp], hi⟩
  · obtain ⟨hstate, hp, hi⟩ := advance_map (fun q => hsim t c.state q hc) hc (c.others i)
    exact ⟨by simp [step, map, hstate, hp], hi⟩

theorem run_map (hc : I c.state) (turns : List (Who ι × τ)) :
    (run (step answer) c turns).map f = run (step answer') (c.map f) turns ∧
      I (run (step answer) c turns).state := by
  induction turns generalizing c with
  | nil => exact ⟨rfl, hc⟩
  | cons turn turns ih =>
    obtain ⟨hstep, hi⟩ := step_map hsim hc
    rw [run_cons, run_cons, ← hstep]
    exact ih hi

/-- In a run in which the main program is undisturbed, the others can wait for it, up to what
the function shows of the state. -/
theorem run_postpone_map (hcomm : Commutes answer' indep) (hc : I c.state)
    (h : Along (step answer) (Undisturbed indep) c turns) : (run (step answer) c turns).map f =
      (run (step answer) c (turns.filter (·.1.isMain) ++ turns.filter (!·.1.isMain))).map f := by
  have hmap : Along (step answer') (Undisturbed indep) (c.map f) turns := by
    induction turns generalizing c with
    | nil => trivial
    | cons turn turns ih =>
      obtain ⟨hstep, hi⟩ := step_map hsim hc
      refine ⟨h.1, ?_⟩
      rw [← hstep]
      exact ih hi h.2
  rw [(run_map hsim hc _).1, (run_map hsim hc _).1]
  exact run_postpone hcomm hmap

end Map

end Procs

end Gedis.Core
