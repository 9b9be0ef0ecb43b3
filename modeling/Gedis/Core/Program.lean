import Mathlib.Tactic.Common

/-!
# Programs that ask

A program puts questions to its environment and continues with the answers. An
environment is a state with a function that answers questions. Weakest preconditions are
taken with respect to a relation that says what an answer may do to an abstract state; an
environment whose answers stay within the relation inherits what they establish.
-/

namespace Gedis.Core

/-- A program with questions `Q`, answered in `A`, and result `α`. -/
inductive Prog (Q : Type) (A : Q → Type) (α : Type) where
  | ret (a : α)
  | ask (q : Q) (next : A q → Prog Q A α)

namespace Prog

variable {Q : Type} {A : Q → Type} {α β σ τ : Type}

/-- Sequential composition. -/
def bind : Prog Q A α → (α → Prog Q A β) → Prog Q A β
  | ret a, f => f a
  | ask q next, f => ask q fun a => (next a).bind f

instance : Monad (Prog Q A) where
  pure := ret
  bind := bind

/-- The program that asks one question. -/
def perform (q : Q) : Prog Q A (A q) := ask q ret

@[simp] theorem pure_eq {a : α} : (pure a : Prog Q A α) = ret a := rfl

variable {f : α → Prog Q A β}

theorem ret_bind {a : α} : ret a >>= f = f a := rfl

@[simp] theorem ask_bind {q : Q} {next : A q → Prog Q A α} :
    ask q next >>= f = ask q fun a => next a >>= f := rfl

section Exec

variable (answer : σ → (q : Q) → σ × A q)

/-- The final state and the result of a program. -/
def exec : Prog Q A α → σ → σ × α
  | ret a, s => (s, a)
  | ask q next, s => (next (answer s q).2).exec (answer s q).1

theorem exec_bind {p : Prog Q A α} (s : σ) :
    (p >>= f).exec answer s = (f (p.exec answer s).2).exec answer (p.exec answer s).1 := by
  induction p generalizing s with
  | ret => rfl
  | ask q next ih => exact ih _ _

/-- Every question of a run meets a condition, judged in the state in which it is asked. -/
def During (P : σ → Q → Prop) : Prog Q A α → σ → Prop
  | ret _, _ => True
  | ask q next, s => P s q ∧ (next (answer s q).2).During P (answer s q).1

/-- A condition on the questions of a run can be checked. -/
def During.decide (P : σ → Q → Prop) [∀ s q, Decidable (P s q)] :
    ∀ (p : Prog Q A α) (s : σ), Decidable (p.During answer P s)
  | ret _, _ => .isTrue trivial
  | ask q next, s =>
    haveI := During.decide P (next (answer s q).2) (answer s q).1
    inferInstanceAs (Decidable (P s q ∧ (next (answer s q).2).During answer P (answer s q).1))

instance (P : σ → Q → Prop) [∀ s q, Decidable (P s q)] (p : Prog Q A α) (s : σ) :
    Decidable (p.During answer P s) := During.decide answer P p s

theorem During.of_forall {P : σ → Q → Prop} (h : ∀ s q, P s q) {p : Prog Q A α} (s : σ) :
    p.During answer P s := by
  induction p generalizing s with
  | ret => trivial
  | ask q next ih => exact ⟨h s q, ih _ _⟩

theorem during_bind {P : σ → Q → Prop} {p : Prog Q A α} (s : σ) : (p >>= f).During answer P s ↔
      p.During answer P s ∧ (f (p.exec answer s).2).During answer P (p.exec answer s).1 := by
  induction p generalizing s with
  | ret => exact (and_iff_right trivial).symm
  | ask q next ih => exact (and_congr_right fun _ => ih _ _).trans and_assoc.symm

end Exec

/-- Whatever the answers within the relation, the program ends in the postcondition. -/
def wp (R : σ → (q : Q) → σ → A q → Prop) : Prog Q A α → (α → σ → Prop) → σ → Prop
  | ret a, post, s => post a s
  | ask q next, post, s => ∀ s' a, R s q s' a → (next a).wp R post s'

variable {R : σ → (q : Q) → σ → A q → Prop} {post post' : α → σ → Prop} {s : σ}

@[simp] theorem wp_ret {a : α} : (ret a : Prog Q A α).wp R post s ↔ post a s := Iff.rfl

theorem wp_bind {p : Prog Q A α} {post : β → σ → Prop} :
    (p >>= f).wp R post s ↔ p.wp R (fun a s' => (f a).wp R post s') s := by
  induction p generalizing s with
  | ret => rfl
  | ask q next ih =>
    exact forall₃_congr fun s' a _ => ih a

/-- Consequence. -/
theorem wp_mono {p : Prog Q A α} (h : p.wp R post s) (hpost : ∀ a s', post a s' → post' a s') :
    p.wp R post' s := by
  induction p generalizing s with
  | ret a => exact hpost a s h
  | ask q next ih => exact fun s' a hr => ih a (h s' a hr)

/-- What holds over a relation holds over a smaller one. -/
theorem wp_of_le {R' : σ → (q : Q) → σ → A q → Prop} (hle : ∀ s q s' a, R' s q s' a → R s q s' a)
    {p : Prog Q A α} (h : p.wp R post s) : p.wp R' post s := by
  induction p generalizing s with
  | ret => exact h
  | ask q next ih => exact fun s' a hr => ih a (h s' a (hle s q s' a hr))

/-- A subprogram that establishes what the rest needs. -/
theorem wp_bind_of {p : Prog Q A α} {post' : β → σ → Prop}
    (h : p.wp R post s) (hf : ∀ a s', post a s' → (f a).wp R post' s') : (p >>= f).wp R post' s :=
  wp_bind.mpr (wp_mono h hf)

/-- An environment that stays within the relation on the questions that meet a condition ends
in every postcondition of the program, when its questions meet the condition. The environment
may rely on an invariant of its own. -/
theorem exec_of_wp (abs : τ → σ) {answer : τ → (q : Q) → τ × A q} {C : τ → Q → Prop} {I : τ → Prop}
    (hsim : ∀ t q, I t → C t q → R (abs t) q (abs (answer t q).1) (answer t q).2)
    (hinv : ∀ t q, I t → I (answer t q).1)
    {p : Prog Q A α} {t : τ} (ht : I t) (h : p.wp R post (abs t))
    (hduring : p.During answer C t) :
    post (p.exec answer t).2 (abs (p.exec answer t).1) := by
  induction p generalizing t with
  | ret => exact h
  | ask q next ih => exact ih _ (hinv t q ht) (h _ _ (hsim t q ht hduring.1)) hduring.2

variable {Q' : Type} {A' : Q' → Type}

/-- Answer every question by a program with questions of its own. -/
def interpret (f : (q : Q) → Prog Q' A' (A q)) : Prog Q A α → Prog Q' A' α
  | ret a => ret a
  | ask q next => f q >>= fun a => (next a).interpret f

/-- Running an interpreted program runs the answering programs. -/
theorem exec_interpret {f : (q : Q) → Prog Q' A' (A q)} {answer : σ → (q : Q') → σ × A' q}
    {p : Prog Q A α} (s : σ) :
    (p.interpret f).exec answer s = p.exec (fun s q => (f q).exec answer s) s := by
  induction p generalizing s with
  | ret => rfl
  | ask q next ih =>
    rw [interpret, exec_bind]
    exact ih _ _

/-- What every answering program keeps, the interpreted program keeps. -/
theorem wp_interpret {R : σ → (q : Q') → σ → A' q → Prop} {f : (q : Q) → Prog Q' A' (A q)}
    {I : σ → Prop} (hf : ∀ q s, I s → (f q).wp R (fun _ s' => I s') s) {p : Prog Q A α} {s : σ}
    (hs : I s) : (p.interpret f).wp R (fun _ s' => I s') s := by
  induction p generalizing s with
  | ret => exact hs
  | ask q next ih => exact wp_bind_of (hf q s hs) fun a s' hs' => ih a hs'

end Prog

end Gedis.Core
