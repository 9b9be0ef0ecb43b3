import Mathlib.Data.Nat.Bitwise

/-!
# Maps of words that respect disjunction

Such a map does to a word what it does to its single bits.
-/

namespace Gedis.Core

variable {l m n : Nat} {α : Type*}

/-- The map respects the disjunction of words. -/
structure Joins (f : BitVec m → BitVec n) : Prop where
  zero : f 0#m = 0#n
  or : ∀ x y, f (x ||| y) = f x ||| f y

namespace Joins

variable {f : BitVec m → BitVec n} {g : BitVec l → BitVec m}

theorem comp (hf : Joins f) (hg : Joins g) : Joins fun x => f (g x) :=
  ⟨by rw [hg.zero, hf.zero], fun x y => by rw [hg.or, hf.or]⟩

theorem foldl {f : BitVec n → α → BitVec n} (hf : ∀ a, Joins (f · a)) (l : List α) :
    Joins fun x => l.foldl f x := by
  induction l with
  | nil => exact ⟨rfl, fun _ _ => rfl⟩
  | cons a l ih => exact ih.comp (hf a)

/-- The bits of a value are those of the images of the single bits. -/
theorem getLsbD_iff (hf : Joins f) {x : BitVec m} {j : Nat} :
    (f x).getLsbD j = true ↔ ∃ i < m, x.getLsbD i = true ∧ (f (.twoPow m i)).getLsbD j = true := by
  -- by induction on the number of low bits that are kept
  have hlow : ∀ k ≤ m, (f ((x.setWidth k).setWidth m)).getLsbD j = true ↔
      ∃ i < k, x.getLsbD i = true ∧ (f (.twoPow m i)).getLsbD j = true := by
    intro k hk
    induction k with
    | zero => simp [BitVec.eq_nil (x.setWidth 0), hf.zero]
    | succ k ih =>
      rw [Nat.exists_lt_succ_right, ← ih (by omega)]
      cases hbit : x.getLsbD k with
      | false => simp [BitVec.setWidth_setWidth_succ_eq_setWidth_setWidth_of_getLsbD_false hbit]
      | true =>
        simp [BitVec.setWidth_setWidth_succ_eq_setWidth_setWidth_or_twoPow_of_getLsbD_true hbit, hf.or]
  simpa using hlow m le_rfl

end Joins

end Gedis.Core
