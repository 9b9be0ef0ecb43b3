import Mathlib.Data.List.Perm.Basic
import Mathlib.Algebra.BigOperators.Group.List.Basic
import Mathlib.Algebra.Ring.Int.Defs

/-!
# Ordered finite maps

Finite maps are the extensional tree maps of the standard library: two maps with the
same lookups are equal, equality is decidable, and enumeration follows the key order.
The lemmas below phrase lookups with propositional equality of keys, account for a
weight summed over all entries, and describe enumeration in an arbitrary order.
-/

namespace Gedis.Core

open List

/-- Finite maps with extensional equality and an ordered enumeration. -/
abbrev OrdMap (α β : Type) [Ord α] := Std.ExtTreeMap α β compare

namespace OrdMap

variable {α β : Type} [Ord α] [Std.TransOrd α] [Std.LawfulEqOrd α]

section Lookup

variable [DecidableEq α]

/-- Reading after an insertion. -/
theorem getElem?_insert {m : OrdMap α β} {k a : α} {v : β} :
    (m.insert k v)[a]? = if k = a then some v else m[a]? := by
  simp [Std.ExtTreeMap.getElem?_insert]

/-- Reading after an erasure. -/
theorem getElem?_erase {m : OrdMap α β} {k a : α} :
    (m.erase k)[a]? = if k = a then none else m[a]? := by
  simp [Std.ExtTreeMap.getElem?_erase]

end Lookup

omit [Std.LawfulEqOrd α] in
theorem isEmpty_eq_false_iff {m : OrdMap α β} : m.isEmpty = false ↔ ∃ k, k ∈ m := by
  rw [← Bool.not_eq_true, Std.ExtTreeMap.isEmpty_iff, Std.ExtTreeMap.eq_empty_iff_forall_not_mem]
  exact not_forall_not

variable {k : α}

omit [Std.LawfulEqOrd α] in
theorem isEmpty_insert {m : OrdMap α β} {v : β} : (m.insert k v).isEmpty = false :=
  isEmpty_eq_false_iff.mpr ⟨k, Std.ExtTreeMap.mem_insert_self⟩

theorem erase_of_getElem?_none {m : OrdMap α β} (h : m[k]? = none) : m.erase k = m := by
  classical
  apply Std.ExtTreeMap.ext_getElem?
  intro a
  rw [getElem?_erase]
  split
  · next he => rw [← he, h]
  · rfl

theorem nodup_toList {m : OrdMap α β} : m.toList.Nodup := by
  refine List.Pairwise.imp ?_ (Std.ExtTreeMap.distinct_keys_toList)
  intro a b h he
  exact h (by simp [he])

/-- Inserting lists the new entry and the entries of the other keys. -/
theorem toList_insert_perm (m : OrdMap α β) (k : α) (v : β) :
    (m.insert k v).toList.Perm ((k, v) :: (m.erase k).toList) := by
  classical
  have hn : ((k, v) :: (m.erase k).toList).Nodup := by
    refine nodup_cons.mpr ⟨?_, nodup_toList⟩
    simp [Std.ExtTreeMap.mem_toList_iff_getElem?_eq_some]
  rw [perm_ext_iff_of_nodup nodup_toList hn]
  rintro ⟨a, w⟩
  rw [mem_cons, Std.ExtTreeMap.mem_toList_iff_getElem?_eq_some,
    Std.ExtTreeMap.mem_toList_iff_getElem?_eq_some, getElem?_insert, getElem?_erase]
  by_cases he : k = a
  · subst he
    simp [eq_comm]
  · simp [he, Ne.symm he]

/-- A present key can be brought to the front of the enumeration. -/
theorem toList_perm_of_getElem? {m : OrdMap α β} {v : β} (h : m[k]? = some v) :
    m.toList.Perm ((k, v) :: (m.erase k).toList) := by
  classical
  have he : m.insert k v = m := by
    apply Std.ExtTreeMap.ext_getElem?
    intro a
    rw [getElem?_insert]
    split
    · next he => rw [← he, h]
    · rfl
  have hp := toList_insert_perm m k v
  rwa [he] at hp

section Rebuild

variable [DecidableEq α]

variable {l : List (α × β)}

private theorem getElem?_foldl_insert_of_not_mem {a : α} (h : ∀ v, (a, v) ∉ l) (acc : OrdMap α β) :
    (l.foldl (fun m e => m.insert e.1 e.2) acc)[a]? = acc[a]? := by
  induction l generalizing acc with
  | nil => rfl
  | cons e l ih =>
    have hne : e.1 ≠ a := fun he => h e.2 (by rw [← he]; exact mem_cons_self ..)
    rw [foldl_cons, ih fun v hv => h v (mem_cons_of_mem _ hv), getElem?_insert]
    simp [hne]

private theorem getElem?_foldl_insert_of_mem
    (hl : l.Pairwise fun e e' => ¬ compare e.1 e'.1 = .eq) {a : α} {v : β} (h : (a, v) ∈ l)
    (acc : OrdMap α β) : (l.foldl (fun m e => m.insert e.1 e.2) acc)[a]? = some v := by
  induction l generalizing acc with
  | nil => cases h
  | cons e l ih =>
    obtain ⟨he, hl⟩ := pairwise_cons.mp hl
    rw [foldl_cons]
    rcases mem_cons.mp h with rfl | h
    · rw [getElem?_foldl_insert_of_not_mem (fun v' hv' => he _ hv' (by simp))]
      simp
    · exact ih hl h _

/-- Inserting all entries of a map one by one, in any order, rebuilds it. -/
theorem foldl_insert_of_perm {m : OrdMap α β} (hl : l.Perm m.toList) :
    l.foldl (fun m e => m.insert e.1 e.2) ∅ = m := by
  have hdistinct : l.Pairwise fun e e' => ¬ compare e.1 e'.1 = .eq := by
    refine (hl.pairwise_iff fun h => ?_).mpr Std.ExtTreeMap.distinct_keys_toList
    simpa only [Std.OrientedCmp.eq_comm] using h
  apply Std.ExtTreeMap.ext_getElem?
  intro a
  cases h : m[a]? with
  | none =>
    rw [getElem?_foldl_insert_of_not_mem]
    · simp
    · intro v hv
      rw [hl.mem_iff, Std.ExtTreeMap.mem_toList_iff_getElem?_eq_some, h] at hv
      cases hv
  | some =>
    exact getElem?_foldl_insert_of_mem hdistinct
      (hl.mem_iff.mpr (Std.ExtTreeMap.mem_toList_iff_getElem?_eq_some.mpr h)) ∅

theorem foldl_insert_toList {m : OrdMap α β} : m.toList.foldl (fun m e => m.insert e.1 e.2) ∅ = m :=
  foldl_insert_of_perm (List.Perm.refl _)

end Rebuild

/-- The sum of a weight over all entries. -/
def weight (f : α → β → Int) (m : OrdMap α β) : Int :=
  (m.toList.map fun e => f e.1 e.2).sum

/-- The weight of the entry stored under one key, zero when there is none. -/
def weightAt (f : α → β → Int) (m : OrdMap α β) (k : α) : Int :=
  (m[k]?).elim 0 (f k)

/-- The weight only depends on the entries of the map. -/
theorem weight_congr {f g : α → β → Int} {m : OrdMap α β}
    (h : ∀ k v, m[k]? = some v → f k v = g k v) : weight f m = weight g m := by
  unfold weight
  congr 1
  apply map_congr_left
  rintro ⟨k, v⟩ he
  exact h k v (Std.ExtTreeMap.mem_toList_iff_getElem?_eq_some.mp he)

theorem weight_erase (f : α → β → Int) (m : OrdMap α β) (k : α) :
    weight f (m.erase k) = weight f m - weightAt f m k := by
  cases h : m[k]? with
  | none => rw [erase_of_getElem?_none h]; simp [weightAt, h]
  | some =>
    have hp := ((toList_perm_of_getElem? h).map fun e => f e.1 e.2).sum_eq
    simp only [map_cons, sum_cons] at hp
    simp only [weight, weightAt, h, Option.elim_some, hp]
    omega

theorem weight_insert {f : α → β → Int} {m : OrdMap α β} {v : β} :
    weight f (m.insert k v) = weight f m - weightAt f m k + f k v := by
  have hp := ((toList_insert_perm m k v).map fun e => f e.1 e.2).sum_eq
  simp only [map_cons, sum_cons] at hp
  have he := weight_erase f m k
  simp only [weight] at he ⊢
  omega

end OrdMap

/-- Draw the elements of a list in the order a sequence of choices prescribes. Each
choice selects one of the remaining elements; missing choices keep the given order. -/
def arrange {α : Type} : List Nat → List α → List α
  | [], xs => xs
  | n :: ns, xs =>
    match xs[n % xs.length]? with
    | none => []
    | some x => x :: arrange ns (xs.eraseIdx (n % xs.length))

theorem arrange_perm {α : Type} (ns : List Nat) (xs : List α) : (arrange ns xs).Perm xs := by
  induction ns generalizing xs with
  | nil => exact List.Perm.refl xs
  | cons n ns ih =>
    simp only [arrange]
    split
    · next h =>
      cases xs with
      | nil => exact List.Perm.refl _
      | cons y ys =>
        exact absurd (Nat.mod_lt n (Nat.succ_pos ys.length)) (by simpa using h)
    · next x h =>
      obtain ⟨hi, hx⟩ := List.getElem?_eq_some_iff.mp h
      have hp := getElem_cons_eraseIdx_perm hi
      rw [hx] at hp
      exact ((ih _).cons x).trans hp

end Gedis.Core
