import Gedis.Core.OrdMap

/-!
# Relations as maps of sets

A relation between two types is kept as a map that gives each element of the first type the set of
elements it is related to. Elements that are related to nothing have no entry after a removal. Two
such maps, one for each direction, make a two-way index.
-/

namespace Gedis.Core

variable {α β : Type} [Ord α] [Std.TransOrd α] [Std.LawfulEqOrd α] [DecidableEq α] [Ord β]
  [Std.TransOrd β] [Std.LawfulEqOrd β] {a a' : α} {b b' : β}

/-- A relation as a map of sets. -/
abbrev Links (α β : Type) [Ord α] [Ord β] := OrdMap α (OrdMap β Unit)

namespace Links

variable (m : Links α β)

/-- The relation that a map stands for. -/
def Linked (a : α) (b : β) : Prop := ∃ s, m[a]? = some s ∧ b ∈ s

/-- Relate two elements. -/
def link (a : α) (b : β) : Links α β := m.insert a (((m[a]?).getD ∅).insert b ())

/-- Separate two elements; an empty set is not kept. -/
def unlink (a : α) (b : β) : Links α β :=
  match m[a]? with
  | none => m
  | some s => if (s.erase b).isEmpty then m.erase a else m.insert a (s.erase b)

/-- The elements that an element is related to, in order. -/
def linksOf (a : α) : List β := ((m[a]?).getD ∅).keys

variable {m}

omit [DecidableEq α] [Std.LawfulEqOrd α] in
theorem mem_linksOf : b ∈ linksOf m a ↔ Linked m a b := by
  rw [linksOf, Linked]
  cases m[a]? with
  | none => simp
  | some => simp

theorem linked_link : Linked (link m a b) a' b' ↔ Linked m a' b' ∨ a = a' ∧ b = b' := by
  rw [Linked, link, OrdMap.getElem?_insert, Linked]
  by_cases ha : a = a'
  · subst ha
    cases m[a]? with
    | none => simp [Std.ExtTreeMap.mem_insert]
    | some => simp [Std.ExtTreeMap.mem_insert, or_comm]
  · simp [ha]

theorem linked_unlink : Linked (unlink m a b) a' b' ↔ Linked m a' b' ∧ ¬ (a = a' ∧ b = b') := by
  rw [unlink]
  cases hm : m[a]? with
  | none =>
    refine ⟨fun h => ⟨h, ?_⟩, fun h => h.1⟩
    rintro ⟨rfl, -⟩
    obtain ⟨s, hs, -⟩ := h
    rw [hm] at hs
    cases hs
  | some s =>
    have hother (m' : Links α β) (hm' : a ≠ a' → m'[a']? = m[a']?) (ha : a ≠ a') :
        Linked m' a' b' ↔ Linked m a' b' ∧ ¬ (a = a' ∧ b = b') := by
      rw [Linked, hm' ha, Linked]
      simp [ha]
    by_cases ha : a = a'
    · subst ha
      have hleft : Linked m a b' ∧ ¬ (a = a ∧ b = b') ↔ b' ∈ s.erase b := by
        simp [Linked, hm, Std.ExtTreeMap.mem_erase, and_comm]
      rw [hleft]
      dsimp only
      split
      · next hempty =>
        have hnone : b' ∉ s.erase b := by
          rw [Std.ExtTreeMap.isEmpty_iff] at hempty
          rw [hempty]
          exact Std.ExtTreeMap.not_mem_empty
        refine iff_of_false ?_ hnone
        rintro ⟨t, ht, -⟩
        rw [OrdMap.getElem?_erase, if_pos rfl] at ht
        cases ht
      · rw [Linked, OrdMap.getElem?_insert]
        simp
    · dsimp only
      split
      · exact hother _ (fun h => by rw [OrdMap.getElem?_erase, if_neg h]) ha
      · exact hother _ (fun h => by rw [OrdMap.getElem?_insert, if_neg h]) ha

omit [Std.LawfulEqOrd β] in
theorem linked_erase : Linked (m.erase a) a' b ↔ Linked m a' b ∧ a ≠ a' := by
  rw [Linked, OrdMap.getElem?_erase, Linked]
  by_cases ha : a = a'
  · simp [ha]
  · simp [ha]

/-- Relate several elements to one. -/
theorem linked_foldl_link {as : List α} :
    Linked (as.foldl (fun m a => link m a b) m) a' b' ↔ Linked m a' b' ∨ a' ∈ as ∧ b = b' := by
  induction as generalizing m with
  | nil => simp
  | cons a as ih =>
    rw [List.foldl_cons, ih, linked_link]
    by_cases ha : a' = a
    · subst ha
      tauto
    · simp [ha, Ne.symm ha]

/-- Relate one element to several. -/
theorem linked_foldl_link_right {bs : List β} :
    Linked (bs.foldl (fun m b => link m a b) m) a' b' ↔ Linked m a' b' ∨ a = a' ∧ b' ∈ bs := by
  induction bs generalizing m with
  | nil => simp
  | cons b bs ih =>
    rw [List.foldl_cons, ih, linked_link]
    by_cases hb : b' = b
    · subst hb
      tauto
    · simp [hb, Ne.symm hb]

/-- Separate several elements from one. -/
theorem linked_foldl_unlink {as : List α} :
    Linked (as.foldl (fun m a => unlink m a b) m) a' b' ↔ Linked m a' b' ∧ ¬ (a' ∈ as ∧ b = b') := by
  induction as generalizing m with
  | nil => simp
  | cons a as ih =>
    rw [List.foldl_cons, ih, linked_unlink]
    by_cases ha : a' = a
    · subst ha
      tauto
    · simp [ha, Ne.symm ha]

end Links

end Gedis.Core
