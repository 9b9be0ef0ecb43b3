import Gedis.Core.OrdMap

/-!
# Collecting the first value of each key

Several passes offer values for keys, and a key keeps the first value it is offered. An offer that
fails ends the collection, but nothing is asked for a key that has its value. Taken together the
passes do for each key what a search for that key alone does.
-/

namespace Gedis.Core

open List

variable {κ β ε ι : Type} [Ord κ] [Std.TransOrd κ] [Std.LawfulEqOrd κ] [DecidableEq κ]
  {search : Except ε (Option β)} {m' : OrdMap κ β} {keys : ι → List κ} {passes : List ι}
  {offer : ι → Except ε (Option β)}

/-- Add what is offered for a key, unless the key has a value. -/
def addNew (offer : κ → Except ε (Option β)) (m : OrdMap κ β) (k : κ) : Except ε (OrdMap κ β) :=
  match m[k]? with
  | some _ => .ok m
  | none =>
    match offer k with
    | .error e => .error e
    | .ok none => .ok m
    | .ok (some v) => .ok (m.insert k v)

/-- The value found before, or what a search gives. -/
def orSearch (found : Option β) (search : Except ε (Option β)) : Except ε (Option β) :=
  match found with
  | some v => .ok (some v)
  | none => search

@[simp] theorem orSearch_some {v : β} : orSearch (some v) search = .ok (some v) := rfl

@[simp] theorem orSearch_none : orSearch none search = search := rfl

/-- One pass gives each of its keys without a value the value on offer. -/
theorem foldlM_addNew_iff (offer : κ → Except ε (Option β)) (ks : List κ) (m : OrdMap κ β) :
    ks.foldlM (addNew offer) m = .ok m' ↔
      ∀ k, orSearch m[k]? (if k ∈ ks then offer k else .ok none) = .ok m'[k]? := by
  induction ks generalizing m with
  | nil =>
    have hfound (k : κ) : orSearch (ε := ε) m[k]? (.ok none) = .ok m[k]? := by
      cases m[k]? <;> rfl
    simp only [foldlM_nil, not_mem_nil, if_false, hfound]
    constructor
    · rintro ⟨⟩ k
      rfl
    · intro h
      have he : m = m' := Std.ExtTreeMap.ext_getElem? fun {k} => Except.ok.inj (h k)
      rw [he]
      rfl
  | cons a ks ih =>
    rw [foldlM_cons, addNew]
    cases ha : m[a]? with
    | some =>
      refine (ih m).trans (forall_congr' fun k => ?_)
      by_cases hk : k = a
      · subst hk
        rw [ha, orSearch_some, orSearch_some]
      · simp [hk]
    | none =>
      cases ho : offer a with
      | error =>
        refine iff_of_false (by rintro ⟨⟩) fun h => ?_
        have h := h a
        rw [ha, if_pos (mem_cons_self ..), ho] at h
        cases h
      | ok offered =>
        cases offered with
        | none =>
          refine (ih m).trans (forall_congr' fun k => ?_)
          by_cases hk : k = a
          · subst hk
            rw [if_pos (mem_cons_self ..), ho, ite_self]
          · simp [hk]
        | some =>
          refine (ih _).trans (forall_congr' fun k => ?_)
          rw [OrdMap.getElem?_insert]
          by_cases hk : a = k
          · subst hk
            rw [if_pos rfl, if_pos (mem_cons_self ..), ha, ho, orSearch_some, orSearch_none]
          · simp [Ne.symm hk, hk]

/-- A pass that can serve every key without a value does not fail. -/
theorem exists_foldlM_addNew {offer : κ → Except ε (Option β)} {ks : List κ} (m : OrdMap κ β)
    (h : ∀ k, ∃ r, orSearch m[k]? (offer k) = .ok r) :
    ∃ m', ks.foldlM (addNew offer) m = .ok m' := by
  induction ks generalizing m with
  | nil => exact ⟨m, rfl⟩
  | cons a ks ih =>
    rw [foldlM_cons, addNew]
    cases ha : m[a]? with
    | some => exact ih m h
    | none =>
      obtain ⟨r, hr⟩ := h a
      rw [ha, orSearch_none] at hr
      rw [hr]
      cases r with
      | none => exact ih m h
      | some v =>
        refine ih _ fun k => ?_
        rw [OrdMap.getElem?_insert]
        split
        · exact ⟨some v, rfl⟩
        · exact h k

/-- All passes together find for each key what a search over the passes finds. -/
theorem foldlM_passes_iff (offer : ι → κ → Except ε (Option β))
    (hkeys : ∀ i k, k ∉ keys i → offer i k = .ok none) (m : OrdMap κ β) :
    passes.foldlM (fun m i => (keys i).foldlM (addNew (offer i)) m) m = .ok m' ↔
      ∀ k, orSearch m[k]? (passes.findSomeM? (offer · k)) = .ok m'[k]? := by
  have hpass (i : ι) (m m' : OrdMap κ β) : (keys i).foldlM (addNew (offer i)) m = .ok m' ↔
      ∀ k, orSearch m[k]? (offer i k) = .ok m'[k]? := by
    refine (foldlM_addNew_iff (offer i) (keys i) m).trans (forall_congr' fun k => ?_)
    by_cases hk : k ∈ keys i
    · rw [if_pos hk]
    · rw [if_neg hk, hkeys i k hk]
  induction passes generalizing m with
  | nil => exact foldlM_addNew_iff (fun _ => .ok none) [] m
  | cons i passes ih =>
    rw [foldlM_cons]
    -- what the rest of the search adds for one key, given the map after the first pass
    have hrest {k : κ} {found : Option β} (hfound : orSearch m[k]? (offer i k) = .ok found) :
        orSearch m[k]? ((i :: passes).findSomeM? (offer · k)) =
          orSearch found (passes.findSomeM? (offer · k)) := by
      cases hm : m[k]? with
      | some =>
        rw [hm] at hfound
        cases hfound
        rfl
      | none =>
        rw [hm, orSearch_none] at hfound
        rw [findSomeM?_cons, hfound]
        cases found <;> rfl
    cases hfirst : (keys i).foldlM (addNew (offer i)) m with
    | ok m₁ =>
      have hm₁ := (hpass i m m₁).mp hfirst
      refine (ih m₁).trans (forall_congr' fun k => ?_)
      rw [hrest (hm₁ k)]
    | error e =>
      refine iff_of_false (by rintro ⟨⟩) fun h => ?_
      have htotal : ∀ k, ∃ r, orSearch m[k]? (offer i k) = .ok r := by
        intro k
        have h := h k
        cases hm : m[k]? with
        | some v => exact ⟨some v, rfl⟩
        | none =>
          rw [hm, findSomeM?_cons] at h
          cases ho : offer i k with
          | ok r => exact ⟨r, rfl⟩
          | error =>
            rw [ho] at h
            cases h
      obtain ⟨m₁, hm₁⟩ := exists_foldlM_addNew m htotal
      rw [hm₁] at hfirst
      cases hfirst

/-- Passes whose offers never fail collect a map. -/
theorem exists_foldlM_passes {offer : ι → κ → Except ε (Option β)} (m : OrdMap κ β)
    (h : ∀ i k, ∃ r, offer i k = .ok r) :
    ∃ m', passes.foldlM (fun m i => (keys i).foldlM (addNew (offer i)) m) m = .ok m' := by
  induction passes generalizing m with
  | nil => exact ⟨m, rfl⟩
  | cons i passes ih =>
    have hserved (k : κ) : ∃ r, orSearch m[k]? (offer i k) = .ok r := by
      cases m[k]? with
      | some v => exact ⟨some v, rfl⟩
      | none => exact h i k
    obtain ⟨m₁, hm₁⟩ := exists_foldlM_addNew m hserved
    rw [foldlM_cons, hm₁]
    exact ih m₁

/-- A value that is found comes from one of the passes. -/
theorem exists_of_findSomeM? {v : β} (h : passes.findSomeM? offer = .ok (some v)) :
    ∃ i ∈ passes, offer i = .ok (some v) := by
  induction passes with
  | nil => cases h
  | cons i passes ih =>
    rw [findSomeM?_cons] at h
    cases ho : offer i with
    | error =>
      rw [ho] at h
      cases h
    | ok found =>
      rw [ho] at h
      cases found with
      | some =>
        cases h
        exact ⟨i, mem_cons_self .., ho⟩
      | none =>
        obtain ⟨j, hj, hv⟩ := ih h
        exact ⟨j, mem_cons_of_mem _ hj, hv⟩

/-- The first pass with an offer decides. -/
theorem findSomeM?_of_first {before after : List ι} {i : ι} {v : β}
    (hbefore : ∀ j ∈ before, offer j = .ok none) (hi : offer i = .ok (some v)) :
    (before ++ i :: after).findSomeM? offer = .ok (some v) := by
  induction before with
  | nil =>
    rw [nil_append, findSomeM?_cons, hi]
    rfl
  | cons j before ih =>
    rw [cons_append, findSomeM?_cons, hbefore j (mem_cons_self ..)]
    exact ih fun j hj => hbefore j (mem_cons_of_mem _ hj)

end Gedis.Core
