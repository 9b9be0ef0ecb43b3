import Gedis.Core.OrdMap

/-!
# Replaying logs of point writes

A log entry either stores a value under one key or removes that key. Replaying a log
is decided key by key: the last entry for a key wins and untouched keys keep their
value. Re-applying a stretch of the log that was already applied is harmless exactly
when it runs up to the position the store has reached.
-/

namespace Gedis.Core

open List

variable {i j : Nat}

/-- One point write: `some v` stores `v`, `none` removes the key. -/
structure Write (α β : Type) where
  key : α
  value : Option β
  deriving DecidableEq, Repr

variable {α β : Type} [Ord α] [Std.TransOrd α]

/-- The effect of one write on a map. -/
def Write.apply (w : Write α β) (m : OrdMap α β) : OrdMap α β :=
  match w.value with
  | some v => m.insert w.key v
  | none => m.erase w.key

/-- Apply a log to a map, oldest entry first. -/
def replay (m : OrdMap α β) (log : List (Write α β)) : OrdMap α β :=
  log.foldl (fun m w => w.apply m) m

variable {m : OrdMap α β} {log : List (Write α β)} {xs ys : List (Write α β)} {a : α} {γ : Type}

@[simp] theorem replay_nil : replay m [] = m := rfl

@[simp] theorem replay_cons {w : Write α β} : replay m (w :: log) = replay (w.apply m) log := rfl

theorem replay_append : replay m (xs ++ ys) = replay (replay m xs) ys := by
  simp [replay]

theorem replay_concat {w : Write α β} : replay m (xs ++ [w]) = w.apply (replay m xs) := by
  simp [replay_append]

variable [Std.LawfulEqOrd α] [DecidableEq α]

theorem Write.getElem?_apply (w : Write α β) :
    (w.apply m)[a]? = if w.key = a then w.value else m[a]? := by
  unfold Write.apply
  split
  · next h => simp only [OrdMap.getElem?_insert, h]
  · next h => simp only [OrdMap.getElem?_erase, h]

/-- A log never mentions a key. -/
def Untouched (log : List (Write α β)) (a : α) : Prop := ∀ w ∈ log, w.key ≠ a

instance (log : List (Write α β)) (a : α) : Decidable (Untouched log a) :=
  inferInstanceAs (Decidable (∀ w ∈ log, w.key ≠ a))

omit [Ord α] [Std.TransOrd α] [Std.LawfulEqOrd α] [DecidableEq α] in
theorem Untouched.subset (h : Untouched ys a)
    (hs : xs ⊆ ys) : Untouched xs a := fun w hw => h w (hs hw)

theorem getElem?_replay_of_untouched (h : Untouched log a) : (replay m log)[a]? = m[a]? := by
  induction log generalizing m with
  | nil => rfl
  | cons w log ih =>
    rw [replay_cons, ih (h.subset (subset_cons_self ..)), w.getElem?_apply]
    simp [h w (mem_cons_self ..)]

theorem mem_replay_of_untouched (h : Untouched log a) : a ∈ replay m log ↔ a ∈ m := by
  rw [Std.ExtTreeMap.mem_iff_isSome_getElem?, Std.ExtTreeMap.mem_iff_isSome_getElem?,
    getElem?_replay_of_untouched h]

/-- A touched key is decided by the log alone, whatever the map was before. -/
theorem getElem?_replay_of_touched (h : ¬ Untouched log a)
    (m m' : OrdMap α β) : (replay m log)[a]? = (replay m' log)[a]? := by
  induction log generalizing m m' with
  | nil => exact absurd (fun w hw => absurd hw not_mem_nil) h
  | cons w log ih =>
    by_cases hl : Untouched log a
    · have hw : w.key = a := by
        by_contra hne
        exact h fun x hx => by
          rcases mem_cons.mp hx with rfl | hx
          · exact hne
          · exact hl x hx
      simp [replay_cons, getElem?_replay_of_untouched hl, w.getElem?_apply, hw, ite_true]
    · simp only [replay_cons]
      exact ih hl _ _

/-- Two maps that agree off the touched keys have the same replay. -/
theorem replay_congr {m m' : OrdMap α β}
    (h : ∀ a, Untouched log a → m[a]? = m'[a]?) : replay m log = replay m' log := by
  apply Std.ExtTreeMap.ext_getElem?
  intro a
  by_cases hu : Untouched log a
  · rw [getElem?_replay_of_untouched hu, getElem?_replay_of_untouched hu, h a hu]
  · exact getElem?_replay_of_touched hu m m'

/-- A log whose entries all copy from one map brings over the touched keys and no others. -/
theorem getElem?_replay_of_copies {src : OrdMap α β} (h : ∀ w ∈ log, w.value = src[w.key]?) :
    (replay m log)[a]? = if Untouched log a then m[a]? else src[a]? := by
  induction log generalizing m with
  | nil => simp [Untouched]
  | cons w log ih =>
    have hw := h w (mem_cons_self ..)
    rw [replay_cons, ih fun x hx => h x (mem_cons_of_mem _ hx), w.getElem?_apply, hw]
    by_cases hl : Untouched log a
    · by_cases hk : w.key = a
      · have hu : ¬ Untouched (w :: log) a := fun hu => hu w (mem_cons_self ..) hk
        simp [hl, hu, hk]
      · have hu : Untouched (w :: log) a := by simpa [Untouched, hk] using hl
        simp [hl, hu, hk]
    · have hu : ¬ Untouched (w :: log) a := fun hu => hl (hu.subset (subset_cons_self ..))
      simp [hl, hu]

/-- Logs without a common key can be exchanged. -/
theorem replay_comm (h : ∀ w ∈ xs, Untouched ys w.key) :
    replay (replay m xs) ys = replay (replay m ys) xs := by
  apply Std.ExtTreeMap.ext_getElem?
  intro a
  by_cases hx : Untouched xs a
  · by_cases hy : Untouched ys a
    · simp [getElem?_replay_of_untouched hx, getElem?_replay_of_untouched hy]
    · rw [getElem?_replay_of_untouched hx, getElem?_replay_of_touched hy]
  · have hy : Untouched ys a := by
      by_contra hy
      refine hx fun w hw hk => hy ?_
      rw [← hk]
      exact h w hw
    rw [getElem?_replay_of_untouched hy, getElem?_replay_of_touched hx]

/-- The entries at positions `i` up to and excluding `j`. -/
def stretch {γ : Type} (log : List γ) (i j : Nat) : List γ := (log.take j).drop i

theorem take_append_stretch {log : List γ} (h : i ≤ j) :
    log.take i ++ stretch log i j = log.take j := by
  have ht : (log.take j).take i = log.take i := by rw [take_take, Nat.min_eq_left h]
  rw [stretch, ← ht, take_append_drop]

theorem stretch_subset {log : List γ} {k : Nat} (h : j ≤ k) :
    stretch log i j ⊆ stretch log i k := by
  have ht : (log.take k).take j = log.take j := by rw [take_take, Nat.min_eq_left h]
  intro w hw
  rw [stretch, ← ht, drop_take] at hw
  exact mem_of_mem_take hw

@[simp] theorem stretch_self {log : List γ} : stretch log i i = [] := by
  simp [stretch]

theorem stretch_length {log : List γ} : stretch log i log.length = log.drop i := by
  rw [stretch, take_length]

/-- A stretch does not change when the log grows behind it. -/
theorem stretch_append_of_le {log log' : List γ} (h : j ≤ log.length) :
    stretch (log ++ log') i j = stretch log i j := by
  rw [stretch, stretch, take_append_of_le_length h]

/-- A stretch extended by the next entry. -/
theorem stretch_succ {log : List γ} (hi : i ≤ j) {x : γ} {rest : List γ}
    (h : log.drop j = x :: rest) : stretch log i (j + 1) = stretch log i j ++ [x] := by
  have hj : j < log.length := by
    by_contra hlen
    rw [drop_eq_nil_of_le (Nat.le_of_not_lt hlen)] at h
    cases h
  have hx : log[j] = x := by
    rw [drop_eq_getElem_cons hj] at h
    exact (cons.inj h).1
  rw [stretch, stretch, take_succ_eq_append_getElem hj, hx, drop_append_of_le_length]
  rw [length_take]
  omega

theorem map_stretch {γ δ : Type} {f : γ → δ} {log : List γ} :
    (stretch log i j).map f = stretch (log.map f) i j := by
  simp [stretch]

omit [Std.LawfulEqOrd α] [DecidableEq α] in
/-- Catching up from position `i` to position `j`. -/
theorem replay_stretch (h : i ≤ j) :
    replay (replay m (log.take i)) (stretch log i j) = replay m (log.take j) := by
  rw [← replay_append, take_append_stretch h]

/-- A store at position `j` that re-applies from an older position `i` up to a later
position `k` ends at position `k`. -/
theorem replay_stretch_again (m : OrdMap α β) (log : List (Write α β)) {k : Nat} (hij : i ≤ j)
    (hjk : j ≤ k) : replay (replay m (log.take j)) (stretch log i k) = replay m (log.take k) := by
  rw [← replay_stretch (Nat.le_trans hij hjk)]
  apply replay_congr
  intro a ha
  rw [← replay_stretch hij]
  exact getElem?_replay_of_untouched (ha.subset (stretch_subset hjk))

/-- A store one entry ahead of the re-applied stretch ends at one of the two positions. -/
theorem replay_stretch_behind {k : Nat} (hik : i ≤ k) (hk : k < log.length) :
    replay (replay m (log.take (k + 1))) (stretch log i k) = replay m (log.take k) ∨
      replay (replay m (log.take (k + 1))) (stretch log i k) = replay m (log.take (k + 1)) := by
  have hlast : log.take (k + 1) = log.take k ++ [log[k]] := by
    rw [take_succ_eq_append_getElem hk]
  by_cases hu : Untouched (stretch log i k) log[k].key
  · -- the newest entry's key is not re-applied, so it commutes with the stretch
    right
    apply Std.ExtTreeMap.ext_getElem?
    intro a
    by_cases ha : Untouched (stretch log i k) a
    · exact getElem?_replay_of_untouched ha
    · have hne : log[k].key ≠ a := fun he => ha (he ▸ hu)
      rw [getElem?_replay_of_touched ha _ (replay m (log.take i)), replay_stretch hik,
        hlast, replay_concat, Write.getElem?_apply]
      simp [hne]
  · -- the newest entry's key is overwritten by the stretch's own last value
    left
    rw [← replay_stretch_again m log hik (Nat.le_refl k)]
    apply replay_congr
    intro a ha
    have hne : log[k].key ≠ a := fun he => hu (he ▸ ha)
    rw [hlast, replay_concat, Write.getElem?_apply]
    simp [hne]

end Gedis.Core
