import Mathlib.Tactic.Common

/-!
# Iterations by position

A listing is handed out page by page. The cursor is the position of the next page, and every call
sees the listing as it is by then. An element that is there during the whole iteration is handed out
as long as no change between two calls moves it from behind the cursor to before it.
-/

namespace Gedis.Core

open List

/-- One call of an iteration: the listing it sees and the number of elements it takes. -/
structure PageCall (α : Type) where
  listing : List α
  count : Nat

namespace PageCall

variable {α : Type}

/-- The elements that a call hands out. -/
def window (c : PageCall α) (cursor : Nat) : List α := (c.listing.drop cursor).take c.count

/-- The cursor for the next call; zero at the end. -/
def next (c : PageCall α) (cursor : Nat) : Nat :=
  if c.listing.length ≤ cursor + c.count then 0 else cursor + c.count

theorem map_window {β : Type} {f : α → β} {xs : List α} {count cursor : Nat} :
    ((mk xs count).window cursor).map f = (mk (xs.map f) count).window cursor := by
  rw [window, window, map_take, map_drop]

theorem next_map {β : Type} {f : α → β} {xs : List α} {count cursor : Nat} :
    (mk (xs.map f) count).next cursor = (mk xs count).next cursor := by
  rw [next, next, length_map]

/-- The calls go on until the cursor comes back as zero. -/
def Complete : Nat → List (PageCall α) → Prop
  | _, [] => False
  | cursor, c :: cs => (c.next cursor = 0 ∧ cs = []) ∨ (c.next cursor ≠ 0 ∧ Complete (c.next cursor) cs)

/-- What the calls hand out. -/
def handed : Nat → List (PageCall α) → List α
  | _, [] => []
  | cursor, c :: cs => c.window cursor ++ handed (c.next cursor) cs

variable [DecidableEq α]

/-- No change between two calls moves an element from behind the cursor to before it. -/
def Keeps (x : α) : Nat → List (PageCall α) → Prop
  | cursor, c :: c' :: cs =>
    (c.next cursor ≤ c.listing.idxOf x → c.next cursor ≤ c'.listing.idxOf x) ∧
      Keeps x (c.next cursor) (c' :: cs)
  | _, _ => True

variable {x : α} {cursor : Nat}

theorem mem_window {c : PageCall α} (hx : x ∈ c.listing) (hle : cursor ≤ c.listing.idxOf x)
    (hlt : c.listing.idxOf x < cursor + c.count) : x ∈ c.window cursor := by
  have hpos := idxOf_lt_length_of_mem hx
  refine mem_of_getElem? (i := c.listing.idxOf x - cursor) ?_
  rw [window, getElem?_take_of_lt (by omega), getElem?_drop, Nat.add_sub_cancel' hle]
  rw [getElem?_eq_getElem hpos, getElem_idxOf hpos]

/-- An element at or behind the cursor is handed out. -/
theorem mem_handed {c : PageCall α} {cs : List (PageCall α)} (hcomplete : Complete cursor (c :: cs))
    (hpresent : ∀ d ∈ c :: cs, x ∈ d.listing) (hcount : ∀ d ∈ c :: cs, 0 < d.count)
    (hkeeps : Keeps x cursor (c :: cs)) (hle : cursor ≤ c.listing.idxOf x) :
    x ∈ handed cursor (c :: cs) := by
  induction cs generalizing cursor c with
  | nil =>
    have hx := hpresent c (mem_cons_self ..)
    have hpos := idxOf_lt_length_of_mem hx
    have hlast : c.next cursor = 0 := by
      rcases hcomplete with h | h
      · exact h.1
      · exact h.2.elim
    have hend : c.listing.length ≤ cursor + c.count := by
      have hc := hcount c (mem_cons_self ..)
      rw [next] at hlast
      split at hlast <;> omega
    exact mem_append_left _ (mem_window hx hle (by omega))
  | cons c' cs ih =>
    have hx := hpresent c (mem_cons_self ..)
    by_cases hlt : c.listing.idxOf x < cursor + c.count
    · exact mem_append_left _ (mem_window hx hle hlt)
    · have hpos := idxOf_lt_length_of_mem hx
      have hnext : c.next cursor = cursor + c.count := by
        rw [next, if_neg (by omega)]
      apply mem_append_right
      refine ih ?_ (fun d hd => hpresent d (mem_cons_of_mem _ hd))
        (fun d hd => hcount d (mem_cons_of_mem _ hd)) hkeeps.2 (hkeeps.1 (by omega))
      rcases hcomplete with h | h
      · exact absurd h.2 (cons_ne_nil _ _)
      · exact h.2

omit [DecidableEq α] in
/-- Only listed elements are handed out. -/
theorem mem_listing_of_mem_handed {cs : List (PageCall α)} (h : x ∈ handed cursor cs) :
    ∃ c ∈ cs, x ∈ c.listing := by
  induction cs generalizing cursor with
  | nil => cases h
  | cons c cs ih =>
    rcases mem_append.mp h with h | h
    · exact ⟨c, mem_cons_self .., mem_of_mem_drop (mem_of_mem_take h)⟩
    · obtain ⟨d, hd, hx⟩ := ih h
      exact ⟨d, mem_cons_of_mem _ hd, hx⟩

end PageCall

end Gedis.Core
