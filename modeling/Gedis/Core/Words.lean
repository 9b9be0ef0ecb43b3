import Mathlib.Data.List.Find
import Gedis.Core.Bytes

/-!
# Words and lines of a text

A text is cut into words at white space and into lines at line feeds. Words without white space that
are joined by blanks are found again, and so are lines without line feeds.
-/

namespace Gedis.Core

open List

variable {c : UInt8} {t rest : Bytes} {ts : List Bytes}

/-- The white-space characters in UTF-8. The first byte of a character is never found inside another
character, so they can be looked for byte by byte. -/
def spaces : List Bytes :=
  [[9], [10], [11], [12], [13], [32], [0xC2, 0x85], [0xC2, 0xA0], [0xE1, 0x9A, 0x80],
    [0xE2, 0x80, 0x80], [0xE2, 0x80, 0x81], [0xE2, 0x80, 0x82], [0xE2, 0x80, 0x83],
    [0xE2, 0x80, 0x84], [0xE2, 0x80, 0x85], [0xE2, 0x80, 0x86], [0xE2, 0x80, 0x87],
    [0xE2, 0x80, 0x88], [0xE2, 0x80, 0x89], [0xE2, 0x80, 0x8A], [0xE2, 0x80, 0xA8],
    [0xE2, 0x80, 0xA9], [0xE2, 0x80, 0xAF], [0xE2, 0x81, 0x9F], [0xE3, 0x80, 0x80]]

/-- The number of bytes of the white-space character at the front of a text. -/
def spaceWidth (t : Bytes) : Nat := ((spaces.find? fun s => s.isPrefixOf t).map List.length).getD 0

/-- The bytes of a text, each with whether it belongs to a white-space character; `n` more bytes of
such a character come first. -/
def mark : Nat → Bytes → List (UInt8 × Bool)
  | _, [] => []
  | 0, b :: bs => (b, decide (0 < spaceWidth (b :: bs))) :: mark (spaceWidth (b :: bs) - 1) bs
  | n + 1, b :: bs => (b, true) :: mark n bs

/-- No byte belongs to white space. -/
def Solid (t : Bytes) : Prop := ∀ p ∈ mark 0 t, p.2 = false

instance (t : Bytes) : Decidable (Solid t) :=
  List.decidableBAll (fun p : UInt8 × Bool => p.2 = false) (mark 0 t)

/-- A byte that does not stand inside a white-space character, only alone or at the front. -/
def Detached (c : UInt8) : Prop := ∀ s ∈ spaces, c ∉ s.tail

instance (c : UInt8) : Decidable (Detached c) :=
  List.decidableBAll (fun s : Bytes => c ∉ s.tail) spaces

theorem isPrefixOf_append_cons {s : Bytes} (hs : c ∉ s) :
    s.isPrefixOf (t ++ c :: rest) = s.isPrefixOf t := by
  induction s generalizing t with
  | nil => rfl
  | cons x s ih =>
    rw [mem_cons, not_or] at hs
    cases t with
    | nil =>
      have hne : (x == c) = false := beq_eq_false_iff_ne.mpr (Ne.symm hs.1)
      simp [isPrefixOf, hne]
    | cons => simp only [cons_append, isPrefixOf, ih hs.2]

/-- What follows behind a detached byte does not matter for the front. -/
theorem spaceWidth_append (hc : Detached c) (b : UInt8) (t rest : Bytes) :
    spaceWidth (b :: t ++ c :: rest) = spaceWidth (b :: t) := by
  have hsame : ∀ s ∈ spaces, s.isPrefixOf (b :: t ++ c :: rest) = s.isPrefixOf (b :: t) := by
    intro s hs
    have htail := hc s hs
    cases s with
    | nil => rfl
    | cons =>
      rw [tail_cons] at htail
      simp [isPrefixOf, isPrefixOf_append_cons htail]
  rw [spaceWidth, spaceWidth, find?_congr hsame]

/-- A byte that starts no white-space character. -/
def Plain (c : UInt8) : Prop := ∀ s ∈ spaces, s.head? ≠ some c

instance (c : UInt8) : Decidable (Plain c) :=
  List.decidableBAll (fun s : Bytes => s.head? ≠ some c) spaces

theorem spaceWidth_plain (h : Plain c) : spaceWidth (c :: t) = 0 := by
  have hnone : spaces.find? (fun s => s.isPrefixOf (c :: t)) = none := by
    rw [find?_eq_none]
    intro s hs
    have hhead := h s hs
    cases s with
    | nil => exact absurd hs (by decide)
    | cons x =>
      have hne : (x == c) = false := beq_eq_false_iff_ne.mpr fun hx => hhead (congrArg some hx)
      simp [isPrefixOf, hne]
  rw [spaceWidth, hnone]
  rfl

theorem solid_cons {b : UInt8} : Solid (b :: t) ↔ spaceWidth (b :: t) = 0 ∧ Solid t := by
  rw [Solid, mark, forall_mem_cons, decide_eq_false_iff_not, Nat.not_lt, Nat.le_zero]
  constructor
  · rintro ⟨hzero, h⟩
    rw [hzero] at h
    exact ⟨hzero, h⟩
  · rintro ⟨hzero, h⟩
    rw [hzero]
    exact ⟨rfl, h⟩

theorem Solid.cons (h : Solid t) (hc : Plain c) : Solid (c :: t) :=
  solid_cons.mpr ⟨spaceWidth_plain hc, h⟩

theorem solid_nil : Solid [] := fun _ h => absurd h not_mem_nil

theorem solid_of_plain (h : ∀ c ∈ t, Plain c) : Solid t := by
  induction t with
  | nil => exact solid_nil
  | cons c t ih =>
    obtain ⟨hc, ht⟩ := forall_mem_cons.mp h
    exact (ih ht).cons hc

theorem mark_of_solid (h : Solid t) : mark 0 t = t.map (·, false) := by
  induction t with
  | nil => rfl
  | cons b t ih =>
    obtain ⟨hzero, ht⟩ := solid_cons.mp h
    rw [mark, hzero, ih ht]
    rfl

/-- A solid text ends in front of a detached byte. -/
theorem mark_append (hc : Detached c) (h : Solid t) :
    mark 0 (t ++ c :: rest) = t.map (·, false) ++ mark 0 (c :: rest) := by
  induction t with
  | nil => rfl
  | cons b t ih =>
    obtain ⟨hzero, ht⟩ := solid_cons.mp h
    have hwidth := spaceWidth_append hc b t rest
    rw [cons_append] at hwidth ⊢
    rw [mark, hwidth, hzero, ih ht]
    rfl

/-- Adding a detached byte that is no white space. -/
theorem Solid.concat (h : Solid t) (hc : Detached c) (hspace : spaceWidth [c] = 0) :
    Solid (t ++ [c]) := by
  intro p hp
  rw [mark_append hc h, mem_append] at hp
  rcases hp with hp | hp
  · obtain ⟨b, -, rfl⟩ := mem_map.mp hp
    rfl
  · rw [mark, hspace] at hp
    simpa [mark] using congrArg Prod.snd (mem_singleton.mp hp)

theorem Solid.not_mem (h : Solid t) (hc : ∀ rest, spaceWidth (c :: rest) ≠ 0) : c ∉ t := by
  induction t with
  | nil => exact not_mem_nil
  | cons b t ih =>
    obtain ⟨hzero, ht⟩ := solid_cons.mp h
    rw [mem_cons, not_or]
    refine ⟨?_, ih ht⟩
    rintro rfl
    exact hc t hzero

/-- The maximal runs of bytes that belong to no white space; `cur` is the run so far. -/
def fieldsFrom (cur : Bytes) : List (UInt8 × Bool) → List Bytes
  | [] => if cur = [] then [] else [cur]
  | (b, false) :: ms => fieldsFrom (cur ++ [b]) ms
  | (_, true) :: ms => if cur = [] then fieldsFrom [] ms else cur :: fieldsFrom [] ms

/-- The words of a text. -/
def splitFields (t : Bytes) : List Bytes := fieldsFrom [] (mark 0 t)

/-- The text without white space at both ends. -/
def trimSpace (t : Bytes) : Bytes :=
  (((mark 0 t).dropWhile (·.2)).reverse.dropWhile (·.2)).reverse.map (·.1)

/-- Words with a blank between each two. -/
def joinFields : List Bytes → Bytes
  | [] => []
  | [t] => t
  | t :: ts => t ++ 32 :: joinFields ts

theorem fieldsFrom_unmarked (cur t : Bytes) (ms : List (UInt8 × Bool)) :
    fieldsFrom cur (t.map (·, false) ++ ms) = fieldsFrom (cur ++ t) ms := by
  induction t generalizing cur with
  | nil => rw [map_nil, nil_append, append_nil]
  | cons b t ih => rw [map_cons, cons_append, fieldsFrom, ih, append_assoc]; rfl

theorem joinFields_cons (h : ts ≠ []) : joinFields (t :: ts) = t ++ 32 :: joinFields ts := by
  obtain ⟨t', ts', rfl⟩ := exists_cons_of_ne_nil h
  rfl

theorem detached_blank : Detached 32 := by decide

theorem mark_blank : mark 0 (32 :: rest) = (32, true) :: mark 0 rest := rfl

theorem splitFields_join (h : ∀ t ∈ ts, Solid t ∧ t ≠ []) : splitFields (joinFields ts) = ts := by
  induction ts with
  | nil => rfl
  | cons t ts ih =>
    obtain ⟨⟨hsolid, hne⟩, hrest⟩ := forall_mem_cons.mp h
    by_cases hts : ts = []
    · subst hts
      have hfields := fieldsFrom_unmarked [] t []
      rw [append_nil, nil_append] at hfields
      rw [joinFields, splitFields, mark_of_solid hsolid, hfields, fieldsFrom, if_neg hne]
    · rw [joinFields_cons hts, splitFields, mark_append detached_blank hsolid, fieldsFrom_unmarked,
        mark_blank, nil_append, fieldsFrom, if_neg hne]
      exact congrArg _ (ih hrest)

theorem map_fst_mark {n : Nat} : (mark n t).map (·.1) = t := by
  induction t generalizing n with
  | nil => cases n <;> rfl
  | cons b t ih =>
    cases n with
    | zero | succ n => rw [mark, map_cons, ih]

/-- A text without white space at its ends is trimmed to itself. -/
theorem trimSpace_eq {b b' : UInt8} {ms ms' : List (UInt8 × Bool)}
    (hfront : mark 0 t = (b, false) :: ms) (hback : mark 0 t = ms' ++ [(b', false)]) :
    trimSpace t = t := by
  have hdrop : (mark 0 t).dropWhile (·.2) = mark 0 t := by
    rw [hfront]
    rfl
  have hreverse : (mark 0 t).reverse.dropWhile (·.2) = (mark 0 t).reverse := by
    rw [hback, reverse_append]
    rfl
  rw [trimSpace, hdrop, hreverse, reverse_reverse, map_fst_mark]

theorem mark_join_front (hsolid : Solid t) (hne : t ≠ []) :
    ∃ b ms, mark 0 (joinFields (t :: ts)) = (b, false) :: ms := by
  obtain ⟨b, t, rfl⟩ := exists_cons_of_ne_nil hne
  by_cases hts : ts = []
  · subst hts
    exact ⟨b, t.map (·, false), mark_of_solid hsolid⟩
  · rw [joinFields_cons hts, mark_append detached_blank hsolid]
    exact ⟨b, _, rfl⟩

theorem mark_join_back (h : ∀ t ∈ ts, Solid t ∧ t ≠ []) (hne : ts ≠ []) :
    ∃ b ms, mark 0 (joinFields ts) = ms ++ [(b, false)] := by
  induction ts with
  | nil => exact absurd rfl hne
  | cons t ts ih =>
    obtain ⟨⟨hsolid, ht⟩, hrest⟩ := forall_mem_cons.mp h
    by_cases hts : ts = []
    · subst hts
      rw [joinFields, mark_of_solid hsolid, ← dropLast_concat_getLast ht, map_append]
      exact ⟨t.getLast ht, _, rfl⟩
    · obtain ⟨b, ms, hms⟩ := ih hrest hts
      rw [joinFields_cons hts, mark_append detached_blank hsolid, mark_blank, hms, ← cons_append,
        ← append_assoc]
      exact ⟨b, _, rfl⟩

theorem trimSpace_join (h : ∀ t ∈ ts, Solid t ∧ t ≠ []) :
    trimSpace (joinFields ts) = joinFields ts := by
  cases ts with
  | nil => rfl
  | cons t ts =>
    obtain ⟨hsolid, hne⟩ := h t (mem_cons_self ..)
    obtain ⟨b, ms, hfront⟩ := mark_join_front hsolid hne
    obtain ⟨b', ms', hback⟩ := mark_join_back h (cons_ne_nil t ts)
    exact trimSpace_eq hfront hback

theorem joinFields_append {us : List Bytes} (hts : ts ≠ []) (hus : us ≠ []) :
    joinFields (ts ++ us) = joinFields ts ++ 32 :: joinFields us := by
  induction ts with
  | nil => exact absurd rfl hts
  | cons t ts ih =>
    by_cases hempty : ts = []
    · subst hempty
      exact joinFields_cons hus
    · have hboth : ts ++ us ≠ [] := append_ne_nil_of_left_ne_nil hempty us
      rw [cons_append, joinFields_cons hboth, ih hempty, joinFields_cons hempty,
        append_assoc, cons_append]

/-- Groups of words that are joined one by one and then together. -/
theorem joinFields_map_join {tss : List (List Bytes)} (h : ∀ ts ∈ tss, ts ≠ []) :
    joinFields (tss.map joinFields) = joinFields tss.flatten := by
  induction tss with
  | nil => rfl
  | cons ts tss ih =>
    obtain ⟨hts, hrest⟩ := forall_mem_cons.mp h
    by_cases hempty : tss = []
    · subst hempty
      rw [flatten_cons, flatten_nil, append_nil]
      rfl
    · have hflat : tss.flatten ≠ [] := by
        obtain ⟨us, tss, rfl⟩ := exists_cons_of_ne_nil hempty
        exact append_ne_nil_of_left_ne_nil (hrest us (mem_cons_self ..)) _
      have hmap : tss.map joinFields ≠ [] := fun hnil => hempty (map_eq_nil_iff.mp hnil)
      rw [map_cons, joinFields_cons hmap, ih hrest, flatten_cons,
        joinFields_append hts hflat]

/-- The lines of a text; what follows behind the last line feed is a line as well. -/
def splitLines : Bytes → List Bytes
  | [] => [[]]
  | b :: bs =>
    if b = 10 then [] :: splitLines bs
    else
      match splitLines bs with
      | [] => [[b]]
      | line :: lines => (b :: line) :: lines

theorem splitLines_append {line : Bytes} (h : 10 ∉ line) :
    splitLines (line ++ 10 :: rest) = line :: splitLines rest := by
  induction line with
  | nil => rfl
  | cons b line ih =>
    rw [mem_cons, not_or] at h
    rw [cons_append, splitLines, if_neg (Ne.symm h.1), ih h.2]

theorem splitLines_flatMap {α : Type} {f : α → Bytes} {xs : List α} (h : ∀ x ∈ xs, 10 ∉ f x) :
    splitLines (xs.flatMap fun x => f x ++ [10]) = xs.map f ++ [[]] := by
  induction xs with
  | nil => rfl
  | cons x xs ih =>
    obtain ⟨hx, hrest⟩ := forall_mem_cons.mp h
    rw [flatMap_cons, append_assoc, singleton_append, splitLines_append hx, ih hrest]
    rfl

theorem not_mem_joinFields (hc : c ≠ 32) (h : ∀ t ∈ ts, c ∉ t) : c ∉ joinFields ts := by
  induction ts with
  | nil => exact not_mem_nil
  | cons t ts ih =>
    obtain ⟨ht, hrest⟩ := forall_mem_cons.mp h
    by_cases hts : ts = []
    · subst hts
      exact ht
    · rw [joinFields_cons hts, mem_append, mem_cons, not_or, not_or]
      exact ⟨ht, hc, ih hrest⟩

theorem lineFeed_not_mem_join (h : ∀ t ∈ ts, Solid t) : 10 ∉ joinFields ts :=
  not_mem_joinFields (by decide) fun t ht => (h t ht).not_mem fun _ => Nat.one_ne_zero

/-- The lines that a scanner finds: what follows behind the last line feed is a line unless it is
empty. -/
def scanLines (t : Bytes) : List Bytes :=
  let lines := splitLines t
  if lines.getLast? = some [] then lines.dropLast else lines

/-- A line without a carriage return at its end. -/
def dropCR (line : Bytes) : Bytes := if line.getLast? = some 13 then line.dropLast else line

theorem scanLines_flatMap {α : Type} {f : α → Bytes} {xs : List α} (h : ∀ x ∈ xs, 10 ∉ f x) :
    scanLines (xs.flatMap fun x => f x ++ [10]) = xs.map f := by
  rw [scanLines, splitLines_flatMap h]
  simp

theorem dropCR_join (h : ∀ t ∈ ts, Solid t) : dropCR (joinFields ts) = joinFields ts := by
  have hnot : 13 ∉ joinFields ts :=
    not_mem_joinFields (by decide) fun t ht => (h t ht).not_mem fun _ => Nat.one_ne_zero
  rw [dropCR, if_neg]
  exact fun hlast => hnot (mem_of_getLast? hlast)

end Gedis.Core
