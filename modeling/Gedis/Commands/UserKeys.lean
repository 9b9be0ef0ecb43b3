import Mathlib.Data.List.Induction
import Gedis.Core.Scan
import Gedis.Datastruct.Codec

/-!
# User keys of a raw store

User keys are found by probing the type prefixes in a fixed order. The enumeration of all
user keys scans the store once per type prefix and keeps the first record of each name,
which is the record that probing finds.
-/

namespace Gedis.Commands

open Gedis.Core Datastruct List

variable {found : List (Bytes × Bytes)} {p : Prefix} {key name raw : Bytes}

/-- The type prefixes in probing order. -/
def typePrefixes : List Prefix := [.s, .h, .l, .st, .z, .hll, .x, .vs]

theorem mem_typePrefixes : p ∈ typePrefixes := by
  cases p <;> decide

/-- Strip the longest matching type prefix. -/
def stripTypePrefix (raw : Bytes) : Option Bytes :=
  let best := typePrefixes.foldl (fun best p =>
    if p.bytes.isPrefixOf raw && best.length < p.bytes.length then p.bytes else best) []
  if best = [] then none else some (raw.drop best.length)

@[simp] theorem stripTypePrefix_rawKey : stripTypePrefix (rawKey p key) = some key := by
  cases p <;> simp [stripTypePrefix, typePrefixes, rawKey, Prefix.bytes, ascii]

/-- The type prefix under which probing finds a user key. -/
def probe {β : Type} (m : OrdMap Bytes β) (key : Bytes) : Option Prefix :=
  typePrefixes.find? fun p => decide (rawKey p key ∈ m)

/-- Add a scanned raw key unless its name was seen before. -/
def addRaw (found : List (Bytes × Bytes)) (raw : Bytes) : List (Bytes × Bytes) :=
  match stripTypePrefix raw with
  | none => found
  | some name => if name ∈ found.map Prod.fst then found else found ++ [(name, raw)]

/-- Scan the records of one type prefix. -/
def addType {β : Type} (m : OrdMap Bytes β) (found : List (Bytes × Bytes)) (p : Prefix) :
    List (Bytes × Bytes) :=
  (scanKeys m p.bytes).foldl addRaw found

/-- All user keys with the raw key of their first record, without duplicate names. -/
def allUserKeys {β : Type} (m : OrdMap Bytes β) : List (Bytes × Bytes) :=
  typePrefixes.foldl (addType m) []

/-- A record is added exactly when its name is new. -/
theorem mem_addRaw : (name, raw) ∈ addRaw found (rawKey p key) ↔
      (name, raw) ∈ found ∨ (name = key ∧ raw = rawKey p key ∧ key ∉ found.map Prod.fst) := by
  simp only [addRaw, stripTypePrefix_rawKey]
  split
  · next hseen => simp [hseen]
  · next hnew => simp [hnew]

/-- Its name is seen afterwards in any case. -/
theorem fst_addRaw : name ∈ (addRaw found (rawKey p key)).map Prod.fst ↔
      name ∈ found.map Prod.fst ∨ name = key := by
  simp only [addRaw, stripTypePrefix_rawKey]
  split
  · next hseen =>
    refine ⟨.inl, ?_⟩
    rintro (h | rfl)
    · exact h
    · exact hseen
  · rw [map_append, mem_append, map_singleton, mem_singleton]

private theorem mem_foldl_addRaw (p : Prefix) (raws : List Bytes)
    (hraws : ∀ raw ∈ raws, ∃ key, raw = rawKey p key) :
    ∀ (found : List (Bytes × Bytes)) (name raw : Bytes),
      (name, raw) ∈ raws.foldl addRaw found ↔
        (name, raw) ∈ found ∨ (raw ∈ raws ∧ raw = rawKey p name ∧ name ∉ found.map Prod.fst) := by
  induction raws with
  | nil => simp
  | cons first raws ih =>
    intro found name raw
    have ih := ih fun raw hraw => hraws raw (mem_cons_of_mem _ hraw)
    obtain ⟨key, rfl⟩ := hraws first (mem_cons_self ..)
    rw [foldl_cons, ih, mem_addRaw, fst_addRaw, mem_cons]
    constructor
    · rintro ((h | ⟨rfl, rfl, hn⟩) | ⟨h, hraw, hn⟩)
      · exact .inl h
      · exact .inr ⟨.inl rfl, rfl, hn⟩
      · exact .inr ⟨.inr h, hraw, fun h => hn (.inl h)⟩
    · rintro (h | ⟨h, rfl, hn⟩)
      · exact .inl (.inl h)
      · by_cases he : name = key
        · subst he
          exact .inl (.inr ⟨rfl, rfl, hn⟩)
        · rcases h with h | h
          · exact absurd (rawKey_inj.mp h).2 he
          · exact .inr ⟨h, rfl, fun h => h.elim hn he⟩

/-- Scanning one type adds its records of names not seen before. -/
theorem mem_addType {β : Type} {m : OrdMap Bytes β} : (name, raw) ∈ addType m found p ↔
      (name, raw) ∈ found ∨ (raw = rawKey p name ∧ raw ∈ m ∧ name ∉ found.map Prod.fst) := by
  have hscan : ∀ raw ∈ scanKeys m p.bytes, ∃ key, raw = rawKey p key := by
    intro raw hraw
    obtain ⟨t, ht⟩ := (mem_scanKeys.mp hraw).2
    exact ⟨t, ht.symm⟩
  rw [addType, mem_foldl_addRaw p _ hscan, mem_scanKeys]
  constructor
  · rintro (h | ⟨⟨hm, -⟩, hraw, hn⟩)
    · exact .inl h
    · exact .inr ⟨hraw, hm, hn⟩
  · rintro (h | ⟨hraw, hm, hn⟩)
    · exact .inl h
    · exact .inr ⟨⟨hm, by rw [hraw]; exact prefix_append _ _⟩, hraw, hn⟩

private theorem mem_foldl_addType {β : Type} (m : OrdMap Bytes β) (ps : List Prefix)
    (name raw : Bytes) :
    (name, raw) ∈ ps.foldl (addType m) [] ↔
      ∃ p, ps.find? (fun p => decide (rawKey p name ∈ m)) = some p ∧ raw = rawKey p name := by
  induction ps using reverseRecOn generalizing raw with
  | nil => simp
  | append_singleton ps p ih =>
    have hnames : name ∈ (ps.foldl (addType m) []).map Prod.fst ↔
        ps.find? (fun p => decide (rawKey p name ∈ m)) ≠ none := by
      rw [mem_map]
      constructor
      · rintro ⟨⟨n, r⟩, h, rfl⟩
        obtain ⟨q, hq, -⟩ := (ih r).mp h
        simp [hq]
      · intro h
        obtain ⟨q, hq⟩ := Option.ne_none_iff_exists'.mp h
        exact ⟨(name, rawKey q name), (ih _).mpr ⟨q, hq, rfl⟩, rfl⟩
    rw [foldl_append, foldl_cons, foldl_nil, mem_addType, ih, hnames,
      find?_append]
    cases hfind : ps.find? (fun p => decide (rawKey p name ∈ m)) with
    | some => simp
    | none =>
      by_cases hm : rawKey p name ∈ m
      · simp only [hm, find?_cons_of_pos, decide_true, Option.none_or, Option.some.injEq]
        constructor
        · rintro (⟨q, h, -⟩ | ⟨hraw, -, -⟩)
          · cases h
          · exact ⟨p, rfl, hraw⟩
        · rintro ⟨q, rfl, hraw⟩
          exact .inr ⟨hraw, by rw [hraw]; exact hm, by simp⟩
      · simp only [hm, decide_false, Bool.false_eq_true, not_false_eq_true,
          find?_cons_of_neg, find?_nil, Option.none_or]
        refine iff_of_false ?_ (by rintro ⟨q, h, -⟩; cases h)
        rintro (⟨q, h, -⟩ | ⟨hraw, hmem, -⟩)
        · cases h
        · exact hm (hraw ▸ hmem)

/-- The enumeration lists a user key with the record that probing finds, and no other. -/
theorem mem_allUserKeys {β : Type} {m : OrdMap Bytes β} :
    (name, raw) ∈ allUserKeys m ↔ ∃ p, probe m name = some p ∧ raw = rawKey p name :=
  mem_foldl_addType m typePrefixes name raw

/-- The prefixes that are stripped from published raw keys; vector sets are not among them. -/
def rawKeyPrefixes : List Prefix := [.hll, .st, .h, .l, .s, .x, .z]

/-- Strip one storage prefix; a raw key without one is returned as is. -/
def rawToUserKey (raw : Bytes) : Bytes :=
  match rawKeyPrefixes.find? fun p => p.bytes.isPrefixOf raw with
  | some p => raw.drop p.bytes.length
  | none => raw

theorem rawToUserKey_rawKey (hp : p ≠ .vs) : rawToUserKey (rawKey p key) = key := by
  cases p with
  | vs => exact absurd rfl hp
  | _ => simp [rawToUserKey, rawKeyPrefixes, rawKey, Prefix.bytes, ascii]

end Gedis.Commands
