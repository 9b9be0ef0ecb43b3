import Gedis.Commands.Stores

/-!
# The records of a user key

All records of a user key carry one type tag, each under a prefix that fits it. A tag
determines its prefix except for hashes, whose field deadlines are tagged as a hash but kept
under the prefix of streams. Beside this, the field deadlines may be required to accompany a
hash that has all the fields they name. Both properties are judged key by key.
-/

namespace Gedis.Commands

open Gedis.Core Datastruct Storage Std

variable {p q : Prefix} {t : UInt8} {raw key v key' : Bytes} {e : Entry} {m m' : OrdMap Bytes Bytes}

/-- A record under a type prefix may carry a type tag. -/
def fits : Prefix → UInt8 → Prop
  | .s, t => t = typeString
  | .h, t => t = typeHash
  | .l, t => t = typeList
  | .st, t => t = typeSet
  | .z, t => t = typeZSet
  | .hll, t => t = typeHLL
  | .x, t => t = typeStream ∨ t = typeHash
  | .vs, t => t = typeVector

instance (p : Prefix) (t : UInt8) : Decidable (fits p t) := by
  cases p <;> unfold fits <;> infer_instance

/-- Only the tag of a hash fits two prefixes. -/
theorem fits_unique (hp : fits p t) (hq : fits q t) (ht : t ≠ typeHash) : p = q := by
  cases p <;> cases q <;> simp only [fits] at hp hq <;>
    first
    | rfl
    | exact absurd hp ht
    | exact absurd hq ht
    | (rcases hp with rfl | rfl <;> revert hq ht <;> decide)

theorem fits_typeHash (h : fits p typeHash) : p = .h ∨ p = .x := by
  cases p <;> revert h <;> decide

theorem Kind.fits_tag (kind : Kind) : fits kind.pre kind.tag := by
  cases kind <;> decide

theorem Kind.tag_ne (kind : Kind) : kind.tag ≠ typeHash := by
  cases kind <;> decide

/-- The table gives each type its own prefix, never that of streams. -/
theorem fits_prefixForType (h : prefixForType t = some p) :
    fits p t ∧ p ≠ .x ∧ (t = typeHash → p = .h) := by
  simp only [prefixForType] at h
  split_ifs at h <;> cases h <;> subst_vars <;> decide

theorem fits_restorePrefix (h : restorePrefix t = some p) : fits p t ∧ (t = typeHash → p = .h) := by
  simp only [restorePrefix] at h
  split at h
  · next q hq =>
    cases h
    obtain ⟨hfit, -, hhash⟩ := fits_prefixForType hq
    exact ⟨hfit, hhash⟩
  · split_ifs at h <;> cases h <;> subst_vars <;> decide

/-- The decoded record under a raw key. -/
def entryAt (m : OrdMap Bytes Bytes) (raw : Bytes) : Option Entry := m[raw]?.bind decode

theorem entryAt_eq_some : entryAt m raw = some e ↔ ∃ v, m[raw]? = some v ∧ decode v = some e :=
  Option.bind_eq_some_iff

theorem entryAt_congr (h : m'[raw]? = m[raw]?) : entryAt m' raw = entryAt m raw := by
  rw [entryAt, entryAt, h]

/-- Records that are left were there before. -/
theorem entryAt_of_shrinks (hs : Shrinks m m') (he : entryAt m' raw = some e) :
    entryAt m raw = some e := by
  obtain ⟨v, hv, hd⟩ := entryAt_eq_some.mp he
  exact entryAt_eq_some.mpr ⟨v, hs.getElem? hv, hd⟩

theorem entryAt_insert {raw raw' v : Bytes} :
    entryAt (m.insert raw v) raw' = if raw = raw' then decode v else entryAt m raw' := by
  simp only [entryAt, OrdMap.getElem?_insert]
  split <;> rfl

/-- Writing under one type prefix leaves the records of the others. -/
theorem entryAt_insert_of_ne (h : p ≠ q) :
    entryAt (m.insert (rawKey p key) v) (rawKey q key') = entryAt m (rawKey q key') := by
  rw [entryAt_insert, ite_cond_eq_false _ _ (eq_false (rawKey_ne h))]

/-- Removing under one type prefix leaves the records of the others. -/
theorem entryAt_erase_of_ne (h : p ≠ q) :
    entryAt (m.erase (rawKey p key)) (rawKey q key') = entryAt m (rawKey q key') := by
  refine entryAt_congr ?_
  rw [OrdMap.getElem?_erase, ite_cond_eq_false _ _ (eq_false (rawKey_ne h))]

/-- Every record of a user key is an entry of the given type under a prefix that fits. -/
def OfType (m : OrdMap Bytes Bytes) (key : Bytes) (t : UInt8) : Prop :=
  ∀ p v, m[rawKey p key]? = some v → ∃ e, decode v = some e ∧ e.typ = t ∧ fits p t

/-- A user key has no records. -/
def Absent (m : OrdMap Bytes Bytes) (key : Bytes) : Prop := ∀ p, m[rawKey p key]? = none

theorem Absent.ofType (h : Absent m key) : OfType m key t := by
  intro p v hv
  rw [h p] at hv
  cases hv

theorem OfType.shrinks (h : OfType m key t) (hs : Shrinks m m') : OfType m' key t :=
  fun p v hv => h p v (hs.getElem? hv)

/-- Any entry of a key tells the type of all its records. -/
theorem OfType.entry (h : OfType m key t) (he : entryAt m (rawKey p key) = some e) :
    e.typ = t ∧ fits p t := by
  obtain ⟨v, hv, hd⟩ := entryAt_eq_some.mp he
  obtain ⟨e', hd', ht, hfit⟩ := h p v hv
  rw [hd] at hd'
  cases hd'
  exact ⟨ht, hfit⟩

/-- A record of the same type can be added, to this key or another. -/
theorem OfType.insert (h : OfType m key t) (hp : fits p t) (hv : decode v = some e) (ht : e.typ = t)
    : OfType (m.insert (rawKey p key') v) key t := by
  intro q w hw
  rw [OrdMap.getElem?_insert] at hw
  split at hw
  · next he =>
    cases hw
    rw [← (rawKey_inj.mp he).1]
    exact ⟨e, hv, ht, hp⟩
  · exact h q w hw

/-- The fields of an entry, none when its payload is not that of a hash. -/
def fieldsOf (e : Entry) : Fields :=
  match decodeHash e.payload with
  | .ok (m, _) => m
  | .error _ => ∅

/-- Field deadlines name at least one field, and only fields of the hash beside them. -/
def Covers (hash sidecar : Option Entry) : Prop :=
  ∀ e, sidecar = some e → e.typ = typeHash →
    (fieldsOf e).isEmpty = false ∧
      ∃ e', hash = some e' ∧ e'.typ = typeHash ∧ ∀ f ∈ fieldsOf e, f ∈ fieldsOf e'

/-- The records of a user key have one type and, where that is asked for, its field deadlines
accompany a hash. -/
structure Sound (S : Prop) (m : OrdMap Bytes Bytes) (key : Bytes) : Prop where
  ofType : ∃ t, OfType m key t
  covers : S → Covers (entryAt m (hashKey key)) (entryAt m (hashExpKey key))

variable {S : Prop} {m m' : OrdMap Bytes Bytes} {key : Bytes}

theorem Sound.congr (h : Sound S m key)
    (heq : ∀ p, m'[rawKey p key]? = m[rawKey p key]?) : Sound S m' key where
  ofType := by
    obtain ⟨t, ht⟩ := h.ofType
    exact ⟨t, fun p v hv => ht p v (by rw [← heq p, hv])⟩
  covers hS := by
    rw [hashKey, hashExpKey, entryAt_congr (heq .h), entryAt_congr (heq .x)]
    exact h.covers hS

theorem Sound.of_absent (h : Absent m key) : Sound S m key where
  ofType := ⟨0, h.ofType⟩
  covers _ e he := by
    rw [entryAt, hashExpKey, h .x] at he
    cases he

/-- Keys that are not hashes have no field deadlines. -/
theorem Sound.of_ofType (h : OfType m key t) (ht : t ≠ typeHash) : Sound S m key where
  ofType := ⟨t, h⟩
  covers _ _ he htyp := absurd ((h.entry he).1.symm.trans htyp) ht

/-- Hashes whose field deadlines stay are not lost. -/
def Spares (m m' : OrdMap Bytes Bytes) : Prop :=
  ∀ key, hashExpKey key ∈ m' → hashKey key ∈ m → hashKey key ∈ m'

/-- Records are lost, where that is asked for without separating field deadlines from their
hash. -/
def Loses (S : Prop) (m m' : OrdMap Bytes Bytes) : Prop := Shrinks m m' ∧ (S → Spares m m')

theorem Loses.refl (m : OrdMap Bytes Bytes) : Loses S m m := ⟨Shrinks.refl, fun _ _ _ h => h⟩

theorem Loses.trans {m₁ m₂ m₃ : OrdMap Bytes Bytes} (h : Loses S m₁ m₂) (h' : Loses S m₂ m₃) :
    Loses S m₁ m₃ := by
  refine ⟨h.1.trans h'.1, fun hS key hx hk => ?_⟩
  exact h'.2 hS key hx (h.2 hS key (h'.1.mem hx) hk)

/-- A hash whose field deadlines stay is there as before. -/
theorem Loses.entryAt_hash (hl : Loses S m m') (hS : S) (hx : hashExpKey key ∈ m')
    (he : entryAt m (hashKey key) = some e) : entryAt m' (hashKey key) = some e := by
  obtain ⟨w, hw, -⟩ := entryAt_eq_some.mp he
  have hmem := hl.2 hS key hx (ExtTreeMap.getElem?_eq_some_iff.mp hw).1
  rcases hl.1 (hashKey key) with heq | hnone
  · rw [entryAt_congr heq, he]
  · rw [ExtTreeMap.mem_iff_isSome_getElem?, hnone] at hmem
    cases hmem

theorem Sound.loses (h : Sound S m key) (hl : Loses S m m') : Sound S m' key where
  ofType := by
    obtain ⟨t, ht⟩ := h.ofType
    exact ⟨t, ht.shrinks hl.1⟩
  covers hS e he htyp := by
    obtain ⟨hne, e', he', htyp', hsub⟩ := h.covers hS e (entryAt_of_shrinks hl.1 he) htyp
    obtain ⟨v, hv, -⟩ := entryAt_eq_some.mp he
    have hx : hashExpKey key ∈ m' := (ExtTreeMap.getElem?_eq_some_iff.mp hv).1
    exact ⟨hne, e', hl.entryAt_hash hS hx he', htyp', hsub⟩

/-- The records of every user key are sound. -/
def Inv (S : Prop) (m : OrdMap Bytes Bytes) : Prop := ∀ key, Sound S m key

/-- Only records of one user key were removed. -/
def Removed (key : Bytes) (m m' : OrdMap Bytes Bytes) : Prop :=
  ∀ raw, m'[raw]? = m[raw]? ∨ m'[raw]? = none ∧ ∃ p, raw = rawKey p key

theorem Removed.refl : Removed key m m :=
  fun _ => .inl rfl

theorem Removed.erase (h : Removed key m m') : Removed key m (m'.erase (rawKey p key)) := by
  intro raw
  rw [OrdMap.getElem?_erase]
  split
  · next he => exact .inr ⟨rfl, p, he.symm⟩
  · exact h raw

theorem Removed.shrinks (h : Removed key m m') : Shrinks m m' := by
  intro raw
  rcases h raw with he | ⟨he, -⟩
  · exact .inl he
  · exact .inr he

/-- Other user keys keep their records. -/
theorem Removed.frame (h : Removed key m m') (hne : key' ≠ key) :
    m'[rawKey p key']? = m[rawKey p key']? := by
  rcases h (rawKey p key') with he | ⟨-, q, hq⟩
  · exact he
  · exact absurd (rawKey_inj.mp hq).2 hne

theorem Inv.loses (h : Inv S m) (hl : Loses S m m') : Inv S m' := fun key => (h key).loses hl

theorem Inv.empty : Inv S ∅ := fun _ => Sound.of_absent fun _ => by simp

/-- The invariant after a change of one key's records, which need not have been sound. -/
theorem Inv.of_others (h : ∀ key' ≠ key, Sound S m key')
    (hframe : ∀ key' ≠ key, ∀ p, m'[rawKey p key']? = m[rawKey p key']?)
    (hkey : Sound S m' key) : Inv S m' := by
  intro key'
  by_cases he : key' = key
  · rw [he]
    exact hkey
  · exact (h key' he).congr (hframe key' he)

theorem Inv.of_frame (h : Inv S m)
    (hframe : ∀ key' ≠ key, ∀ p, m'[rawKey p key']? = m[rawKey p key']?)
    (hkey : Sound S m' key) : Inv S m' :=
  Inv.of_others (fun key' _ => h key') hframe hkey

theorem insert_frame (m : OrdMap Bytes Bytes) (p : Prefix) (key v : Bytes) :
    ∀ key' ≠ key, ∀ q, (m.insert (rawKey p key) v)[rawKey q key']? = m[rawKey q key']? := by
  intro key' hne q
  rw [OrdMap.getElem?_insert, ite_cond_eq_false]
  exact eq_false fun he => hne (rawKey_inj.mp he).2.symm

theorem erase_frame :
    ∀ key' ≠ key, ∀ q, (m.erase (rawKey p key))[rawKey q key']? = m[rawKey q key']? := by
  intro key' hne q
  rw [OrdMap.getElem?_erase, ite_cond_eq_false]
  exact eq_false fun he => hne (rawKey_inj.mp he).2.symm

theorem Inv.removed (h : Inv S m) (hr : Removed key m m') (ha : Absent m' key) : Inv S m' :=
  h.of_frame (fun _ hne p => hr.frame hne) (Sound.of_absent ha)

/-- Writing a record of the type that the key has, other than a hash. -/
theorem Inv.store (h : Inv S m) (ht : OfType m key t) (hne : t ≠ typeHash) (hp : fits p t)
    (hv : decode v = some e) (he : e.typ = t) : Inv S (m.insert (rawKey p key) v) :=
  h.of_frame (insert_frame m p key v) (Sound.of_ofType (ht.insert hp hv he) hne)

/-- Writing the first record of a key; a hash goes under its own prefix. -/
theorem Inv.create (h : Inv S m) (ha : Absent m key) (hv : decode v = some e) (hp : fits p e.typ)
    (hhash : e.typ = typeHash → p = .h) : Inv S (m.insert (rawKey p key) v) := by
  have hof : OfType (m.insert (rawKey p key) v) key e.typ :=
    ha.ofType.insert hp hv rfl
  by_cases ht : e.typ = typeHash
  · refine h.of_frame (insert_frame m p key v) ⟨⟨_, hof⟩, fun _ e' he' => ?_⟩
    -- no field deadlines are there
    rw [hhash ht, hashExpKey, entryAt_insert_of_ne (by decide), entryAt, ha .x] at he'
    cases he'
  · exact h.of_frame (insert_frame m p key v) (Sound.of_ofType hof ht)

/-- A key has field deadlines. -/
def hasSidecar (m : OrdMap Bytes Bytes) (key : Bytes) : Bool :=
  (entryAt m (hashExpKey key)).any fun e => e.typ = typeHash

theorem hasSidecar_of_entry (he : entryAt m (hashExpKey key) = some e) (ht : e.typ = typeHash) :
    hasSidecar m key = true := by
  simp [hasSidecar, he, ht]

theorem hasSidecar_shrinks (hs : Shrinks m m') (h : hasSidecar m' key = true) :
    hasSidecar m key = true := by
  obtain ⟨e, he, ht⟩ := (Option.any_eq_true ..).mp h
  exact hasSidecar_of_entry (entryAt_of_shrinks hs he) (by simpa using ht)

/-- Removing one record; a hash must not leave field deadlines behind. -/
theorem Inv.erase (h : Inv S m)
    (hhash : S → p = .h → hasSidecar m key = false) : Inv S (m.erase (rawKey p key)) := by
  refine h.of_frame erase_frame ⟨?_, fun hS e he htyp => ?_⟩
  · obtain ⟨t, ht⟩ := (h key).ofType
    exact ⟨t, ht.shrinks (shrinks_erase _)⟩
  · have hold : entryAt m (hashExpKey key) = some e := entryAt_of_shrinks (shrinks_erase _) he
    have hp : p ≠ .h := by
      intro hp
      have hnone := hhash hS hp
      rw [hasSidecar_of_entry hold htyp] at hnone
      cases hnone
    rw [hashKey, entryAt_erase_of_ne hp]
    exact (h key).covers hS e hold htyp

/-- Writing a record back with another deadline. -/
theorem Inv.touch (h : Inv S m) (he : entryAt m (rawKey p key) = some e) {expiry : Int64} :
    Inv S (m.insert (rawKey p key) (encode e.typ expiry e.payload)) := by
  obtain ⟨t, ht⟩ := (h key).ofType
  obtain ⟨rfl, hp⟩ := ht.entry he
  refine h.of_frame (insert_frame m p key _) ⟨⟨_, ht.insert hp (decode_encode ..) rfl⟩, ?_⟩
  intro hS e' he' htyp'
  have hcov := (h key).covers hS
  -- the entry changed at most in its deadline, which neither its tag nor its fields depend on
  have hsame : ∀ q e', entryAt (m.insert (rawKey p key) (encode e.typ expiry e.payload))
      (rawKey q key) = some e' → ∃ e₀, entryAt m (rawKey q key) = some e₀ ∧ e₀.typ = e'.typ ∧
        fieldsOf e₀ = fieldsOf e' := by
    intro q e' he'
    rw [entryAt_insert] at he'
    split at he'
    · next hraw =>
      cases he'
      exact ⟨e, by rw [← hraw, he], rfl, rfl⟩
    · exact ⟨e', he', rfl, rfl⟩
  obtain ⟨x, hx, htx, hfx⟩ := hsame .x e' he'
  obtain ⟨hne, eh, heh, hth, hsub⟩ := hcov x hx (htx.trans htyp')
  rw [hfx] at hne hsub
  refine ⟨hne, ?_⟩
  rw [hashKey, entryAt_insert]
  split
  · next hraw =>
    rw [hashKey, ← hraw, he] at heh
    cases heh
    exact ⟨_, decode_encode .., hth, hsub⟩
  · exact ⟨eh, heh, hth, hsub⟩

/-- A key is free once the record of its type is removed, for a hash both of its records. -/
theorem OfType.absent (h : OfType m key t) (hs : Shrinks m m') (hq : fits q t)
    (hrem : m'[rawKey q key]? = none)
    (hhash : t = typeHash → m'[hashKey key]? = none ∧ m'[hashExpKey key]? = none) :
    Absent m' key := by
  intro p
  cases hv : m'[rawKey p key]? with
  | none => rfl
  | some v =>
    obtain ⟨e, -, -, hp⟩ := h p v (hs.getElem? hv)
    by_cases ht : t = typeHash
    · subst ht
      rcases fits_typeHash hp with rfl | rfl
      · rw [← hv]
        exact (hhash rfl).1
      · rw [← hv]
        exact (hhash rfl).2
    · rw [fits_unique hp hq ht, hrem] at hv
      cases hv

end Gedis.Commands
