import Gedis.Commands.TransferErrors

/-!
# What becomes of a renamed or copied key

A value is its record and, for a hash, the field deadlines in a second one. `RENAME` removes the field
deadlines before it copies them. `COPY` finds the raw keys by a table in which sketches and streams are
missing, so that it neither copies them nor removes them from the destination.
-/

namespace Gedis.Commands

open Gedis.Core Datastruct Storage World

variable {m R : OrdMap Bytes Bytes} {p q : Prefix} {key : Bytes}

/-- The prefixes of the records of a value: its own one and, for a hash, that of the field
deadlines. -/
def Belongs (typ : UInt8) (p q : Prefix) : Prop := q = p ∨ typ = typeHash ∧ q = .x

instance (typ : UInt8) (p q : Prefix) : Decidable (Belongs typ p q) :=
  inferInstanceAs (Decidable (_ ∨ _))

/-- The records of a value, by prefix. -/
def valueAt (m : OrdMap Bytes Bytes) (key : Bytes) (typ : UInt8) (p q : Prefix) : Option Bytes :=
  if Belongs typ p q then m[rawKey q key]? else none

theorem valueAt_of_belongs {typ : UInt8} (h : Belongs typ p q) :
    valueAt m key typ p q = m[rawKey q key]? := if_pos h

theorem valueAt_of_not {typ : UInt8} (h : ¬ Belongs typ p q) :
    valueAt m key typ p q = none := if_neg h

/-- The destination holds the value of the source and nothing else, the source nothing. -/
def Moved (m m' : OrdMap Bytes Bytes) (src dst : Bytes) (typ : UInt8) (p : Prefix) : Prop :=
  ∀ q, m'[rawKey q dst]? = valueAt m src typ p q ∧ m'[rawKey q src]? = none

/-- The destination holds the value of the source and nothing else, the source is as before. -/
def Copied (m m' : OrdMap Bytes Bytes) (src dst : Bytes) (typ : UInt8) (p : Prefix) : Prop :=
  ∀ q, m'[rawKey q dst]? = valueAt m src typ p q ∧ m'[rawKey q src]? = m[rawKey q src]?

/-- When `RENAME` gets through, then at its write the destination has no record left, but for the
field deadlines of a hash, which are those of the source, and the source no record besides its
value. -/
def RenameWhole (w : World) (src dst : Bytes) (sp : Prefix) (se : Entry) (val : Bytes) : Prop :=
  prefixForType se.typ = some sp → (∀ f, (w.seen src).found dst ≠ .failed f) →
    (renameRoom w src dst sp sp val).2 = .ok →
      ∀ q, (q ≠ sp → (renameRoom w src dst sp sp val).1.db[rawKey q dst]? =
          valueAt w.store.db src se.typ sp q) ∧
        (¬ Belongs se.typ sp q → (renameRoom w src dst sp sp val).1.db[rawKey q src]? = none)

/-- The room that `COPY` finds for the field deadlines of a hash. -/
def copyFieldsRoom (w : World) (src dst : Bytes) (p : Prefix) (val fields : Bytes) :
    Pebble × Outcome :=
  (((copyWrites w src dst p).next (.set (rawKey p dst) val)).next
    (.get (hashExpKey src))).store.makeRoom (hashExpKey dst) fields

/-- `COPY` gets through, at its last write the destination has no other record left, and no eviction
has hit the source or what was written. -/
def CopyWhole (w : World) (src dst : Bytes) (sp : Prefix) (se : Entry) (val : Bytes) : Prop :=
  prefixForType se.typ = some sp ∧ (∀ f, (w.seen src).found dst ≠ .failed f) ∧
    (∀ f, (copyLooks w src dst sp).found dst ≠ .failed f) ∧
    (copyRoom w src dst sp val).2 = .ok ∧
    match if se.typ = typeHash then (copyRoom w src dst sp val).1.db[hashExpKey src]? else none with
    | none => ∀ q, (copyRoom w src dst sp val).1.db[rawKey q src]? = w.store.db[rawKey q src]? ∧
        (q ≠ sp → (copyRoom w src dst sp val).1.db[rawKey q dst]? = none)
    | some fields =>
      let room := copyFieldsRoom w src dst sp val fields
      room.1.db[rawKey sp dst]? = some val ∧
        (room.2 = .ok ∨ room.1.db[hashExpKey dst]? = some fields) ∧
        ∀ q, room.1.db[rawKey q src]? = w.store.db[rawKey q src]? ∧
          (q ≠ sp → q ≠ .x → room.1.db[rawKey q dst]? = none)

section Whole

variable {w : World} {src dst : Bytes} {sp : Prefix} {se : Entry} {val : Bytes}

theorem restorePrefix_of_prefixForType {t : UInt8} (h : prefixForType t = some p) :
    restorePrefix t = some p := by
  rw [restorePrefix, h]

theorem getElem?_insert_rawKey {key' v : Bytes} : (m.insert (rawKey p key) v)[rawKey q key']? =
      if q = p ∧ key' = key then some v else m[rawKey q key']? := by
  rw [OrdMap.getElem?_insert]
  by_cases h : q = p ∧ key' = key
  · rw [if_pos h, if_pos (rawKey_inj.mpr ⟨h.1.symm, h.2.symm⟩)]
  · rw [if_neg h, if_neg fun he => h ⟨(rawKey_inj.mp he).1.symm, (rawKey_inj.mp he).2.symm⟩]

section

variable (hne : src ≠ dst)
include hne

/-- The records once `RENAME` has got through. -/
theorem moved_iff (hval : m[rawKey sp src]? = some val) {w' : World}
    (hw : w'.store.db = R.insert (rawKey sp dst) val) :
    Moved m (w'.cleared (rawKey sp src) se src).store.db src dst se.typ sp ↔
      ∀ q, (q ≠ sp → R[rawKey q dst]? = valueAt m src se.typ sp q) ∧
        (¬ Belongs se.typ sp q → R[rawKey q src]? = none) := by
  have hdst (q : Prefix) : (w'.cleared (rawKey sp src) se src).store.db[rawKey q dst]? =
      if q = sp then some val else R[rawKey q dst]? := by
    rw [getElem?_cleared, if_neg, hw, getElem?_insert_rawKey]
    · by_cases hq : q = sp
      · rw [if_pos ⟨hq, rfl⟩, if_pos hq]
      · rw [if_neg fun h => hq h.1, if_neg hq]
    · rintro (he | ⟨-, he⟩)
      · exact hne (rawKey_inj.mp he).2.symm
      · exact hne (rawKey_inj.mp he).2.symm
  have hsrc (q : Prefix) : (w'.cleared (rawKey sp src) se src).store.db[rawKey q src]? =
      if Belongs se.typ sp q then none else R[rawKey q src]? := by
    rw [getElem?_cleared]
    by_cases hq : Belongs se.typ sp q
    · rw [if_pos hq, if_pos]
      rcases hq with rfl | ⟨hhash, rfl⟩
      · exact .inl rfl
      · exact .inr ⟨hhash, rfl⟩
    · rw [if_neg hq, if_neg, hw, getElem?_insert_rawKey, if_neg fun h => hne h.2]
      rintro (he | ⟨hhash, he⟩)
      · exact hq (.inl (rawKey_inj.mp he).1)
      · exact hq (.inr ⟨hhash, (rawKey_inj.mp he).1⟩)
  refine forall_congr' fun q => ?_
  rw [hdst, hsrc]
  refine and_congr ?_ ?_
  · by_cases hq : q = sp
    · subst hq
      refine iff_of_true ?_ fun h => absurd rfl h
      rw [if_pos rfl, valueAt_of_belongs (.inl rfl), hval]
    · rw [if_neg hq]
      exact ⟨fun h _ => h, fun h => h hq⟩
  · by_cases hq : Belongs se.typ sp q
    · rw [if_pos hq]
      exact iff_of_true rfl fun h => absurd hq h
    · rw [if_neg hq]
      exact ⟨fun h _ => h, fun h => h hq⟩

/-- A run of `RENAME` whose destination can be read. -/
theorem exec_rename_writes (hsrc : w.found src = .record sp se)
    (hval : w.store.db[rawKey sp src]? = some val)
    (hdst : ∀ f, (w.seen src).found dst ≠ .failed f) : (rename src dst false).exec World.answer w =
      recordMoved (renameWrites w src dst sp) src dst sp se val .ok := by
  have hexec := exec_rename hne hsrc hval false
  cases hfound : (w.seen src).found dst with
  | failed f => exact absurd hfound (hdst f)
  | missing | record dp de =>
    rw [hfound] at hexec
    exact hexec

theorem rename_moved_iff (hsrc : w.found src = .record sp se) (hp : restorePrefix se.typ = some sp)
    (hval : w.store.db[rawKey sp src]? = some val) :
    (((rename src dst false).exec World.answer w).2 = .ok →
        Moved w.store.db ((rename src dst false).exec World.answer w).1.store.db src dst se.typ sp) ↔
      RenameWhole w src dst sp se val := by
  unfold RenameWhole
  by_cases hfailed : ∃ f, (w.seen src).found dst = .failed f
  · obtain ⟨f, hf⟩ := hfailed
    refine iff_of_true (fun h => ?_) fun _ h => absurd hf (h f)
    rw [exec_rename hne hsrc hval false, hf] at h
    cases h
  have hdst : ∀ f, (w.seen src).found dst ≠ .failed f := fun f hf => hfailed ⟨f, hf⟩
  have hexec := exec_rename_writes hne hsrc hval hdst
  rw [recordMoved] at hexec
  cases hp' : prefixForType se.typ with
  | none =>
    rw [hp'] at hexec
    refine iff_of_true (fun h => ?_) fun h => by cases h
    rw [hexec] at h
    cases h
  | some p =>
    obtain rfl : p = sp := Option.some.inj ((restorePrefix_of_prefixForType hp').symm.trans hp)
    rw [hp'] at hexec
    obtain ⟨houtcome, -⟩ := db_set (renameWrites w src dst p).store (rawKey p dst) val
    cases hset : ((renameWrites w src dst p).store.set (rawKey p dst) val).2 with
    | oom =>
      rw [houtcome] at hset
      refine iff_of_true (fun h => ?_) fun _ _ h => ?_
      · dsimp only at hexec
        rw [hexec, houtcome, hset] at h
        cases h
      · rw [renameRoom, hset] at h
        cases h
    | ok =>
      have hw := db_set_of_ok hset
      dsimp only at hexec
      rw [hset] at hexec
      dsimp only at hexec
      have hdb : ((rename src dst false).exec answer w).1.store.db =
          (((renameWrites w src dst p).next (.set (rawKey p dst) val)).cleared (rawKey p src) se
            src).store.db := by
        rw [hexec]
        split
        · exact db_next_get ..
        · rfl
      rw [hdb, moved_iff hne hval hw, hexec]
      rw [houtcome] at hset
      exact ⟨fun h _ _ _ => h rfl, fun h _ => h rfl hdst hset⟩

/-- The records once `COPY` has written the value of a type without field deadlines. -/
theorem copied_insert_iff (hval : m[rawKey sp src]? = some val)
    (hfields : se.typ = typeHash → R[hashExpKey src]? = none) :
    Copied m (R.insert (rawKey sp dst) val) src dst se.typ sp ↔
      ∀ q, R[rawKey q src]? = m[rawKey q src]? ∧ (q ≠ sp → R[rawKey q dst]? = none) := by
  have hsrc (q : Prefix) : (R.insert (rawKey sp dst) val)[rawKey q src]? = R[rawKey q src]? := by
    rw [getElem?_insert_rawKey, if_neg fun h => hne h.2]
  have hdst {q : Prefix} (hq : q ≠ sp) :
      (R.insert (rawKey sp dst) val)[rawKey q dst]? = R[rawKey q dst]? := by
    rw [getElem?_insert_rawKey, if_neg fun h => hq h.1]
  -- field deadlines of the source would have been found at the write
  have hnone (h : ∀ q, R[rawKey q src]? = m[rawKey q src]?) {q : Prefix} (hq : q ≠ sp) :
      valueAt m src se.typ sp q = none := by
    by_cases hb : Belongs se.typ sp q
    · rw [valueAt_of_belongs hb, ← h]
      rcases hb with he | ⟨hhash, rfl⟩
      · exact absurd he hq
      · exact hfields hhash
    · exact valueAt_of_not hb
  constructor
  · intro h
    have hkept (q : Prefix) : R[rawKey q src]? = m[rawKey q src]? := hsrc q ▸ (h q).2
    refine fun q => ⟨hkept q, fun hq => ?_⟩
    rw [← hdst hq, (h q).1, hnone hkept hq]
  · intro h q
    refine ⟨?_, (hsrc q).trans (h q).1⟩
    by_cases hq : q = sp
    · subst hq
      rw [getElem?_insert_rawKey, if_pos ⟨rfl, rfl⟩, valueAt_of_belongs (.inl rfl), hval]
    · rw [hdst hq, (h q).2 hq, hnone (fun q => (h q).1) hq]

/-- The records once `COPY` has come to the field deadlines of a hash, which may be refused. -/
theorem copied_fields_iff {R' : OrdMap Bytes Bytes} {fields : Bytes} (hhash : se.typ = typeHash)
    (hx : sp ≠ .x) (hval : m[rawKey sp src]? = some val)
    (hfields : m[hashExpKey src]? = some fields) {r : Outcome}
    (hR : R = if r = .ok then R'.insert (hashExpKey dst) fields else R') :
    Copied m R src dst se.typ sp ↔
      R'[rawKey sp dst]? = some val ∧ (r = .ok ∨ R'[hashExpKey dst]? = some fields) ∧
        ∀ q, R'[rawKey q src]? = m[rawKey q src]? ∧
          (q ≠ sp → q ≠ .x → R'[rawKey q dst]? = none) := by
  have hsrc (q : Prefix) : R[rawKey q src]? = R'[rawKey q src]? := by
    rw [hR]
    split
    · exact getElem?_insert_rawKey.trans (if_neg fun h => hne h.2)
    · rfl
  have hdst {q : Prefix} (hq : q ≠ .x) : R[rawKey q dst]? = R'[rawKey q dst]? := by
    rw [hR]
    split
    · exact getElem?_insert_rawKey.trans (if_neg fun h => hq h.1)
    · rfl
  have hdeadlines : R[hashExpKey dst]? = some fields ↔
      r = .ok ∨ R'[hashExpKey dst]? = some fields := by
    rw [hR]
    by_cases hr : r = .ok
    · rw [if_pos hr]
      exact iff_of_true (getElem?_insert_rawKey.trans (if_pos ⟨rfl, rfl⟩)) (.inl hr)
    · rw [if_neg hr, or_iff_right hr]
  rw [← hdeadlines]
  constructor
  · intro h
    have hkept (q : Prefix) : R'[rawKey q src]? = m[rawKey q src]? := hsrc q ▸ (h q).2
    refine ⟨?_, ?_, fun q => ⟨hkept q, fun hq hqx => ?_⟩⟩
    · rw [← hdst hx, (h sp).1, valueAt_of_belongs (.inl rfl), hval]
    · exact (h .x).1.trans ((valueAt_of_belongs (.inr ⟨hhash, rfl⟩)).trans hfields)
    · rw [← hdst hqx, (h q).1, valueAt_of_not]
      rintro (he | ⟨-, he⟩)
      · exact hq he
      · exact hqx he
  · rintro ⟨hrecord, hexp, h⟩ q
    refine ⟨?_, (hsrc q).trans (h q).1⟩
    by_cases hqx : q = .x
    · subst hqx
      rw [valueAt_of_belongs (.inr ⟨hhash, rfl⟩)]
      exact hexp.trans hfields.symm
    rw [hdst hqx]
    by_cases hq : q = sp
    · subst hq
      rw [hrecord, valueAt_of_belongs (.inl rfl), hval]
    · rw [(h q).2 hq hqx, valueAt_of_not]
      rintro (he | ⟨-, he⟩)
      · exact hq he
      · exact hqx he

end

theorem prefixForType_ne_x {t : UInt8} (h : prefixForType t = some p) : p ≠ .x := by
  rintro rfl
  unfold prefixForType at h
  repeat' split at h
  all_goals cases h

theorem shrinks_copyRoom : Shrinks w.store.db (copyRoom w src dst p val).1.db := by
  obtain ⟨-, hseen⟩ := copyLooks_seen
  have hfreed := shrinks_copyFreed ((copyLooks w src dst p).seen dst) dst
    ((copyLooks w src dst p).found dst)
  rw [hseen] at hfreed
  exact ((((shrinks_seen w src).trans (shrinks_seen _ dst)).trans
    (shrinks_seen _ dst)).trans hfreed).trans
      (makeRoom_shrinks (copyWrites w src dst p).store (rawKey p dst) val)

/-- The writes of `COPY`. -/
theorem copyWrite_copied_iff (hne : src ≠ dst) (hp : prefixForType se.typ = some sp)
    (hval : w.store.db[rawKey sp src]? = some val) (hdst : ∀ f, (w.seen src).found dst ≠ .failed f)
    (hdst₂ : ∀ f, (copyLooks w src dst sp).found dst ≠ .failed f) :
    (((copyWrite src dst se sp val).exec World.answer (copyWrites w src dst sp)).2 = .int 1 ∧
        Copied w.store.db
          ((copyWrite src dst se sp val).exec World.answer (copyWrites w src dst sp)).1.store.db
          src dst se.typ sp) ↔ CopyWhole w src dst sp se val := by
  rw [CopyWhole, and_iff_right hp, and_iff_right hdst, and_iff_right hdst₂]
  have hexec := exec_copyWrite (copyWrites w src dst sp) src dst se sp val
  obtain ⟨houtcome, -⟩ := db_set (copyWrites w src dst sp).store (rawKey sp dst) val
  cases hset : ((copyWrites w src dst sp).store.set (rawKey sp dst) val).2 with
  | oom =>
    rw [hset] at hexec
    rw [houtcome] at hset
    refine iff_of_false (fun h => ?_) fun h => ?_
    · rw [hexec] at h
      cases h.1
    · rw [copyRoom, hset] at h
      cases h.1
  | ok =>
    have hdb := db_set_of_ok hset
    have hroom : (copyRoom w src dst sp val).2 = .ok := houtcome ▸ hset
    have hread : ((copyWrites w src dst sp).next (.set (rawKey sp dst) val)).store.db[
        hashExpKey src]? = (copyRoom w src dst sp val).1.db[hashExpKey src]? := by
      rw [store_next_set, hdb]
      exact getElem?_insert_rawKey.trans (if_neg fun h => hne h.2)
    rw [hset] at hexec
    dsimp only at hexec
    rw [hread] at hexec
    rw [hexec, and_iff_right hroom]
    by_cases hhash : se.typ = typeHash
    · rw [if_pos hhash, if_pos hhash]
      cases hfields : (copyRoom w src dst sp val).1.db[hashExpKey src]? with
      | none =>
        rw [and_iff_right rfl, db_next_get, store_next_set, hdb]
        exact copied_insert_iff hne hval fun _ => hfields
      | some fields =>
        obtain ⟨houtcome₂, hdb₂⟩ := db_set (((copyWrites w src dst sp).next
          (.set (rawKey sp dst) val)).next (.get (hashExpKey src))).store (hashExpKey dst) fields
        rw [and_iff_right rfl]
        refine copied_fields_iff hne hhash (prefixForType_ne_x hp) hval
          (shrinks_copyRoom.getElem? hfields) (hdb₂.trans ?_)
        unfold copyFieldsRoom
        cases ((((copyWrites w src dst sp).next (.set (rawKey sp dst) val)).next
          (.get (hashExpKey src))).store.makeRoom (hashExpKey dst) fields).2 <;> rfl
    · rw [if_neg hhash, if_neg hhash]
      rw [and_iff_right rfl, store_next_set, hdb]
      exact copied_insert_iff hne hval fun h => absurd h hhash

theorem copy_copied_iff (hne : src ≠ dst) (hsrc : w.found src = .record sp se)
    (hp : restorePrefix se.typ = some sp) (hval : w.store.db[rawKey sp src]? = some val) :
    (((copy src dst true).exec World.answer w).2 = .int 1 ∧
        Copied w.store.db ((copy src dst true).exec World.answer w).1.store.db src dst se.typ sp) ↔
      CopyWhole w src dst sp se val := by
  have hexec := exec_copy hne hsrc true
  by_cases hfailed : ∃ f, (w.seen src).found dst = .failed f
  · obtain ⟨f, hf⟩ := hfailed
    rw [hf] at hexec
    refine iff_of_false (fun h => ?_) fun h => absurd hf (h.2.1 f)
    rw [hexec] at h
    cases h.1
  have hdst : ∀ f, (w.seen src).found dst ≠ .failed f := fun f hf => hfailed ⟨f, hf⟩
  have hexec : (copy src dst true).exec answer w =
      (copyRecord src dst se).exec answer ((w.seen src).seen dst) := by
    cases hfound : (w.seen src).found dst with
    | failed f => exact absurd ⟨f, hfound⟩ hfailed
    | missing | record dp de =>
      rw [hfound] at hexec
      exact hexec
  rw [hexec]
  cases hp' : prefixForType se.typ with
  | none =>
    refine iff_of_false (fun h => ?_) fun h => by cases hp'.symm.trans h.1
    obtain ⟨reply, hnone, hreply⟩ := exec_copyRecord_none hp'
    rw [hnone] at h
    exact hreply h.1
  | some p =>
    obtain rfl : p = sp := Option.some.inj ((restorePrefix_of_prefixForType hp').symm.trans hp)
    obtain ⟨-, -, -, hdb⟩ := found_record hsrc
    have hval₂ : ((w.seen src).seen dst).store.db[rawKey p src]? = some val := by
      rw [getElem?_seen hne, hdb, hval]
    by_cases hfailed₂ : ∃ f, (copyLooks w src dst p).found dst = .failed f
    · obtain ⟨f, hf⟩ := hfailed₂
      refine iff_of_false (fun h => ?_) fun h => absurd hf (h.2.2.1 f)
      rw [exec_copyRecord_looks hp' hval₂, hf] at h
      cases h.1
    · rw [exec_copyRecord_writes hp' hval₂ hfailed₂]
      exact copyWrite_copied_iff hne hp' hval hdst fun f hf => hfailed₂ ⟨f, hf⟩

end Whole

/-- A list under the destination of a string. -/
def stringAndList : World :=
  ⟨run step emptyStore
    [.dispatch (.setex [97] 1000 [118]) fun _ => 1,
      .dispatch (.restore [98] 0 (encode typeList 0 []) false false) fun _ => 1], fun _ => 1⟩

/-- A hash with a deadline for its field. -/
def hashWithFieldDeadline : World :=
  ⟨run step emptyStore
    [.dispatch (.hset [97] [([102], [118])]) fun _ => 1,
      .dispatch (.hexpire .relativeSec [97] 1000 .none [[102]]) fun _ => 1], fun _ => 1⟩

end Gedis.Commands
