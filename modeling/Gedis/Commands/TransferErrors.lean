import Gedis.Commands.Transfers

/-!
# What a failed rename or copy leaves behind

`RENAME` removes the destination before its last check of the source and before the write that may be
refused; `COPY` removes it behind its checks, but before the write. An error behind the removal leaves
a store without the destination. This is the condition under which a failing command leaves every
record as it was.
-/

namespace Gedis.Commands

open Gedis.Core Datastruct Storage World

variable {before after : OrdMap Bytes Bytes} {p : Prefix} {se : Entry}

/-- The commands that take a key to another name. -/
inductive Transfer where
  | rename (nx : Bool)
  | copy (replace : Bool)
  deriving DecidableEq, Repr

namespace Transfer

def handler (src dst : Bytes) : Transfer → Handler Reply
  | .rename nx => Commands.rename src dst nx
  | .copy replace => Commands.copy src dst replace

/-- The records once the command has made its lookups and nothing else: what is missing has
expired. -/
def looked (w : World) (src dst : Bytes) : Transfer → OrdMap Bytes Bytes
  | .rename _ => ((w.seen src).seen dst).store.db
  | .copy _ => (((w.seen src).seen dst).seen dst).store.db

end Transfer

/-- Every record is as before, except for those that the lookups removed. -/
def Unchanged (before looked after : OrdMap Bytes Bytes) : Prop :=
  ∀ raw : Bytes, after[raw]? = before[raw]? ∨ looked[raw]? = none

/-- An error leaves the records unchanged. -/
def FailsClean (before looked : OrdMap Bytes Bytes) (out : World × Reply) : Prop :=
  out.2.isError = true → Unchanged before looked out.1.store.db

theorem unchanged_of_shrinks {looked : OrdMap Bytes Bytes} (h : Shrinks before after)
    (h' : Shrinks after looked) : Unchanged before looked after := by
  intro raw
  rcases h raw with he | he
  · exact .inl he
  · rcases h' raw with he' | he'
    · exact .inr (he'.trans he)
    · exact .inr he'

/-- Behind the lookups nothing may go. -/
theorem unchanged_iff {looked : OrdMap Bytes Bytes} (h : Shrinks before looked)
    (h' : Shrinks looked after) :
    Unchanged before looked after ↔ ∀ raw : Bytes, after[raw]? = looked[raw]? := by
  constructor
  · intro hu raw
    rcases hu raw with he | he
    · rcases h raw with hb | hb
      · rw [he, hb]
      · rcases h' raw with ha | ha
        · exact ha
        · rw [ha, hb]
    · rcases h' raw with ha | ha
      · exact ha
      · rw [ha, he]
  · intro he raw
    rcases h raw with hb | hb
    · exact .inl ((he raw).trans hb)
    · exact .inr hb

/-- The room that `RENAME` finds for the record under the destination. -/
def renameRoom (w : World) (src dst : Bytes) (sp p : Prefix) (val : Bytes) : Pebble × Outcome :=
  (renameWrites w src dst sp).store.makeRoom (rawKey p dst) val

/-- The lookup of the destination with which `COPY` decides what to remove. -/
def copyLooks (w : World) (src dst : Bytes) (p : Prefix) : World :=
  ((w.seen src).seen dst).next (.get (rawKey p src))

/-- The world in which `COPY` writes the destination. -/
def copyWrites (w : World) (src dst : Bytes) (p : Prefix) : World :=
  copyFreed ((copyLooks w src dst p).seen dst) dst ((copyLooks w src dst p).found dst)

/-- The room that `COPY` finds for the record under the destination. -/
def copyRoom (w : World) (src dst : Bytes) (p : Prefix) (val : Bytes) : Pebble × Outcome :=
  (copyWrites w src dst p).store.makeRoom (rawKey p dst) val

/-- `RENAME` of a live key does no harm when it fails: if it removes the destination, it gets through,
and a write that is refused has evicted nothing. -/
def RenameSafe (w : World) (src dst : Bytes) (nx : Bool) (sp : Prefix) (se : Entry) (val : Bytes) :
    Prop :=
  match (w.seen src).found dst with
  | .failed _ => True
  | .missing => ∀ p, prefixForType se.typ = some p → (renameRoom w src dst sp p val).2 = .oom →
      ∀ raw : Bytes, (renameRoom w src dst sp p val).1.db[raw]? =
        ((w.seen src).seen dst).store.db[raw]?
  | .record _ _ =>
    nx = true ∨ ∃ p, prefixForType se.typ = some p ∧ (renameRoom w src dst sp p val).2 = .ok

def RenameHarmless (w : World) (src dst : Bytes) (nx : Bool) : Prop :=
  ∀ sp se val, src ≠ dst → w.found src = .record sp se → w.store.db[rawKey sp src]? = some val →
    RenameSafe w src dst nx sp se val

/-- `COPY` does no harm when it fails: a write that is refused comes after nothing was removed and
has evicted nothing. -/
def CopyHarmless (w : World) (src dst : Bytes) (replace : Bool) : Prop :=
  ∀ sp se p val, src ≠ dst → w.found src = .record sp se → prefixForType se.typ = some p →
    ((w.seen src).seen dst).store.db[rawKey p src]? = some val →
    (∀ f, (w.seen src).found dst ≠ .failed f) →
    (replace = false → (w.seen src).found dst = .missing) →
    (∀ f, (copyLooks w src dst p).found dst ≠ .failed f) →
    (copyRoom w src dst p val).2 = .oom →
      ∀ raw : Bytes, (copyRoom w src dst p val).1.db[raw]? =
        ((copyLooks w src dst p).seen dst).store.db[raw]?

/-- The command does no harm when it fails. -/
def Transfer.Harmless (w : World) (src dst : Bytes) : Transfer → Prop
  | .rename nx => RenameHarmless w src dst nx
  | .copy replace => CopyHarmless w src dst replace

section Errors

variable {w : World} {src dst : Bytes}

theorem record_of_found {e : Entry} (h : w.found src = .record p e) :
    ∃ val, w.store.db[rawKey p src]? = some val := by
  obtain ⟨-, he, -, -⟩ := found_record h
  obtain ⟨val, hval, -⟩ := Option.bind_eq_some_iff.mp he
  exact ⟨val, hval⟩

section Rename

variable {sp : Prefix} {se : Entry} {val : Bytes}

/-- A destination that was there is gone once `RENAME` has removed it. -/
theorem not_unchanged_of_freed (hsrc : w.found src = .record sp se) {dp : Prefix} {de : Entry}
    (hdst : (w.seen src).found dst = .record dp de) {m : OrdMap Bytes Bytes}
    (hm : Shrinks (renameWrites w src dst sp).store.db m) :
    ¬ Unchanged w.store.db ((w.seen src).seen dst).store.db m := by
  obtain ⟨v, hv⟩ := record_of_found hdst
  obtain ⟨-, -, -, hdb⟩ := found_record hsrc
  obtain ⟨-, -, -, hdb₂⟩ := found_record hdst
  have hgone : (renameWrites w src dst sp).store.db[rawKey dp dst]? = none := by
    rw [renameWrites, hdst, db_next_get, renameFreed, getElem?_cleared,
      if_pos (.inl rfl)]
  intro hu
  rcases hu (rawKey dp dst) with he | he
  · rw [← hdb, hv] at he
    rw [hm.getElem? he] at hgone
    cases hgone
  · rw [hdb₂, hv] at he
    cases he

/-- The last two errors of `RENAME`, behind the removal of the destination. -/
theorem rename_unchanged_of_record (hne : src ≠ dst) (hsrc : w.found src = .record sp se)
    (hval : w.store.db[rawKey sp src]? = some val) {nx : Bool} :
    FailsClean w.store.db ((w.seen src).seen dst).store.db
        ((rename src dst nx).exec World.answer w) ↔
      RenameSafe w src dst nx sp se val := by
  have hlooked : Shrinks w.store.db ((w.seen src).seen dst).store.db :=
    (shrinks_seen w src).trans (shrinks_seen (w.seen src) dst)
  have hset (p : Prefix) := db_set (renameWrites w src dst sp).store (rawKey p dst) val
  have hshrinks (p : Prefix) := makeRoom_shrinks (renameWrites w src dst sp).store (rawKey p dst) val
  rw [exec_rename hne hsrc hval, recordMoved, RenameSafe]
  cases hdst : (w.seen src).found dst with
  | failed =>
    exact iff_of_true (fun _ => unchanged_of_shrinks hlooked Shrinks.refl) trivial
  | missing =>
    have hdb : (renameWrites w src dst sp).store.db = ((w.seen src).seen dst).store.db := by
      rw [renameWrites, hdst, db_next_get]
      rfl
    cases hp : prefixForType se.typ with
    | none =>
      refine iff_of_true (fun _ => ?_) fun _ h => by cases h
      rw [hdb]
      exact unchanged_of_shrinks hlooked Shrinks.refl
    | some p =>
      obtain ⟨houtcome, hafter⟩ := hset p
      simp only [Option.some.injEq, forall_eq']
      rw [renameRoom, ← houtcome]
      cases hoom : ((renameWrites w src dst sp).store.set (rawKey p dst) val).2 with
      | ok => exact iff_of_true (fun h => by cases nx <;> cases h) fun h => by cases h
      | oom =>
        rw [← houtcome, hoom] at hafter
        rw [FailsClean, store_next_set, hafter, unchanged_iff hlooked (hdb ▸ hshrinks p)]
        exact ⟨fun h _ => h rfl, fun h _ => h rfl⟩
  | record =>
    cases nx with
    | true => exact iff_of_true (fun h => by cases h) (.inl rfl)
    | false =>
      cases hp : prefixForType se.typ with
      | none =>
        refine iff_of_false (fun h => not_unchanged_of_freed hsrc hdst Shrinks.refl (h rfl)) ?_
        rintro (h | ⟨p, h, -⟩) <;> cases h
      | some p =>
        obtain ⟨houtcome, hafter⟩ := hset p
        dsimp only
        cases hset : ((renameWrites w src dst sp).store.set (rawKey p dst) val).2 with
        | ok => exact iff_of_true (fun h => by cases h) (.inr ⟨p, rfl, houtcome ▸ hset⟩)
        | oom =>
          rw [← houtcome, hset] at hafter
          refine iff_of_false
            (fun h => not_unchanged_of_freed hsrc hdst (hafter ▸ hshrinks p) (h rfl)) ?_
          rintro (h | ⟨p', h, hok⟩)
          · cases h
          · cases h
            rw [renameRoom, ← houtcome, hset] at hok
            cases hok

theorem rename_unchanged_iff {nx : Bool} :
    FailsClean w.store.db ((w.seen src).seen dst).store.db
        ((rename src dst nx).exec World.answer w) ↔
      RenameHarmless w src dst nx := by
  have hseen := shrinks_seen w src
  have hseen₂ := shrinks_seen (w.seen src) dst
  by_cases hne : src = dst
  · refine iff_of_true (fun _ => ?_) fun _ _ _ h => absurd hne h
    rw [rename, if_pos hne]
    cases nx with
    | true => exact unchanged_of_shrinks Shrinks.refl (hseen.trans hseen₂)
    | false =>
      rw [if_neg Bool.false_ne_true, exec_lookup]
      cases w.found src <;> exact unchanged_of_shrinks hseen hseen₂
  · cases hsrc : w.found src with
    | missing | failed f =>
      refine iff_of_true (fun _ => ?_) fun sp se val _ h => ?_
      · rw [rename, if_neg hne, exec_lookup, hsrc]
        exact unchanged_of_shrinks hseen hseen₂
      · rw [hsrc] at h
        cases h
    | record sp se =>
      obtain ⟨val, hval⟩ := record_of_found hsrc
      rw [rename_unchanged_of_record hne hsrc hval]
      constructor
      · intro h sp' se' val' _ hsrc' hval'
        rw [hsrc] at hsrc'
        cases hsrc'
        rw [hval] at hval'
        cases hval'
        exact h
      · exact fun h => h sp se val hne hsrc hval

end Rename

/-- The lookup that `COPY` makes before it writes. -/
theorem copyLooks_seen : (copyLooks w src dst p).found dst = ((w.seen src).seen dst).found dst ∧
      ((copyLooks w src dst p).seen dst).store.db = (((w.seen src).seen dst).seen dst).store.db :=
  seen_congr (db_next_get ..) (clock_next_get ..)

/-- The part of `COPY` behind its checks, from its second lookup of the destination on. -/
theorem exec_copyRecord_looks {val : Bytes} (hp : prefixForType se.typ = some p)
    (hval : ((w.seen src).seen dst).store.db[rawKey p src]? = some val) :
    (copyRecord src dst se).exec World.answer ((w.seen src).seen dst) =
      match (copyLooks w src dst p).found dst with
      | .failed f => ((copyLooks w src dst p).seen dst, f.reply)
      | found => (copyWrite src dst se p val).exec World.answer
          (copyFreed ((copyLooks w src dst p).seen dst) dst found) :=
  exec_copyRecord hp hval

/-- `COPY` comes to its writes when the destination can be read. -/
theorem exec_copyRecord_writes {val : Bytes} (hp : prefixForType se.typ = some p)
    (hval : ((w.seen src).seen dst).store.db[rawKey p src]? = some val)
    (h : ¬ ∃ f, (copyLooks w src dst p).found dst = .failed f) :
    (copyRecord src dst se).exec World.answer ((w.seen src).seen dst) =
      (copyWrite src dst se p val).exec World.answer (copyWrites w src dst p) := by
  rw [exec_copyRecord_looks hp hval, copyWrites]
  cases hfound : (copyLooks w src dst p).found dst with
  | failed f => exact absurd ⟨f, hfound⟩ h
  | missing | record q de => rfl

/-- The errors of `COPY` behind its checks. -/
theorem copyRecord_unchanged_iff (hbefore : Shrinks before ((w.seen src).seen dst).store.db) :
    FailsClean before (((w.seen src).seen dst).seen dst).store.db
        ((copyRecord src dst se).exec World.answer ((w.seen src).seen dst)) ↔
      ∀ p, prefixForType se.typ = some p → ∀ val,
        ((w.seen src).seen dst).store.db[rawKey p src]? = some val →
        (∀ f, (copyLooks w src dst p).found dst ≠ .failed f) →
        (copyRoom w src dst p val).2 = .oom →
          ∀ raw : Bytes, (copyRoom w src dst p val).1.db[raw]? =
            ((copyLooks w src dst p).seen dst).store.db[raw]? := by
  have hlooked := shrinks_seen ((w.seen src).seen dst) dst
  cases hp : prefixForType se.typ with
  | none =>
    refine iff_of_true (fun _ => ?_) fun _ h => by cases h
    obtain ⟨reply, hexec, -⟩ := exec_copyRecord_none hp
    rw [hexec, db_next_get]
    exact unchanged_of_shrinks hbefore hlooked
  | some p =>
    cases hval : ((w.seen src).seen dst).store.db[rawKey p src]? with
    | none =>
      refine iff_of_true (fun h => ?_) fun p' hp' val h => ?_
      · have hraw : rawFor se.typ src = rawKey p src := by rw [rawFor, hp]; rfl
        rw [copyRecord, hraw, exec_get, hval] at h
        cases h
      · cases hp'
        rw [hval] at h
        cases h
    | some val =>
      obtain ⟨-, hseen⟩ := copyLooks_seen
      simp only [Option.some.injEq, forall_eq', hval]
      rw [hseen]
      by_cases hfailed : ∃ f, (copyLooks w src dst p).found dst = .failed f
      · obtain ⟨f, hf⟩ := hfailed
        refine iff_of_true (fun _ => ?_) fun h => absurd hf (h f)
        rw [exec_copyRecord_looks hp hval, hf]
        exact unchanged_of_shrinks (hseen ▸ hbefore.trans hlooked) (hseen ▸ Shrinks.refl)
      · obtain ⟨houtcome, hafter⟩ := db_set (copyWrites w src dst p).store (rawKey p dst) val
        rw [exec_copyRecord_writes hp hval hfailed, exec_copyWrite, copyRoom, ← houtcome,
          forall_prop_of_true fun f hf => hfailed ⟨f, hf⟩]
        cases hset : ((copyWrites w src dst p).store.set (rawKey p dst) val).2 with
        | ok =>
          refine iff_of_true (fun h => ?_) fun h => by cases h
          dsimp only at h
          split at h
          · split at h <;> cases h
          · cases h
        | oom =>
          rw [← houtcome, hset] at hafter
          have hshrinks : Shrinks (((w.seen src).seen dst).seen dst).store.db
              ((copyWrites w src dst p).store.makeRoom (rawKey p dst) val).1.db := by
            rw [← hseen]
            exact (shrinks_copyFreed _ dst _).trans
              (makeRoom_shrinks (copyWrites w src dst p).store (rawKey p dst) val)
          rw [FailsClean, store_next_set, hafter, unchanged_iff (hbefore.trans hlooked) hshrinks]
          exact ⟨fun h _ => h rfl, fun h _ => h rfl⟩

/-- The errors of `COPY`. -/
theorem copy_unchanged_iff {replace : Bool} :
    FailsClean w.store.db (((w.seen src).seen dst).seen dst).store.db
        ((copy src dst replace).exec World.answer w) ↔
      CopyHarmless w src dst replace := by
  have hseen := shrinks_seen w src
  have hseen₂ := shrinks_seen (w.seen src) dst
  have hseen₃ := shrinks_seen ((w.seen src).seen dst) dst
  by_cases hne : src = dst
  · refine iff_of_true (fun _ => ?_) fun _ _ _ _ h => absurd hne h
    rw [copy, if_pos hne]
    exact unchanged_of_shrinks Shrinks.refl ((hseen.trans hseen₂).trans hseen₃)
  cases hsrc : w.found src with
  | missing | failed f =>
    refine iff_of_true (fun _ => ?_) fun sp se p val _ h => ?_
    · rw [copy, if_neg hne, exec_lookup, hsrc]
      exact unchanged_of_shrinks hseen (hseen₂.trans hseen₃)
    · rw [hsrc] at h
      cases h
  | record sp se =>
    have hstop (reply : Reply) (hstop : (copy src dst replace).exec answer w =
          ((w.seen src).seen dst, reply)) :
        FailsClean w.store.db (((w.seen src).seen dst).seen dst).store.db
          ((copy src dst replace).exec answer w) := by
      rw [hstop]
      exact fun _ => unchanged_of_shrinks (hseen.trans hseen₂) hseen₃
    have hgo (hexec : (copy src dst replace).exec answer w =
          (copyRecord src dst se).exec answer ((w.seen src).seen dst))
        (hdst : (∀ f, (w.seen src).found dst ≠ .failed f) ∧
          (replace = false → (w.seen src).found dst = .missing)) :
        FailsClean w.store.db (((w.seen src).seen dst).seen dst).store.db
            ((copy src dst replace).exec answer w) ↔
          CopyHarmless w src dst replace := by
      rw [hexec, copyRecord_unchanged_iff (hseen.trans hseen₂)]
      constructor
      · intro h sp' se' p val _ hsrc' hp hval _ _
        rw [hsrc] at hsrc'
        cases hsrc'
        exact h p hp val hval
      · intro h p hp val hval
        exact h sp se p val hne hsrc hp hval hdst.1 hdst.2
    have hexec := exec_copy hne hsrc replace
    cases hdst : (w.seen src).found dst with
    | failed f =>
      rw [hdst] at hexec
      exact iff_of_true (hstop f.reply hexec) fun _ _ _ _ _ _ _ _ hf => absurd hdst (hf f)
    | missing =>
      rw [hdst] at hexec
      exact hgo hexec ⟨fun f h => (by rw [hdst] at h; cases h), fun _ => hdst⟩
    | record =>
      rw [hdst] at hexec
      cases replace with
      | false =>
        refine iff_of_true (hstop (.int 0) hexec) ?_
        intro _ _ _ _ _ _ _ _ _ hmissing
        have hnot := hmissing rfl
        rw [hdst] at hnot
        cases hnot
      | true => exact hgo hexec ⟨fun f h => (by rw [hdst] at h; cases h), fun h => by cases h⟩

end Errors

/-- A stream under one key and a string under another one. -/
def streamAndString : World :=
  ⟨run step emptyStore
    [.dispatch (.restore [97] 0 (encode typeStream 0 []) false false) fun _ => 1,
      .dispatch (.setex [98] 1000 [118]) fun _ => 1], fun _ => 1⟩

end Gedis.Commands
