import Gedis.Commands.Deadlines

/-!
# Running `RENAME` and `COPY`

Both commands look up their two keys, remove what the destination holds and write the record of the
source under the destination. The runs are given request by request, so that the errors behind the
removal and the records that are left can be read off.
-/

namespace Gedis.Commands

open Gedis.Core Datastruct Storage World

variable {w : World} {src dst val raw key : Bytes} {sp : Prefix} {se e : Entry}

/-- The reply is an error. -/
def Reply.isError : Reply → Bool
  | .error _ => true
  | _ => false

/-- The world after a value was removed under a raw key. -/
def World.cleared (w : World) (raw : Bytes) (e : Entry) (key : Bytes) : World :=
  ((deleteByRaw raw e key).exec World.answer w).1

theorem exec_deleteByRaw {α : Type} {next : Unit → Handler α} :
    (deleteByRaw raw e key >>= next).exec World.answer w =
      (next ()).exec World.answer (w.cleared raw e key) := Prog.exec_bind ..

theorem World.db_cleared : (w.cleared raw e key).store.db =
      if e.typ = typeHash then (w.store.db.erase raw).erase (hashExpKey key)
      else w.store.db.erase raw := by
  unfold cleared deleteByRaw
  rw [exec_delete]
  split
  · exact (db_next_delete _ _).trans (by rw [db_next_delete])
  · exact db_next_delete _ _

/-- What is removed: the raw key and, for a hash, the field deadlines. -/
theorem World.getElem?_cleared {raw' : Bytes} : (w.cleared raw e key).store.db[raw']? =
      if raw' = raw ∨ e.typ = typeHash ∧ raw' = hashExpKey key then none
      else w.store.db[raw']? := by
  rw [db_cleared]
  by_cases hhash : e.typ = typeHash
  · rw [if_pos hhash, OrdMap.getElem?_erase, OrdMap.getElem?_erase]
    by_cases hx : hashExpKey key = raw'
    · rw [if_pos hx, if_pos (.inr ⟨hhash, hx.symm⟩)]
    · rw [if_neg hx]
      by_cases hraw : raw = raw'
      · rw [if_pos hraw, if_pos (.inl hraw.symm)]
      · rw [if_neg hraw, if_neg]
        rintro (he | ⟨-, he⟩)
        · exact hraw he.symm
        · exact hx he.symm
  · rw [if_neg hhash, OrdMap.getElem?_erase]
    by_cases hraw : raw = raw'
    · rw [if_pos hraw, if_pos (.inl hraw.symm)]
    · rw [if_neg hraw, if_neg]
      rintro (he | ⟨he, -⟩)
      · exact hraw he.symm
      · exact hhash he

theorem World.shrinks_cleared : Shrinks w.store.db (w.cleared raw e key).store.db := by
  intro raw'
  rw [getElem?_cleared]
  split
  · exact .inr rfl
  · exact .inl rfl

/-- What `RENAME` does with the value of the source. The field deadlines of the source are gone when
they are read. -/
def recordMoved (w₁ : World) (src dst : Bytes) (sp : Prefix) (se : Entry) (val : Bytes)
    (reply : Reply) : World × Reply :=
  match prefixForType se.typ with
  | none => (w₁, .error "ERR unknown source type")
  | some p =>
    let w₂ := w₁.next (.set (rawKey p dst) val)
    match (w₁.store.set (rawKey p dst) val).2 with
    | .oom => (w₂, Failure.oom.reply)
    | .ok =>
      let w₃ := w₂.cleared (rawKey sp src) se src
      (if se.typ = typeHash then w₃.next (.get (hashExpKey src)) else w₃, reply)

/-- The part of `RENAME` behind its checks. -/
theorem exec_moveRecord {reply : Reply} (hval : w.store.db[rawKey sp src]? = some val) :
    (moveRecord src dst sp se reply).exec World.answer w =
      recordMoved (w.next (.get (rawKey sp src))) src dst sp se val reply := by
  rw [moveRecord, exec_get, hval, recordMoved]
  cases prefixForType se.typ with
  | none => rfl
  | some p =>
    dsimp only
    rw [exec_set]
    cases ((w.next (.get (rawKey sp src))).store.set (rawKey p dst) val).2 with
    | oom => rfl
    | ok =>
      rw [exec_deleteByRaw]
      by_cases hhash : se.typ = typeHash
      · rw [if_pos hhash, if_pos hhash, exec_get, getElem?_cleared,
          if_pos (.inr ⟨hhash, rfl⟩)]
        rfl
      · rw [if_neg hhash, if_neg hhash]
        rfl

/-- What is removed of the destination before `RENAME` writes it. -/
def renameFreed (w : World) (dst : Bytes) : Found → World
  | .record dp de => w.cleared (rawKey dp dst) de dst
  | _ => w

/-- The world in which `RENAME` writes the destination. -/
def renameWrites (w : World) (src dst : Bytes) (sp : Prefix) : World :=
  (renameFreed ((w.seen src).seen dst) dst ((w.seen src).found dst)).next (.get (rawKey sp src))

/-- A record of one user key is not touched by the removal of another one's. -/
theorem getElem?_renameFreed (h : src ≠ dst) {found : Found} {q : Prefix} :
    (renameFreed w dst found).store.db[rawKey q src]? = w.store.db[rawKey q src]? := by
  cases found with
  | record =>
    rw [renameFreed, getElem?_cleared, if_neg]
    rintro (he | ⟨-, he⟩)
    · exact h (rawKey_inj.mp he).2
    · exact h (rawKey_inj.mp he).2
  | _ => rfl

/-- Looking up one key leaves the records of another one. -/
theorem World.getElem?_seen (h : src ≠ dst) {q : Prefix} :
    (w.seen dst).store.db[rawKey q src]? = w.store.db[rawKey q src]? :=
  (w.sought dst).removed.frame h

/-- A run of `RENAME` and `RENAMENX` on a live key. -/
theorem exec_rename (h : src ≠ dst) (hsrc : w.found src = .record sp se)
    (hval : w.store.db[rawKey sp src]? = some val) (nx : Bool) :
    (rename src dst nx).exec World.answer w =
      match (w.seen src).found dst, nx with
      | .failed f, _ => ((w.seen src).seen dst, f.reply)
      | .record _ _, true => ((w.seen src).seen dst, .int 0)
      | _, _ => recordMoved (renameWrites w src dst sp) src dst sp se val
          (if nx then .int 1 else .ok) := by
  obtain ⟨-, -, -, hdb⟩ := found_record hsrc
  have hval₂ (found : Found) :
      (renameFreed ((w.seen src).seen dst) dst found).store.db[rawKey sp src]? = some val := by
    rw [getElem?_renameFreed h, getElem?_seen h, hdb, hval]
  rw [rename, if_neg h]
  rw [exec_lookup, hsrc]
  rw [exec_lookup]
  unfold renameWrites
  cases hdst : (w.seen src).found dst with
  | failed => rfl
  | missing =>
    have hval₃ := hval₂ .missing
    exact exec_moveRecord hval₃
  | record dp de =>
    dsimp only
    cases nx with
    | true => rfl
    | false =>
      rw [if_neg Bool.false_ne_true, exec_deleteByRaw]
      exact exec_moveRecord (hval₂ (.record dp de))

/-- What is removed of the destination before `COPY` writes it. -/
def copyFreed (w : World) (dst : Bytes) : Found → World
  | .record _ de => w.cleared (rawFor de.typ dst) de dst
  | _ => w

theorem shrinks_copyFreed (w : World) (dst : Bytes) (found : Found) :
    Shrinks w.store.db (copyFreed w dst found).store.db := by
  cases found with
  | record => exact shrinks_cleared
  | _ => exact Shrinks.refl

/-- The writes of `COPY`. -/
theorem exec_copyWrite (w : World) (src dst : Bytes) (se : Entry) (p : Prefix) (val : Bytes) :
    (copyWrite src dst se p val).exec World.answer w =
      let w₁ := w.next (.set (rawKey p dst) val)
      match (w.store.set (rawKey p dst) val).2 with
      | .oom => (w₁, Failure.oom.reply)
      | .ok =>
        if se.typ = typeHash then
          match w₁.store.db[hashExpKey src]? with
          | none => (w₁.next (.get (hashExpKey src)), .int 1)
          | some expRaw =>
            ((w₁.next (.get (hashExpKey src))).next (.set (hashExpKey dst) expRaw), .int 1)
        else (w₁, .int 1) := by
  rw [copyWrite, exec_set]
  cases (w.store.set (rawKey p dst) val).2 with
  | oom => rfl
  | ok =>
    dsimp only
    split
    · rw [exec_get]
      cases (w.next (.set (rawKey p dst) val)).store.db[hashExpKey src]? <;> rfl
    · rfl

/-- The part of `COPY` behind its checks, for a type that has a prefix. -/
theorem exec_copyRecord {p : Prefix} (hp : prefixForType se.typ = some p)
    (hval : w.store.db[rawKey p src]? = some val) : (copyRecord src dst se).exec World.answer w =
      let w₁ := w.next (.get (rawKey p src))
      match w₁.found dst with
      | .failed f => (w₁.seen dst, f.reply)
      | found => (copyWrite src dst se p val).exec answer
          (copyFreed (w₁.seen dst) dst found) := by
  have hraw : rawFor se.typ src = rawKey p src := by rw [rawFor, hp]; rfl
  rw [copyRecord, hraw, exec_get, hval]
  rw [hp]
  dsimp only
  rw [exec_lookup]
  cases (w.next (.get (rawKey p src))).found dst with
  | missing => rfl
  | failed => rfl
  | record =>
    rw [exec_deleteByRaw]
    rfl

/-- For a type without a prefix nothing is changed and nothing copied. -/
theorem exec_copyRecord_none (hp : prefixForType se.typ = none) :
    ∃ reply, (copyRecord src dst se).exec World.answer w =
      (w.next (.get (rawFor se.typ src)), reply) ∧ reply ≠ .int 1 := by
  rw [copyRecord, exec_get, hp]
  cases w.store.db[rawFor se.typ src]? with
  | none => exact ⟨_, rfl, by decide⟩
  | some => exact ⟨_, rfl, fun h => by cases h⟩

/-- A run of `COPY` on a live key. -/
theorem exec_copy (h : src ≠ dst) (hsrc : w.found src = .record sp se) (replace : Bool) :
    (copy src dst replace).exec World.answer w =
      match (w.seen src).found dst, replace with
      | .failed f, _ => ((w.seen src).seen dst, f.reply)
      | .record _ _, false => ((w.seen src).seen dst, .int 0)
      | _, _ => (copyRecord src dst se).exec World.answer ((w.seen src).seen dst) := by
  rw [copy, if_neg h, exec_lookup, hsrc]
  rw [exec_lookup]
  cases (w.seen src).found dst with
  | failed => rfl
  | missing => rfl
  | record => cases replace <;> rfl

end Gedis.Commands
