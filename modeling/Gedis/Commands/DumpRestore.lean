import Gedis.Commands.WholeKeys

/-!
# `DUMP` and `RESTORE`

A dump is the record as it is stored, and a restored key is that record under the prefix of its type.
What the key held before is removed under the prefix from the table of `COPY`, so a sketch or a stream
stays beside a new value of another type.
-/

namespace Gedis.Commands.DumpRestore

open Gedis.Core Datastruct Storage World

/-- `DUMP key`. -/
def dump (key : Bytes) : Handler Reply := do
  match ← lookupRaw key with
  | .missing => pure .nil
  | .failed f => pure f.reply
  | .record _ e => pure (.bulk (encode e.typ e.expiry e.payload))

section Runs

variable {w : World} {key payload : Bytes} {e : Entry} {p : Prefix}

theorem exec_dump (h : w.found key = .record p e) :
    (dump key).exec World.answer w = (w.seen key, .bulk (encode e.typ e.expiry e.payload)) := by
  rw [dump, exec_lookup, h]
  rfl

/-- The world in which `RESTORE` writes, with what the key held removed. -/
def restoreWrites (w : World) (key : Bytes) : World :=
  match w.found key with
  | .record _ _ => copyFreed ((w.seen key).seen key) key ((w.seen key).found key)
  | _ => w.seen key

theorem exec_restore (w : World) (key : Bytes) (hd : decode payload = some e)
    (hp : restorePrefix e.typ = some p) (ttl : Int64) (replace absttl : Bool) :
    (restore key ttl payload replace absttl).exec World.answer w =
      match w.found key, replace with
      | .failed f, _ => (w.seen key, f.reply)
      | .record _ _, false => (w.seen key, .error "BUSYKEY Target key name already exists.")
      | _, _ => (restoreWrite key p e ttl absttl).exec World.answer (restoreWrites w key) := by
  unfold restore restoreWrites
  rw [hd]
  dsimp only
  rw [hp]
  rw [exec_lookup]
  cases hfound : w.found key with
  | missing => rfl
  | failed => rfl
  | record =>
    cases replace with
    | false => rfl
    | true =>
      rw [if_pos rfl, exec_lookup]
      cases (w.seen key).found key with
      | missing => rfl
      | failed => rfl
      | record =>
        rw [exec_deleteByRaw]
        rfl

/-- The deadline that `RESTORE` gives to a key. -/
def restoredDeadline (now ttl : Int64) (absttl : Bool) : Int64 :=
  if ttl = 0 then 0 else if absttl then ttl * 1000000 else now + ttl * 1000000

theorem exec_restoreWrite {ttl : Int64} {absttl : Bool} :
    (restoreWrite key p e ttl absttl).exec World.answer w =
      let w₁ := if ttl = 0 ∨ absttl = true then w else w.next .now
      let record := encode e.typ (restoredDeadline (w.clock 0) ttl absttl) e.payload
      (w₁.next (.set (rawKey p key) record),
        granted .ok (w₁.store.set (rawKey p key) record).2) := by
  unfold restoreWrite restoreDeadline restoredDeadline
  by_cases hzero : ttl = 0
  · rw [if_pos hzero, if_pos hzero, if_pos (.inl hzero)]
    rfl
  · rw [if_neg hzero, if_neg hzero]
    cases absttl with
    | true =>
      rw [if_pos (Or.inr rfl)]
      rfl
    | false =>
      rw [if_neg Bool.false_ne_true,
        if_neg (by simpa using hzero)]
      rfl

end Runs

/-- A lookup gives the dumped value without a deadline, and there is no other record of the key. -/
def Reproduced (w : World) (key : Bytes) (p : Prefix) (e : Entry) : Prop :=
  w.found key = .record p ⟨e.typ, 0, e.payload⟩ ∧
    ∀ q, ¬ Belongs e.typ p q → w.store.db[rawKey q key]? = none

/-- The room that `RESTORE` finds for a record without a deadline. -/
def restoreRoom (w : World) (key : Bytes) (p : Prefix) (e : Entry) : Pebble × Outcome :=
  (restoreWrites w key).store.makeRoom (rawKey p key) (encode e.typ 0 e.payload)

/-- When `RESTORE` gets through, then at its write the key has no record left that the new value does
not replace, but for the field deadlines of a hash. -/
def RestoreWhole (w : World) (key : Bytes) (e : Entry) : Prop :=
  ∀ p, restorePrefix e.typ = some p → (∀ f, w.found key ≠ .failed f) →
    (restoreRoom w key p e).2 = .ok →
      ∀ q, ¬ Belongs e.typ p q → (restoreRoom w key p e).1.db[rawKey q key]? = none

section Reproduced

variable {w : World} {key : Bytes} {e : Entry} {p : Prefix}

/-- Probing comes to the record of a value before it comes to the field deadlines. -/
theorem probe_of_belongs {m : OrdMap Bytes Bytes} (hp : restorePrefix e.typ = some p)
    (hmem : rawKey p key ∈ m) (hother : ∀ q, ¬ Belongs e.typ p q → m[rawKey q key]? = none) :
    probe m key = some p := by
  have hnot {q : Prefix} (hq : ¬ Belongs e.typ p q) : rawKey q key ∉ m := by
    rw [Std.ExtTreeMap.mem_iff_isSome_getElem?, hother q hq]
    exact Bool.false_ne_true
  by_cases hhash : e.typ = typeHash
  · have hph : p = .h := by
      rw [hhash] at hp
      exact Option.some.inj (hp.symm.trans (by decide))
    subst hph
    have hs : rawKey .s key ∉ m := hnot (by rintro (h | ⟨-, h⟩) <;> cases h)
    simp [probe, typePrefixes, hs, hmem]
  · have hne {q : Prefix} (hq : q ≠ p) : rawKey q key ∉ m :=
      hnot (by rintro (h | ⟨h, -⟩); exacts [hq h, hhash h])
    unfold probe
    rw [List.find?_eq_some_iff_append]
    obtain ⟨as, bs, hsplit⟩ := List.append_of_mem mem_typePrefixes
    refine ⟨by simpa using hmem, as, bs, hsplit, fun q hq => ?_⟩
    have hnodup : typePrefixes.Nodup := by decide
    rw [hsplit] at hnodup
    have hqp : q ≠ p := fun h =>
      (List.nodup_append.mp hnodup).2.2 q hq p (List.mem_cons_self ..) h
    simpa using hne hqp

theorem reproduced_iff {R : OrdMap Bytes Bytes} (hp : restorePrefix e.typ = some p)
    (hdb : w.store.db = R.insert (rawKey p key) (encode e.typ 0 e.payload)) :
    Reproduced w key p e ↔ ∀ q, ¬ Belongs e.typ p q → R[rawKey q key]? = none := by
  have hother {q : Prefix} (hq : ¬ Belongs e.typ p q) :
      w.store.db[rawKey q key]? = R[rawKey q key]? := by
    rw [hdb, getElem?_insert_rawKey, if_neg fun h => hq (.inl h.1)]
  constructor
  · intro h q hq
    rw [← hother hq]
    exact h.2 q hq
  · intro h
    have hnone : ∀ q, ¬ Belongs e.typ p q → w.store.db[rawKey q key]? = none :=
      fun q hq => (hother hq).trans (h q hq)
    have hrecord : w.store.db[rawKey p key]? = some (encode e.typ 0 e.payload) := by
      rw [hdb, getElem?_insert_rawKey, if_pos ⟨rfl, rfl⟩]
    have hmem : rawKey p key ∈ w.store.db := (Std.ExtTreeMap.getElem?_eq_some_iff.mp hrecord).1
    have hentry : entryAt w.store.db (rawKey p key) = some ⟨e.typ, 0, e.payload⟩ := by
      rw [entryAt, hrecord, Option.bind_some, decode_encode]
    exact ⟨(found_of_live (probe_of_belongs hp hmem hnone) hentry rfl).1, hnone⟩

theorem restore_reproduced_iff {payload : Bytes} (hd : decode payload = some e) :
    (((restore key 0 payload true false).exec World.answer w).2 = .ok →
        ∃ p, restorePrefix e.typ = some p ∧
          Reproduced ((restore key 0 payload true false).exec World.answer w).1 key p e) ↔
      RestoreWhole w key e := by
  cases hp : restorePrefix e.typ with
  | none =>
    refine iff_of_true (fun h => ?_) fun p h => by rw [hp] at h; cases h
    unfold restore at h
    rw [hd] at h
    dsimp only at h
    rw [hp] at h
    cases h
  | some p =>
    have hexec := exec_restore w key hd hp 0 true false
    by_cases hfailed : ∃ f, w.found key = .failed f
    · obtain ⟨f, hf⟩ := hfailed
      rw [hf] at hexec
      refine iff_of_true (fun h => ?_) fun _ _ h => absurd hf (h f)
      rw [hexec] at h
      cases h
    have hexec : (restore key 0 payload true false).exec answer w =
        ((restoreWrites w key).next (.set (rawKey p key) (encode e.typ 0 e.payload)),
          granted .ok ((restoreWrites w key).store.set (rawKey p key)
            (encode e.typ 0 e.payload)).2) := by
      cases hfound : w.found key with
      | failed f => exact absurd ⟨f, hfound⟩ hfailed
      | missing | record dp de =>
        rw [hfound] at hexec
        exact hexec.trans exec_restoreWrite
    have hroom : RestoreWhole w key e ↔ ((restoreRoom w key p e).2 = .ok →
        ∀ q, ¬ Belongs e.typ p q → (restoreRoom w key p e).1.db[rawKey q key]? = none) := by
      refine ⟨fun h => h p hp fun f hf => hfailed ⟨f, hf⟩, fun h p' hp' _ => ?_⟩
      rw [hp] at hp'
      cases hp'
      exact h
    obtain ⟨houtcome, -⟩ := db_set (restoreWrites w key).store (rawKey p key)
      (encode e.typ 0 e.payload)
    rw [hroom, hexec, restoreRoom, ← houtcome]
    cases hset : ((restoreWrites w key).store.set (rawKey p key)
        (encode e.typ 0 e.payload)).2 with
    | oom => exact iff_of_true (fun h => nomatch h) fun h => nomatch h
    | ok =>
      have hreproduced := reproduced_iff (w := (restoreWrites w key).next
        (.set (rawKey p key) (encode e.typ 0 e.payload))) hp (db_set_of_ok hset)
      rw [← hreproduced]
      constructor
      · intro h _
        obtain ⟨p', hp', hr⟩ := h rfl
        cases hp'
        exact hr
      · exact fun h _ => ⟨p, rfl, h rfl⟩

end Reproduced

/-- A string and a sketch under two keys. -/
def stringAndSketch : World :=
  ⟨run step emptyStore
    [.dispatch (.setex [97] 1000 [118]) fun _ => 1,
      .dispatch (.restore [98] 0 (encode typeHLL 0 []) false false) fun _ => 1], fun _ => 1⟩

end Gedis.Commands.DumpRestore
