import Gedis.Core.Interleave
import Gedis.Core.Scan
import Gedis.Storage.Pebble

/-!
# What the command layer asks of the store

The handlers see the store through five operations and the clock. Without a memory limit
the store is a map: a request applies its writes and its reply is a function of the map.
With a limit it is a map that may lose records whenever something is written, and that may
refuse the write.
-/

namespace Gedis.Storage

open Gedis.Core

variable {m m' : OrdMap Bytes Bytes}

/-- The requests of a command handler. -/
inductive Request where
  | get (key : Bytes)
  | set (key value : Bytes)
  | delete (key : Bytes)
  | scan (p : Bytes)
  | writeBatch (ops : List BatchOp)
  /-- The wall clock in nanoseconds. -/
  | now
  deriving DecidableEq, Repr

/-- What a request is answered with. -/
abbrev Request.Answer : Request → Type
  | .get _ => Option Bytes
  | .set .. => Outcome
  | .delete _ => Unit
  | .scan _ => List Bytes
  | .writeBatch _ => Outcome
  | .now => Int64

/-- A command handler with its result. -/
abbrev Handler (α : Type) := Prog Request Request.Answer α

namespace Kv

def get (key : Bytes) : Handler (Option Bytes) := Prog.perform (Request.get key)

def set (key value : Bytes) : Handler Outcome := Prog.perform (Request.set key value)

def delete (key : Bytes) : Handler Unit := Prog.perform (Request.delete key)

def scan (p : Bytes) : Handler (List Bytes) := Prog.perform (Request.scan p)

def writeBatch (ops : List BatchOp) : Handler Outcome := Prog.perform (Request.writeBatch ops)

def now : Handler Int64 := Prog.perform Request.now

end Kv

namespace Pebble

/-- The store answers a request made at a given time. -/
def answer (now : Int64) (s : Pebble) : (q : Request) → Pebble × q.Answer
  | .get key => s.get key
  | .set key value => s.set key value
  | .delete key => (s.delete key, ())
  | .scan p => (s, scanKeys s.db p)
  | .writeBatch ops => s.writeBatch ops
  | .now => (s, now)

end Pebble

/-- The storage call behind a request, if it has one. -/
def Request.call : Request → Option Call
  | .get key => some (.get key)
  | .set key value => some (.set key value)
  | .delete key => some (.delete key)
  | .writeBatch ops => some (.writeBatch ops)
  | .scan _ | .now => none

/-- What a request writes. -/
def Request.writes : Request → List (Write Bytes Bytes)
  | .set key value => [⟨key, some value⟩]
  | .delete key => [⟨key, none⟩]
  | .writeBatch ops => ops.map BatchOp.write
  | .get _ | .scan _ | .now => []

/-- The reply of a store that has room for everything. -/
def Request.reply (now : Int64) (m : OrdMap Bytes Bytes) : (q : Request) → q.Answer
  | .get key => m[key]?
  | .set .. => .ok
  | .delete _ => ()
  | .scan p => scanKeys m p
  | .writeBatch _ => .ok
  | .now => now

namespace Pebble

theorem evictForDelta_unlimited {s : Pebble} (h : s.maxBytes ≤ 0) {delta : Int} :
    s.evictForDelta delta = (s, .ok) := by
  simp [evictForDelta, Int.not_lt.mpr h]

/-- Without a memory limit the store is the map of its records. -/
theorem answer_unlimited {s : Pebble} (h : s.maxBytes ≤ 0) {now : Int64} (q : Request) :
    (s.answer now q).1.db = replay s.db q.writes ∧ (s.answer now q).2 = q.reply now s.db ∧
      (s.answer now q).1.maxBytes = s.maxBytes := by
  cases q with
  | get key =>
    simp only [answer, get, Request.writes, Request.reply]
    cases s.db[key]? <;> simp
  | set key value =>
    have hroom : s.makeRoom key value = (s, .ok) := evictForDelta_unlimited h
    simp only [answer, set, hroom]
    exact ⟨rfl, rfl, rfl⟩
  | delete =>
    refine ⟨?_, rfl, deleteInternal_maxBytes⟩
    exact deleteInternal_db
  | scan => exact ⟨rfl, rfl, rfl⟩
  | writeBatch ops =>
    have hreserve : s.reserve ops = (s, .ok) := evictForDelta_unlimited h
    have hcommit : (s.commit ops).maxBytes ≤ 0 := by rwa [commit_maxBytes]
    have hsettle : s.settle ops = (s.commit ops, .ok) := evictForDelta_unlimited hcommit
    rcases writeBatch_cases s ops with ⟨rfl, he⟩ | ⟨-, hoom, -⟩ | ⟨-, -, hoom, -⟩ | ⟨-, -, -, he⟩
    · simp [answer, he, Request.writes, Request.reply]
    · rw [hreserve] at hoom
      cases hoom
    · rw [hreserve, hsettle] at hoom
      cases hoom
    · simp only [answer, he, hreserve, hsettle]
      refine ⟨?_, rfl, ?_⟩
      · simp [Request.writes]
      · simp
  | now => exact ⟨rfl, rfl, rfl⟩

end Pebble

/-- A store that has room for everything, as a map. -/
def Request.onMap (now : Int64) (m : OrdMap Bytes Bytes) (q : Request) :
    OrdMap Bytes Bytes × q.Answer :=
  (replay m q.writes, q.reply now m)

/-- The request reads or writes a key. -/
def Request.touches (q : Request) (key : Bytes) : Bool :=
  match q with
  | .get k => k == key
  | .scan p => p.isPrefixOf key
  | q => q.writes.any (·.key == key)

/-- Neither request writes what the other one reads or writes. -/
def Request.Independent (q q' : Request) : Prop :=
  (∀ w ∈ q.writes, q'.touches w.key = false) ∧ ∀ w ∈ q'.writes, q.touches w.key = false

instance (q q' : Request) : Decidable (q.Independent q') := inferInstanceAs (Decidable (_ ∧ _))

/-- Writes to keys that a request does not touch leave its reply alone. -/
theorem Request.reply_replay {q : Request} {ws : List (Write Bytes Bytes)}
    (h : ∀ w ∈ ws, q.touches w.key = false) {now : Int64} :
    q.reply now (replay m ws) = q.reply now m := by
  cases q with
  | get =>
    refine getElem?_replay_of_untouched (fun w hw he => ?_)
    have hw := h w hw
    simp [touches, he] at hw
  | scan =>
    refine scanKeys_congr fun key hp => ?_
    have hu : Untouched ws key := by
      intro w hw he
      have hw := h w hw
      rw [he, touches, List.isPrefixOf_iff_prefix.mpr hp] at hw
      cases hw
    exact mem_replay_of_untouched hu
  | set => rfl
  | delete => rfl
  | writeBatch => rfl
  | now => rfl

private theorem touches_of_writes {q : Request} {w : Write Bytes Bytes} (h : w ∈ q.writes) :
    q.touches w.key = true := by
  cases q with
  | get => cases h
  | scan => cases h
  | now => cases h
  | set key value | delete key | writeBatch ops => simpa [Request.touches] using ⟨w, h, rfl⟩

theorem Request.commutes_onMap : Procs.Commutes Request.onMap Request.Independent := by
  rintro t t' m q q' ⟨hq, hq'⟩
  refine ⟨?_, reply_replay hq', reply_replay hq⟩
  refine replay_comm (fun w' hw' w hw he => ?_)
  have hfalse := hq w hw
  rw [he, touches_of_writes hw'] at hfalse
  cases hfalse

/-- The second map lacks some records of the first. -/
def Shrinks (m m' : OrdMap Bytes Bytes) : Prop := ∀ key : Bytes, m'[key]? = m[key]? ∨ m'[key]? = none

theorem Shrinks.refl : Shrinks m m := fun _ => .inl rfl

theorem Shrinks.getElem? (h : Shrinks m m') {key value : Bytes} (hk : m'[key]? = some value) :
    m[key]? = some value := by
  rcases h key with he | he
  · rw [← he, hk]
  · rw [he] at hk
    cases hk

theorem Shrinks.mem (h : Shrinks m m') {key : Bytes} (hk : key ∈ m') : key ∈ m :=
  (Std.ExtTreeMap.getElem?_eq_some_iff.mp
    (h.getElem? (Std.ExtTreeMap.getElem?_eq_some_getElem hk))).1

theorem Shrinks.trans {m₁ m₂ m₃ : OrdMap Bytes Bytes} (h : Shrinks m₁ m₂) (h' : Shrinks m₂ m₃) :
    Shrinks m₁ m₃ := by
  intro key
  rcases h' key with he | he
  · rw [he]
    exact h key
  · exact .inr he

/-- What is lost before a write is lost at most after it. -/
theorem Shrinks.replay (h : Shrinks m m') {ws : List (Write Bytes Bytes)} :
    Shrinks (replay m ws) (replay m' ws) := by
  intro key
  by_cases hu : Untouched ws key
  · rw [getElem?_replay_of_untouched hu, getElem?_replay_of_untouched hu]
    exact h key
  · exact .inl (getElem?_replay_of_touched hu m' m)

theorem shrinks_erase (key : Bytes) : Shrinks m (m.erase key) := by
  intro key'
  rw [OrdMap.getElem?_erase]
  split
  · exact .inr rfl
  · exact .inl rfl

/-- What a request may do to a map that loses records, as a relation allows, when something is
written, with the clock readings that may occur. -/
def Lossy (R : OrdMap Bytes Bytes → OrdMap Bytes Bytes → Prop) (T : Int64 → Prop)
    (m : OrdMap Bytes Bytes) : (q : Request) → OrdMap Bytes Bytes → q.Answer → Prop
  | .get key, m', a => m' = m ∧ a = m[key]?
  | .set key value, m', a =>
    a = .oom ∧ R m m' ∨ a = .ok ∧ R (m.insert key value) m' ∧ m'[key]? = some value
  | .delete key, m', _ => m' = m.erase key
  | .scan p, m', a => m' = m ∧ a = scanKeys m p
  | .writeBatch ops, m', a => a = .oom ∧ R m m' ∨ R (replay m (ops.map BatchOp.write)) m'
  | .now, m', t => m' = m ∧ T t

namespace Pebble

theorem shrinks_evictForDelta (s : Pebble) {delta : Int} :
    Shrinks s.db (s.evictForDelta delta).1.db := by
  intro key
  rcases evictForDelta_key with h | h
  · exact .inl h.db_eq
  · exact .inr h.db_none

/-- What is lost when room is made for a request is as a relation allows, seen before the
request's own writes and after them. -/
def Drops (R : OrdMap Bytes Bytes → OrdMap Bytes Bytes → Prop) (s : Pebble) : Request → Prop
  | .set key value =>
    R s.db (s.makeRoom key value).1.db ∧
      R (s.db.insert key value) ((s.makeRoom key value).1.db.insert key value)
  | .writeBatch ops =>
    ops ≠ [] → R s.db (s.reserve ops).1.db ∧ ((s.reserve ops).2 = .ok →
      R (replay s.db (ops.map BatchOp.write)) ((s.reserve ops).1.settle ops).1.db)
  | _ => True

/-- The store stays within the lossy map. -/
theorem answer_lossy {R : OrdMap Bytes Bytes → OrdMap Bytes Bytes → Prop} (hrefl : ∀ m, R m m)
    {T : Int64 → Prop} {now : Int64} (hnow : T now) {s : Pebble} {q : Request}
    (hdrops : s.Drops R q) : Lossy R T s.db q (s.answer now q).1.db (s.answer now q).2 := by
  cases q with
  | get key =>
    simp only [answer, get, Lossy]
    cases h : s.db[key]? with
    | none => exact ⟨rfl, rfl⟩
    | some => exact ⟨trackGet_db, rfl⟩
  | set key value =>
    rcases set_cases s key value with ⟨-, he⟩ | ⟨-, he⟩
    · exact .inl (by simp [answer, he, hdrops.1])
    · refine .inr ⟨by simp [answer, he], ?_⟩
      simp only [answer, he]
      have hput : ((s.makeRoom key value).1.put key value).db =
          (s.makeRoom key value).1.db.insert key value := rfl
      rw [hput]
      exact ⟨hdrops.2, by simp⟩
  | delete => exact deleteInternal_db
  | scan => exact ⟨rfl, rfl⟩
  | writeBatch ops =>
    simp only [answer]
    rcases writeBatch_cases s ops with ⟨rfl, he⟩ | ⟨hne, -, he⟩ | ⟨hne, hok, -, he⟩ |
      ⟨hne, hok, -, he⟩
    · exact .inr (by rw [he]; exact hrefl _)
    · exact .inl (by rw [he]; exact ⟨rfl, (hdrops hne).1⟩)
    · exact .inr (by rw [he]; exact (hdrops hne).2 hok)
    · refine .inr ?_
      rw [he, publishAll_db]
      exact (hdrops hne).2 hok
  | now => exact ⟨rfl, hnow⟩

end Pebble

end Gedis.Storage
