import Gedis.Core.Run
import Gedis.Storage.Memory

/-!
# The storage calls

Reads, writes, removals and atomic batches over the accounted store. A write makes room
before it touches the engine. A batch makes room for its net growth, commits, makes room
again and only then publishes its operations.
-/

namespace Gedis.Storage

open Gedis.Core Replication

variable {s : Pebble} {key : Bytes}

/-- One operation of a batch. -/
structure BatchOp where
  key : Bytes
  value : Bytes
  delete : Bool
  deriving DecidableEq, Repr

/-- What a batch operation does to the engine. -/
def BatchOp.write (op : BatchOp) : Write Bytes Bytes :=
  ⟨op.key, if op.delete then none else some op.value⟩

/-- The total size of the record that a batch operation leaves. -/
def BatchOp.size (op : BatchOp) : Int :=
  if op.delete then 0 else op.key.length + op.value.length

namespace Pebble

/-- A store freshly opened over existing engine contents. -/
def opened (db : OrdMap Bytes Bytes) (maxBytes : Int) (policy : Policy) (hub : Hub)
    (draws : List Draw) : Pebble where
  db
  journal := []
  lru := ∅
  usedBytes := 0
  maxBytes
  policy
  evicted := 0
  hub
  notices := []
  draws

/-- Read a key. -/
def get (s : Pebble) (key : Bytes) : Pebble × Option Bytes :=
  match s.db[key]? with
  | none => (s, none)
  | some value => (s.trackGet key, some value)

/-- Store a value that room was made for. -/
def put (s : Pebble) (key value : Bytes) : Pebble :=
  (((s.engine [⟨key, some value⟩]).trackSet key value).notify .set key).publish
    ⟨0, false, key, value⟩

/-- The room a write asks for: what the new record adds to the one it replaces. -/
def makeRoom (s : Pebble) (key value : Bytes) : Pebble × Outcome :=
  s.evictForDelta (s.deltaFor key (key.length + value.length))

/-- Write a key, making room first; without room nothing is written. -/
def set (s : Pebble) (key value : Bytes) : Pebble × Outcome :=
  match s.makeRoom key value with
  | (s, .oom) => (s, .oom)
  | (s, .ok) => (s.put key value, .ok)

/-- Remove a key. -/
def delete (s : Pebble) (key : Bytes) : Pebble := (s.deleteInternal key).notify .delete key

/-- Net growth of a batch, computed from its last operation backwards; only the last
operation on each key counts. -/
def batchDelta (s : Pebble) : List BatchOp → List Bytes → Int
  | [], _ => 0
  | op :: ops, seen =>
    if op.key ∈ seen then s.batchDelta ops seen
    else s.deltaFor op.key op.size + s.batchDelta ops (op.key :: seen)

/-- Account for one committed operation. -/
def trackOp (s : Pebble) (op : BatchOp) : Pebble :=
  if op.delete then (s.trackDelete op.key).notify .delete op.key
  else (s.trackSet op.key op.value).notify .set op.key

/-- Commit a batch to the engine and account for it. -/
def commit (s : Pebble) (ops : List BatchOp) : Pebble :=
  ops.foldl trackOp (s.engine (ops.map BatchOp.write))

/-- Publish the operations of a batch. -/
def publishAll (s : Pebble) (ops : List BatchOp) : Pebble :=
  ops.foldl (fun s op => s.publish ⟨0, op.delete, op.key, op.value⟩) s

/-- The room a batch asks for before its commit. -/
def reserve (s : Pebble) (ops : List BatchOp) : Pebble × Outcome :=
  s.evictForDelta (s.batchDelta ops.reverse [])

/-- Commit a batch and make room once more. -/
def settle (s : Pebble) (ops : List BatchOp) : Pebble × Outcome := (s.commit ops).evictIfNeeded

/-- Commit a batch atomically; an empty batch returns at once. -/
def writeBatch (s : Pebble) (ops : List BatchOp) : Pebble × Outcome :=
  if ops = [] then (s, .ok)
  else
    match s.reserve ops with
    | (s, .oom) => (s, .oom)
    | (s, .ok) =>
      match s.settle ops with
      | (s, .oom) => (s, .oom)
      | (s, .ok) => (s.publishAll ops, .ok)

end Pebble

/-- The calls of the storage interface. -/
inductive Call where
  | get (key : Bytes)
  | set (key value : Bytes)
  | delete (key : Bytes)
  | writeBatch (ops : List BatchOp)
  deriving DecidableEq, Repr

/-- The calls that can be refused for lack of memory. -/
def Call.grows : Call → Bool
  | .set .. | .writeBatch _ => true
  | _ => false

/-- The calls that change nothing but access data. -/
def Call.reads : Call → Bool
  | .get _ => true
  | _ => false

namespace Pebble

/-- Carry out a call. -/
def exec (s : Pebble) : Call → Pebble × Outcome
  | .get key => ((s.get key).1, .ok)
  | .set key value => s.set key value
  | .delete key => (s.delete key, .ok)
  | .writeBatch ops => s.writeBatch ops

/-- The state after a call. -/
def step (s : Pebble) (c : Call) : Pebble := (s.exec c).1

/-- A write fails for lack of room, or stores the value in the state the loop left. -/
theorem set_cases (s : Pebble) (key value : Bytes) :
    ((s.makeRoom key value).2 = .oom ∧ s.set key value = ((s.makeRoom key value).1, .oom)) ∨
      ((s.makeRoom key value).2 = .ok ∧
        s.set key value = ((s.makeRoom key value).1.put key value, .ok)) := by
  unfold set
  cases h : s.makeRoom key value with
  | mk s' outcome => cases outcome <;> simp

/-- A batch is empty, fails before or after its commit, or runs through. -/
theorem writeBatch_cases (s : Pebble) (ops : List BatchOp) :
    (ops = [] ∧ s.writeBatch ops = (s, .ok)) ∨
      (ops ≠ [] ∧ (s.reserve ops).2 = .oom ∧ s.writeBatch ops = ((s.reserve ops).1, .oom)) ∨
      (ops ≠ [] ∧ (s.reserve ops).2 = .ok ∧ ((s.reserve ops).1.settle ops).2 = .oom ∧
        s.writeBatch ops = (((s.reserve ops).1.settle ops).1, .oom)) ∨
      (ops ≠ [] ∧ (s.reserve ops).2 = .ok ∧ ((s.reserve ops).1.settle ops).2 = .ok ∧
        s.writeBatch ops = (((s.reserve ops).1.settle ops).1.publishAll ops, .ok)) := by
  unfold writeBatch
  by_cases hops : ops = []
  · exact .inl ⟨hops, by simp [hops]⟩
  · cases hr : s.reserve ops with
    | mk s₁ outcome =>
      cases outcome with
      | oom => simp [hops]
      | ok =>
        cases ht : s₁.settle ops with
        | mk s₂ outcome => cases outcome <;> simp [hops, ht]

/-- What accesses, evictions, writes, removals, commits and publications preserve, every call
preserves. -/
theorem step_induction {I : Pebble → Prop} (hget : ∀ s key, I s → I (s.trackGet key))
    (hevict : ∀ s delta, I s → I (s.evictForDelta delta).1)
    (hput : ∀ s key value, I s → I (s.put key value)) (hdelete : ∀ s key, I s → I (s.delete key))
    (hcommit : ∀ s ops, I s → I (s.commit ops)) (hpublish : ∀ s ops, I s → I (s.publishAll ops))
    (h : I s) (c : Call) : I (s.step c) := by
  cases c with
  | get key =>
    simp only [step, exec, get]
    cases s.db[key]? with
    | none => exact h
    | some => exact hget s key h
  | set key value =>
    simp only [step, exec]
    have hroom : I (s.makeRoom key value).1 := hevict s _ h
    rcases set_cases s key value with ⟨-, he⟩ | ⟨-, he⟩
    · rw [he]
      exact hroom
    · rw [he]
      exact hput _ key value hroom
  | delete key => exact hdelete s key h
  | writeBatch ops =>
    simp only [step, exec]
    have hreserve : I (s.reserve ops).1 := hevict s _ h
    have hsettle : I ((s.reserve ops).1.settle ops).1 := hevict _ 0 (hcommit _ ops hreserve)
    rcases writeBatch_cases s ops with ⟨-, he⟩ | ⟨-, -, he⟩ | ⟨-, -, -, he⟩ | ⟨-, -, -, he⟩
    · rw [he]
      exact h
    · rw [he]
      exact hreserve
    · rw [he]
      exact hsettle
    · rw [he]
      exact hpublish _ ops hsettle

@[simp] theorem trackGet_db : (s.trackGet key).db = s.db := by
  unfold trackGet
  split <;> rfl

@[simp] theorem trackGet_hub : (s.trackGet key).hub = s.hub := by
  unfold trackGet
  split <;> rfl

@[simp] theorem trackGet_maxBytes : (s.trackGet key).maxBytes = s.maxBytes := by
  unfold trackGet
  split <;> rfl

@[simp] theorem trackOp_hub (s : Pebble) (op : BatchOp) : (s.trackOp op).hub = s.hub := by
  unfold trackOp
  split <;> simp [notify, trackSet]

@[simp] theorem trackOp_db (s : Pebble) (op : BatchOp) : (s.trackOp op).db = s.db := by
  unfold trackOp
  split <;> simp [notify, trackSet]

@[simp] theorem trackOp_maxBytes (s : Pebble) (op : BatchOp) :
    (s.trackOp op).maxBytes = s.maxBytes := by
  unfold trackOp
  split <;> simp [notify, trackSet]

private theorem foldl_trackOp {γ : Type} (f : Pebble → γ)
    (hf : ∀ s op, f (trackOp s op) = f s) (ops : List BatchOp) :
    ∀ s, f (ops.foldl trackOp s) = f s := by
  induction ops with
  | nil => intro s; rfl
  | cons op ops ih => intro s; rw [List.foldl_cons, ih, hf]

variable {ops : List BatchOp}

@[simp] theorem commit_hub : (s.commit ops).hub = s.hub :=
  foldl_trackOp (fun s => s.hub) trackOp_hub ops _

@[simp] theorem commit_db : (s.commit ops).db = replay s.db (ops.map BatchOp.write) :=
  foldl_trackOp (fun s => s.db) trackOp_db ops _

@[simp] theorem commit_maxBytes : (s.commit ops).maxBytes = s.maxBytes :=
  foldl_trackOp (fun s => s.maxBytes) trackOp_maxBytes ops _

theorem step_db_of_reads {c : Call} (h : c.reads) : (s.step c).db = s.db := by
  cases c with
  | get key =>
    simp only [step, exec, get]
    cases s.db[key]? <;> simp
  | _ => cases h

theorem publishAll_eq (s : Pebble) : ∃ hub, s.publishAll ops = { s with hub } := by
  induction ops generalizing s with
  | nil => exact ⟨s.hub, rfl⟩
  | cons op ops ih =>
    obtain ⟨hub, h⟩ := ih (s.publish ⟨0, op.delete, op.key, op.value⟩)
    exact ⟨hub, h⟩

@[simp] theorem publishAll_db : (s.publishAll ops).db = s.db := by
  obtain ⟨hub, h⟩ := publishAll_eq s
  rw [h]

@[simp] theorem publishAll_usedBytes : (s.publishAll ops).usedBytes = s.usedBytes := by
  obtain ⟨hub, h⟩ := publishAll_eq s
  rw [h]

@[simp] theorem publishAll_maxBytes : (s.publishAll ops).maxBytes = s.maxBytes := by
  obtain ⟨hub, h⟩ := publishAll_eq s
  rw [h]

@[simp] theorem makeRoom_maxBytes {value : Bytes} :
    (s.makeRoom key value).1.maxBytes = s.maxBytes := evictForDelta_maxBytes s _

@[simp] theorem reserve_maxBytes :
    (s.reserve ops).1.maxBytes = s.maxBytes := evictForDelta_maxBytes s _

/-- Publishing a batch replays it onto the published contents. -/
theorem contents_publishAll (s : Pebble) :
    contents (s.publishAll ops).hub.log = replay (contents s.hub.log) (ops.map BatchOp.write) := by
  induction ops generalizing s with
  | nil => rfl
  | cons op ops ih =>
    have h := ih (s.publish ⟨0, op.delete, op.key, op.value⟩)
    simp only [publish, Hub.contents_publish] at h
    exact h

end Pebble

end Gedis.Storage
