import Gedis.Replication.Hub
import Gedis.Replication.Rdb

/-!
# The replica's synchronisation client

The client writes raw records to the replica's store. It remembers the master's identity and
the offset it claims to have reached, and the raw keys it wrote itself, which are the only
ones a later full synchronisation clears. Store writes may fail: the outcomes of the
removals and of the writes are given by lists, with success once a list is used up.
-/

namespace Gedis.Replication

open Gedis.Core

/-- The synchronisation client together with the raw store it writes to. -/
structure Client where
  store : OrdMap Bytes Bytes
  /-- Identity of the master, empty before the first reply. -/
  replID : Bytes
  offset : Int
  /-- Raw keys written by this client. -/
  keys : OrdMap Bytes Unit

/-- A client freshly created over an existing store. -/
def newClient (store : OrdMap Bytes Bytes) : Client := ⟨store, [], -1, ∅⟩

/-- The master's answer to a synchronisation request. -/
inductive Reply where
  | fullresync (replID : Bytes) (offset : Int) (rdb : Bytes)
  | continuing (replID : Bytes) (missed : List Op)
  deriving DecidableEq, Repr

/-- The write that stores a snapshot record. -/
def RawEntry.write (e : RawEntry) : Write Bytes Bytes := ⟨e.key, some e.value⟩

/-- Remove keys, ignoring failures. -/
def clearKeys : List Bytes → List Bool → OrdMap Bytes Bytes → OrdMap Bytes Bytes
  | [], _, m => m
  | key :: keys, oks, m => clearKeys keys oks.tail (if oks.headD true then m.erase key else m)

namespace Client

/-- The identity and offset sent with the next synchronisation request. -/
def state (c : Client) : Bytes × Int :=
  if c.replID = [] then (ascii ['?'], -1) else (c.replID, c.offset)

def setState (c : Client) (replID : Bytes) (offset : Int) : Client := { c with replID, offset }

/-- Advance the claimed offset, never backwards. -/
def trackOffset (c : Client) (offset : Int) : Client :=
  if c.offset < offset then { c with offset } else c

/-- Write snapshot records until a write fails. -/
def storeEntries : List RawEntry → List Bool → Client → Client × Bool
  | [], _, c => (c, true)
  | e :: entries, oks, c =>
    if oks.headD true then
      storeEntries entries oks.tail
        { c with store := c.store.insert e.key e.value, keys := c.keys.insert e.key () }
    else (c, false)

/-- Clear the keys of earlier rounds and store a snapshot. -/
def applyRDB (c : Client) (rdb : Bytes) (dels sets : List Bool) : Client × Bool :=
  match unmarshalRDB rdb with
  | none => (c, false)
  | some entries =>
    storeEntries entries sets { c with store := clearKeys c.keys.keys dels c.store, keys := ∅ }

/-- Apply one streamed operation and advance the offset. -/
def applyOp (c : Client) (op : Op) (ok : Bool) : Client × Bool :=
  if ok then
    if op.del then (({ c with store := c.store.erase op.key }).trackOffset op.offset, true)
    else
      (({ c with
          store := c.store.insert op.key op.value
          keys := c.keys.insert op.key () }).trackOffset op.offset, true)
  else (c, false)

/-- Apply operations until one fails. -/
def applyOps : List Op → List Bool → Client → Client × Bool
  | [], _, c => (c, true)
  | op :: ops, oks, c =>
    match c.applyOp op (oks.headD true) with
    | (c, true) => applyOps ops oks.tail c
    | (c, false) => (c, false)

/-- Process the master's answer; the offset of a full synchronisation is recorded before its
snapshot is applied. -/
def onReply (c : Client) (reply : Reply) (dels sets : List Bool) : Client × Bool :=
  match reply with
  | .fullresync replID offset rdb => (c.setState replID offset).applyRDB rdb dels sets
  | .continuing replID missed => applyOps missed sets (c.setState replID c.offset)

@[simp] theorem trackOffset_store {c : Client} {offset : Int} :
    (c.trackOffset offset).store = c.store := by
  unfold trackOffset
  split <;> rfl

@[simp] theorem trackOffset_replID {c : Client} {offset : Int} :
    (c.trackOffset offset).replID = c.replID := by
  unfold trackOffset
  split <;> rfl

/-- Storing a snapshot never touches the recorded identity and offset. -/
theorem storeEntries_frame {entries : List RawEntry} :
    ∀ (oks : List Bool) (c : Client),
      (storeEntries entries oks c).1.replID = c.replID ∧
        (storeEntries entries oks c).1.offset = c.offset := by
  induction entries with
  | nil => intro oks c; exact ⟨rfl, rfl⟩
  | cons e entries ih =>
    intro oks c
    unfold storeEntries
    split
    · exact ih _ _
    · exact ⟨rfl, rfl⟩

/-- When every write succeeds, the store is the old one with the snapshot written over it. -/
theorem storeEntries_store {entries : List RawEntry} :
    ∀ {oks : List Bool} {c : Client}, (storeEntries entries oks c).2 = true →
      (storeEntries entries oks c).1.store = replay c.store (entries.map RawEntry.write) := by
  induction entries with
  | nil => intro oks c _; rfl
  | cons e entries ih =>
    intro oks c h
    unfold storeEntries at h ⊢
    split at h
    · next hok =>
      rw [ite_cond_eq_true _ _ (eq_true hok), ih h]
      rfl
    · cases h

/-- Without failures all records are written. -/
theorem storeEntries_ok (entries : List RawEntry) :
    ∀ {oks : List Bool} (_ : ∀ b ∈ oks, b = true) (c : Client),
      (storeEntries entries oks c).2 = true := by
  induction entries with
  | nil => intro oks _ c; rfl
  | cons e entries ih =>
    intro oks hoks c
    have hhead : oks.headD true = true := by
      cases oks with
      | nil => rfl
      | cons b => exact hoks b (List.mem_cons_self ..)
    simp only [storeEntries, hhead, ite_true]
    exact ih (fun b hb => hoks b (List.mem_of_mem_tail hb)) _

end Client

/-- Without failures exactly the given keys are removed. -/
theorem getElem?_clearKeys {keys : List Bytes} {oks : List Bool} (hoks : ∀ b ∈ oks, b = true)
    {m : OrdMap Bytes Bytes} {a : Bytes} :
    (clearKeys keys oks m)[a]? = if a ∈ keys then none else m[a]? := by
  induction keys generalizing m oks with
  | nil => simp [clearKeys]
  | cons key keys ih =>
    have hhead : oks.headD true = true := by
      cases oks with
      | nil => rfl
      | cons b => exact hoks b (List.mem_cons_self ..)
    have hstep : clearKeys (key :: keys) oks m = clearKeys keys oks.tail (m.erase key) := by
      simp only [clearKeys, hhead, ite_true]
    rw [hstep, ih fun b hb => hoks b (List.mem_of_mem_tail hb), OrdMap.getElem?_erase]
    by_cases ha : a ∈ keys
    · simp [ha]
    · by_cases hk : key = a
      · simp [hk]
      · simp [ha, hk, Ne.symm hk]

end Gedis.Replication
