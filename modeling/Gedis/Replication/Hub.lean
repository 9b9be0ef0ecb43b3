import Gedis.Core.Bytes
import Gedis.Core.Replay

/-!
# The replication backlog and its fan-out

A write is appended to a bounded ring of recent operations, which numbers it, and is then
broadcast to the channels of the subscribed replicas. The hub also carries the history of
everything it was given, which the ring forgets; the ring is a suffix of that history.
-/

namespace Gedis.Replication

open Gedis.Core List

/-- One store change: a deletion, or a write of the complete encoded entry. -/
structure Op where
  /-- Position in the master's history, counted from one. -/
  offset : Nat
  del : Bool
  key : Bytes
  value : Bytes
  deriving DecidableEq, Repr

/-- What an operation does to a store. -/
def Op.write (op : Op) : Write Bytes Bytes := ⟨op.key, if op.del then none else some op.value⟩

/-- The store that a history of operations builds from nothing. -/
def contents (log : List Op) : OrdMap Bytes Bytes := replay ∅ (log.map Op.write)

/-- The contents of an extended history are the old contents with the new operations applied. -/
theorem contents_append {log log' : List Op} :
    contents (log ++ log') = replay (contents log) (log'.map Op.write) := by
  simp [contents, replay_append]

/-- A ring of at most `max` operations; `base` counts those that slid out. -/
structure Backlog where
  max : Nat
  ops : List Op
  base : Nat
  next : Nat
  deriving DecidableEq, Repr

/-- A ring of the given capacity, 1024 when that is not positive. -/
def newBacklog (max : Int) : Backlog where
  max := if max ≤ 0 then 1024 else max.toNat
  ops := []
  base := 0
  next := 0

namespace Backlog

/-- Number an operation and keep it, dropping the oldest ones beyond the capacity. -/
def append (b : Backlog) (op : Op) : Backlog × Nat :=
  let next := b.next + 1
  let ops := b.ops ++ [{ op with offset := next }]
  if b.max < ops.length then
    let n := ops.length - b.max
    ({ b with ops := ops.drop n, base := b.base + n, next }, next)
  else ({ b with ops, next }, next)

/-- The kept operations after an offset; `none` when the offset slid out of the ring. -/
def since (b : Backlog) (offset : Int) : Option (List Op) :=
  if offset < b.base then none else some (b.ops.filter fun op => offset < op.offset)

/-- The largest offset given out so far. -/
def latest (b : Backlog) : Nat := b.next

/-- The ring holds the end of a history that is numbered from one. -/
structure Keeps (b : Backlog) (log : List Op) : Prop where
  /-- The history is numbered without gaps. -/
  numbered : log.map Op.offset = List.range' 1 log.length
  next_eq : b.next = log.length
  /-- Exactly the operations beyond the capacity slid out. -/
  base_eq : b.base = log.length - b.max
  ops_eq : b.ops = log.drop b.base

variable {b : Backlog} {log : List Op}

theorem Keeps.base_le (h : b.Keeps log) : b.base ≤ log.length := by
  rw [h.base_eq]
  exact Nat.sub_le _ _

theorem keeps_newBacklog {max : Int} : (newBacklog max).Keeps [] :=
  ⟨rfl, rfl, (Nat.zero_sub _).symm, rfl⟩

@[simp] theorem append_snd {op : Op} : (b.append op).2 = b.next + 1 := by
  simp only [append]
  split <;> rfl

/-- Appending extends the history by the numbered operation, whatever slides out. -/
theorem Keeps.append (h : b.Keeps log) (op : Op) :
    (b.append op).1.Keeps (log ++ [{ op with offset := b.next + 1 }]) := by
  have hnum : (log ++ [{ op with offset := b.next + 1 }]).map Op.offset =
      range' 1 (log ++ [{ op with offset := b.next + 1 }]).length := by
    rw [map_append, h.numbered, length_append, length_singleton,
      range'_concat, h.next_eq]
    simp [Nat.add_comm]
  have hops : b.ops ++ [{ op with offset := b.next + 1 }] =
      (log ++ [{ op with offset := b.next + 1 }]).drop b.base := by
    rw [drop_append_of_le_length h.base_le, h.ops_eq]
  have hlen : b.ops.length + b.base = log.length := by
    rw [h.ops_eq, length_drop, Nat.sub_add_cancel h.base_le]
  have hbase := h.base_eq
  simp only [Backlog.append]
  split
  · next hfull =>
    refine ⟨hnum, ?_, ?_, ?_⟩
    · simp [h.next_eq]
    · simp only [length_append, length_singleton] at hfull ⊢
      omega
    · simp [hops]
  · next hroom =>
    refine ⟨hnum, ?_, ?_, ?_⟩
    · simp [h.next_eq]
    · simp only [length_append, length_singleton] at hroom ⊢
      omega
    · exact hops

private theorem filter_offset_numbered (log : List Op) (first : Nat)
    (h : log.map Op.offset = List.range' first log.length) (offset : Nat) :
    log.filter (fun op => decide (offset < op.offset)) = log.drop (offset + 1 - first) := by
  induction log generalizing first with
  | nil => simp
  | cons op log ih =>
    simp only [map_cons, length_cons, range'_succ, cons.injEq] at h
    obtain ⟨hop, htail⟩ := h
    have hrest := ih (first + 1) htail
    by_cases hlt : offset < op.offset
    · have h0 : offset + 1 - first = 0 := by omega
      have h0' : offset + 1 - (first + 1) = 0 := by omega
      rw [h0'] at hrest
      rw [h0, filter_cons_of_pos (by simpa using hlt), hrest]
      rfl
    · have hs : offset + 1 - first = offset + 1 - (first + 1) + 1 := by omega
      rw [hs, filter_cons_of_neg (by simpa using hlt), hrest, drop_succ_cons]

/-- An offset that did not slide out yields exactly the later part of the history. -/
theorem Keeps.since (h : b.Keeps log) (offset : Nat) :
    b.since offset = if offset < b.base then none else some (log.drop offset) := by
  have hcast : ((offset : Int) < b.base) ↔ offset < b.base := by omega
  simp only [Backlog.since, hcast]
  split
  · rfl
  · rename_i hbase
    have hnum : b.ops.map Op.offset = range' (1 + b.base) b.ops.length := by
      rw [h.ops_eq, map_drop, h.numbered, drop_range', length_drop, Nat.mul_one]
    have hfilter := filter_offset_numbered b.ops (1 + b.base) hnum offset
    have hcount : b.base + (offset + 1 - (1 + b.base)) = offset := by omega
    simp only [Int.ofNat_lt, Option.some.injEq] at hfilter ⊢
    rw [hfilter, h.ops_eq, drop_drop, hcount]

end Backlog

/-- A subscriber's channel. Its batches always hold one operation, so the buffer is the list
of those. Closing a channel and removing it from the hub's subscriptions always go together;
what is buffered can still be received. -/
structure Chan where
  buf : List Op
  closed : Bool
  deriving DecidableEq, Repr

/-- Capacity of a subscriber's channel. -/
def subBufSize : Nat := 256

/-- The fan-out: the ring, the subscribers' channels, and the history of all operations. -/
structure Hub where
  backlog : Backlog
  chans : OrdMap Nat Chan
  nextSub : Nat
  /-- Everything appended so far with its offset; the program itself forgets it. -/
  log : List Op

/-- A hub whose ring keeps `maxOps` operations. -/
def newHub (maxOps : Int) : Hub := ⟨newBacklog maxOps, ∅, 0, []⟩

/-- A non-blocking send of one operation; a full channel is closed. -/
def Chan.send (op : Op) (ch : Chan) : Chan :=
  if ch.closed then ch
  else if ch.buf.length < subBufSize then { ch with buf := ch.buf ++ [op] }
  else { ch with closed := true }

namespace Hub

/-- First half of a publication: the operation enters the ring and receives its offset. -/
def append (hub : Hub) (op : Op) : Hub × Op :=
  let (backlog, offset) := hub.backlog.append op
  let op := { op with offset }
  ({ hub with backlog, log := hub.log ++ [op] }, op)

/-- Second half of a publication: the numbered operation is sent to every subscriber. -/
def broadcast (hub : Hub) (op : Op) : Hub :=
  { hub with chans := hub.chans.map fun _ ch => ch.send op }

/-- Append, then broadcast. -/
def publish (hub : Hub) (op : Op) : Hub :=
  let (hub, op) := hub.append op
  hub.broadcast op

/-- Register a fresh channel. -/
def subscribe (hub : Hub) : Hub × Nat :=
  let id := hub.nextSub + 1
  ({ hub with nextSub := id, chans := hub.chans.insert id ⟨[], false⟩ }, id)

/-- Close a channel; closing twice is harmless. -/
def unsubscribe (hub : Hub) (id : Nat) : Hub :=
  match hub.chans[id]? with
  | some ch => { hub with chans := hub.chans.insert id { ch with closed := true } }
  | none => hub

/-- Subscribe and fetch what was appended after an offset; a stale offset cancels the
subscription. -/
def subscribeSince (hub : Hub) (offset : Int) : Hub × Option (Nat × List Op) :=
  let (hub, id) := hub.subscribe
  match hub.backlog.since offset with
  | none => (hub.unsubscribe id, none)
  | some missed => (hub, some (id, missed))

/-- Take the oldest operation out of a channel. -/
def receive (hub : Hub) (id : Nat) : Option (Op × Hub) :=
  match hub.chans[id]? with
  | some ⟨op :: buf, closed⟩ =>
    some (op, { hub with chans := hub.chans.insert id ⟨buf, closed⟩ })
  | _ => none

/-- The ring of the hub is the end of the hub's history. -/
def Ordered (hub : Hub) : Prop := hub.backlog.Keeps hub.log

theorem ordered_newHub {maxOps : Int} : (newHub maxOps).Ordered :=
  Backlog.keeps_newBacklog

variable {hub : Hub}

@[simp] theorem append_log {op : Op} :
    (hub.append op).1.log = hub.log ++ [{ op with offset := hub.backlog.next + 1 }] := by
  simp [append]

@[simp] theorem append_op {op : Op} :
    (hub.append op).2 = { op with offset := hub.backlog.next + 1 } := by
  simp [append]

@[simp] theorem broadcast_log {op : Op} : (hub.broadcast op).log = hub.log := rfl

@[simp] theorem publish_log {op : Op} :
    (hub.publish op).log = hub.log ++ [{ op with offset := hub.backlog.next + 1 }] := by
  simp [publish]

theorem Ordered.append (h : hub.Ordered) {op : Op} : (hub.append op).1.Ordered := by
  have hk := Backlog.Keeps.append h op
  rw [Ordered, append_log]
  exact hk

theorem Ordered.publish (h : hub.Ordered) {op : Op} : (hub.publish op).Ordered :=
  h.append

/-- Publishing applies the operation to the contents of the history. -/
theorem contents_publish {op : Op} :
    contents (hub.publish op).log = op.write.apply (contents hub.log) := by
  rw [publish_log, contents_append, map_singleton, replay_cons]
  rfl

end Hub

end Gedis.Replication
