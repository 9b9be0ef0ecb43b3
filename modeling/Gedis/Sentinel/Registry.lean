import Gedis.Core.Bytes
import Mathlib.Data.List.Sort
import Mathlib.Logic.Function.Basic

/-!
# The sentinel's registry

Monitored masters by name, each with its configuration, its current address, the marks of failed
probes and the votes of elections. Addresses are texts `host:port`. Time is in milliseconds.
-/

namespace Gedis.Sentinel

open Gedis.Core

variable {name addr : Bytes}

/-- The text behind the last colon and what stands before it. -/
def cutLastColon : Bytes → Option (Bytes × Bytes)
  | [] => none
  | b :: bs =>
    match cutLastColon bs with
    | some (host, port) => some (b :: host, port)
    | none => if b = 58 then some ([], bs) else none

/-- Host and port of an address. A host in brackets may hold colons. -/
def splitHostPort (addr : Bytes) : Option (Bytes × Bytes) :=
  match cutLastColon addr with
  | none => none
  | some (host, port) =>
    if 91 ∈ port ∨ 93 ∈ port then none
    else
      match host with
      | 91 :: inner =>
        if inner.getLast? = some 93 ∧ 91 ∉ inner ∧ 93 ∉ inner.dropLast then
          some (inner.dropLast, port)
        else none
      | host => if 58 ∈ host ∨ 91 ∈ host ∨ 93 ∈ host then none else some (host, port)

/-- The address of a host and a port. -/
def joinHostPort (host port : Bytes) : Bytes :=
  if 58 ∈ host then 91 :: host ++ 93 :: 58 :: port else host ++ 58 :: port

/-- A monitored master as it is configured. -/
structure NodeSpec where
  name : Bytes
  masterAddr : Bytes
  slaves : List Bytes
  quorum : Int
  deriving DecidableEq, Repr

/-- What a sentinel knows of one master. -/
structure MasterState where
  spec : NodeSpec
  current : Bytes
  down : Bytes → Bool
  sdownCount : Bytes → Nat
  currentEpoch : UInt64
  votedEpoch : UInt64
  votedRunID : Bytes
  /-- Unset before the first failover of this sentinel. -/
  lastFailover : Option Nat

/-- The masters by name. The state of other names is never read. -/
structure Registry where
  names : List Bytes
  state : Bytes → MasterState

/-- The state of a master before anything has happened. -/
def newMaster (spec : NodeSpec) : MasterState where
  spec
  current := spec.masterAddr
  down _ := false
  sdownCount _ := 0
  currentEpoch := 0
  votedEpoch := 0
  votedRunID := []
  lastFailover := none

def newRegistry (specs : List NodeSpec) : Registry where
  names := specs.map (·.name)
  state name := newMaster ((specs.reverse.find? (·.name = name)).getD ⟨name, [], [], 0⟩)

namespace Registry

variable (r : Registry)

/-- Change the state of one master. -/
def update (name : Bytes) (st : MasterState) : Registry :=
  { r with state := Function.update r.state name st }

/-- Host and port of the current master; nothing for unknown names and unreadable addresses. -/
def getMasterAddr (name : Bytes) : Option (Bytes × Int64) :=
  if name ∈ r.names then
    match splitHostPort (r.state name).current with
    | none => none
    | some (host, port) => (parseInt port).map fun n => (host, n)
  else none

/-- The configured replicas. -/
def slaves (name : Bytes) : List Bytes :=
  if name ∈ r.names then (r.state name).spec.slaves else []

def isDown (addr : Bytes) : Bool := r.names.any fun name => (r.state name).down addr

def isSubjectivelyDown (addr : Bytes) : Bool :=
  r.names.any fun name => 1 ≤ (r.state name).sdownCount addr

/-- The configured number of votes, at least one. -/
def quorum (name : Bytes) : Int :=
  if (r.state name).spec.quorum ≤ 0 then 1 else (r.state name).spec.quorum

/-- This sentinel's own mark and those of its peers reach the quorum. -/
def isObjectivelyDown (name : Bytes) (peerDowns : Nat) : Bool :=
  name ∈ r.names ∧
    r.quorum name ≤
      (peerDowns + if 1 ≤ (r.state name).sdownCount (r.state name).current then 1 else 0 : Nat)

/-- The result of a probe for one master that has the address. -/
def recordAt (addr : Bytes) (ok : Bool) (st : MasterState) : MasterState :=
  if addr = st.spec.masterAddr ∨ addr ∈ st.spec.slaves then
    { st with
      sdownCount := Function.update st.sdownCount addr (if ok then 0 else st.sdownCount addr + 1)
      down := Function.update st.down addr (!ok) }
  else st

def recordProbe (addr : Bytes) (ok : Bool) : Registry :=
  { r with state := fun name => recordAt addr ok (r.state name) }

/-- The last failover of this sentinel is less than the timeout ago. -/
def inCooldown (name : Bytes) (timeout now : Nat) : Bool :=
  match (r.state name).lastFailover with
  | none => false
  | some t => name ∈ r.names ∧ now - t < timeout

/-- The choice and the current epoch; nothing for unknown names. -/
def votedFor (name : Bytes) : Option (Bytes × UInt64) :=
  if name ∈ r.names then some ((r.state name).votedRunID, (r.state name).currentEpoch) else none

/-- Answer a request for a vote: follow a later epoch, refuse an earlier one, and in the current
epoch vote once. Returns whether the vote is granted and the epoch afterwards. -/
def handleVote (master : Bytes) (candEpoch : UInt64) (candRunID : Bytes) :
    Registry × Bool × UInt64 :=
  let st := r.state master
  if master ∉ r.names then (r, false, 0)
  else if candEpoch < st.currentEpoch then (r, false, st.currentEpoch)
  else if st.currentEpoch < candEpoch then
    (r.update master
      { st with currentEpoch := candEpoch, votedEpoch := candEpoch, votedRunID := candRunID },
      true, candEpoch)
  else if st.votedEpoch = candEpoch ∧ st.votedRunID ≠ [] ∧ st.votedRunID ≠ candRunID then
    (r, false, st.currentEpoch)
  else
    (r.update master { st with votedEpoch := candEpoch, votedRunID := candRunID }, true,
      st.currentEpoch)

/-- Follow a peer's announcement of the master: of a later epoch, or of this epoch from the
sentinel that was voted for. -/
def adoptMaster (name addr : Bytes) (epoch : UInt64) (runID : Bytes) : Registry :=
  let st := r.state name
  if name ∉ r.names then r
  else if epoch < st.currentEpoch then r
  else if epoch = st.currentEpoch ∧ (st.votedRunID ≠ runID ∨ addr = st.current) then r
  else if addr = st.current then r
  else r.update name { st with current := addr }

/-- Follow a replica that was seen to be a master. -/
def observeMaster (name addr : Bytes) : Registry :=
  let st := r.state name
  if name ∉ r.names ∨ addr = st.current then r else r.update name { st with current := addr }

/-- Note a failover to the target. -/
def switchTo (name target : Bytes) (now : Nat) : Registry :=
  r.update name { r.state name with current := target, lastFailover := some now }

end Registry

/-- What is known of a replica. The state is empty when its master did not list it. -/
structure SlaveInfo where
  addr : Bytes
  priority : Int64
  offset : Int64
  runID : Bytes
  state : Bytes
  deriving DecidableEq, Repr

/-- A replica of which nothing is known. -/
def unknownSlave (addr : Bytes) : SlaveInfo := ⟨addr, 100, 0, [], []⟩

/-- Lower priority first, then greater offset, then run ID, then address. -/
def slaveBefore (a b : SlaveInfo) : Bool :=
  if a.priority ≠ b.priority then a.priority < b.priority
  else if a.offset ≠ b.offset then b.offset < a.offset
  else if a.runID ≠ b.runID then compare a.runID b.runID = .lt
  else compare a.addr b.addr = .lt

def sortSlaves (infos : List SlaveInfo) : List SlaveInfo :=
  infos.insertionSort fun a b => slaveBefore b a = false

/-- The best replica that is not marked down and not listed as offline. -/
def Registry.selectSlave (r : Registry) (name : Bytes) (infos : List SlaveInfo) : Option Bytes :=
  let cands := (r.slaves name).map fun addr =>
    (infos.reverse.find? (·.addr = addr)).getD (unknownSlave addr)
  let online := ascii ['o', 'n', 'l', 'i', 'n', 'e']
  ((sortSlaves cands).find? fun c =>
    !r.isDown c.addr && (c.state = [] ∨ c.state = online)).map (·.addr)

/-- The election state of one master. -/
structure Ballot where
  currentEpoch : UInt64
  votedEpoch : UInt64
  votedRunID : Bytes
  deriving DecidableEq, Repr

def Registry.ballot (r : Registry) (name : Bytes) : Ballot :=
  ⟨(r.state name).currentEpoch, (r.state name).votedEpoch, (r.state name).votedRunID⟩

namespace Registry

variable {r : Registry}

theorem ballot_update {st : MasterState} {other : Bytes} : (r.update name st).ballot other =
      if other = name then ⟨st.currentEpoch, st.votedEpoch, st.votedRunID⟩ else r.ballot other := by
  by_cases h : other = name
  · subst h
    simp [update, ballot]
  · simp [update, ballot, h]

@[simp] theorem ballot_recordProbe {ok : Bool} (name : Bytes) :
    (r.recordProbe addr ok).ballot name = r.ballot name := by
  simp only [recordProbe, ballot, recordAt]
  split <;> rfl

@[simp] theorem ballot_adoptMaster {epoch : UInt64} {runID : Bytes} (other : Bytes) :
    (r.adoptMaster name addr epoch runID).ballot other = r.ballot other := by
  simp only [adoptMaster]
  split_ifs <;> try rfl
  rw [ballot_update]
  split
  · next h => rw [h]; rfl
  · rfl

@[simp] theorem ballot_observeMaster (other : Bytes) :
    (r.observeMaster name addr).ballot other = r.ballot other := by
  simp only [observeMaster]
  split_ifs <;> try rfl
  rw [ballot_update]
  split
  · next h => rw [h]; rfl
  · rfl

@[simp] theorem ballot_switchTo {target : Bytes} {now : Nat} (other : Bytes) :
    (r.switchTo name target now).ballot other = r.ballot other := by
  rw [switchTo, ballot_update]
  split
  · next h => rw [h]; rfl
  · rfl

@[simp] theorem names_recordProbe {ok : Bool} : (r.recordProbe addr ok).names = r.names := rfl

@[simp] theorem names_adoptMaster {epoch : UInt64} {runID : Bytes} :
    (r.adoptMaster name addr epoch runID).names = r.names := by
  simp only [adoptMaster]
  split_ifs <;> rfl

@[simp] theorem names_observeMaster : (r.observeMaster name addr).names = r.names := by
  simp only [observeMaster]
  split_ifs <;> rfl

@[simp] theorem names_switchTo {target : Bytes} {now : Nat} :
    (r.switchTo name target now).names = r.names := rfl

/-- Only known masters have an address. -/
theorem mem_names_of_getMasterAddr {host : Bytes} {port : Int64}
    (h : r.getMasterAddr name = some (host, port)) : name ∈ r.names := by
  rw [getMasterAddr] at h
  split at h
  · assumption
  · cases h

/-- A request is refused and changes nothing, or it is granted: then the vote is the one on
record, in the epoch of the request. -/
theorem handleVote_cases (master : Bytes) (candEpoch : UInt64) (candRunID : Bytes) :
    ((r.handleVote master candEpoch candRunID).1 = r ∧
        (r.handleVote master candEpoch candRunID).2.1 = false ∧
        (master ∈ r.names → candEpoch < (r.ballot master).currentEpoch ∨
          candEpoch = (r.ballot master).currentEpoch ∧ (r.ballot master).votedEpoch = candEpoch ∧
            (r.ballot master).votedRunID ≠ [] ∧ (r.ballot master).votedRunID ≠ candRunID)) ∨
      ((r.handleVote master candEpoch candRunID).2.1 = true ∧ master ∈ r.names ∧
        ((r.ballot master).currentEpoch < candEpoch ∨
          (r.ballot master).currentEpoch = candEpoch ∧
            ((r.ballot master).votedEpoch = candEpoch → (r.ballot master).votedRunID ≠ [] →
              (r.ballot master).votedRunID = candRunID)) ∧
        (r.handleVote master candEpoch candRunID).1.names = r.names ∧
        ∀ other, (r.handleVote master candEpoch candRunID).1.ballot other =
          if other = master then ⟨candEpoch, candEpoch, candRunID⟩ else r.ballot other) := by
  by_cases hknown : master ∈ r.names
  · by_cases hold : candEpoch < (r.state master).currentEpoch
    · left
      simp only [handleVote, hknown, hold, not_true, if_false, if_true, true_and, ballot]
      exact fun _ => .inl trivial
    · by_cases hnew : (r.state master).currentEpoch < candEpoch
      · right
        simp only [handleVote, hknown, hold, hnew, not_true, if_false, if_true, true_and, ballot]
        exact ⟨.inl trivial, rfl, fun other => ballot_update⟩
      · have heq : (r.state master).currentEpoch = candEpoch :=
          UInt64.le_antisymm (UInt64.not_lt.mp hold) (UInt64.not_lt.mp hnew)
        by_cases hvoted : (r.state master).votedEpoch = candEpoch ∧
            (r.state master).votedRunID ≠ [] ∧ (r.state master).votedRunID ≠ candRunID
        · left
          simp only [handleVote, hknown, hold, hnew, not_true, if_false, if_pos hvoted, true_and,
            ballot]
          exact fun _ => .inr ⟨heq.symm, hvoted⟩
        · right
          simp only [handleVote, hknown, hold, hnew, not_true, if_false, if_neg hvoted, true_and,
            ballot]
          refine ⟨.inr ⟨heq, fun he hne => ?_⟩, rfl, fun other => ?_⟩
          · by_contra hdiff
            exact hvoted ⟨he, hne, hdiff⟩
          · exact ballot_update.trans (by rw [heq]; rfl)
  · left
    simp [handleVote, hknown]

end Registry

end Gedis.Sentinel
