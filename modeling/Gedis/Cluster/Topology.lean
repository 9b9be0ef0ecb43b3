import Mathlib.Data.List.Sort
import Mathlib.Logic.Function.Basic
import Gedis.Core.Runtime

/-!
# The slot table of a node

The table assigns every hash slot to one of the configured nodes and marks the slots that are
moving: away from this node, or towards it. It is built from the configuration, which must not
assign a slot twice, and changed by four methods.
-/

namespace Gedis.Cluster

open Gedis.Core List

/-- The number of hash slots. -/
def numSlots : Nat := 16384

/-- A closed interval of slots. -/
abbrev Range := Int × Int

/-- The order in which intervals are listed. -/
def StartsBefore (a b : Range) : Prop := a.1 ≤ b.1

instance : DecidableRel StartsBefore := fun a b => inferInstanceAs (Decidable (a.1 ≤ b.1))

instance : Std.Total StartsBefore := ⟨fun a b => Int.le_total a.1 b.1⟩

instance : IsTrans Range StartsBefore := ⟨fun _ _ _ => Int.le_trans⟩

/-- A configured node with the slots it was configured with. -/
structure TopoNode where
  id : Bytes
  addr : Bytes
  ranges : List Range
  deriving DecidableEq, Repr

/-- The slot table as one node sees it. Nodes are referred to by position. -/
structure Topology where
  self : Nat
  nodes : List TopoNode
  owned : Nat → Bool
  owner : Nat → Option Nat
  migrating : Nat → Option Bytes
  importing : Nat → Option Bytes
  epoch : Nat

/-- A node of the configuration. An empty identifier is derived from the address. -/
structure NodeSpec where
  id : Bytes
  addr : Bytes
  ranges : List Range
  deriving DecidableEq, Repr

/-- Library functions: splitting an address into host and port, and the identifier that is derived
from an address. -/
structure Library where
  splitHostPort : Bytes → Option (Bytes × Bytes)
  deriveID : Bytes → Bytes

/-- Errors of the configuration. -/
inductive BuildError where
  | invalidServerAddr (addr : Bytes)
  | missingAddr
  | invalidNodeAddr (addr : Bytes)
  | claimedTwice (slot : Nat)
  | noSelf (addr : Bytes)
  deriving DecidableEq, Repr

/-- The slots of an interval that exist, in order. -/
def slotsOf (r : Range) : List Nat :=
  List.range' (max r.1 0).toNat (min r.2 (numSlots - 1) - max r.1 0 + 1).toNat

/-- Assign slots to the node at position `idx`. -/
def claim (idx : Nat) : List Nat → Topology → Except BuildError Topology
  | [], t => .ok t
  | s :: ss, t =>
    if (t.owner s).isSome then .error (.claimedTwice s)
    else claim idx ss
      { t with
        owned := Function.update t.owned s true
        owner := Function.update t.owner s (some idx) }

section
variable (lib : Library)

/-- Host and port, which must not both be empty. -/
def splitAddr (addr : Bytes) : Option (Bytes × Bytes) :=
  match lib.splitHostPort addr with
  | none => none
  | some (h, p) => if h = [] ∧ p = [] then none else some (h, p)

/-- The address is the one this server listens on; a server on all interfaces is recognized by its
port. -/
def isSelf (selfHost selfPort host port : Bytes) : Bool :=
  (host = selfHost ∧ port = selfPort) ∨
    ((selfHost = [] ∨ selfHost = ascii "0.0.0.0".toList) ∧ port = selfPort)

/-- The node that a specification describes. -/
def nodeOf (spec : NodeSpec) : TopoNode where
  id := if spec.id = [] then lib.deriveID spec.addr else spec.id
  addr := spec.addr
  ranges := spec.ranges.insertionSort StartsBefore

/-- Add the configured nodes one by one. -/
def addNodes (selfHost selfPort : Bytes) :
    List NodeSpec → Topology × Option Nat → Except BuildError (Topology × Option Nat)
  | [], st => .ok st
  | spec :: specs, (t, self) =>
    if spec.addr = [] then .error .missingAddr
    else
      match splitAddr lib spec.addr with
      | none => .error (.invalidNodeAddr spec.addr)
      | some (host, port) =>
        let idx := t.nodes.length
        let node := nodeOf lib spec
        let self := if isSelf selfHost selfPort host port ∧ self = none then some idx else self
        match claim idx (node.ranges.flatMap slotsOf) { t with nodes := t.nodes ++ [node] } with
        | .error e => .error e
        | .ok t => addNodes selfHost selfPort specs (t, self)

/-- No nodes and no assigned slots. -/
def emptyTopology : Topology where
  self := 0
  nodes := []
  owned := fun _ => false
  owner := fun _ => none
  migrating := fun _ => none
  importing := fun _ => none
  epoch := 0

/-- Build the table; without configured nodes this node has all slots. -/
def build (selfAddr : Bytes) (specs : List NodeSpec) : Except BuildError Topology :=
  let specs := if specs = [] then [⟨[], selfAddr, [(0, numSlots - 1)]⟩] else specs
  match splitAddr lib selfAddr with
  | none => .error (.invalidServerAddr selfAddr)
  | some (selfHost, selfPort) =>
    match addNodes lib selfHost selfPort specs (emptyTopology, none) with
    | .error e => .error e
    | .ok (_, none) => .error (.noSelf selfAddr)
    | .ok (t, some self) => .ok { t with self }

end

/-- The slot lies in one of the intervals. -/
def InRanges (rs : List Range) (s : Nat) : Prop := ∃ r ∈ rs, r.1 ≤ s ∧ (s : Int) ≤ r.2

theorem mem_slotsOf {r : Range} {s : Nat} :
    s ∈ slotsOf r ↔ s < numSlots ∧ r.1 ≤ s ∧ (s : Int) ≤ r.2 := by
  rw [slotsOf, mem_range'_1]
  omega

theorem mem_flatMap_slotsOf {rs : List Range} {s : Nat} :
    s ∈ rs.flatMap slotsOf ↔ s < numSlots ∧ InRanges rs s := by
  simp only [mem_flatMap, mem_slotsOf, InRanges]
  constructor
  · rintro ⟨r, hr, hs, hin⟩
    exact ⟨hs, r, hr, hin⟩
  · rintro ⟨hs, r, hr, hin⟩
    exact ⟨r, hr, hs, hin⟩

/-- The table with slots assigned to the node at position `idx`. -/
def Topology.claimed (t : Topology) (idx : Nat) (ss : List Nat) : Topology :=
  { t with
    owned := fun s => if s ∈ ss then true else t.owned s
    owner := fun s => if s ∈ ss then some idx else t.owner s }

/-- Slots are assigned when they are free and listed once, and nothing else changes. -/
theorem claim_ok_iff {idx : Nat} {ss : List Nat} {t t' : Topology} :
    claim idx ss t = .ok t' ↔ (ss.Nodup ∧ ∀ s ∈ ss, t.owner s = none) ∧ t.claimed idx ss = t' := by
  induction ss generalizing t with
  | nil => simp [claim, Topology.claimed]
  | cons s ss ih =>
    rw [claim, nodup_cons, forall_mem_cons]
    split
    · next htaken =>
      refine iff_of_false nofun fun h => ?_
      rw [h.1.2.1] at htaken
      cases htaken
    · next hfree =>
      have hclaimed : Topology.claimed { t with
          owned := Function.update t.owned s true
          owner := Function.update t.owner s (some idx) } idx ss = t.claimed idx (s :: ss) := by
        simp only [Topology.claimed, Topology.mk.injEq, true_and, and_true]
        constructor <;> funext x <;> by_cases hx : x = s <;> simp [hx]
      rw [ih, hclaimed]
      refine and_congr_left fun _ => ?_
      simp only [Function.update_apply]
      constructor
      · rintro ⟨hnodup, hnone⟩
        have hs : s ∉ ss := fun hs => by simpa using hnone s hs
        refine ⟨⟨hs, hnodup⟩, by simpa using hfree, fun x hx => ?_⟩
        have hx' := hnone x hx
        rw [if_neg fun he : x = s => hs (he ▸ hx)] at hx'
        exact hx'
      · rintro ⟨⟨hs, hnodup⟩, -, hnone⟩
        refine ⟨hnodup, fun x hx => ?_⟩
        rw [if_neg fun he : x = s => hs (he ▸ hx)]
        exact hnone x hx

/-- What holds of the table while it is built. -/
structure Built (t : Topology) : Prop where
  owner_iff : ∀ s i, t.owner s = some i ↔
    s < numSlots ∧ ∃ n, t.nodes[i]? = some n ∧ InRanges n.ranges s
  owned_eq : ∀ s, t.owned s = (t.owner s).isSome
  addr_ne : ∀ n ∈ t.nodes, ¬ n.addr = []
  sorted : ∀ n ∈ t.nodes, n.ranges.Pairwise StartsBefore
  migrating_none : ∀ s, t.migrating s = none
  importing_none : ∀ s, t.importing s = none

theorem built_empty : Built emptyTopology where
  owner_iff s i := by simp [emptyTopology]
  owned_eq s := rfl
  addr_ne n hn := by simp [emptyTopology] at hn
  sorted n hn := by simp [emptyTopology] at hn
  migrating_none s := rfl
  importing_none s := rfl

/-- An address that is accepted for a node. -/
def WellFormed (lib : Library) (addr : Bytes) : Prop := addr ≠ [] ∧ (splitAddr lib addr).isSome

/-- The node listens where this server does. -/
def listensAt (lib : Library) (selfHost selfPort : Bytes) (spec : NodeSpec) : Bool :=
  (splitAddr lib spec.addr).any fun addr => isSelf selfHost selfPort addr.1 addr.2

/-- The table with one more node and its slots. -/
def Topology.withNode (t : Topology) (lib : Library) (spec : NodeSpec) : Topology :=
  { t with nodes := t.nodes ++ [nodeOf lib spec] }.claimed t.nodes.length
    ((nodeOf lib spec).ranges.flatMap slotsOf)

variable {lib : Library} {selfHost selfPort : Bytes} {specs : List NodeSpec} {spec : NodeSpec}
  {t : Topology} {self : Option Nat} {r : Topology × Option Nat}

private theorem getElem?_snoc {ns : List TopoNode} {n m : TopoNode} {i : Nat} :
    (ns ++ [m])[i]? = some n ↔ ns[i]? = some n ∨ (i = ns.length ∧ n = m) := by
  rcases Nat.lt_trichotomy i ns.length with hi | hi | hi
  · simp [getElem?_append_left hi, Nat.ne_of_lt hi]
  · subst hi
    simp [eq_comm]
  · have hnone : (ns ++ [m])[i]? = none := getElem?_eq_none (by simp; omega)
    simp [hnone, getElem?_eq_none (Nat.le_of_lt hi), Nat.ne_of_gt hi]

/-- Adding a node keeps the table in step with the configured intervals. -/
theorem Built.add (hb : Built t) (haddr : ¬ spec.addr = [])
    (hfree : ∀ s ∈ (nodeOf lib spec).ranges.flatMap slotsOf, t.owner s = none) :
    Built (t.withNode lib spec) := by
  rw [Topology.withNode, Topology.claimed]
  have hmem : ∀ n ∈ t.nodes ++ [nodeOf lib spec], n ∈ t.nodes ∨ n = nodeOf lib spec := by
    intro n hn
    simpa using hn
  refine ⟨fun s i => ?_, fun s => ?_, fun n hn => ?_, fun n hn => ?_, hb.migrating_none,
    hb.importing_none⟩
  · -- the new node's slots were free, so both sides split into the old owners and the new one
    have hright : (s < numSlots ∧ ∃ n, (t.nodes ++ [nodeOf lib spec])[i]? = some n ∧
        InRanges n.ranges s) ↔ t.owner s = some i ∨
          (i = t.nodes.length ∧ s ∈ (nodeOf lib spec).ranges.flatMap slotsOf) := by
      rw [hb.owner_iff, mem_flatMap_slotsOf]
      simp only [getElem?_snoc, or_and_right, exists_or, and_or_left]
      refine or_congr Iff.rfl ?_
      constructor
      · rintro ⟨hs, n, ⟨hi, rfl⟩, hin⟩
        exact ⟨hi, hs, hin⟩
      · rintro ⟨hi, hs, hin⟩
        exact ⟨hs, _, ⟨hi, rfl⟩, hin⟩
    rw [hright]
    by_cases hs : s ∈ (nodeOf lib spec).ranges.flatMap slotsOf
    · have hold : t.owner s = none := hfree s hs
      simp [hs, hold, eq_comm]
    · simp [hs]
  · by_cases hs : s ∈ (nodeOf lib spec).ranges.flatMap slotsOf <;> simp [hs, hb.owned_eq]
  · rcases hmem n hn with hn | rfl
    · exact hb.addr_ne n hn
    · exact haddr
  · rcases hmem n hn with hn | rfl
    · exact hb.sorted n hn
    · exact pairwise_insertionSort StartsBefore spec.ranges

/-- Adding a node succeeds when its address is well formed and its slots are free and listed once. -/
theorem addNodes_cons_iff :
    addNodes lib selfHost selfPort (spec :: specs) (t, self) = .ok r ↔
      (WellFormed lib spec.addr ∧ ((nodeOf lib spec).ranges.flatMap slotsOf).Nodup ∧
        ∀ s ∈ (nodeOf lib spec).ranges.flatMap slotsOf, t.owner s = none) ∧
      addNodes lib selfHost selfPort specs (t.withNode lib spec,
        if listensAt lib selfHost selfPort spec ∧ self = none then some t.nodes.length else self) =
          .ok r := by
  rw [addNodes, WellFormed]
  split
  · next haddr => exact iff_of_false nofun fun h => h.1.1.1 haddr
  · next haddr =>
    cases hsplit : splitAddr lib spec.addr with
    | none => simp
    | some addr =>
      simp only [listensAt, hsplit, Option.any_some, Option.isSome_some, ne_eq, haddr,
        not_false_eq_true, true_and]
      cases hclaim : claim t.nodes.length ((nodeOf lib spec).ranges.flatMap slotsOf)
          { t with nodes := t.nodes ++ [nodeOf lib spec] } with
      | error e =>
        refine iff_of_false nofun fun h => ?_
        exact absurd (hclaim.symm.trans (claim_ok_iff.mpr ⟨h.1, rfl⟩)) nofun
      | ok t' =>
        obtain ⟨hfree, rfl⟩ := claim_ok_iff.mp hclaim
        exact (and_iff_right hfree).symm

theorem Built.addNodes (hb : Built t)
    (h : addNodes lib selfHost selfPort specs (t, self) = .ok r) : Built r.1 := by
  induction specs generalizing t self with
  | nil =>
    cases h
    exact hb
  | cons spec specs ih =>
    obtain ⟨⟨hwell, -, hfree⟩, h⟩ := addNodes_cons_iff.mp h
    exact ih (hb.add hwell.1 hfree) h

/-- The nodes are kept in order, and this server is the first of them that matches. -/
theorem addNodes_ok (h : addNodes lib selfHost selfPort specs (t, self) = .ok r) :
    r.1.nodes = t.nodes ++ specs.map (nodeOf lib) ∧
      r.2 = self.or ((specs.findIdx? (listensAt lib selfHost selfPort)).map (t.nodes.length + ·)) := by
  induction specs generalizing t self with
  | nil =>
    cases h
    simp
  | cons spec specs ih =>
    obtain ⟨hnodes, hself⟩ := ih (addNodes_cons_iff.mp h).2
    have hlen : (t.withNode lib spec).nodes = t.nodes ++ [nodeOf lib spec] := rfl
    rw [hlen] at hnodes hself
    refine ⟨by simp [hnodes], ?_⟩
    rw [hself, findIdx?_cons]
    cases self with
    | some i => simp
    | none =>
      cases listensAt lib selfHost selfPort spec
      · simp [Function.comp_def, ← Nat.add_assoc, Nat.add_right_comm]
      · simp

/-- An accepted configuration gives a table in step with its intervals, in which this node is one
of the configured ones. -/
theorem built_of_build {selfAddr : Bytes} (h : build lib selfAddr specs = .ok t) : Built t ∧ t.self < t.nodes.length := by
  rw [build] at h
  split at h
  · cases h
  · split at h
    · cases h
    · cases h
    · next t1 self hadd =>
      have hb := built_empty.addNodes hadd
      obtain ⟨hnodes, hself⟩ := addNodes_ok hadd
      dsimp only at hnodes
      obtain ⟨i, hi, hself⟩ := Option.map_eq_some_iff.mp hself.symm
      obtain ⟨hlt, -⟩ := findIdx?_eq_some_iff_getElem.mp hi
      cases h
      exact ⟨⟨hb.owner_iff, hb.owned_eq, hb.addr_ne, hb.sorted, hb.migrating_none,
        hb.importing_none⟩, by simpa [← hself, hnodes, emptyTopology] using hlt⟩

namespace Topology

variable (t : Topology)

/-- This node has the slot. -/
def owns (slot : Nat) : Bool := slot < numSlots && t.owned slot && t.owner slot == some t.self

/-- The address of the node that has the slot, empty when there is none. -/
def ownerAddr (slot : Nat) : Bytes :=
  if slot < numSlots then ((t.owner slot).bind fun idx => t.nodes[idx]?).elim [] TopoNode.addr
  else []

/-- The position of the first node with the identifier. -/
def indexOf (id : Bytes) : Option Nat := t.nodes.findIdx? fun n => n.id == id

/-- The address of the first node with the identifier, empty when there is none. -/
def addrOf (id : Bytes) : Bytes := (t.nodes.find? fun n => n.id == id).elim [] TopoNode.addr

inductive SlotError where
  | outOfRange
  | notOwner
  | alreadyOwner
  | unknownNode
  deriving DecidableEq, Repr

def setMigrating (slot : Int) (targetID : Bytes) : Topology × Option SlotError :=
  if slot < 0 ∨ numSlots ≤ slot then (t, some .outOfRange)
  else
    let s := slot.toNat
    if t.owner s ≠ some t.self then (t, some .notOwner)
    else if t.migrating s = some targetID then (t, none)
    else
      ({ t with
          migrating := Function.update t.migrating s (some targetID)
          epoch := t.epoch + 1 }, none)

def setImporting (slot : Int) (sourceID : Bytes) : Topology × Option SlotError :=
  if slot < 0 ∨ numSlots ≤ slot then (t, some .outOfRange)
  else
    let s := slot.toNat
    if t.owner s = some t.self then (t, some .alreadyOwner)
    else if t.importing s = some sourceID then (t, none)
    else
      ({ t with
          importing := Function.update t.importing s (some sourceID)
          epoch := t.epoch + 1 }, none)

def setStable (slot : Int) : Topology :=
  if slot < 0 ∨ numSlots ≤ slot then t
  else
    { t with
      migrating := Function.update t.migrating slot.toNat none
      importing := Function.update t.importing slot.toNat none }

def setNode (slot : Int) (nodeID : Bytes) : Topology × Option SlotError :=
  if slot < 0 ∨ numSlots ≤ slot then (t, some .outOfRange)
  else
    let s := slot.toNat
    match t.indexOf nodeID with
    | none => (t, some .unknownNode)
    | some idx =>
      ({ t with
          owner := Function.update t.owner s (some idx)
          owned := Function.update t.owned s true
          migrating := Function.update t.migrating s none
          importing := Function.update t.importing s none
          epoch := t.epoch + 1 }, none)

/-- A method that reports an error leaves the table as it was. -/
theorem unchanged_of_error {slot : Int} {id : Bytes} :
    ((t.setMigrating slot id).2 ≠ none → (t.setMigrating slot id).1 = t) ∧
      ((t.setImporting slot id).2 ≠ none → (t.setImporting slot id).1 = t) ∧
      ((t.setNode slot id).2 ≠ none → (t.setNode slot id).1 = t) := by
  refine ⟨?_, ?_, ?_⟩
  · simp only [setMigrating]
    split_ifs <;> simp
  · simp only [setImporting]
    split_ifs <;> simp
  · simp only [setNode]
    split_ifs
    · simp
    · cases t.indexOf id <;> simp

end Topology

end Gedis.Cluster
