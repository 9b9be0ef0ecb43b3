import Gedis.Cluster.Topology

/-!
# The table is a partition

A configuration is accepted exactly when its addresses are well formed, one of its nodes is this
server and no slot is covered twice. The table that is built from it gives every slot to the node
whose intervals contain it.
-/

namespace Gedis.Cluster

open Gedis.Core List

variable {lib : Library} {selfHost selfPort : Bytes} {specs : List NodeSpec} {spec : NodeSpec}
  {t : Topology} {self : Option Nat}

/-- The configured nodes; without any this server has all slots. -/
def configured (selfAddr : Bytes) (specs : List NodeSpec) : List NodeSpec :=
  if specs = [] then [⟨[], selfAddr, [(0, numSlots - 1)]⟩] else specs

/-- The node is this server. -/
def isServer (lib : Library) (selfAddr : Bytes) (spec : NodeSpec) : Bool :=
  (splitAddr lib selfAddr).any fun addr => listensAt lib addr.1 addr.2 spec

/-- How many of the listed intervals contain a slot. -/
def coverings (specs : List NodeSpec) (s : Nat) : Nat :=
  (specs.flatMap NodeSpec.ranges).countP fun r => r.1 ≤ (s : Int) ∧ (s : Int) ≤ r.2

/-- What makes a configuration acceptable. -/
structure Accepted (lib : Library) (selfAddr : Bytes) (specs : List NodeSpec) : Prop where
  server : (splitAddr lib selfAddr).isSome
  nodes : ∀ spec ∈ specs, WellFormed lib spec.addr
  member : ∃ spec ∈ specs, isServer lib selfAddr spec
  once : ∀ s < numSlots, coverings specs s ≤ 1

/-- The number of assigned slots. -/
def Topology.assignedCount (t : Topology) : Nat :=
  (List.range numSlots).countP fun s => (t.owner s).isSome

/-- The slots of the listed intervals, one interval after the other. -/
def slotsIn (specs : List NodeSpec) : List Nat :=
  specs.flatMap fun spec => spec.ranges.flatMap slotsOf

theorem perm_nodeOf :
    ((nodeOf lib spec).ranges.flatMap slotsOf).Perm (spec.ranges.flatMap slotsOf) :=
  (perm_insertionSort StartsBefore spec.ranges).flatMap_right slotsOf

theorem count_slotsIn (s : Nat) :
    (slotsIn specs).count s = if s < numSlots then coverings specs s else 0 := by
  rw [slotsIn, ← flatMap_assoc, coverings]
  induction specs.flatMap NodeSpec.ranges with
  | nil => simp
  | cons r rs ih =>
    have hone : (slotsOf r).count s = if s ∈ slotsOf r then 1 else 0 :=
      List.Nodup.count nodup_range'
    rw [flatMap_cons, count_append, ih, hone, countP_cons]
    by_cases hs : s < numSlots
    · simp [mem_slotsOf, hs, Nat.add_comm]
    · simp [mem_slotsOf, hs]

theorem nodup_slotsIn_iff : (slotsIn specs).Nodup ↔ ∀ s < numSlots, coverings specs s ≤ 1 := by
  rw [nodup_iff_count_le_one]
  refine forall_congr' fun s => ?_
  rw [count_slotsIn]
  split <;> simp [*]

theorem coverings_pos_iff {s : Nat} :
    0 < coverings specs s ↔ ∃ spec ∈ specs, InRanges spec.ranges s := by
  simp only [coverings, countP_pos_iff, mem_flatMap, decide_eq_true_eq, InRanges]
  constructor
  · rintro ⟨r, ⟨spec, hspec, hr⟩, hin⟩
    exact ⟨spec, hspec, r, hr, hin⟩
  · rintro ⟨spec, hspec, r, hr, hin⟩
    exact ⟨r, ⟨spec, hspec, hr⟩, hin⟩

theorem addNodes_ok_iff :
    (∃ r, addNodes lib selfHost selfPort specs (t, self) = .ok r) ↔
      (∀ spec ∈ specs, WellFormed lib spec.addr) ∧ (slotsIn specs).Nodup ∧
        ∀ s ∈ slotsIn specs, t.owner s = none := by
  induction specs generalizing t self with
  | nil => simp [addNodes, slotsIn]
  | cons spec specs ih =>
    have hslots : slotsIn (spec :: specs) = spec.ranges.flatMap slotsOf ++ slotsIn specs := rfl
    simp only [addNodes_cons_iff, exists_and_left, ih, hslots, nodup_append,
      forall_mem_cons, forall_mem_append, Topology.withNode, Topology.claimed,
      perm_nodeOf.nodup_iff, perm_nodeOf.mem_iff]
    -- the rest is free in the new table when it avoids this node's slots as well
    constructor
    · rintro ⟨⟨hwell, hnodup, hfree⟩, hrest, hnd, hnone⟩
      have hapart : ∀ s ∈ slotsIn specs, s ∉ spec.ranges.flatMap slotsOf ∧ t.owner s = none := by
        intro s hs
        have := hnone s hs
        split at this
        · cases this
        · next hout => exact ⟨hout, this⟩
      exact ⟨⟨hwell, hrest⟩, ⟨hnodup, hnd, fun a ha b hb he => (hapart b hb).1 (he ▸ ha)⟩, hfree,
        fun s hs => (hapart s hs).2⟩
    · rintro ⟨⟨hwell, hrest⟩, ⟨hnodup, hnd, hapart⟩, hfree, hnone⟩
      refine ⟨⟨hwell, hnodup, hfree⟩, hrest, hnd, fun s hs => ?_⟩
      rw [if_neg fun hin => hapart s hin s hs rfl]
      exact hnone s hs

variable {selfAddr : Bytes}

/-- The table of an accepted configuration: where this server is among the nodes, and whom a slot
belongs to. -/
structure Describes (lib : Library) (selfAddr : Bytes) (specs : List NodeSpec) (t : Topology) :
    Prop where
  nodes : t.nodes = specs.map (nodeOf lib)
  self : specs.findIdx? (isServer lib selfAddr) = some t.self
  built : Built t

theorem isServer_eq {host port : Bytes} (h : splitAddr lib selfAddr = some (host, port)) :
    isServer lib selfAddr = listensAt lib host port := by
  funext spec
  rw [isServer, h, Option.any_some]

theorem describes_of_build (h : build lib selfAddr specs = .ok t) :
    Accepted lib selfAddr (configured selfAddr specs) ∧
      Describes lib selfAddr (configured selfAddr specs) t := by
  have hbuilt := (built_of_build h).1
  rw [build, ← configured] at h
  split at h
  · cases h
  · next host port hsplit =>
    split at h
    · cases h
    · cases h
    · next t₁ i hadd =>
      cases h
      obtain ⟨hwell, hnodup, -⟩ := addNodes_ok_iff.mp ⟨_, hadd⟩
      obtain ⟨hnodes, hself⟩ := addNodes_ok hadd
      have hfind : (configured selfAddr specs).findIdx? (isServer lib selfAddr) = some i := by
        rw [isServer_eq hsplit]
        simpa [emptyTopology] using hself.symm
      refine ⟨⟨by rw [hsplit]; rfl, hwell, ?_, nodup_slotsIn_iff.mp hnodup⟩, hnodes, hfind, hbuilt⟩
      obtain ⟨hi, hserver, -⟩ := findIdx?_eq_some_iff_getElem.mp hfind
      exact ⟨_, getElem_mem hi, hserver⟩

theorem Accepted.build (h : Accepted lib selfAddr (configured selfAddr specs)) :
    ∃ t, build lib selfAddr specs = .ok t := by
  obtain ⟨⟨host, port⟩, hsplit⟩ := Option.isSome_iff_exists.mp h.server
  obtain ⟨⟨t₁, self⟩, hadd⟩ := (@addNodes_ok_iff lib host port _ emptyTopology none).mpr
    ⟨h.nodes, nodup_slotsIn_iff.mpr h.once, fun _ _ => rfl⟩
  obtain ⟨spec, hspec, hserver⟩ := h.member
  have hself := (addNodes_ok hadd).2
  rw [← isServer_eq hsplit] at hself
  cases hfind : (configured selfAddr specs).findIdx? (isServer lib selfAddr) with
  | none => exact absurd hserver (by simpa using findIdx?_eq_none_iff.mp hfind spec hspec)
  | some i =>
    rw [hfind] at hself
    cases hself
    exact ⟨_, by rw [Cluster.build, ← configured, hsplit]; dsimp only; rw [hadd]⟩

/-- A slot belongs to the node whose intervals contain it. -/
theorem Describes.owner_iff (h : Describes lib selfAddr specs t) {s idx : Nat} :
    t.owner s = some idx ↔
      s < numSlots ∧ ∃ spec, specs[idx]? = some spec ∧ InRanges spec.ranges s := by
  have hranges (spec : NodeSpec) : InRanges (nodeOf lib spec).ranges s ↔ InRanges spec.ranges s := by
    simp [InRanges, nodeOf]
  simp [h.built.owner_iff, h.nodes, hranges]

theorem Describes.isSome_owner_iff (h : Describes lib selfAddr specs t) {s : Nat}
    (hs : s < numSlots) : (t.owner s).isSome ↔ 0 < coverings specs s := by
  rw [coverings_pos_iff, Option.isSome_iff_exists]
  simp only [h.owner_iff, hs, true_and, mem_iff_getElem?]
  constructor
  · rintro ⟨i, spec, hspec, hin⟩
    exact ⟨spec, ⟨i, hspec⟩, hin⟩
  · rintro ⟨spec, ⟨i, hspec⟩, hin⟩
    exact ⟨i, spec, hspec, hin⟩

/-- A configuration is accepted exactly when the server address and the addresses of the nodes are
well formed, one of the nodes is this server and no slot is covered twice. In the table that is built
every slot has the address of the node whose intervals contain it, this server has the slots of the
first node that matches it, and the covered slots are counted. -/
theorem build_partition (lib : Library) (selfAddr : Bytes) (specs : List NodeSpec) :
    ((∃ t, build lib selfAddr specs = .ok t) ↔ Accepted lib selfAddr (configured selfAddr specs)) ∧
    ∀ t, build lib selfAddr specs = .ok t →
      (∀ s < numSlots,
        (∀ spec ∈ configured selfAddr specs, InRanges spec.ranges s → t.ownerAddr s = spec.addr) ∧
        ((∀ spec ∈ configured selfAddr specs, ¬ InRanges spec.ranges s) → t.ownerAddr s = [])) ∧
      (∃ spec, (configured selfAddr specs).find? (isServer lib selfAddr) = some spec ∧
        ∀ s, t.owns s = true ↔ s < numSlots ∧ InRanges spec.ranges s) ∧
      t.assignedCount =
        (List.range numSlots).countP fun s => 0 < coverings (configured selfAddr specs) s := by
  refine ⟨⟨fun ⟨_, h⟩ => (describes_of_build h).1, Accepted.build⟩, fun t h => ?_⟩
  have hd := (describes_of_build h).2
  refine ⟨fun s hs => ⟨fun spec hspec hin => ?_, fun hnone => ?_⟩, ?_, ?_⟩
  · obtain ⟨i, hi⟩ := mem_iff_getElem?.mp hspec
    have howner := hd.owner_iff.mpr ⟨hs, spec, hi, hin⟩
    simp [Topology.ownerAddr, hs, howner, hd.nodes, hi, nodeOf]
  · cases howner : t.owner s with
    | none => simp [Topology.ownerAddr, howner]
    | some i =>
      obtain ⟨-, spec, hi, hin⟩ := hd.owner_iff.mp howner
      exact absurd hin (hnone spec (mem_of_getElem? hi))
  · obtain ⟨hi, hserver, hfirst⟩ := findIdx?_eq_some_iff_getElem.mp hd.self
    refine ⟨_, find?_eq_some_iff_getElem.mpr
      ⟨hserver, _, hi, rfl, fun j hj => by simpa using hfirst j hj⟩, fun s => ?_⟩
    have howner := @Describes.owner_iff _ _ _ _ hd s t.self
    rw [getElem?_eq_getElem hi] at howner
    simp only [Option.some.injEq, exists_eq_left'] at howner
    rw [Topology.owns, Bool.and_eq_true, Bool.and_eq_true, hd.built.owned_eq, beq_iff_eq, howner]
    constructor
    · exact fun h => h.2
    · intro h
      rw [howner.mpr h]
      simp [h]
  · refine countP_congr fun s hs => ?_
    rw [decide_eq_true_eq]
    exact hd.isSome_owner_iff (mem_range.mp hs)

/-- Addresses are hosts without a port. -/
def hostLibrary : Library := ⟨fun addr => some (addr, []), id⟩

/-- Two nodes with ten slots each. -/
def pairOfNodes : List NodeSpec := [⟨[], [97], [(0, 9)]⟩, ⟨[], [98], [(10, 19)]⟩]

theorem build_pairOfNodes :
    ∃ t, build hostLibrary [97] pairOfNodes = .ok t ∧ t.ownerAddr 12 = [98] := by
  have hboth := build_partition hostLibrary [97] pairOfNodes
  have haccepted : Accepted hostLibrary [97] (configured [97] pairOfNodes) := by
    refine ⟨rfl, ?_, ⟨_, mem_cons_self, rfl⟩, fun s _ => ?_⟩
    · simp [configured, pairOfNodes, WellFormed, splitAddr, hostLibrary]
    · have hcount : coverings (configured [97] pairOfNodes) s =
          (if (10 : Int) ≤ s ∧ (s : Int) ≤ 19 then 1 else 0) +
            if (0 : Int) ≤ s ∧ (s : Int) ≤ 9 then 1 else 0 := by
        simp [coverings, configured, pairOfNodes, countP_cons]
      rw [hcount]
      split <;> split <;> omega
  obtain ⟨t, ht⟩ := hboth.1.mpr haccepted
  refine ⟨t, ht, ((hboth.2 t ht).1 12 (by decide)).1 ⟨[], [98], [(10, 19)]⟩ (by decide) ?_⟩
  exact ⟨(10, 19), by decide, by decide, by decide⟩

end Gedis.Cluster
