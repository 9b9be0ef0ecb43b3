import Gedis.Cluster.Partition
import Gedis.Cluster.Persist
import Gedis.Cluster.Resharding
import Gedis.Cluster.Views

/-!
# The nodes of a cluster agree

Every node keeps its own table. Marks differ between nodes, and so does the order in which a node gets
its calls; what the tables say about owners depends only on the assignments among the calls.
-/

namespace Gedis.Cluster

open Gedis.Core Commands List

variable {lib : Library} {specs : List NodeSpec} {t : Topology} {w : World} {c : Call}

/-- The owners after an assignment, which an unknown node does not change. -/
def assign (nodes : List TopoNode) (owner : Nat → Option Nat) (a : Nat × Bytes) : Nat → Option Nat :=
  (nodes.findIdx? fun n => n.id == a.2).elim owner fun i => Function.update owner a.1 (some i)

/-- The tables of the nodes that were started with one configuration, after the calls that each of them
got. Every node takes itself for the right one, and all get the same assignments. -/
structure Nodes (lib : Library) (specs : List NodeSpec) where
  start : NodeSpec → Topology
  calls : NodeSpec → List SetslotCall
  built : ∀ n ∈ specs, build lib n.addr specs = .ok (start n)
  distinct : specs.Nodup
  itself : ∀ n ∈ specs, specs.find? (isServer lib n.addr) = some n
  told : ∀ n ∈ specs, ∀ n' ∈ specs, (calls n).filterMap (·.assigns) = (calls n').filterMap (·.assigns)

def Nodes.table (nodes : Nodes lib specs) (n : NodeSpec) : Topology :=
  run setslotStep (nodes.start n) (nodes.calls n)

/-- A call changes the owners only by an assignment. -/
theorem setslotStep_frame {call : SetslotCall} :
    (setslotStep t call).nodes = t.nodes ∧ (setslotStep t call).self = t.self ∧
      (setslotStep t call).owner = call.assigns.elim t.owner (assign t.nodes t.owner) := by
  unfold setslotStep setslot SetslotCall.assigns
  cases hparse : parseSetslot call.rest with
  | error => exact ⟨rfl, rfl, rfl⟩
  | ok p =>
    obtain ⟨slot, op⟩ := p
    have hslot := parseSetslot_lt hparse
    cases op with
    | migrating id | importing id =>
      simp only [execSlotOp, Topology.setMigrating, Topology.setImporting]
      split_ifs <;> exact ⟨rfl, rfl, rfl⟩
    | stable =>
      obtain h | h := @Topology.setStable_cases t slot <;> simp [execSlotOp, h]
    | node id =>
      have hrange : ¬ ((slot : Int) < 0 ∨ (numSlots : Int) ≤ slot) := by omega
      simp only [execSlotOp, Topology.setNode, if_neg hrange, Int.toNat_natCast, Topology.indexOf, assign,
        Option.elim_some]
      cases t.nodes.findIdx? fun n => n.id == id <;> simp

theorem run_frame {calls : List SetslotCall} :
    (run setslotStep t calls).nodes = t.nodes ∧ (run setslotStep t calls).self = t.self ∧
      (run setslotStep t calls).owner = (calls.filterMap (·.assigns)).foldl (assign t.nodes) t.owner := by
  induction calls generalizing t with
  | nil => exact ⟨rfl, rfl, rfl⟩
  | cons call calls ih =>
    obtain ⟨hnodes, hself, howner⟩ := @setslotStep_frame t call
    rw [run_cons, (@ih (setslotStep t call)).1, (@ih (setslotStep t call)).2.1,
      (@ih (setslotStep t call)).2.2, hnodes, hself, howner, filterMap_cons]
    refine ⟨rfl, rfl, ?_⟩
    cases call.assigns <;> rfl

theorem slot_lt {key : Bytes} : slot key < numSlots := by
  rw [slot, UInt16.toNat_and]
  exact Nat.lt_succ_of_le Nat.and_le_right

/-- On a slot without marks, a node answers by the owner in its table. -/
theorem answer_of_settled (h : Marked t) {key : Bytes} {rest : List Bytes}
    (hrouted : c.routed = .ok (some (key :: rest))) (hsame : ∀ k ∈ rest, slot k = slot key)
    (hmig : t.migrating (slot key) = none) (himp : t.importing (slot key) = none) :
    c.answer t false w = .ok
      (if t.owner (slot key) = some t.self then none
      else if t.ownerAddr (slot key) = [] then some .clusterDown
      else some (.moved (slot key) (t.ownerAddr (slot key)))) := by
  have howns : t.owns (slot key) = true ↔ t.owner (slot key) = some t.self := by
    rw [Topology.owns, h.owned_eq, Bool.and_eq_true, Bool.and_eq_true, beq_iff_eq, decide_eq_true_eq]
    refine ⟨fun h => h.2, fun h => ⟨⟨slot_lt, by rw [h]; rfl⟩, h⟩⟩
  obtain ⟨a, ha, hdecides⟩ := answer_of_keys hrouted
  rw [ha]
  cases hdecides with
  | crossSlot k hk hne => exact absurd (hsame k hk) hne
  | moving _ hmoving | gone _ hmoving => simp [hmig] at hmoving
  | importing _ _ himporting => simp [himp] at himporting
  | owned _ _ _ h => rw [if_pos (howns.mp h)]
  | foreign _ _ _ h =>
    rw [← Bool.not_eq_true, howns] at h
    rw [if_neg h]
    rfl

namespace Nodes

variable (nodes : Nodes lib specs) {n n' : NodeSpec}

/-- What the table of a node holds. -/
theorem table_spec (hn : n ∈ specs) :
    Marked (nodes.table n) ∧ (nodes.table n).nodes = specs.map (nodeOf lib) ∧
      specs[(nodes.table n).self]? = some n ∧ n.addr ≠ [] := by
  have hbuild := nodes.built n hn
  obtain ⟨ha, hd⟩ := describes_of_build hbuild
  rw [configured, if_neg (ne_nil_of_mem hn)] at ha hd
  obtain ⟨hnodes, hself, -⟩ := @run_frame (nodes.start n) (nodes.calls n)
  rw [Nodes.table, hnodes, hself]
  refine ⟨run_invariant (fun _ _ h => h.step) (built_of_build hbuild).1.marked _, hd.nodes, ?_,
    (ha.nodes n hn).1⟩
  rw [← nodes.itself n hn, find?_eq_bind_findIdx?_getElem?, hd.self]
  rfl

/-- All nodes have the same owners in their tables. -/
theorem owner_eq (hn : n ∈ specs) (hn' : n' ∈ specs) : (nodes.table n).owner = (nodes.table n').owner := by
  have hd := (describes_of_build (nodes.built n hn)).2
  have hd' := (describes_of_build (nodes.built n' hn')).2
  rw [configured, if_neg (ne_nil_of_mem hn)] at hd hd'
  have howner : (nodes.start n).owner = (nodes.start n').owner := by
    funext s
    exact Option.ext fun i => hd.owner_iff.trans hd'.owner_iff.symm
  rw [table, table, run_frame.2.2, run_frame.2.2, nodes.told n hn n' hn', hd.nodes, hd'.nodes, howner]

end Nodes

/-- Nodes that were started with one configuration and got the same assignments agree about every
command whose keys are in one slot without marks: without an owner the cluster is down for all of them,
and otherwise one of them serves the command and all others send the client there. -/
theorem nodes_agree (nodes : Nodes lib specs) {key : Bytes} {rest : List Bytes}
    (hrouted : c.routed = .ok (some (key :: rest))) (hsame : ∀ k ∈ rest, slot k = slot key)
    (hsettled : ∀ n ∈ specs, (nodes.table n).migrating (slot key) = none ∧
      (nodes.table n).importing (slot key) = none) :
    ∃ owner : Option NodeSpec, (∀ o ∈ owner, o ∈ specs) ∧ ∀ n ∈ specs, ∀ w,
      c.answer (nodes.table n) false w = .ok (owner.elim (some .clusterDown) fun o =>
        if n = o then none else some (.moved (slot key) o.addr)) := by
  by_cases hempty : specs = []
  · exact ⟨none, by simp, by simp [hempty]⟩
  obtain ⟨n₀, hn₀⟩ := exists_mem_of_ne_nil specs hempty
  have hlt := (nodes.table_spec hn₀).1.owner_lt (slot key)
  rw [(nodes.table_spec hn₀).2.1, length_map] at hlt
  -- the owner is an index into the configuration, the same one in all tables
  generalize howner : (nodes.table n₀).owner (slot key) = owner at hlt
  refine ⟨owner.bind (specs[·]?), fun o ho => ?_, fun n hn w => ?_⟩
  · obtain ⟨i, -, hi⟩ := Option.bind_eq_some_iff.mp ho
    exact mem_of_getElem? hi
  obtain ⟨hmarked, hnodes, hself, -⟩ := nodes.table_spec hn
  rw [answer_of_settled hmarked hrouted hsame (hsettled n hn).1 (hsettled n hn).2, Topology.ownerAddr,
    if_pos slot_lt, hnodes, nodes.owner_eq hn hn₀, howner]
  cases owner with
  | none => simp
  | some i =>
    have hi := hlt i rfl
    have hmine : i = (nodes.table n).self ↔ n = specs[i] := by
      generalize (nodes.table n).self = j at hself
      obtain ⟨hj, rfl⟩ := List.getElem?_eq_some_iff.mp hself
      rw [nodes.distinct.getElem_inj_iff, eq_comm]
    have hne := (nodes.table_spec (getElem_mem hi)).2.2.2
    have haddr : (nodeOf lib specs[i]).addr = specs[i].addr := rfl
    simp [hi, hmine, haddr, hne]

/-- The first of two nodes marks its slot and hands it to the second, which only learns of the end. -/
def handover : Nodes hostOnly twoNodes where
  start n := if n.id = [97] then twoNodeTable else { twoNodeTable with self := 1 }
  calls n := if n.id = [97] then
      [⟨[some [48], some (ascii "migrating".toList), some [98]], true⟩, assignFirst [98]]
    else [assignFirst [98]]
  built := by
    simp only [twoNodes, mem_cons, not_mem_nil, or_false, forall_eq_or_imp, forall_eq]
    exact ⟨rfl, rfl⟩
  distinct := by decide
  itself := by decide
  told := by decide

theorem nodes_agree_handover :
    ∃ owner : Option NodeSpec, (∀ o ∈ owner, o ∈ twoNodes) ∧ ∀ n ∈ twoNodes, ∀ w,
      (callOf "SET" ["zbgn", "v"]).answer (handover.table n) false w =
        .ok (owner.elim (some .clusterDown) fun o => if n = o then none else some (.moved 0 o.addr)) := by
  obtain ⟨hslot, hlookup⟩ :
      slot (ascii "zbgn".toList) = 0 ∧ Acl.lookupMeta (ascii "SET".toList) = some .SET := by decide +kernel
  have hrouted : (callOf "SET" ["zbgn", "v"]).routed = .ok (some [ascii "zbgn".toList]) :=
    (@routed_eq_route (callOf "SET" ["zbgn", "v"]) .SET hlookup).trans rfl
  have hsettled : ∀ n ∈ twoNodes, (handover.table n).migrating 0 = none ∧
      (handover.table n).importing 0 = none := by
    simp only [twoNodes, mem_cons, not_mem_nil, or_false, forall_eq_or_imp, forall_eq]
    exact ⟨⟨rfl, rfl⟩, rfl, rfl⟩
  rw [← hslot] at hsettled ⊢
  exact nodes_agree handover hrouted (by simp) hsettled

end Gedis.Cluster
