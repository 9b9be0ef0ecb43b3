import Gedis.Cluster.Setslot

/-!
# What a node reports about the slots

Three replies list the slots of every node: as merged intervals, as shards, and as lines of text.
All three are made from the configured intervals, while redirections name the current owner. The
main result says for which runs the two agree.
-/

namespace Gedis.Cluster

open Gedis.Core Protocol List Topology

variable {rs : List Range} {t : Topology} {id : Bytes}

/-- Merge intervals that touch or overlap into the last one. -/
def mergeFrom (last : Range) : List Range → List Range
  | [] => [last]
  | r :: rs =>
    if r.1 ≤ last.2 + 1 then mergeFrom (last.1, max last.2 r.2) rs else last :: mergeFrom r rs

def merged : List Range → List Range
  | [] => []
  | r :: rs => mergeFrom r rs

/-- The number that is read even from a text with an error in it: the nearest bound for digits out
of range, and zero for anything else. -/
def atoi (s : Bytes) : Int64 :=
  match parseInt s with
  | some n => n
  | none =>
    match s with
    | 45 :: ds => if (parseDigits 0 ds).isSome ∧ ds ≠ [] then -9223372036854775808 else 0
    | 43 :: ds => if (parseDigits 0 ds).isSome ∧ ds ≠ [] then 9223372036854775807 else 0
    | ds => if (parseDigits 0 ds).isSome ∧ ds ≠ [] then 9223372036854775807 else 0

/-- Host and port of an address; an address that cannot be split is all host. -/
def hostPort (lib : Library) (addr : Bytes) : Bytes × Int64 :=
  match lib.splitHostPort addr with
  | none => (addr, 0)
  | some (host, port) => (host, atoi port)

def intValue (n : Int) : Value := .integer (Int64.ofInt n)

def textValue (text : String) : Value := bulkOf (ascii text.toList)

def nodeAddrTriple (lib : Library) (n : TopoNode) : Value :=
  let (host, port) := hostPort lib n.addr
  arrayOf [bulkOf host, .integer port, bulkOf n.id]

/-- The intervals of all nodes, merged. -/
def slotsView (t : Topology) : List (Range × TopoNode) :=
  t.nodes.flatMap fun n => (merged n.ranges).map fun r => (r, n)

/-- The intervals of all nodes as they were configured. -/
def rangesView (t : Topology) : List (Range × TopoNode) :=
  t.nodes.flatMap fun n => n.ranges.map fun r => (r, n)

/-- `CLUSTER SLOTS`. -/
def slots (lib : Library) (t : Topology) : Value :=
  arrayOf ((slotsView t).map fun (r, n) =>
    arrayOf [intValue r.1, intValue r.2, nodeAddrTriple lib n])

/-- One shard of `CLUSTER SHARDS`. -/
def shardOf (lib : Library) (n : TopoNode) : Value :=
  let (host, port) := hostPort lib n.addr
  let nodeMap : Value := .map [
    (textValue "id", bulkOf n.id),
    (textValue "port", .integer port),
    (textValue "ip", bulkOf host),
    (textValue "endpoint", bulkOf host),
    (textValue "role", textValue "master"),
    (textValue "replication-offset", .integer 0),
    (textValue "health", textValue "online")]
  .map [
    (textValue "slots", arrayOf (n.ranges.flatMap fun r => [intValue r.1, intValue r.2])),
    (textValue "nodes", arrayOf [nodeMap])]

/-- `CLUSTER SHARDS`. -/
def shards (lib : Library) (t : Topology) : Value := arrayOf (t.nodes.map (shardOf lib))

/-- The identifier of this node. -/
def selfID (t : Topology) : Bytes := (t.nodes[t.self]?).elim [] TopoNode.id

def decimal (n : Int) : Bytes := formatInt (Int64.ofInt n)

/-- An interval as text; one slot stands alone. -/
def rangeText (r : Range) : Bytes :=
  32 :: (if r.1 = r.2 then decimal r.1 else decimal r.1 ++ 45 :: decimal r.2)

/-- One line of `CLUSTER NODES`. -/
def nodeLine (lib : Library) (t : Topology) (n : TopoNode) : Bytes :=
  let port := (hostPort lib n.addr).2
  let flags := if n.id = selfID t then ascii "myself,master".toList else ascii "master".toList
  n.id ++ 32 :: n.addr ++ 64 :: formatInt (port + 10000) ++ 32 :: flags ++
    ascii " - 0 0 1 connected".toList ++ n.ranges.flatMap rangeText ++ crlf

/-- `CLUSTER NODES`. -/
def nodes (lib : Library) (t : Topology) : Value := bulkOf (t.nodes.flatMap (nodeLine lib t))

/-- The three replies. -/
inductive View where
  | slots
  | shards
  | nodes
  deriving DecidableEq, Repr

/-- The intervals that a reply lists, each with its node. -/
def View.entries (t : Topology) : View → List (Range × TopoNode)
  | .slots => slotsView t
  | .shards => rangesView t
  | .nodes => rangesView t

/-- A reply lists the slot under a node with the given address. -/
def Lists (entries : List (Range × TopoNode)) (s : Nat) (addr : Bytes) : Prop :=
  ∃ e ∈ entries, e.1.1 ≤ s ∧ (s : Int) ≤ e.1.2 ∧ e.2.addr = addr

/-- Every reply lists the slot under exactly the address that redirections name. -/
def ViewsAgree (t : Topology) (s : Nat) : Prop :=
  ∀ (v : View) (addr : Bytes), Lists (v.entries t) s addr ↔ t.ownerAddr s = addr ∧ ¬ addr = []

private theorem inRanges_mergeFrom {last : Range} {s : Nat} (h : (last :: rs).Pairwise StartsBefore)
    : InRanges (mergeFrom last rs) s ↔ InRanges (last :: rs) s := by
  induction rs generalizing last with
  | nil => rfl
  | cons r rs ih =>
    obtain ⟨hlast, hrs⟩ := pairwise_cons.mp h
    have hstart : last.1 ≤ r.1 := hlast r (by simp)
    rw [mergeFrom]
    split
    · next htouch =>
      have hsorted : ((last.1, max last.2 r.2) :: rs).Pairwise StartsBefore := by
        refine pairwise_cons.mpr ⟨fun x hx => ?_, (pairwise_cons.mp hrs).2⟩
        exact hlast x (by simp [hx])
      rw [ih hsorted]
      simp only [InRanges, exists_mem_cons_iff]
      constructor
      · rintro (⟨h1, h2⟩ | h)
        · by_cases hin : (s : Int) ≤ last.2
          · exact .inl ⟨h1, hin⟩
          · refine .inr (.inl ⟨?_, ?_⟩) <;> omega
        · exact .inr (.inr h)
      · rintro (h | h | h)
        · exact .inl ⟨h.1, by omega⟩
        · exact .inl ⟨by omega, by omega⟩
        · exact .inr h
    · simp only [InRanges, exists_mem_cons_iff] at ih ⊢
      rw [ih hrs]

theorem inRanges_merged {s : Nat} (h : rs.Pairwise StartsBefore) :
    InRanges (merged rs) s ↔ InRanges rs s := by
  cases rs with
  | nil => rfl
  | cons => exact inRanges_mergeFrom h

/-- A reply lists a slot under the nodes that were configured with it. -/
theorem lists_iff (hsorted : ∀ n ∈ t.nodes, n.ranges.Pairwise StartsBefore) {v : View} {s : Nat}
    {addr : Bytes} :
    Lists (v.entries t) s addr ↔ ∃ n ∈ t.nodes, InRanges n.ranges s ∧ n.addr = addr := by
  have hranges : Lists (rangesView t) s addr ↔
      ∃ n ∈ t.nodes, InRanges n.ranges s ∧ n.addr = addr := by
    simp only [Lists, rangesView, mem_flatMap, mem_map, InRanges]
    constructor
    · rintro ⟨_, ⟨n, hn, r, hr, rfl⟩, h1, h2, haddr⟩
      exact ⟨n, hn, ⟨r, hr, h1, h2⟩, haddr⟩
    · rintro ⟨n, hn, ⟨r, hr, h1, h2⟩, haddr⟩
      exact ⟨(r, n), ⟨n, hn, r, hr, rfl⟩, h1, h2, haddr⟩
  cases v with
  | shards => exact hranges
  | nodes => exact hranges
  | slots =>
    simp only [View.entries, Lists, slotsView, mem_flatMap, mem_map]
    constructor
    · rintro ⟨_, ⟨n, hn, r, hr, rfl⟩, h1, h2, haddr⟩
      exact ⟨n, hn, (inRanges_merged (hsorted n hn)).mp ⟨r, hr, h1, h2⟩, haddr⟩
    · rintro ⟨n, hn, hin, haddr⟩
      obtain ⟨r, hr, h1, h2⟩ := (inRanges_merged (hsorted n hn)).mpr hin
      exact ⟨(r, n), ⟨n, hn, r, hr, rfl⟩, h1, h2, haddr⟩

/-- In a table in step with the configured intervals, every reply lists exactly the owner. -/
theorem Built.lists_iff_ownerAddr (h : Built t) {s : Nat} (hs : s < numSlots) {v : View}
    {addr : Bytes} : Lists (v.entries t) s addr ↔ t.ownerAddr s = addr ∧ ¬ addr = [] := by
  rw [lists_iff h.sorted]
  constructor
  · rintro ⟨n, hn, hin, rfl⟩
    obtain ⟨i, hi⟩ := getElem?_of_mem hn
    have howner : t.owner s = some i := (h.owner_iff s i).mpr ⟨hs, n, hi, hin⟩
    exact ⟨by simp [ownerAddr, hs, howner, hi], h.addr_ne n hn⟩
  · rintro ⟨rfl, hne⟩
    cases howner : t.owner s with
    | none => simp [ownerAddr, howner] at hne
    | some i =>
      obtain ⟨-, n, hi, hin⟩ := (h.owner_iff s i).mp howner
      exact ⟨n, mem_of_getElem? hi, hin, by simp [ownerAddr, hs, howner, hi]⟩

/-- The slot that a call assigns, and the node it names. -/
def SetslotCall.assigns (call : SetslotCall) : Option (Nat × Bytes) :=
  match parseSetslot call.rest with
  | .ok (slot, .node id) => some (slot, id)
  | _ => none

/-- The call assigns a slot and is answered with `OK`. -/
def SetslotCall.Succeeds (t : Topology) (call : SetslotCall) : Prop :=
  call.assigns ≠ none ∧ (setslot t call.rest call.saved).2 = okValue

/-- The node that the last assignment of the slot names; `last` stands for earlier calls. -/
def lastAssigned (s : Nat) (last : Option Bytes) : List SetslotCall → Option Bytes
  | [] => last
  | call :: calls =>
    lastAssigned s
      (match call.assigns with
      | some (slot, id) => if slot = s then some id else last
      | none => last) calls

/-- The first node with an identifier has the address that the identifier stands for. -/
theorem addr_of_indexOf {idx : Nat} (h : t.indexOf id = some idx) :
    ((t.nodes[idx]?).elim [] TopoNode.addr) = t.addrOf id := by
  obtain ⟨hlt, hid, hfirst⟩ := findIdx?_eq_some_iff_getElem.mp h
  have hfind : t.nodes.find? (fun n => n.id == id) = some t.nodes[idx] :=
    find?_eq_some_iff_getElem.mpr ⟨hid, idx, hlt, rfl, fun j hj => by simpa using hfirst j hj⟩
  simp [addrOf, hfind, getElem?_eq_getElem hlt]

theorem Topology.setNode_ok {t' : Topology} {slot : Nat} (h : t.setNode slot id = (t', none)) :
    ∃ idx, t.indexOf id = some idx ∧ t'.nodes = t.nodes ∧
      t'.owner = Function.update t.owner slot (some idx) := by
  simp only [setNode, Int.toNat_natCast] at h
  split at h
  · cases h
  · cases hidx : t.indexOf id with
    | none => simp [hidx] at h
    | some idx =>
      simp only [hidx, Prod.mk.injEq, and_true] at h
      exact ⟨idx, rfl, by rw [← h], by rw [← h]⟩

/-- A successful assignment changes the owner of its slot to the node it names. -/
theorem step_of_succeeds {call : SetslotCall} {slot : Nat} (hcall : call.assigns = some (slot, id))
    (h : call.Succeeds t) : (setslotStep t call).nodes = t.nodes ∧
      ∀ s < numSlots, (setslotStep t call).ownerAddr s =
        if slot = s then t.addrOf id else t.ownerAddr s := by
  have hparse : parseSetslot call.rest = .ok (slot, .node id) := by
    unfold SetslotCall.assigns at hcall
    split at hcall
    · next heq =>
      simp only [Option.some.injEq, Prod.mk.injEq] at hcall
      rw [heq, hcall.1, hcall.2]
    · cases hcall
  have hreply := h.2
  simp only [setslot, hparse, execSlotOp] at hreply
  simp only [setslotStep, setslot, hparse, execSlotOp]
  cases hset : t.setNode slot id with
  | mk t' e =>
    cases e with
    | some => simp [hset, unknownNode, okValue] at hreply
    | none =>
      obtain ⟨idx, hidx, hnodes, howner⟩ := setNode_ok hset
      refine ⟨hnodes, fun s hs => ?_⟩
      simp only [ownerAddr, hs, ite_true, hnodes, howner]
      by_cases hslot : slot = s
      · subst hslot
        simp [addr_of_indexOf hidx]
      · simp [hslot, Function.update_of_ne (Ne.symm hslot)]

/-- Along successful assignments the nodes stay, and redirections name the node of the last
assignment, or the owner before if there is none. -/
theorem run_of_succeeds {t₀ : Topology} {s : Nat} (hs : s < numSlots) {last : Option Bytes}
    (hnodes : t.nodes = t₀.nodes) (howner : t.ownerAddr s = last.elim (t₀.ownerAddr s) t₀.addrOf)
    {calls : List SetslotCall} (hcalls : Along setslotStep (fun t call => call.Succeeds t) t calls)
    : (run setslotStep t calls).nodes = t₀.nodes ∧
      (run setslotStep t calls).ownerAddr s =
        (lastAssigned s last calls).elim (t₀.ownerAddr s) t₀.addrOf := by
  induction calls generalizing t last with
  | nil => exact ⟨hnodes, howner⟩
  | cons call calls ih =>
    obtain ⟨hcall, hrest⟩ := hcalls
    cases hassign : call.assigns with
    | none => exact absurd hassign hcall.1
    | some p =>
      obtain ⟨slot, id⟩ := p
      obtain ⟨hstep, haddr⟩ := step_of_succeeds hassign hcall
      have haddrOf : t.addrOf id = t₀.addrOf id := by simp [addrOf, hnodes]
      simp only [run_cons, lastAssigned, hassign]
      refine ih (hstep.trans hnodes) ?_ hrest
      rw [haddr s hs, haddrOf]
      split
      · rfl
      · exact howner

/-- A call that assigns the first slot. -/
def assignFirst (id : Bytes) : SetslotCall :=
  ⟨[some [48], some (ascii "node".toList), some id], true⟩

end Gedis.Cluster
