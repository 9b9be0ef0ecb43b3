import Gedis.Cluster.Snapshot

/-!
# Saving after each change

The command that moves slots changes the table in memory and then writes the whole table to a file.
The file is truncated and rewritten, so a write that fails can leave anything in it.
-/

namespace Gedis.Cluster

open Gedis.Core Protocol Topology

/-- A node: its table, whether the table is saved at all, and the file with the saved table. -/
structure Node where
  topo : Topology
  persist : Bool
  file : Option Bytes

/-- How writing the file goes: everything is written, with the marks in some order, or the write
fails and leaves a file or none. -/
inductive FileWrite where
  | done (migratingOrder importingOrder : List Nat)
  | failed (left : Option Bytes)
  deriving DecidableEq, Repr

def Node.saveSnapshot (n : Node) (w : FileWrite) : Node × Bool :=
  if n.persist then
    match w with
    | .done migratingOrder importingOrder =>
      let data := marshalSnapshot migratingOrder importingOrder n.topo.snapshot n.topo.nodes
      ({ n with file := some data }, true)
    | .failed left => ({ n with file := left }, false)
  else (n, true)

/-- The change of the table, or the reply of a request that is refused before anything is saved. -/
def applySlotOp (t : Topology) (slot : Nat) : SlotOp → Except Value Topology
  | .migrating target =>
    if t.addrOf target = [] then .error (unknownNode target)
    else
      match t.setMigrating slot target with
      | (_, some _) => .error (.error (ascii "ERR I'm not the owner of hash slot ".toList ++ size slot))
      | (t, none) => .ok t
  | .importing source =>
    if t.addrOf source = [] then .error (unknownNode source)
    else
      match t.setImporting slot source with
      | (_, some _) => .error (errValue "ERR I'm already the owner of hash slot.")
      | (t, none) => .ok t
  | .stable => .ok (t.setStable slot)
  | .node id =>
    match t.setNode slot id with
    | (_, some _) => .error (unknownNode id)
    | (t, none) => .ok t

/-- The command with the file that it writes. -/
def Node.setslot (n : Node) (rest : List Arg) (w : FileWrite) : Node × Value :=
  match parseSetslot rest with
  | .error reply => (n, reply)
  | .ok (slot, op) =>
    match applySlotOp n.topo slot op with
    | .error reply => (n, reply)
    | .ok t =>
      let (n, saved) := Node.saveSnapshot { n with topo := t } w
      (n, saveReply saved)

/-- Whether the write reports success. -/
def Node.saves (n : Node) : FileWrite → Bool
  | .done _ _ => true
  | .failed _ => !n.persist

/-- The file holds the table. -/
def Node.Saved (n : Node) : Prop :=
  ∃ migratingOrder importingOrder,
    n.file = some (marshalSnapshot migratingOrder importingOrder n.topo.snapshot n.topo.nodes)

/-- After an acknowledged call the file holds the table. After an error neither the table nor the
file has changed. -/
def Node.AllOrNothing (n : Node) (rest : List Arg) (w : FileWrite) : Prop :=
  ((n.setslot rest w).2 = okValue → (n.setslot rest w).1.Saved) ∧
    ∀ text, (n.setslot rest w).2 = .error text →
      (n.setslot rest w).1.topo = n.topo ∧ (n.setslot rest w).1.file = n.file

/-- The operation is refused before anything changes. -/
def SlotOp.Refused (t : Topology) (slot : Nat) : SlotOp → Prop
  | .migrating target => t.addrOf target = [] ∨ ¬ t.owner slot = some t.self
  | .importing source => t.addrOf source = [] ∨ t.owner slot = some t.self
  | .stable => False
  | .node id => t.indexOf id = none

/-- The operation changes nothing because the table has the change already. -/
def SlotOp.Idle (t : Topology) (slot : Nat) : SlotOp → Prop
  | .migrating target => t.migrating slot = some target
  | .importing source => t.importing slot = some source
  | .stable => t.migrating slot = none ∧ t.importing slot = none
  | .node _ => False

/-- The request is refused, or the write succeeds, or nothing changes and the failed write leaves the
file as it was. -/
def Node.Harmless (n : Node) (rest : List Arg) (w : FileWrite) : Prop :=
  match parseSetslot rest with
  | .error _ => True
  | .ok (slot, op) => op.Refused n.topo slot ∨
      match w with
      | .done _ _ => True
      | .failed left => op.Idle n.topo slot ∧ left = n.file

theorem parseSlotArg_lt {s : Bytes} {slot : Nat} (h : parseSlotArg s = some slot) :
    slot < numSlots := by
  unfold parseSlotArg at h
  cases hn : parseInt s with
  | none => simp [hn] at h
  | some =>
    simp only [hn] at h
    split at h
    · cases h
    · cases h
      rw [Int64.lt_iff_toInt_lt, Int64.toInt_zero] at *
      omega

theorem parseSetslot_lt {rest : List Arg} {slot : Nat} {op : SlotOp}
    (h : parseSetslot rest = .ok (slot, op)) : slot < numSlots := by
  match rest with
  | [] | [_] => cases h
  | arg :: name :: tail =>
    simp only [parseSetslot] at h
    cases hslot : arg.bind parseSlotArg with
    | none => simp [hslot] at h
    | some =>
      obtain ⟨text, -, hparse⟩ := Option.bind_eq_some_iff.mp hslot
      have hlt := parseSlotArg_lt hparse
      simp only [hslot] at h
      split_ifs at h <;> split at h <;> cases h <;> exact hlt

/-- A call is refused with the table unchanged, or gives a table that is unchanged exactly when the
operation is idle. -/
theorem applySlotOp_cases {t : Topology} {slot : Nat} (hslot : slot < numSlots) {op : SlotOp} :
    (op.Refused t slot ∧ ∃ text, applySlotOp t slot op = .error (.error text)) ∨
      (¬ op.Refused t slot ∧ ∃ t', applySlotOp t slot op = .ok t' ∧ (t' = t ↔ op.Idle t slot)) := by
  have hrange : ¬ ((slot : Int) < 0 ∨ (numSlots : Int) ≤ slot) := by omega
  have hepoch : ∀ {t' : Topology}, t'.epoch = t.epoch + 1 → ¬ t' = t := by
    rintro t' he rfl
    omega
  cases op with
  | migrating target =>
    simp only [applySlotOp, setMigrating, if_neg hrange, Int.toNat_natCast, SlotOp.Refused,
      SlotOp.Idle]
    by_cases haddr : t.addrOf target = []
    · exact .inl ⟨.inl haddr, _, if_pos haddr⟩
    · by_cases howner : t.owner slot = some t.self
      · refine .inr ⟨not_or.mpr ⟨haddr, not_not.mpr howner⟩, ?_⟩
        rw [if_neg haddr, if_neg (not_not.mpr howner)]
        by_cases hmark : t.migrating slot = some target
        · rw [if_pos hmark]
          exact ⟨t, rfl, iff_of_true rfl hmark⟩
        · rw [if_neg hmark]
          exact ⟨_, rfl, iff_of_false (hepoch rfl) hmark⟩
      · refine .inl ⟨.inr howner, ?_⟩
        rw [if_neg haddr, if_pos howner]
        exact ⟨_, rfl⟩
  | importing source =>
    simp only [applySlotOp, setImporting, if_neg hrange, Int.toNat_natCast, SlotOp.Refused,
      SlotOp.Idle]
    by_cases haddr : t.addrOf source = []
    · exact .inl ⟨.inl haddr, _, if_pos haddr⟩
    · by_cases howner : t.owner slot = some t.self
      · refine .inl ⟨.inr howner, ?_⟩
        rw [if_neg haddr, if_pos howner]
        exact ⟨_, rfl⟩
      · refine .inr ⟨not_or.mpr ⟨haddr, howner⟩, ?_⟩
        rw [if_neg haddr, if_neg howner]
        by_cases hmark : t.importing slot = some source
        · rw [if_pos hmark]
          exact ⟨t, rfl, iff_of_true rfl hmark⟩
        · rw [if_neg hmark]
          exact ⟨_, rfl, iff_of_false (hepoch rfl) hmark⟩
  | stable =>
    refine .inr ⟨id, _, rfl, ?_⟩
    simp only [setStable, if_neg hrange, Int.toNat_natCast, SlotOp.Idle]
    constructor
    · intro h
      have hmig := congrFun (congrArg migrating h) slot
      have himp := congrFun (congrArg importing h) slot
      exact ⟨by simpa using hmig.symm, by simpa using himp.symm⟩
    · rintro ⟨hmig, himp⟩
      rw [← hmig, Function.update_eq_self, hmig, ← himp, Function.update_eq_self]
  | node id =>
    simp only [applySlotOp, setNode, if_neg hrange, Int.toNat_natCast, SlotOp.Refused,
      SlotOp.Idle]
    cases hidx : t.indexOf id with
    | none => exact .inl ⟨rfl, _, rfl⟩
    | some => exact .inr ⟨fun h => (by cases h), _, rfl, iff_of_false (hepoch rfl) not_false⟩

theorem parseSetslot_error {rest : List Arg} {reply : Value} (h : parseSetslot rest = .error reply) :
    ∃ text, reply = .error text := by
  match rest with
  | [] | [_] => cases h; exact ⟨_, rfl⟩
  | arg :: name :: tail =>
    simp only [parseSetslot] at h
    split at h
    · cases h
      exact ⟨_, rfl⟩
    · split_ifs at h <;> (try split at h) <;> cases h <;> exact ⟨_, rfl⟩

/-- The first of two nodes, with an empty file. -/
def firstNode : Node := ⟨twoNodeTable, true, some []⟩

end Gedis.Cluster
