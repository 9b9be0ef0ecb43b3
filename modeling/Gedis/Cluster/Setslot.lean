import Gedis.Cluster.Topology
import Gedis.Core.Run
import Gedis.Protocol.Value

/-!
# Moving slots

The command that marks a slot as migrating or importing, removes the marks, or assigns the slot.
Runs of the command keep the marks consistent with the owners, and the epoch counts the changes.
-/

namespace Gedis.Cluster

open Gedis.Core Protocol

variable {t : Topology} {f : Nat → Option Bytes}

/-- What to do with a slot. -/
inductive SlotOp where
  | migrating (target : Bytes)
  | importing (source : Bytes)
  | stable
  | node (id : Bytes)
  deriving DecidableEq, Repr

def errValue (text : String) : Value := .error (ascii text.toList)

def okValue : Value := .simpleString (ascii "OK".toList)

/-- A slot number within range. -/
def parseSlotArg (s : Bytes) : Option Nat :=
  match parseInt s with
  | none => none
  | some n => if n < 0 ∨ (numSlots : Int) ≤ n.toInt then none else some n.toInt.toNat

/-- Read the arguments. -/
def parseSetslot : List Arg → Except Value (Nat × SlotOp)
  | slot :: op :: tail =>
    match slot.bind parseSlotArg with
    | none => .error (errValue "ERR Invalid or out of range slot")
    | some slot =>
      let op := toUpper (op.getD [])
      if op = ascii "MIGRATING".toList then
        match tail with
        | [target] => .ok (slot, .migrating (target.getD []))
        | _ => .error (errValue "ERR syntax error")
      else if op = ascii "IMPORTING".toList then
        match tail with
        | [source] => .ok (slot, .importing (source.getD []))
        | _ => .error (errValue "ERR syntax error")
      else if op = ascii "STABLE".toList then
        match tail with
        | [] => .ok (slot, .stable)
        | _ => .error (errValue "ERR syntax error")
      else if op = ascii "NODE".toList then
        match tail with
        | [id] => .ok (slot, .node (id.getD []))
        | _ => .error (errValue "ERR syntax error")
      else .error (errValue "ERR syntax error")
  | _ => .error (errValue "ERR wrong number of arguments for 'cluster|setslot' command")

/-- The reply after the table was written to disk, or could not be. -/
def saveReply (saved : Bool) : Value :=
  if saved then okValue else errValue "ERR Failed to persist cluster state"

def unknownNode (id : Bytes) : Value := .error (ascii "ERR I don't know about node ".toList ++ id)

/-- Carry out an operation; `saved` tells whether the table can be written to disk. -/
def execSlotOp (t : Topology) (slot : Nat) (saved : Bool) : SlotOp → Topology × Value
  | .migrating target =>
    if t.addrOf target = [] then (t, unknownNode target)
    else
      match t.setMigrating slot target with
      | (t, some _) =>
        (t, .error (ascii "ERR I'm not the owner of hash slot ".toList ++ size slot))
      | (t, none) => (t, saveReply saved)
  | .importing source =>
    if t.addrOf source = [] then (t, unknownNode source)
    else
      match t.setImporting slot source with
      | (t, some _) => (t, errValue "ERR I'm already the owner of hash slot.")
      | (t, none) => (t, saveReply saved)
  | .stable => (t.setStable slot, saveReply saved)
  | .node id =>
    match t.setNode slot id with
    | (t, some _) => (t, unknownNode id)
    | (t, none) => (t, saveReply saved)

/-- The command. -/
def setslot (t : Topology) (rest : List Arg) (saved : Bool) : Topology × Value :=
  match parseSetslot rest with
  | .error reply => (t, reply)
  | .ok (slot, op) => execSlotOp t slot saved op

/-- A call with its arguments and whether the table can be written to disk. -/
structure SetslotCall where
  rest : List Arg
  saved : Bool
  deriving DecidableEq, Repr

/-- The table after a call. -/
def setslotStep (t : Topology) (call : SetslotCall) : Topology := (setslot t call.rest call.saved).1

/-- The identifier belongs to a configured node. -/
def Configured (t : Topology) (id : Bytes) : Prop := ∃ n ∈ t.nodes, n.id = id

theorem configured_of_addrOf {id : Bytes} (h : ¬ t.addrOf id = []) : Configured t id := by
  unfold Topology.addrOf at h
  cases hf : t.nodes.find? fun n => n.id == id with
  | none => simp [hf] at h
  | some n => exact ⟨n, List.mem_of_find?_eq_some hf, by simpa using List.find?_some hf⟩

/-- A call leaves the table alone or runs one method, on a configured node where it sets a mark. -/
theorem setslotStep_cases {call : SetslotCall} : setslotStep t call = t ∨
      (∃ slot : Nat, ∃ id, Configured t id ∧ setslotStep t call = (t.setMigrating slot id).1) ∨
      (∃ slot : Nat, ∃ id, Configured t id ∧ setslotStep t call = (t.setImporting slot id).1) ∨
      (∃ slot : Nat, setslotStep t call = t.setStable slot) ∨
      ∃ slot : Nat, ∃ id, setslotStep t call = (t.setNode slot id).1 := by
  unfold setslotStep setslot
  cases parseSetslot call.rest with
  | error => exact .inl rfl
  | ok p =>
    obtain ⟨slot, op⟩ := p
    cases op with
    | migrating target =>
      simp only [execSlotOp]
      split
      · exact .inl rfl
      · next h =>
        refine .inr (.inl ⟨slot, target, configured_of_addrOf h, ?_⟩)
        split <;> next heq => rw [heq]
    | importing source =>
      simp only [execSlotOp]
      split
      · exact .inl rfl
      · next h =>
        refine .inr (.inr (.inl ⟨slot, source, configured_of_addrOf h, ?_⟩))
        split <;> next heq => rw [heq]
    | stable => exact .inr (.inr (.inr (.inl ⟨slot, rfl⟩)))
    | node id =>
      refine .inr (.inr (.inr (.inr ⟨slot, id, ?_⟩)))
      simp only [execSlotOp]
      split <;> next heq => rw [heq]

/-- The marks agree with the owners, and owners are configured nodes. -/
structure Marked (t : Topology) : Prop where
  owner_lt : ∀ s i, t.owner s = some i → i < t.nodes.length
  owned_eq : ∀ s, t.owned s = (t.owner s).isSome
  migrating : ∀ s id, t.migrating s = some id → t.owner s = some t.self ∧ Configured t id
  importing : ∀ s id, t.importing s = some id → ¬ t.owner s = some t.self ∧ Configured t id

theorem Built.marked (h : Built t) : Marked t where
  owner_lt s i hi := by
    obtain ⟨-, n, hn, -⟩ := (h.owner_iff s i).mp hi
    exact (List.getElem?_eq_some_iff.mp hn).1
  owned_eq := h.owned_eq
  migrating s id hid := by simp [h.migrating_none] at hid
  importing s id hid := by simp [h.importing_none] at hid

/-- Every assigned slot has exactly one owner; migrating slots belong to this node and go to a
configured one; importing slots belong to another node and come from a configured one; no slot is
both. -/
structure Consistent (t : Topology) : Prop where
  one_owner : ∀ s, t.owned s = true → ∃! i, i < t.nodes.length ∧ t.owner s = some i
  migrating : ∀ s id, t.migrating s = some id → t.owner s = some t.self ∧ Configured t id
  importing : ∀ s id, t.importing s = some id → ¬ t.owner s = some t.self ∧ Configured t id
  not_both : ∀ s, t.migrating s = none ∨ t.importing s = none

theorem Marked.consistent (h : Marked t) : Consistent t where
  one_owner s hs := by
    rw [h.owned_eq, Option.isSome_iff_exists] at hs
    obtain ⟨i, hi⟩ := hs
    refine ⟨i, ⟨h.owner_lt s i hi, hi⟩, fun j hj => ?_⟩
    exact Option.some.inj (hj.2.symm.trans hi)
  migrating := h.migrating
  importing := h.importing
  not_both s := by
    cases hm : t.migrating s with
    | none => exact .inl rfl
    | some id =>
      cases hi : t.importing s with
      | none => exact .inr rfl
      | some id' => exact absurd (h.migrating s id hm).1 (h.importing s id' hi).1

/-- A mark that is new or has another node in it. -/
def MarkChanged (before after : Nat → Option Bytes) (s : Nat) : Prop :=
  ∃ id, after s = some id ∧ ¬ before s = some id

/-- The epoch does not decrease, increases by one at most, and does increase when a slot gets
another owner or a mark is added or changed. -/
structure EpochStep (t t' : Topology) : Prop where
  mono : t.epoch ≤ t'.epoch
  le_succ : t'.epoch ≤ t.epoch + 1
  strict : ∀ s, (¬ t'.owner s = t.owner s ∨ MarkChanged t.migrating t'.migrating s ∨
    MarkChanged t.importing t'.importing s) → t.epoch < t'.epoch

theorem EpochStep.refl : EpochStep t t where
  mono := Nat.le_refl _
  le_succ := Nat.le_succ _
  strict s h := by
    rcases h with h | ⟨id, h, hn⟩ | ⟨id, h, hn⟩
    · exact absurd rfl h
    · exact absurd h hn
    · exact absurd h hn

private theorem EpochStep.of_succ {t' : Topology} (h : t'.epoch = t.epoch + 1) : EpochStep t t' :=
  ⟨by omega, by omega, fun _ _ => by omega⟩

namespace Topology

variable {t : Topology} {slot : Nat} {id : Bytes}

theorem setMigrating_cases :
    (t.setMigrating slot id).1 = t ∨
      (t.owner slot = some t.self ∧ (t.setMigrating slot id).1 =
        { t with
          migrating := Function.update t.migrating slot (some id)
          epoch := t.epoch + 1 }) := by
  simp only [setMigrating, Int.toNat_natCast]
  split_ifs with hr ho hm
  · exact .inl rfl
  · exact .inl rfl
  · exact .inl rfl
  · exact .inr ⟨not_not.mp ho, rfl⟩

theorem setImporting_cases :
    (t.setImporting slot id).1 = t ∨
      (¬ t.owner slot = some t.self ∧ (t.setImporting slot id).1 =
        { t with
          importing := Function.update t.importing slot (some id)
          epoch := t.epoch + 1 }) := by
  simp only [setImporting, Int.toNat_natCast]
  split_ifs with hr ho hm
  · exact .inl rfl
  · exact .inl rfl
  · exact .inl rfl
  · exact .inr ⟨ho, rfl⟩

theorem setStable_cases :
    t.setStable slot = t ∨ t.setStable slot =
      { t with
        migrating := Function.update t.migrating slot none
        importing := Function.update t.importing slot none } := by
  simp only [setStable, Int.toNat_natCast]
  split_ifs
  · exact .inl rfl
  · exact .inr rfl

theorem setNode_cases :
    (t.setNode slot id).1 = t ∨
      ∃ idx, t.indexOf id = some idx ∧ (t.setNode slot id).1 =
        { t with
          owner := Function.update t.owner slot (some idx)
          owned := Function.update t.owned slot true
          migrating := Function.update t.migrating slot none
          importing := Function.update t.importing slot none
          epoch := t.epoch + 1 } := by
  simp only [setNode, Int.toNat_natCast]
  split_ifs
  · exact .inl rfl
  · cases t.indexOf id with
    | none => exact .inl rfl
    | some idx => exact .inr ⟨idx, rfl, rfl⟩

end Topology

private theorem update_none_some {slot s : Nat} {id : Bytes}
    (h : Function.update f slot none s = some id) : ¬ s = slot ∧ f s = some id := by
  by_cases hs : s = slot
  · simp [hs] at h
  · exact ⟨hs, by simpa [hs] using h⟩

private theorem update_some_some {slot s : Nat} {id id' : Bytes}
    (h : Function.update f slot (some id) s = some id') :
    (s = slot ∧ id' = id) ∨ f s = some id' := by
  by_cases hs : s = slot
  · exact .inl ⟨hs, by simpa [hs, eq_comm] using h⟩
  · exact .inr (by simpa [hs] using h)

theorem Marked.step (h : Marked t) {call : SetslotCall} : Marked (setslotStep t call) := by
  obtain he | ⟨slot, id, hid, he⟩ | ⟨slot, id, hid, he⟩ | ⟨slot, he⟩ | ⟨slot, id, he⟩ :=
    setslotStep_cases <;> rw [he]
  · exact h
  · obtain he | ⟨ho, he⟩ := @Topology.setMigrating_cases t slot id <;> rw [he]
    · exact h
    · refine ⟨h.owner_lt, h.owned_eq, fun s id' hs => ?_, h.importing⟩
      obtain ⟨rfl, rfl⟩ | hs := update_some_some hs
      · exact ⟨ho, hid⟩
      · exact h.migrating s id' hs
  · obtain he | ⟨ho, he⟩ := @Topology.setImporting_cases t slot id <;> rw [he]
    · exact h
    · refine ⟨h.owner_lt, h.owned_eq, h.migrating, fun s id' hs => ?_⟩
      obtain ⟨rfl, rfl⟩ | hs := update_some_some hs
      · exact ⟨ho, hid⟩
      · exact h.importing s id' hs
  · obtain he | he := @Topology.setStable_cases t slot <;> rw [he]
    · exact h
    · exact ⟨h.owner_lt, h.owned_eq, fun s id hs => h.migrating s id (update_none_some hs).2,
        fun s id hs => h.importing s id (update_none_some hs).2⟩
  · obtain he | ⟨idx, hidx, he⟩ := @Topology.setNode_cases t slot id <;> rw [he]
    · exact h
    · have hlt : idx < t.nodes.length := (List.findIdx?_eq_some_iff_getElem.mp hidx).1
      refine ⟨fun s i hs => ?_, fun s => ?_, fun s id hs => ?_, fun s id hs => ?_⟩
      · by_cases hss : s = slot
        · simp only [hss, Function.update_self, Option.some.injEq] at hs
          exact hs ▸ hlt
        · exact h.owner_lt s i (by simpa [hss] using hs)
      · by_cases hss : s = slot
        · simp [hss]
        · simp [hss, h.owned_eq]
      · obtain ⟨hss, hs⟩ := update_none_some hs
        simpa [hss, Configured] using h.migrating s id hs
      · obtain ⟨hss, hs⟩ := update_none_some hs
        simpa [hss, Configured] using h.importing s id hs

theorem epochStep_step (call : SetslotCall) : EpochStep t (setslotStep t call) := by
  obtain he | ⟨slot, id, -, he⟩ | ⟨slot, id, -, he⟩ | ⟨slot, he⟩ | ⟨slot, id, he⟩ :=
    setslotStep_cases <;> rw [he]
  · exact EpochStep.refl
  · obtain he | ⟨-, he⟩ := @Topology.setMigrating_cases t slot id <;> rw [he]
    · exact EpochStep.refl
    · exact EpochStep.of_succ rfl
  · obtain he | ⟨-, he⟩ := @Topology.setImporting_cases t slot id <;> rw [he]
    · exact EpochStep.refl
    · exact EpochStep.of_succ rfl
  · obtain he | he := @Topology.setStable_cases t slot <;> rw [he]
    · exact EpochStep.refl
    · -- removing marks neither adds nor changes one
      refine ⟨Nat.le_refl _, Nat.le_succ _, fun s hs => ?_⟩
      obtain hs | ⟨id, hs, hn⟩ | ⟨id, hs, hn⟩ := hs
      · exact absurd rfl hs
      · exact absurd (update_none_some hs).2 hn
      · exact absurd (update_none_some hs).2 hn
  · obtain he | ⟨idx, -, he⟩ := @Topology.setNode_cases t slot id <;> rw [he]
    · exact EpochStep.refl
    · exact EpochStep.of_succ rfl

/-- From an accepted configuration, every run of calls reaches consistent tables only, the epoch
counts the changes of each further call, and methods that report an error change nothing. -/
theorem setslot_machine {lib : Library} {selfAddr : Bytes} {specs : List NodeSpec} {t₀ : Topology}
    (h : build lib selfAddr specs = .ok t₀) (calls : List SetslotCall) :
    let t := run setslotStep t₀ calls
    Consistent t ∧ (∀ call, EpochStep t (setslotStep t call)) ∧
      ∀ (slot : Int) (id : Bytes),
        ((t.setMigrating slot id).2 ≠ none → (t.setMigrating slot id).1 = t) ∧
          ((t.setImporting slot id).2 ≠ none → (t.setImporting slot id).1 = t) ∧
          ((t.setNode slot id).2 ≠ none → (t.setNode slot id).1 = t) := by
  intro t
  have hmarked : Marked t :=
    run_invariant (fun _ call hm => hm.step) (built_of_build h).1.marked calls
  exact ⟨hmarked.consistent, epochStep_step, fun _ _ => t.unchanged_of_error⟩

/-- A library for addresses without a port: the whole address is the host, and the identifier. -/
def hostOnly : Library := ⟨fun addr => some (addr, []), id⟩

/-- Two nodes with one slot each. -/
def twoNodes : List NodeSpec := [⟨[97], [97], [(0, 0)]⟩, ⟨[98], [98], [(1, 1)]⟩]

/-- The table of the first of the two nodes. -/
def twoNodeTable : Topology :=
  match build hostOnly [97] twoNodes with
  | .ok t => t
  | .error _ => emptyTopology

theorem build_twoNodes : build hostOnly [97] twoNodes = .ok twoNodeTable := rfl

/-- Handing the first slot over, with a call that is refused on the way. -/
theorem setslot_machine_handover :
    build hostOnly [97] twoNodes = .ok twoNodeTable ∧
      Consistent (run setslotStep twoNodeTable
        [⟨[some [48], some (ascii "migrating".toList), some [98]], true⟩,
          ⟨[some [48], some (ascii "importing".toList), some [98]], true⟩,
          ⟨[some [48], some (ascii "node".toList), some [98]], true⟩]) :=
  ⟨build_twoNodes, (setslot_machine build_twoNodes _).1⟩

end Gedis.Cluster
