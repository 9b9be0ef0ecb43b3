import Gedis.Commands.Delivery

/-!
# Publishing while connections close

A call collects its messages at once and then sends them one by one, without the lock. Commands and
disconnections can come in between and close a queue for which a message is still to be sent; sending
it then ends the server. Publishing is safe exactly as long as no queue is closed with a message still
to be sent to it.
-/

namespace Gedis.Commands

open Gedis.Core Protocol List

/-- The registry and the messages that each call in progress has still to send. -/
structure Publishers where
  reg : PubSub := {}
  pending : List (List Send) := []

/-- A command or disconnection, the start of a call, or the next message of a call. -/
inductive PublishersEvent where
  | command (e : PubSubEvent)
  | publish (ns : List Nat) (channel : Bytes) (payload : Value)
  | shardPublish (ns : List Nat) (channel : Bytes) (payload : Value)
  | send (j : Nat)

namespace Publishers

def step (st : Publishers) : PublishersEvent → Publishers
  | .command e => { st with reg := st.reg.step e }
  | .publish ns channel payload =>
    { st with pending := st.pending ++ [(Commands.publish st.reg ns channel payload).sends] }
  | .shardPublish ns channel payload =>
    { st with pending := st.pending ++ [(Commands.shardPublish st.reg ns channel payload).sends] }
  | .send j => { st with pending := st.pending.modify j List.tail }

/-- The message is for a queue that is closed. -/
def Hits (st : Publishers) (d : Send) : Prop := ∃ i ∈ st.reg.queues.shut, d.1 = some i

end Publishers

/-- The step sends a message to a queue that is closed, which ends the server. -/
def PublishersEvent.Panics (st : Publishers) : PublishersEvent → Prop
  | .send j => ∃ d rest, st.pending[j]? = some (d :: rest) ∧ st.Hits d
  | _ => False

/-- The step closes no queue with a message still to be sent to it. -/
def PublishersEvent.Waits (st : Publishers) : PublishersEvent → Prop
  | .command e => ∀ call ∈ st.pending, ∀ d ∈ call, ¬ Publishers.Hits (st.step (.command e)) d
  | _ => True

namespace Publishers

variable {st : Publishers}

/-- No message that is still to be sent is for a closed queue. -/
def Clear (st : Publishers) : Prop := ∀ call ∈ st.pending, ∀ d ∈ call, ¬ st.Hits d

/-- In a sound registry messages are collected for open queues only. -/
theorem not_hits_of_collect (h : st.reg.Sound) {ns : List Nat} {messages : PubSubSession → List Value} :
    ∀ d ∈ (collect st.reg ns messages).sends, ¬ st.Hits d := by
  rintro d hd ⟨i, hshut, hi⟩
  have hdelivers : st.reg.Delivers (collect st.reg ns messages) messages :=
    collect_delivers ns fun _ _ _ => List.Perm.refl _
  have hperm := hdelivers.2
  obtain ⟨e, he, hmem⟩ := mem_flatMap.mp (hperm.subset hd)
  obtain ⟨m, -, rfl⟩ := mem_map.mp hmem
  obtain ⟨hlisted, hlive⟩ := mem_filter.mp he
  have hs : st.reg.sessions[e.1]? = some e.2 :=
    Std.ExtTreeMap.mem_toList_iff_getElem?_eq_some.mp hlisted
  obtain ⟨j, hj, hnot⟩ := (h.sessions e.1 e.2 hs).isOpen hlive
  rw [hj, Option.some.injEq] at hi
  exact hnot (hi ▸ hshut)

theorem clear_append {sends : List Send} (h : st.Clear) (hsends : ∀ d ∈ sends, ¬ st.Hits d) :
    Clear { st with pending := st.pending ++ [sends] } :=
  forall_mem_append.mpr ⟨h, forall_mem_singleton.mpr hsends⟩

theorem clear_send (h : st.Clear) {j : Nat} : (st.step (.send j)).Clear := by
  intro call hcall d hd
  obtain ⟨k, hk⟩ := getElem?_of_mem hcall
  rw [step, getElem?_modify] at hk
  obtain ⟨before, hbefore, rfl⟩ := Option.map_eq_some_iff.mp hk
  have hmem := mem_of_getElem? hbefore
  split at hd
  · exact h before hmem d (mem_of_mem_tail hd)
  · exact h before hmem d hd

/-- A step keeps the pending messages clear exactly when it closes no queue that they need. -/
theorem step_clear_iff (st : Publishers) (e : PublishersEvent) (hreg : st.reg.Sound) (h : st.Clear) :
    (st.step e).Clear ↔ e.Waits st := by
  cases e with
  | command => exact Iff.rfl
  | publish ns channel payload | shardPublish ns channel payload =>
    exact iff_of_true (clear_append h (not_hits_of_collect hreg)) trivial
  | send => exact iff_of_true (clear_send h) trivial

theorem step_reg_sound (st : Publishers) (e : PublishersEvent) (h : st.reg.Sound) :
    (st.step e).reg.Sound := by
  cases e with
  | command e => exact PubSub.step_sound st.reg e h
  | publish => exact h
  | shardPublish => exact h
  | send => exact h

/-- The calls in progress can go on in any order without sending to a closed queue. -/
def CanFinish (st : Publishers) : Prop :=
  ∀ js : List Nat, Along step (fun st e => ¬ PublishersEvent.Panics st e) st (js.map .send)

theorem not_panics_of_clear (h : st.Clear) {e : PublishersEvent} : ¬ e.Panics st := by
  cases e with
  | send =>
    rintro ⟨d, rest, hj, hhits⟩
    exact h _ (mem_of_getElem? hj) d (mem_cons_self ..) hhits
  | command => exact id
  | publish => exact id
  | shardPublish => exact id

/-- The message that a call sends after some others is sent when the call goes on alone. -/
theorem not_hits_of_canFinish {call : List Send} {j : Nat} (hj : st.pending[j]? = some call)
    (h : st.CanFinish) : ∀ d ∈ call, ¬ st.Hits d := by
  induction call generalizing st with
  | nil => exact fun _ hd => absurd hd not_mem_nil
  | cons d rest ih =>
    have hnext : (st.step (.send j)).pending[j]? = some rest := by
      rw [step, getElem?_modify, hj]
      simp
    refine forall_mem_cons.mpr ⟨fun hhits => ?_, ?_⟩
    · exact (h [j]).1 ⟨d, rest, hj, hhits⟩
    · have hrest : ∀ d ∈ rest, ¬ (st.step (.send j)).Hits d := ih hnext fun js => (h (j :: js)).2
      exact hrest

theorem clear_iff_canFinish : st.Clear ↔ st.CanFinish := by
  constructor
  · intro h js
    induction js generalizing st with
    | nil => trivial
    | cons j js ih => exact ⟨not_panics_of_clear h, ih (clear_send h)⟩
  · intro h call hcall
    obtain ⟨j, hj⟩ := getElem?_of_mem hcall
    exact not_hits_of_canFinish hj h

/-- Along any interleaving, no state is reached in which the calls in progress can run into a closed
queue, exactly when no step closes a queue with a message still to be sent to it. In particular such
a run has no send to a closed queue. -/
theorem never_closed_iff (es : List PublishersEvent) :
    ((∀ before, before <+: es → (run step {} before).CanFinish) ↔
      Along step (fun st e => e.Waits st) {} es) ∧
    (Along step (fun st e => e.Waits st) {} es →
      Along step (fun st e => ¬ PublishersEvent.Panics st e) {} es) := by
  have hclear : Clear {} := fun _ h => absurd h not_mem_nil
  have hiff : Along step (fun st e => e.Waits st) {} es ↔
      ∀ before, before <+: es → (run step {} before).Clear :=
    along_iff_reached step_reg_sound step_clear_iff PubSub.sound_empty hclear
  constructor
  · rw [hiff]
    exact forall_congr' fun before => imp_congr_right fun _ => clear_iff_canFinish.symm
  · intro h
    refine along_of_reached fun before e after heq => ?_
    exact not_panics_of_clear (hiff.mp h before ⟨e :: after, heq⟩)

/-- Connection 0 subscribes to `c`, a message on `c` is collected, the connection is closed, and the
message is sent. -/
def closedBeforeSend : List PublishersEvent :=
  [.command (.subscribe (some 0) [bulkOf [99]]), .publish [] [99] (bulkOf [109]),
    .command (.connClosed 0), .send 0]

/-- The message is sent to a closed queue. -/
theorem send_to_closed :
    ¬ Along step (fun st e => ¬ PublishersEvent.Panics st e) {} closedBeforeSend := by
  have hpending : (run step {} (closedBeforeSend.take 3)).pending.map (·.map (·.1)) = [[some 0]] := by
    decide +kernel
  have hshut : (run step {} (closedBeforeSend.take 3)).reg.queues.shut = [0] := by decide +kernel
  obtain ⟨call, hcall, hheads⟩ := map_eq_singleton_iff.mp hpending
  obtain ⟨d, rfl, hd⟩ := map_eq_singleton_iff.mp hheads
  rintro ⟨-, -, -, hsend, -⟩
  have hzero : (run step {} (closedBeforeSend.take 3)).pending[0]? = some [d] := by
    rw [hcall]
    rfl
  have hhits : (run step {} (closedBeforeSend.take 3)).Hits d := by
    refine ⟨0, ?_, hd⟩
    exact mem_cons_self ..
  exact hsend ⟨d, [], hzero, hhits⟩

end Publishers

end Gedis.Commands
