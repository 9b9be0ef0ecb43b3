import Gedis.Commands.Txn
import Gedis.Storage.Requests

/-!
# Isolation of a transaction

`EXEC` checks its watched keys and replays its queue under a lock that only other `EXEC`s
take. Plain commands of other connections run inside that window, one store operation at a
time. As long as nothing they do there conflicts with what the transaction does later, they
can be taken to happen after it.
-/

namespace Gedis.Commands

open Gedis.Core Replication Storage List

variable {κ ρ : Type} {turns : List (Who Nat × Int64)}

/-- The program of a queued command. -/
def plainProgram (handler : κ → Handler ρ) : Plain κ → Handler (Answer ρ)
  | .unwatch argc => pure (if argc ≠ 0 then .error (.arity "unwatch") else .ok)
  | .other cmd => do
    let r ← handler cmd
    pure (.reply r)

/-- The replay of a queue, command by command. -/
def replayProgram (handler : κ → Handler ρ) : List (Plain κ) → Handler (List (Answer ρ))
  | [] => pure []
  | cmd :: queue => do
    let a ← plainProgram handler cmd
    let answers ← replayProgram handler queue
    pure (a :: answers)

/-- `EXEC` after its check of the watched keys: the null array on a hit, else the replay. -/
def execProgram (handler : κ → Handler ρ) (queue : List (Plain κ)) (hit : Bool) :
    Handler (TxnReply ρ) :=
  if hit then pure .null
  else do
    let answers ← replayProgram handler queue
    pure (.results answers)

/-- An `EXEC` beside the plain commands of other connections. -/
structure ExecRun (ρ : Type) where
  procs : Procs Request Request.Answer Pebble Nat (TxnReply ρ) (List ρ)
  /-- The check of the watched keys was made. -/
  checked : Bool

namespace ExecRun

/-- `EXEC` is about to make its check. -/
def start (s : Pebble) (others : Nat → Handler (List ρ)) : ExecRun ρ :=
  ⟨⟨s, pure .null, others, []⟩, false⟩

/-- One turn at a given time. The first turn of `EXEC` is the check of the watched keys; every
other turn is one store operation. -/
def step (handler : κ → Handler ρ) (sess : TxnSession κ) (e : ExecRun ρ)
    (turn : Who Nat × Int64) : ExecRun ρ :=
  if turn.1.isMain && !e.checked then
    let hit := Txn.catchupDirty (some e.procs.state.hub.backlog) sess
    ⟨{ e.procs with main := execProgram handler sess.queue hit, past := [] }, true⟩
  else { e with procs := e.procs.step Pebble.answer turn }

/-- Nothing the others did since the check conflicts with the transaction's next operation. -/
def Undisturbed (e : ExecRun ρ) (turn : Who Nat × Int64) : Prop :=
  e.checked → e.procs.Undisturbed Request.Independent turn

instance (e : ExecRun ρ) (turn : Who Nat × Int64) : Decidable (e.Undisturbed turn) :=
  inferInstanceAs (Decidable (_ → _))

variable {handler : κ → Handler ρ} {sess : TxnSession κ}

variable {e : ExecRun ρ}

/-- Before the check the others run as they are. -/
theorem run_before (he : e.checked = false) (h : ∀ turn ∈ turns, turn.1.isMain = false) :
    run (step handler sess) e turns = ⟨run (Procs.step Pebble.answer) e.procs turns, false⟩ := by
  induction turns generalizing e with
  | nil => rw [run_nil, run_nil, ← he]
  | cons turn turns ih =>
    have hstep : step handler sess e turn = ⟨e.procs.step Pebble.answer turn, false⟩ := by
      simp [step, h turn (mem_cons_self ..), he]
    rw [run_cons, hstep, ih rfl fun turn' h' => h turn' (mem_cons_of_mem _ h'), run_cons]

theorem step_checked (he : e.checked = true) {turn : Who Nat × Int64} :
    step handler sess e turn = ⟨e.procs.step Pebble.answer turn, true⟩ := by
  simp [step, he]

/-- After the check all programs take turns. -/
theorem run_checked (he : e.checked = true) :
    run (step handler sess) e turns = ⟨run (Procs.step Pebble.answer) e.procs turns, true⟩ := by
  induction turns generalizing e with
  | nil => rw [run_nil, run_nil, ← he]
  | cons turn turns ih =>
    rw [run_cons, step_checked he, ih rfl, run_cons]

theorem along_checked (he : e.checked = true) (h : Along (step handler sess) Undisturbed e turns) :
    Along (Procs.step Pebble.answer) (Procs.Undisturbed Request.Independent) e.procs turns := by
  induction turns generalizing e with
  | nil => trivial
  | cons turn turns ih =>
    have hrest := h.2
    rw [step_checked he] at hrest
    exact ⟨h.1 he, ih rfl hrest⟩

private theorem answer_onMap (t : Int64) (s : Pebble) (q : Request) (hs : s.maxBytes ≤ 0) :
    (s.answer t q).1.db = (q.onMap t s.db).1 ∧ (s.answer t q).2 = (q.onMap t s.db).2 ∧
      (s.answer t q).1.maxBytes ≤ 0 := by
  obtain ⟨hdb, ha, hmax⟩ := Pebble.answer_unlimited hs q
  exact ⟨hdb, ha, by rwa [hmax]⟩

private theorem step_first (handler : κ → Handler ρ) (sess : TxnSession κ) {s : Pebble}
    (hmem : s.maxBytes ≤ 0) (others : Nat → Handler (List ρ))
    {before : List (Who Nat × Int64)} (hbefore : ∀ turn ∈ before, turn.1.isMain = false)
    {first : Who Nat × Int64} (hfirst : first.1.isMain = true) :
    ∃ procs, procs.state.maxBytes ≤ 0 ∧
      step handler sess (run (step handler sess) (start s others) before) first =
        ⟨procs, true⟩ := by
  have hmem' : (run (Procs.step Pebble.answer) (start s others).procs before).state.maxBytes ≤ 0 :=
    (Procs.run_map answer_onMap hmem before).2
  rw [run_before rfl hbefore]
  simp only [step, hfirst, Bool.not_false, Bool.and_true, ite_true]
  refine ⟨_, ?_, rfl⟩
  exact hmem'

end ExecRun

open ExecRun in
/-- Without a memory limit: in every interleaving of an `EXEC` with other connections in which
nothing they do between the check of the watched keys and an operation of the transaction
conflicts with that operation, the turns can be rearranged such that the transaction takes its
turns, the check first, one directly after the other. The transaction's reply, the rest of
every program and the final store are the same. -/
theorem exec_isolated (handler : κ → Handler ρ) (sess : TxnSession κ) (s : Pebble)
    (hmem : s.maxBytes ≤ 0) (others : Nat → Handler (List ρ)) (turns : List (Who Nat × Int64))
    (h : Along (step handler sess) Undisturbed (start s others) turns) :
    ∃ before mains after, (before ++ mains ++ after).Perm turns ∧
      (∀ turn ∈ before ++ after, turn.1.isMain = false) ∧ (∀ turn ∈ mains, turn.1.isMain = true) ∧
      let e := run (step handler sess) (start s others) turns
      let e' := run (step handler sess) (start s others) (before ++ mains ++ after)
      e'.procs.main = e.procs.main ∧ e'.procs.others = e.procs.others ∧
        e'.procs.state.db = e.procs.state.db := by
  cases hfind : turns.find? (·.1.isMain) with
  | none =>
    -- `EXEC` takes no turn
    have hothers : ∀ turn ∈ turns, turn.1.isMain = false := by
      simpa using find?_eq_none.mp hfind
    exact ⟨turns, [], [], by simp, by simpa using hothers, by simp, by simp⟩
  | some first =>
    obtain ⟨hfirst, before, window, rfl, hbefore⟩ := find?_eq_some_iff_append.mp hfind
    have hbefore : ∀ turn ∈ before, turn.1.isMain = false := by simpa using hbefore
    refine ⟨before, first :: window.filter (·.1.isMain), window.filter (!·.1.isMain), ?_, ?_, ?_, ?_⟩
    · rw [append_assoc]
      exact ((filter_append_perm _ window).cons first).append_left before
    · intro turn hturn
      rcases mem_append.mp hturn with hturn | hturn
      · exact hbefore turn hturn
      · simpa using (mem_filter.mp hturn).2
    · intro turn hturn
      rcases mem_cons.mp hturn with rfl | hturn
      · exact hfirst
      · exact (mem_filter.mp hturn).2
    · -- from the check on, the turns of the others can be postponed
      obtain ⟨procs, hmem', hstep⟩ := step_first handler sess hmem others hbefore hfirst
      have hrun : ∀ turns, run (step handler sess) (start s others) (before ++ first :: turns) =
          ⟨run (Procs.step Pebble.answer) procs turns, true⟩ := by
        intro turns
        rw [run_append, run_cons, hstep, run_checked rfl]
      have hwindow := (along_append.mp h).2.2
      rw [hstep] at hwindow
      have hpost := Procs.run_postpone_map answer_onMap
        Request.commutes_onMap hmem' (along_checked rfl hwindow)
      simp only [append_assoc, cons_append, hrun]
      exact ⟨(congrArg Procs.main hpost).symm, (congrArg Procs.others hpost).symm,
        (congrArg Procs.state hpost).symm⟩

/-- A server whose only command reads a raw key. -/
def readHandler (key : Bytes) : Handler (Option Bytes) := Kv.get key

/-- A transaction that reads one key twice. -/
def readTwice : TxnSession Bytes := ⟨[.other [107], .other [107]], false, true, [], 0⟩

/-- Connections that each write one key. -/
def writeOnce (key : Bytes) : Nat → Handler (List (Option Bytes)) := fun _ => do
  let _ ← Kv.set key [118]
  pure []

open ExecRun in
/-- Another connection writes a different key between the two reads. -/
theorem exec_isolated_other_key :
    let s := Pebble.opened ∅ 0 .noeviction (newHub 4) []
    let turns : List (Who Nat × Int64) := [(.main, 0), (.main, 1), (.other 0, 2), (.main, 3)]
    ∃ before mains after, (before ++ mains ++ after).Perm turns ∧
      (∀ turn ∈ before ++ after, turn.1.isMain = false) ∧ (∀ turn ∈ mains, turn.1.isMain = true) ∧
      let e := run (step readHandler readTwice) (start s (writeOnce [97])) turns
      let e' := run (step readHandler readTwice) (start s (writeOnce [97]))
        (before ++ mains ++ after)
      e'.procs.main = e.procs.main ∧ e'.procs.others = e.procs.others ∧
        e'.procs.state.db = e.procs.state.db :=
  exec_isolated readHandler readTwice (Pebble.opened ∅ 0 .noeviction (newHub 4) []) (by decide)
    (writeOnce [97]) [(.main, 0), (.main, 1), (.other 0, 2), (.main, 3)] (by decide)

open ExecRun in
/-- Another connection writes the key between the two reads, and the transaction sees both
values. No arrangement of the turns in which the transaction runs in one piece has that reply. -/
theorem exec_not_isolated :
    let s := Pebble.opened ∅ 0 .noeviction (newHub 4) []
    let turns : List (Who Nat × Int64) := [(.main, 0), (.main, 0), (.other 0, 0), (.main, 0)]
    (run (step readHandler readTwice) (start s (writeOnce [107])) turns).procs.main.result? =
        some (.results [.reply none, .reply (some [118])]) ∧
      ¬ ∃ before mains after, (before ++ mains ++ after).Perm turns ∧
        (∀ turn ∈ before ++ after, turn.1.isMain = false) ∧
        (∀ turn ∈ mains, turn.1.isMain = true) ∧
        let e := run (step readHandler readTwice) (start s (writeOnce [107])) turns
        let e' := run (step readHandler readTwice) (start s (writeOnce [107]))
          (before ++ mains ++ after)
        e'.procs.main = e.procs.main ∧ e'.procs.others = e.procs.others ∧
          e'.procs.state.db = e.procs.state.db := by
  refine ⟨by decide, ?_⟩
  rintro ⟨before, mains, after, hperm, hothers, hmains, hmain, -, -⟩
  have hmains' : mains.Perm [(.main, 0), (.main, 0), (.main, 0)] := by
    have hp := hperm.filter (·.1.isMain)
    have hnone : (before ++ after).filter (·.1.isMain) = [] :=
      filter_eq_nil_iff.mpr fun turn h => by simp [hothers turn h]
    obtain ⟨hb, ha⟩ := append_eq_nil_iff.mp (filter_append .. ▸ hnone)
    rw [filter_append, filter_append, hb, ha, filter_eq_self.mpr hmains,
      append_nil] at hp
    exact hp
  have hothers' : (before ++ after).Perm [(.other 0, 0)] := by
    have hp := hperm.filter (!·.1.isMain)
    have hall : ∀ turn ∈ before ++ after, (!turn.1.isMain) = true := fun turn h => by
      simp [hothers turn h]
    have hnone : mains.filter (!·.1.isMain) = [] :=
      filter_eq_nil_iff.mpr fun turn h => by simp [hmains turn h]
    rw [filter_append, filter_append, hnone, append_nil, ← filter_append,
      filter_eq_self.mpr hall] at hp
    exact hp
  have hthree : mains = replicate 3 (.main, 0) := perm_replicate.mp hmains'
  subst hthree
  have hresult := congrArg Prog.result? hmain
  rcases append_eq_singleton_iff.mp (perm_singleton.mp hothers') with
    ⟨rfl, rfl⟩ | ⟨rfl, rfl⟩
  · exact absurd hresult (by decide)
  · exact absurd hresult (by decide)

end Gedis.Commands
