import Gedis.Core.Run
import Gedis.Commands.Txn

/-!
# Queueing follows MULTI

What a client is entitled to is a small automaton over the commands it sent: whether an
accepted `MULTI` is still open and what was sent since. The registry conforms to it
exactly on those command sequences that send no ordinary command between a `WATCH` and
the next `MULTI`.
-/

namespace Gedis.Commands

open Gedis.Core Txn

/-- What was sent: an open `MULTI` with the commands after it, and an open `WATCH`. -/
structure Sent (κ : Type) where
  inTxn : Bool
  watching : Bool
  queue : List (Plain κ)
  deriving DecidableEq, Repr

/-- Nothing sent yet. -/
def Sent.nothing (κ : Type) : Sent κ := ⟨false, false, []⟩

/-- Account for a command and its reply. -/
def Sent.next {κ ρ : Type} (sent : Sent κ) (c : Command κ) (reply : TxnReply ρ) : Sent κ :=
  match c with
  | .multi =>
    match reply with
    | .ok => { sent with inTxn := true, queue := [] }
    | _ => sent
  | .exec | .discard => if sent.inTxn then .nothing κ else sent
  | .watch _ => if sent.inTxn then sent else { sent with watching := true }
  | .plain cmd =>
    if sent.inTxn then { sent with queue := sent.queue ++ [cmd] }
    else
      match cmd with
      | .unwatch _ => { sent with watching := false }
      | .other _ => sent

/-- A connection together with what was sent on it. -/
structure Tracked (σ κ : Type) where
  conn : Conn σ κ
  sent : Sent κ

namespace Tracked

variable {σ κ ρ : Type} (b : Backend σ κ ρ)

/-- A fresh connection. -/
def start (store : σ) : Tracked σ κ := ⟨⟨none, store⟩, .nothing κ⟩

/-- One command. -/
def step (s : Tracked σ κ) (c : Command κ) : Tracked σ κ :=
  let h := Txn.dispatch b s.conn c
  ⟨h.conn, s.sent.next c h.reply⟩

/-- A registered command with a fitting argument count. -/
def WellFormed : Command κ → Prop
  | .plain cmd => Txn.known b cmd ∧ Txn.fits b cmd
  | .watch keys => keys ≠ []
  | _ => True

instance : (c : Command κ) → Decidable (WellFormed b c)
  | .plain _ => inferInstanceAs (Decidable (_ ∧ _))
  | .watch _ => inferInstanceAs (Decidable (_ ≠ _))
  | .multi | .exec | .discard => .isTrue trivial

/-- Inside `MULTI` a command is queued and not carried out, outside it is carried out at once.
`EXEC` carries out what was sent since its `MULTI`, in order, unless a watched key was hit or
the check before the replay refuses exactly these commands. -/
def Conforms (s : Tracked σ κ) (c : Command κ) : Prop :=
  let h := Txn.dispatch b s.conn c
  match c with
  | .plain cmd =>
    ((h.reply = .queued ∧ h.executed = []) ↔ s.sent.inTxn = true) ∧
      (s.sent.inTxn = false → h.executed = [cmd])
  | .exec =>
    if s.sent.inTxn then
      ((∃ answers, h.reply = .results answers) ∧ h.executed = s.sent.queue) ∨
        (h.executed = [] ∧ (h.reply = .null ∨
          ∃ r, b.preExec s.conn.store s.sent.queue = some r ∧ h.reply = .answer (.reply r)))
    else h.reply = .error .execWithoutMulti ∧ h.executed = []
  | _ => h.executed = []

/-- No ordinary command is sent while keys are watched and no `MULTI` is open. -/
def NotWatchOnly (s : Tracked σ κ) : Command κ → Prop
  | .plain (.other _) => s.sent.inTxn = true ∨ s.sent.watching = false
  | _ => True

instance (s : Tracked σ κ) : (c : Command κ) → Decidable (s.NotWatchOnly c)
  | .plain (.other _) => inferInstanceAs (Decidable (_ ∨ _))
  | .plain (.unwatch _) | .watch _ | .multi | .exec | .discard => .isTrue trivial

/-- The session object matches what was sent. -/
def Matches (s : Tracked σ κ) : Prop :=
  match s.conn.session with
  | none => s.sent.inTxn = false ∧ s.sent.watching = false
  | some sess =>
    sess.inMulti = s.sent.inTxn ∧ sess.dirty = false ∧
      (s.sent.inTxn = true → sess.queue = s.sent.queue) ∧
      (s.sent.inTxn = false → sess.queue = [] ∧ s.sent.watching = true)

theorem matches_start {store : σ} : (start store : Tracked σ κ).Matches := ⟨rfl, rfl⟩

variable {b}

variable {conn : Conn σ κ} {sess : TxnSession κ} {cmd : Plain κ} {s : Tracked σ κ}

private theorem push_of_fits (h : Txn.fits b cmd) : Txn.push b conn sess cmd =
      ({ conn with session := some { sess with queue := sess.queue ++ [cmd] } }, .queued) := by
  simp [push, h]

private theorem dispatch_of_pass (hk : Txn.known b cmd) (h : Txn.intercept b conn cmd = none) :
    Txn.dispatch b conn (.plain cmd) =
      ⟨(Txn.runPlain b conn cmd).1, .answer (Txn.runPlain b conn cmd).2, [cmd]⟩ := by
  simp [dispatch, h, hk, ite_true]

private theorem dispatch_of_session
    (hs : conn.session = some sess) (hk : Txn.known b cmd) (hf : Txn.fits b cmd)
    (hm : sess.inMulti = true ∨ ∃ c, cmd = .other c) : Txn.dispatch b conn (.plain cmd) =
      ⟨{ conn with session := some { sess with queue := sess.queue ++ [cmd] } }, .queued, []⟩ := by
  have hi : intercept b conn cmd = some (push b conn sess cmd) := by
    unfold intercept
    rw [hs]
    cases cmd with
    | unwatch =>
      rcases hm with hm | ⟨c, hc⟩
      · simp [hm]
      · cases hc
    | other c =>
      have hc : b.has c = true := hk
      simp [hc]
  simp only [dispatch, hi, push_of_fits hf]

private theorem conforms_of_pass (hk : Txn.known b cmd)
    (hpass : Txn.intercept b s.conn cmd = none) (htxn : s.sent.inTxn = false) :
    s.Conforms b (.plain cmd) := by
  simp only [Conforms, dispatch_of_pass hk hpass, htxn]
  simp

private theorem conforms_of_session
    (hs : s.conn.session = some sess) (hk : Txn.known b cmd) (hf : Txn.fits b cmd)
    (hm : sess.inMulti = true ∨ ∃ c, cmd = .other c) :
    s.Conforms b (.plain cmd) ↔ s.sent.inTxn = true := by
  simp only [Conforms, dispatch_of_session hs hk hf hm]
  cases s.sent.inTxn <;> simp

private theorem notWatchOnly_of_inTxn (h : s.sent.inTxn = true)
    (cmd : Plain κ) : s.NotWatchOnly (.plain cmd) := by
  cases cmd with
  | unwatch => trivial
  | other => exact .inl h

private theorem intercept_unwatch {argc : Nat}
    (hs : conn.session = some sess) (hm : sess.inMulti = false) :
    Txn.intercept b conn (.unwatch argc) = none := by
  simp [intercept, hs, hm, Bool.false_eq_true, ite_false]

private theorem conforms_plain_iff (hs : s.Matches) (hk : Txn.known b cmd) (hf : Txn.fits b cmd) :
    s.Conforms b (.plain cmd) ↔ s.NotWatchOnly (.plain cmd) := by
  unfold Matches at hs
  cases hsess : s.conn.session with
  | none =>
    rw [hsess] at hs
    have hpass : intercept b s.conn cmd = none := by simp [intercept, hsess]
    refine iff_of_true (conforms_of_pass hk hpass hs.1) ?_
    cases cmd with
    | unwatch => trivial
    | other => exact .inr hs.2
  | some =>
    rw [hsess] at hs
    obtain ⟨hin, -, -, hidle⟩ := hs
    cases htxn : s.sent.inTxn with
    | true =>
      exact iff_of_true ((conforms_of_session hsess hk hf (.inl (hin.trans htxn))).mpr htxn)
        (notWatchOnly_of_inTxn htxn cmd)
    | false =>
      cases cmd with
      | unwatch =>
        exact iff_of_true
          (conforms_of_pass hk (intercept_unwatch hsess (hin.trans htxn)) htxn) trivial
      | other c =>
        -- the defect: a watching connection queues without an open MULTI
        refine (conforms_of_session hsess hk hf (.inr ⟨c, rfl⟩)).trans ?_
        simp only [NotWatchOnly, htxn, (hidle htxn).2]
        simp

private theorem conforms_exec (hs : s.Matches) : s.Conforms b .exec := by
  unfold Matches at hs
  simp only [Conforms, dispatch, handleExec]
  cases hsess : s.conn.session with
  | none =>
    rw [hsess] at hs
    simp [hs.1]
  | some sess =>
    rw [hsess] at hs
    obtain ⟨hin, hdirty, hqueue, -⟩ := hs
    cases htxn : s.sent.inTxn with
    | false => simp [hin, htxn]
    | true =>
      simp only [hin, htxn, hdirty, hqueue htxn, Bool.not_true, Bool.false_eq_true, ite_false,
        ite_true]
      cases hpre : b.preExec s.conn.store s.sent.queue with
      | some r => exact .inr ⟨rfl, .inr ⟨r, rfl, rfl⟩⟩
      | none =>
        by_cases hhit : catchupDirty (b.backlog s.conn.store) sess = true
        · right
          simp [hhit]
        · left
          simp [hhit]

/-- Where the session matches what was sent, the registry conforms exactly to commands that
are not sent on a watching connection without `MULTI`. -/
theorem conforms_iff {c : Command κ} (hs : s.Matches) (hc : WellFormed b c) :
    s.Conforms b c ↔ s.NotWatchOnly c := by
  cases c with
  | plain => exact conforms_plain_iff hs hc.1 hc.2
  | exec => exact iff_of_true (conforms_exec hs) trivial
  | multi =>
    refine iff_of_true ?_ trivial
    simp only [Conforms, dispatch, handleMulti]
    split <;> rfl
  | discard =>
    refine iff_of_true ?_ trivial
    simp only [Conforms, dispatch, handleDiscard]
    split
    · rfl
    · split <;> rfl
  | watch =>
    refine iff_of_true ?_ trivial
    simp only [Conforms, dispatch, handleWatch]
    split
    · rfl
    · split <;> rfl

private theorem session_runPlain (h : conn.session = none) (cmd : Plain κ) :
    (Txn.runPlain b conn cmd).1.session = none := by
  cases cmd with
  | unwatch =>
    simp only [runPlain, handleUnwatch, h]
    split <;> exact h
  | other =>
    simp only [runPlain]
    split <;> exact h

private theorem session_replayQueue (queue : List (Plain κ)) :
    ∀ conn : Conn σ κ, conn.session = none → (Txn.replayQueue b conn queue).1.session = none := by
  induction queue with
  | nil => intro conn h; exact h
  | cons cmd queue ih => intro conn h; exact ih _ (session_runPlain h cmd)

private theorem Matches.multi (hs : s.Matches) : (s.step b .multi).Matches := by
  have hmatch := hs
  unfold Matches at hs
  simp only [Tracked.step, dispatch, handleMulti]
  cases hsess : s.conn.session with
  | none => simp [Matches, Sent.next, newSession]
  | some =>
    rw [hsess] at hs
    obtain ⟨hin, hdirty, -, hidle⟩ := hs
    cases htxn : s.sent.inTxn with
    | true =>
      simp only [Option.getD_some, hin, htxn, ite_true, Sent.next]
      exact hmatch
    | false => simp [Matches, Sent.next, hin, htxn, hdirty, (hidle htxn).1]

private theorem Matches.watch (hs : s.Matches) {keys : List Bytes}
    (hkeys : keys ≠ []) : (s.step b (.watch keys)).Matches := by
  have hmatch := hs
  have hkeys : keys.isEmpty = false := by simpa using hkeys
  unfold Matches at hs
  simp only [Tracked.step, dispatch, handleWatch, hkeys, Bool.false_eq_true, ite_false]
  cases hsess : s.conn.session with
  | none =>
    rw [hsess] at hs
    simp [Matches, Sent.next, newSession, hs.1]
  | some =>
    rw [hsess] at hs
    obtain ⟨hin, hdirty, -, hidle⟩ := hs
    cases htxn : s.sent.inTxn with
    | true =>
      simp only [Option.getD_some, hin, htxn, ite_true, Sent.next]
      exact hmatch
    | false => simp [Matches, Sent.next, hin, htxn, hdirty, (hidle htxn).1]

private theorem Matches.discard (hs : s.Matches) : (s.step b .discard).Matches := by
  have hmatch := hs
  unfold Matches at hs
  simp only [Tracked.step, dispatch, handleDiscard]
  cases hsess : s.conn.session with
  | none =>
    rw [hsess] at hs
    simp only [Sent.next, hs.1, Bool.false_eq_true, ite_false]
    exact hmatch
  | some =>
    rw [hsess] at hs
    cases htxn : s.sent.inTxn with
    | true => simp [Matches, Sent.next, Sent.nothing, hs.1, htxn]
    | false =>
      simp only [hs.1, htxn, Bool.false_eq_true, ite_false, Sent.next]
      exact hmatch

private theorem Matches.exec (hs : s.Matches) : (s.step b .exec).Matches := by
  have hmatch := hs
  unfold Matches at hs
  simp only [Tracked.step, dispatch, handleExec]
  cases hsess : s.conn.session with
  | none =>
    rw [hsess] at hs
    simp only [Sent.next, hs.1, Bool.false_eq_true, ite_false]
    exact hmatch
  | some sess =>
    rw [hsess] at hs
    obtain ⟨hin, hdirty, -, -⟩ := hs
    cases htxn : s.sent.inTxn with
    | false =>
      simp only [hin, htxn, Bool.not_false, ite_true, Sent.next, Bool.false_eq_true, ite_false]
      exact hmatch
    | true =>
      simp only [hin, htxn, hdirty, Bool.not_true, Bool.false_eq_true, ite_false, Sent.next,
        ite_true]
      cases b.preExec s.conn.store sess.queue with
      | some => exact ⟨rfl, rfl⟩
      | none =>
        cases catchupDirty (b.backlog s.conn.store) sess with
        | true => exact ⟨rfl, rfl⟩
        | false =>
          have hnone := session_replayQueue (b := b) sess.queue ⟨none, s.conn.store⟩ rfl
          simp only [Bool.false_eq_true, ite_false, Matches, hnone]
          exact ⟨rfl, rfl⟩

private theorem Matches.plain (hs : s.Matches)
    (hk : Txn.known b cmd) (hf : Txn.fits b cmd) (hn : s.NotWatchOnly (.plain cmd)) :
    (s.step b (.plain cmd)).Matches := by
  unfold Matches at hs
  cases hsess : s.conn.session with
  | none =>
    rw [hsess] at hs
    have hpass : intercept b s.conn cmd = none := by simp [intercept, hsess]
    have hnone : (runPlain b s.conn cmd).1.session = none := session_runPlain hsess cmd
    simp only [Tracked.step, dispatch_of_pass hk hpass]
    unfold Matches
    rw [hnone]
    cases cmd <;> simp [Sent.next, hs.1, hs.2]
  | some =>
    rw [hsess] at hs
    obtain ⟨hin, hdirty, hqueue, hidle⟩ := hs
    cases htxn : s.sent.inTxn with
    | true =>
      simp only [Tracked.step, dispatch_of_session hsess hk hf (.inl (hin.trans htxn))]
      simp [Matches, Sent.next, hin, htxn, hdirty, hqueue htxn]
    | false =>
      cases cmd with
      | unwatch argc =>
        have hargc : argc = 0 := by simpa [fits] using hf
        simp only [Tracked.step, dispatch_of_pass hk (intercept_unwatch hsess (hin.trans htxn))]
        simp [Matches, Sent.next, runPlain, handleUnwatch, hsess, hin, htxn, hargc,
          (hidle htxn).1]
      | other =>
        -- excluded by the condition: the connection watches keys without an open MULTI
        rcases hn with hn | hn
        · rw [htxn] at hn
          cases hn
        · rw [(hidle htxn).2] at hn
          cases hn

/-- A command that conforms keeps the session matched. -/
theorem Matches.step {c : Command κ} (hs : s.Matches) (hc : WellFormed b c)
    (hn : s.NotWatchOnly c) : (s.step b c).Matches := by
  cases c with
  | multi => exact hs.multi
  | exec => exact hs.exec
  | discard => exact hs.discard
  | watch => exact hs.watch hc
  | plain => exact hs.plain hc.1 hc.2 hn

end Tracked

/-- A server with one counter and one command that increments it. -/
def counterBackend : Backend Nat Unit Nat where
  name := fun _ => "incr"
  has := fun _ => true
  arityOk := fun _ => true
  unknownReply := fun _ => 0
  run := fun n _ => (n + 1, n + 1)
  backlog := fun _ => none
  preExec := fun _ _ => none

namespace Txn

variable {σ κ ρ : Type} (b : Backend σ κ ρ)

/-- The commands of a connection one after the other, with their replies. -/
def serve (conn : Conn σ κ) : List (Command κ) → Conn σ κ × List (TxnReply ρ)
  | [] => (conn, [])
  | c :: cs =>
    let h := dispatch b conn c
    let rest := serve h.conn cs
    (rest.1, h.reply :: rest.2)

/-- A command that is queued inside `MULTI`. -/
def queueable (cmd : Plain κ) : Bool := known b cmd && fits b cmd

variable {b} {store : σ}

theorem serve_append {conn : Conn σ κ} (cs ds : List (Command κ)) :
    serve b conn (cs ++ ds) = ((serve b (serve b conn cs).1 ds).1,
      (serve b conn cs).2 ++ (serve b (serve b conn cs).1 ds).2) := by
  induction cs generalizing conn with
  | nil => rfl
  | cons c cs ih => simp only [List.cons_append, serve, ih]

/-- What is sent inside `MULTI` leaves the store alone and is queued, or spoils the session. -/
theorem serve_inMulti {sess : TxnSession κ} (h : sess.inMulti = true) (cmds : List (Plain κ)) :
    ∃ sess', (serve b ⟨some sess, store⟩ (cmds.map .plain)).1 = ⟨some sess', store⟩ ∧
      sess'.inMulti = true ∧ sess'.watched = sess.watched ∧
      sess'.dirty = (sess.dirty || !cmds.all (queueable b)) ∧
      (cmds.all (queueable b) = true → sess'.queue = sess.queue ++ cmds ∧
        (serve b ⟨some sess, store⟩ (cmds.map .plain)).2 = cmds.map fun _ => .queued) := by
  induction cmds generalizing sess with
  | nil => exact ⟨sess, rfl, h, rfl, by simp, by simp [serve]⟩
  | cons cmd cmds ih =>
    by_cases hq : queueable b cmd = true
    · obtain ⟨hk, hf⟩ := Bool.and_eq_true_iff.mp hq
      have hd : dispatch b ⟨some sess, store⟩ (.plain cmd) =
          ⟨⟨some { sess with queue := sess.queue ++ [cmd] }, store⟩, .queued, []⟩ := by
        cases cmd <;> simp_all [dispatch, intercept, push, known]
      obtain ⟨sess', hconn, hm, hw, hdirty, hqueue⟩ :=
        @ih { sess with queue := sess.queue ++ [cmd] } h
      simp only [List.map_cons, serve, hd, List.all_cons, hq, Bool.true_and]
      exact ⟨sess', hconn, hm, hw, hdirty, fun hall => by simp [hqueue hall]⟩
    · have hd : (dispatch b ⟨some sess, store⟩ (.plain cmd)).conn =
          ⟨some { sess with dirty := true }, store⟩ := by
        cases cmd with
        | unwatch => simp_all [dispatch, intercept, push, known, queueable]
        | other c =>
          by_cases hc : b.has c = true <;> simp_all [dispatch, intercept, push, known, queueable]
      obtain ⟨sess', hconn, hm, hw, hdirty, -⟩ := @ih { sess with dirty := true } h
      simp only [List.map_cons, serve, hd, List.all_cons, hq, Bool.false_and]
      exact ⟨sess', hconn, hm, hw, by simpa using hdirty, by rintro ⟨⟩⟩

/-- Without a session, commands are carried out one after the other. -/
theorem serve_direct {conn : Conn σ κ} (h : conn.session = none) (cmds : List (Plain κ)) :
    serve b conn (cmds.map .plain) =
      ((replayQueue b conn cmds).1, (replayQueue b conn cmds).2.map .answer) := by
  induction cmds generalizing conn with
  | nil => rfl
  | cons cmd cmds ih =>
    simp only [List.map_cons, serve, dispatch, intercept, h, replayQueue,
      ih (Tracked.session_runPlain h cmd)]

end Txn

end Gedis.Commands
