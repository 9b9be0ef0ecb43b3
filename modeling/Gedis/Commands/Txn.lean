import Gedis.Commands.UserKeys
import Gedis.Replication.Hub

/-!
# The transaction registry

One session object per connection serves both `WATCH` and `MULTI`. Ordinary commands are
intercepted while a session exists; `EXEC` checks the watched keys against the backlog and
replays the queue. What ordinary commands do is a parameter.
-/

namespace Gedis.Commands

open Gedis.Core Replication

/-- A command that can be queued: `UNWATCH` with its argument count, or an ordinary command. -/
inductive Plain (κ : Type) where
  | unwatch (argc : Nat)
  | other (cmd : κ)
  deriving DecidableEq, Repr

/-- The commands of one connection. -/
inductive Command (κ : Type) where
  | multi
  | exec
  | discard
  | watch (keys : List Bytes)
  | plain (cmd : Plain κ)
  deriving DecidableEq, Repr

/-- The errors of the registry. -/
inductive TxnError where
  | nestedMulti
  | execWithoutMulti
  | discardWithoutMulti
  | execAbort
  | watchInMulti
  | arity (name : String)
  deriving DecidableEq, Repr

/-- The texts of the errors. -/
def TxnError.message : TxnError → String
  | .nestedMulti => "ERR MULTI calls can not be nested"
  | .execWithoutMulti => "ERR EXEC without MULTI"
  | .discardWithoutMulti => "ERR DISCARD without MULTI"
  | .execAbort => "EXECABORT Transaction discarded because of previous errors."
  | .watchInMulti => "ERR WATCH inside MULTI is not allowed"
  | .arity name => "ERR wrong number of arguments for '" ++ name ++ "' command"

/-- The answer to a command that was carried out. -/
inductive Answer (ρ : Type) where
  | ok
  | error (e : TxnError)
  | reply (r : ρ)
  deriving DecidableEq, Repr

/-- What a client sees. -/
inductive TxnReply (ρ : Type) where
  | ok
  | queued
  | error (e : TxnError)
  /-- The null array of an aborted transaction. -/
  | null
  | results (answers : List (Answer ρ))
  | answer (a : Answer ρ)
  deriving DecidableEq, Repr

/-- The rest of the server: the command table, what an ordinary command does to the store,
the backlog when replication is configured, and the check before a replay. -/
structure Backend (σ κ ρ : Type) where
  /-- Lower-case command name. -/
  name : κ → String
  has : κ → Bool
  arityOk : κ → Bool
  unknownReply : κ → ρ
  run : σ → κ → σ × ρ
  backlog : σ → Option Backlog
  preExec : σ → List (Plain κ) → Option ρ

/-- The session object of a connection. -/
structure TxnSession (κ : Type) where
  queue : List (Plain κ)
  dirty : Bool
  inMulti : Bool
  watched : List Bytes
  lastOff : Nat
  deriving DecidableEq, Repr

/-- A session as it is created. -/
def newSession (κ : Type) : TxnSession κ := ⟨[], false, false, [], 0⟩

/-- A connection over the store. -/
structure Conn (σ κ : Type) where
  session : Option (TxnSession κ)
  store : σ

/-- The effect of a command: the connection afterwards, the reply, and which commands were
carried out. -/
structure Handled (σ κ ρ : Type) where
  conn : Conn σ κ
  reply : TxnReply ρ
  executed : List (Plain κ)

namespace Txn

variable {σ κ ρ : Type} (b : Backend σ κ ρ)

/-- The name in an arity error. -/
def arityName : Plain κ → String
  | .unwatch _ => "unwatch"
  | .other cmd => b.name cmd

/-- The command is registered. -/
def known : Plain κ → Bool
  | .unwatch _ => true
  | .other cmd => b.has cmd

/-- The argument count is acceptable. -/
def fits : Plain κ → Bool
  | .unwatch argc => argc == 0
  | .other cmd => b.arityOk cmd

/-- Queue a registered command; a wrong argument count spoils the session. -/
def push (conn : Conn σ κ) (sess : TxnSession κ) (cmd : Plain κ) : Conn σ κ × TxnReply ρ :=
  if fits b cmd then
    ({ conn with session := some { sess with queue := sess.queue ++ [cmd] } }, .queued)
  else
    ({ conn with session := some { sess with dirty := true } }, .error (.arity (arityName b cmd)))

/-- Interception of queueable commands: none without a session, and none of `UNWATCH` outside
`MULTI`. An unknown command spoils the session. -/
def intercept (conn : Conn σ κ) (cmd : Plain κ) : Option (Conn σ κ × TxnReply ρ) :=
  match conn.session with
  | none => none
  | some sess =>
    match cmd with
    | .unwatch _ => if sess.inMulti then some (push b conn sess cmd) else none
    | .other c =>
      if b.has c then some (push b conn sess cmd)
      else
        some ({ conn with session := some { sess with dirty := true } },
          .answer (.reply (b.unknownReply c)))

/-- Forget the watched keys; a session without queue and `MULTI` ends. -/
def handleUnwatch (conn : Conn σ κ) (argc : Nat) : Conn σ κ × Answer ρ :=
  if argc ≠ 0 then (conn, .error (.arity "unwatch"))
  else
    match conn.session with
    | none => (conn, .ok)
    | some sess =>
      if sess.queue.isEmpty && !sess.inMulti then ({ conn with session := none }, .ok)
      else ({ conn with session := some { sess with watched := [] } }, .ok)

/-- Carry out a command that is not intercepted. -/
def runPlain (conn : Conn σ κ) : Plain κ → Conn σ κ × Answer ρ
  | .unwatch argc => handleUnwatch conn argc
  | .other cmd =>
    if b.has cmd then
      let (store, r) := b.run conn.store cmd
      ({ conn with store }, .reply r)
    else (conn, .reply (b.unknownReply cmd))

/-- Replay a queue in order. -/
def replayQueue : Conn σ κ → List (Plain κ) → Conn σ κ × List (Answer ρ)
  | conn, [] => (conn, [])
  | conn, cmd :: queue =>
    let (conn, a) := runPlain b conn cmd
    let (conn, answers) := replayQueue conn queue
    (conn, a :: answers)

/-- Whether an operation after the recorded offset hits a watched key; an offset that slid
out of the backlog counts as a hit. -/
def catchupDirty (backlog : Option Backlog) (sess : TxnSession κ) : Bool :=
  if sess.watched.isEmpty then false
  else
    match backlog with
    | none => false
    | some backlog =>
      match backlog.since sess.lastOff with
      | none => true
      | some missed => missed.any fun op => sess.watched.contains (rawToUserKey op.key)

/-- The largest offset, zero without replication. -/
def latest (store : σ) : Nat := (b.backlog store).elim 0 Backlog.latest

def handleMulti (conn : Conn σ κ) : Handled σ κ ρ :=
  let sess := conn.session.getD (newSession κ)
  if sess.inMulti then ⟨conn, .error .nestedMulti, []⟩
  else ⟨{ conn with session := some { sess with inMulti := true } }, .ok, []⟩

def handleDiscard (conn : Conn σ κ) : Handled σ κ ρ :=
  match conn.session with
  | none => ⟨conn, .error .discardWithoutMulti, []⟩
  | some sess =>
    if sess.inMulti then ⟨{ conn with session := none }, .ok, []⟩
    else ⟨conn, .error .discardWithoutMulti, []⟩

def handleWatch (conn : Conn σ κ) (keys : List Bytes) : Handled σ κ ρ :=
  if keys.isEmpty then ⟨conn, .error (.arity "watch"), []⟩
  else
    let sess := conn.session.getD (newSession κ)
    if sess.inMulti then ⟨conn, .error .watchInMulti, []⟩
    else
      let lastOff := if sess.watched.isEmpty then latest b conn.store else sess.lastOff
      ⟨{ conn with session := some { sess with lastOff, watched := sess.watched ++ keys } }, .ok, []⟩

/-- End the session; then abort on earlier errors, on the check before the replay or on a hit
of a watched key, else replay the queue. -/
def handleExec (conn : Conn σ κ) : Handled σ κ ρ :=
  match conn.session with
  | none => ⟨conn, .error .execWithoutMulti, []⟩
  | some sess =>
    if !sess.inMulti then ⟨conn, .error .execWithoutMulti, []⟩
    else
      let conn := { conn with session := none }
      if sess.dirty then ⟨conn, .error .execAbort, []⟩
      else
        match b.preExec conn.store sess.queue with
        | some r => ⟨conn, .answer (.reply r), []⟩
        | none =>
          if catchupDirty (b.backlog conn.store) sess then ⟨conn, .null, []⟩
          else
            let (conn, answers) := replayQueue b conn sess.queue
            ⟨conn, .results answers, sess.queue⟩

/-- Handle one command of the connection. -/
def dispatch (conn : Conn σ κ) : Command κ → Handled σ κ ρ
  | .multi => handleMulti conn
  | .exec => handleExec b conn
  | .discard => handleDiscard conn
  | .watch keys => handleWatch b conn keys
  | .plain cmd =>
    match intercept b conn cmd with
    | some (conn, reply) => ⟨conn, reply, []⟩
    | none =>
      let (conn, a) := runPlain b conn cmd
      ⟨conn, .answer a, if known b cmd then [cmd] else []⟩

end Txn

end Gedis.Commands
