import Gedis.Commands.Pattern
import Gedis.Core.OrdMap
import Gedis.Core.Run
import Gedis.Protocol.Value

/-!
# Subscriptions and publishing

A connection has a session with three kinds of subscriptions, each a set and a list of its members in
the order of subscribing. While it has any, a sender takes messages from its queue. Queues are
numbered in the order in which they are made, and one that is closed stays closed: a session that
subscribes again gets a new one.
-/

namespace Gedis.Commands

open Gedis.Core Protocol

/-- The three kinds of subscriptions. -/
inductive SubKind where
  | channel
  | pattern
  | shard
  deriving DecidableEq, Repr

/-- Subscriptions of one kind. -/
structure Subscriptions where
  members : OrdMap Bytes Unit := ∅
  order : List Bytes := []

/-- The subscriptions of a connection and its queue. -/
structure PubSubSession where
  subs : Subscriptions := {}
  patterns : Subscriptions := {}
  shards : Subscriptions := {}
  ch : Option Nat := none
  sender : Bool := false
  closed : Bool := false

namespace PubSubSession

def get (s : PubSubSession) : SubKind → Subscriptions
  | .channel => s.subs
  | .pattern => s.patterns
  | .shard => s.shards

def set (s : PubSubSession) (x : Subscriptions) : SubKind → PubSubSession
  | .channel => { s with subs := x }
  | .pattern => { s with patterns := x }
  | .shard => { s with shards := x }

/-- Channels and patterns are counted together. -/
def total (s : PubSubSession) : Nat := s.subs.members.size + s.patterns.members.size

def shardTotal (s : PubSubSession) : Nat := s.shards.members.size

def activeTotal (s : PubSubSession) : Nat :=
  s.subs.members.size + s.patterns.members.size + s.shards.members.size

/-- The count that a confirmation reports. -/
def count (s : PubSubSession) : SubKind → Nat
  | .shard => s.shardTotal
  | _ => s.total

/-- The sender is running. -/
def live (s : PubSubSession) : Bool := s.sender && !s.closed

end PubSubSession

/-- How many queues were made, and which of them are closed. -/
structure Queues where
  made : Nat := 0
  shut : List Nat := []

/-- The sessions by connection. -/
structure PubSub where
  sessions : OrdMap Nat PubSubSession := ∅
  queues : Queues := {}

/-- A session and the queues in the middle of a command, with the confirmations so far. -/
structure Turn where
  queues : Queues
  sess : PubSubSession
  confs : List Value := []

/-- Give the session a sender with a new queue, unless it has one. -/
def ensureSender (t : Turn) : Turn :=
  if t.sess.live then t
  else
    { t with
      queues := { t.queues with made := t.queues.made + 1 }
      sess := { t.sess with ch := some t.queues.made, closed := false, sender := true } }

/-- Close the queue of the session if its sender is running. -/
def stopSender (t : Turn) : Turn :=
  if t.sess.live then
    { t with
      queues := { t.queues with shut := t.sess.ch.toList ++ t.queues.shut }
      sess := { t.sess with closed := true } }
  else t

/-- A confirmation; without a name it answers that there was nothing to end. -/
def confirm (word : String) (name : Option Bytes) (count : Nat) : Value :=
  arrayOf [bulkOf (ascii word.toList), .bulkString name, .integer (Int64.ofNat count)]

def SubKind.subscribeWord : SubKind → String
  | .channel => "subscribe"
  | .pattern => "psubscribe"
  | .shard => "ssubscribe"

def SubKind.unsubscribeWord : SubKind → String
  | .channel => "unsubscribe"
  | .pattern => "punsubscribe"
  | .shard => "sunsubscribe"

def Subscriptions.add (x : Subscriptions) (name : Bytes) : Subscriptions :=
  if name ∈ x.members then x
  else { members := x.members.insert name (), order := x.order ++ [name] }

def Subscriptions.remove (x : Subscriptions) (name : Bytes) : Subscriptions where
  members := x.members.erase name
  order := x.order.erase name

def Turn.confirmed (t : Turn) (word : String) (name : Option Bytes) (kind : SubKind) : Turn :=
  { t with confs := t.confs ++ [confirm word name (t.sess.count kind)] }

/-- Subscribe to a name. -/
def subscribeOne (kind : SubKind) (t : Turn) (name : Bytes) : Turn :=
  let t := ensureSender t
  let t := { t with sess := t.sess.set ((t.sess.get kind).add name) kind }
  t.confirmed kind.subscribeWord (some name) kind

/-- End the subscription to a name; with the last one of any kind the sender is stopped. -/
def removeOne (kind : SubKind) (t : Turn) (name : Bytes) : Turn :=
  let t := { t with sess := t.sess.set ((t.sess.get kind).remove name) kind }
  let t := if t.sess.activeTotal = 0 then stopSender t else t
  t.confirmed kind.unsubscribeWord (some name) kind

/-- The bytes of an argument; only some kinds of values have any. -/
def bulkBytes : Value → Bytes
  | .bulkString bulk => bulk.getD []
  | .bulkError bulk => bulk.getD []
  | .verbatim _ bulk => bulk.getD []
  | _ => []

/-- The session of a connection, which a command creates if it is missing. -/
def PubSub.turn (reg : PubSub) (conn : Nat) : Turn where
  queues := reg.queues
  sess := reg.sessions[conn]?.getD {}

def PubSub.keep (reg : PubSub) (conn : Nat) (t : Turn) : PubSub where
  sessions := reg.sessions.insert conn t.sess
  queues := t.queues

def noClient : Value :=
  .error (ascii "ERR SUBSCRIBE/UNSUBSCRIBE/PUBLISH can only be used in client context".toList)

/-- Subscribe a connection to names, with the confirmations. -/
def subscribeTo (kind : SubKind) (reg : PubSub) (conn : Option Nat) (args : List Value) :
    PubSub × Except Value (List Value) :=
  if args.isEmpty then
    (reg, .error (.error (ascii
      ("ERR wrong number of arguments for '" ++ kind.subscribeWord ++ "' command").toList)))
  else
    match conn with
    | none => (reg, .error noClient)
    | some conn =>
      let t := (args.map bulkBytes).foldl (subscribeOne kind) (reg.turn conn)
      (reg.keep conn t, .ok t.confs)

def handleSubscribe := subscribeTo .channel

def handlePsubscribe := subscribeTo .pattern

def handleSsubscribe := subscribeTo .shard

/-- What is to be ended: the names given, or all of the kind from the newest on. -/
def removeTargets (kind : SubKind) (s : PubSubSession) (args : List Value) : List Bytes :=
  if args.isEmpty then (s.get kind).order.reverse else args.map bulkBytes

/-- End subscriptions of a connection, with the confirmations. -/
def unsubscribeFrom (kind : SubKind) (reg : PubSub) (conn : Option Nat) (args : List Value) :
    PubSub × Except Value (List Value) :=
  match conn with
  | none => (reg, .error noClient)
  | some conn =>
    let t := reg.turn conn
    let targets := removeTargets kind t.sess args
    let t := if targets = [] then t.confirmed kind.unsubscribeWord none kind else t
    let t := targets.foldl (removeOne kind) t
    (reg.keep conn t, .ok t.confs)

def handleUnsubscribe := unsubscribeFrom .channel

def handlePunsubscribe := unsubscribeFrom .pattern

def handleSunsubscribe := unsubscribeFrom .shard

/-- A connection is gone: its session is dropped and its sender stopped. -/
def connClosed (reg : PubSub) (conn : Nat) : PubSub :=
  match reg.sessions[conn]? with
  | none => reg
  | some sess =>
    { sessions := reg.sessions.erase conn
      queues := (stopSender { queues := reg.queues, sess }).queues }

def message (channel : Bytes) (payload : Value) : Value :=
  arrayOf [bulkOf (ascii "message".toList), bulkOf channel, payload]

def pmessage (pat channel : Bytes) (payload : Value) : Value :=
  arrayOf [bulkOf (ascii "pmessage".toList), bulkOf pat, bulkOf channel, payload]

def smessage (channel : Bytes) (payload : Value) : Value :=
  arrayOf [bulkOf (ascii "smessage".toList), bulkOf channel, payload]

/-- The messages for a session: one if it is subscribed to the channel, and one for each of its
patterns that match. -/
def PubSubSession.messages (s : PubSubSession) (channel : Bytes) (payload : Value) : List Value :=
  (if channel ∈ s.subs.members then [message channel payload] else []) ++
    (s.patterns.order.filter (matchPattern · channel)).map (pmessage · channel payload)

/-- The message for a session of a shard channel. -/
def PubSubSession.shardMessages (s : PubSubSession) (channel : Bytes) (payload : Value) : List Value :=
  if channel ∈ s.shards.members then [smessage channel payload] else []

/-- A message and its queue. -/
abbrev Send := Option Nat × Value

/-- The messages of one call with the count that it returns. -/
structure Publication where
  count : Nat
  sends : List Send

/-- The messages for the sessions with a running sender. Sessions come in the order that the choices
`ns` draw. -/
def collect (reg : PubSub) (ns : List Nat) (messages : PubSubSession → List Value) : Publication :=
  let targets := (arrange ns reg.sessions.toList).filterMap fun e =>
    if e.2.live && !(messages e.2).isEmpty then some (e.2.ch, messages e.2) else none
  { count := (targets.map fun d => d.2.length).sum
    sends := targets.flatMap fun d => d.2.map fun m => (d.1, m) }

def publish (reg : PubSub) (ns : List Nat) (channel : Bytes) (payload : Value) : Publication :=
  collect reg ns fun s => s.messages channel payload

def shardPublish (reg : PubSub) (ns : List Nat) (channel : Bytes) (payload : Value) : Publication :=
  collect reg ns fun s => s.shardMessages channel payload

/-- A command of a connection with its arguments, or the end of a connection. -/
inductive PubSubEvent where
  | subscribe (conn : Option Nat) (args : List Value)
  | psubscribe (conn : Option Nat) (args : List Value)
  | ssubscribe (conn : Option Nat) (args : List Value)
  | unsubscribe (conn : Option Nat) (args : List Value)
  | punsubscribe (conn : Option Nat) (args : List Value)
  | sunsubscribe (conn : Option Nat) (args : List Value)
  | connClosed (conn : Nat)

def PubSub.step (reg : PubSub) : PubSubEvent → PubSub
  | .subscribe conn args => (handleSubscribe reg conn args).1
  | .psubscribe conn args => (handlePsubscribe reg conn args).1
  | .ssubscribe conn args => (handleSsubscribe reg conn args).1
  | .unsubscribe conn args => (handleUnsubscribe reg conn args).1
  | .punsubscribe conn args => (handlePunsubscribe reg conn args).1
  | .sunsubscribe conn args => (handleSunsubscribe reg conn args).1
  | .connClosed conn => Commands.connClosed reg conn

end Gedis.Commands
