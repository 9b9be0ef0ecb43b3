import Gedis.Cluster.Keys
import Gedis.Cluster.Setslot
import Gedis.Commands.Dispatch
import Gedis.Commands.Grammar

/-!
# Redirecting commands

A node of a cluster answers a command itself when its keys hash to one slot that the node serves,
and redirects it otherwise. While a slot moves away, a command goes to the new owner when its key
is no longer there. The queue of a transaction is checked as a whole before it is replayed.
-/

namespace Gedis.Cluster

open Gedis.Core Protocol Acl Commands Storage
open Commands.Grammar (strings words)

/-- One bit of the checksum. -/
def crcBit (crc : UInt16) : UInt16 :=
  if crc &&& 0x8000 ≠ 0 then (crc <<< 1) ^^^ 0x1021 else crc <<< 1

/-- The CRC16 checksum with the XMODEM polynomial. -/
def crc16 (s : Bytes) : UInt16 :=
  s.foldl (fun crc b => Nat.repeat crcBit 8 (crc ^^^ (b.toUInt16 <<< (8 : UInt16)))) 0

/-- The part of a key that is hashed: what stands between the first brace and the next closing one,
unless that is nothing. -/
def tag (key : Bytes) : Bytes :=
  match key.findIdx? (· == 123) with
  | none => key
  | some i =>
    match (key.drop (i + 1)).findIdx? (· == 125) with
    | some (j + 1) => (key.drop (i + 1)).take (j + 1)
    | _ => key

/-- The slot of a key. -/
def slot (key : Bytes) : Nat := (crc16 (tag key) &&& 16383).toNat

example : slot (ascii "\x7buser1000\x7d.following".toList) = slot (ascii "user1000".toList) := by
  decide +kernel

/-- Answers in place of a handler. -/
inductive Redirect where
  | crossSlot
  | clusterDown
  | ask (slot : Nat) (addr : Bytes)
  | moved (slot : Nat) (addr : Bytes)
  deriving DecidableEq, Repr

/-- A redirection as it is sent. -/
def redirection (kind : String) (slot : Nat) (addr : Bytes) : Value :=
  .error (ascii kind.toList ++ formatInt (Int64.ofNat slot) ++ 32 :: addr)

/-- The texts of the answers. -/
def Redirect.reply : Redirect → Value
  | .crossSlot => errValue "CROSSSLOT Keys in request don't hash to the same slot"
  | .clusterDown =>
    errValue "CLUSTERDOWN Hash slot not served by this node. Check your cluster configuration."
  | .ask slot addr => redirection "ASK " slot addr
  | .moved slot addr => redirection "MOVED " slot addr

/-- The key has a value here. -/
def keyPresent (key : Bytes) : Handler Bool := do
  match ← lookupRaw key with
  | .record .. => pure true
  | _ => pure false

/-- The address of a node, or another one when the node is unknown. -/
def nodeAddrOr (t : Topology) (id fallback : Bytes) : Bytes :=
  match t.nodes.find? fun n => n.id == id with
  | some n => n.addr
  | none => fallback

/-- Send the client to the owner of a slot. -/
def movedTo (t : Topology) (s : Nat) : Redirect :=
  if t.ownerAddr s = [] then .clusterDown else .moved s (t.ownerAddr s)

/-- The decision about a command with the given keys; `asked` says that the client came with
`ASKING`. The presence of the first key decides for all of them, and `MIGRATE` looks for its key by
itself. -/
def redirect (t : Topology) (name : Bytes) (asked : Bool) (key : Bytes) (rest : List Bytes) :
    Handler (Option Redirect) :=
  let s := slot key
  if rest.any fun k => slot k != s then pure (some .crossSlot)
  else
    match t.migrating s with
    | some target =>
      if name = Cmd.name .MIGRATE then pure none
      else do
        if ← keyPresent key then pure none
        else pure (some (.ask s (nodeAddrOr t target (t.ownerAddr s))))
    | none =>
      if (t.importing s).isSome then pure (if asked then none else some (movedTo t s))
      else if t.owns s then pure none
      else if t.ownerAddr s = [] then pure (some .clusterDown)
      else if asked then do
        if ← keyPresent key then pure none else pure (some (.ask s (t.ownerAddr s)))
      else pure (some (.moved s (t.ownerAddr s)))

/-- The hook before a handler. Nothing is redirected when the cluster is disabled, while a
transaction is replayed, or when the keys of the command are not known. -/
def intercept (t : Option Topology) (replay asked : Bool) (elems : List Value) :
    Handler (Go (Option Redirect)) :=
  match t, elems with
  | some t, .bulkString bulk :: args =>
    let name := toUpper (bulk.getD [])
    if replay ∨ name = Cmd.name .ASKING then pure (.ok none)
    else
      match strings (args.map argString) with
      | none => pure (.ok none)
      | some ws =>
        match keysOf name ws with
        | .error p => pure (.error p)
        | .ok (some (key :: rest)) => do
          let answer ← redirect t name asked key rest
          pure (.ok answer)
        | .ok _ => pure (.ok none)
  | _, _ => pure (.ok none)

/-- A command is answered by the hook or by its handler. -/
def dispatch (t : Option Topology) (replay asked : Bool) (elems : List Value)
    (handler : Handler Value) : Handler (Go Value) := do
  match ← intercept t replay asked elems with
  | .error p => pure (.error p)
  | .ok (some answer) => pure (.ok answer.reply)
  | .ok none => do
    let reply ← handler
    pure (.ok reply)

/-- The common slot of the keys so far, and of more keys. -/
def joinSlots : Option Nat → List Bytes → Option (Option Nat)
  | s, [] => some s
  | none, key :: rest => joinSlots (some (slot key)) rest
  | some s, key :: rest => if slot key = s then joinSlots (some s) rest else none

/-- The keys that are found for a queued command; its arguments count up to the first one that is
not a string. -/
def queuedKeys (elems : List Value) : Go (Option (List Bytes)) :=
  match elems with
  | .bulkString bulk :: args =>
    keysOf (toUpper (bulk.getD [])) (words ((args.map argString).takeWhile Option.isSome))
  | _ => .ok none

/-- The common slot of the queued commands, or nothing when their keys hash to different slots. -/
def queueSlot : Option Nat → List (List Value) → Go (Option (Option Nat))
  | s, [] => .ok (some s)
  | s, elems :: queue =>
    match queuedKeys elems with
    | .error p => .error p
    | .ok none => queueSlot s queue
    | .ok (some keys) =>
      match joinSlots s keys with
      | none => .ok none
      | some s => queueSlot s queue

/-- The check of the queue: its keys hash to one slot, which this node owns. -/
def checkExec (t : Option Topology) (queue : List (List Value)) : Go (Option Redirect) :=
  match t with
  | none => .ok none
  | some t =>
    match queueSlot none queue with
    | .error p => .error p
    | .ok none => .ok (some .crossSlot)
    | .ok (some none) => .ok none
    | .ok (some (some s)) => if t.owns s then .ok none else .ok (some (movedTo t s))

end Gedis.Cluster
