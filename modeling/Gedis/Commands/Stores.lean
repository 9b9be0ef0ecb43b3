import Gedis.Commands.Generic

/-!
# Commands that write a result

The destination of a computed result is treated in three ways. `BITOP` and `SORT ... STORE`
remove whatever it held, `MSETNX` requires that it held nothing, and `SETEX`, `PSETEX`, `MSET`,
the set operations and the geo searches write their own record and leave the others alone.
-/

namespace Gedis.Commands

open Gedis.Core Datastruct Storage

/-- What a command without writes of its own may ask for. -/
inductive Look where
  | key (name : Bytes)
  | hash (name : Bytes)
  | record (raw : Bytes)
  | userKeys
  | now

/-- What it is answered with. -/
abbrev Look.Answer : Look → Type
  | .key _ => Found
  | .hash _ => Except Failure (Option (Fields × Int64))
  | .record _ => Option Bytes
  | .userKeys => List (Bytes × Bytes)
  | .now => Int64

/-- A program that only reads. Lookups still remove what has expired. -/
abbrev Reader (α : Type) := Prog Look Look.Answer α

/-- The requests behind a read. -/
def Look.handler : (l : Look) → Handler l.Answer
  | .key name => lookupRaw name
  | .hash name => readHash name
  | .record raw => Kv.get raw
  | .userKeys => scanUserKeys typePrefixes []
  | .now => Kv.now

/-- The requests of a program that only reads. -/
def Reader.handler {α : Type} (r : Reader α) : Handler α := r.interpret Look.handler

/-- Remove what a user key holds. -/
def removeOld (key : Bytes) : Handler (Option Failure) := do
  match ← lookupRaw key with
  | .missing => pure none
  | .failed f => pure (some f)
  | .record p e => do
    deleteByRaw (rawKey p key) e key
    pure none

/-- `SORT key ... STORE dst`: the sorted elements, with their number, come from a reader. -/
def sortStore (dst : Bytes) (sorted : Reader (Except Reply (Bytes × Int64))) : Handler Reply := do
  match ← sorted.handler with
  | .error reply => pure reply
  | .ok (payload, count) => do
    match ← removeOld dst with
    | some f => pure f.reply
    | none => do
      let r ← writeKind .list dst 0 payload
      pure (granted (.int count) r)

/-- The operations of `BITOP`. -/
inductive BitOp where
  | and | or | xor | not
  deriving DecidableEq, Repr

/-- One byte of the result; sources that are too short count as zero. -/
def BitOp.byte (op : BitOp) (srcs : List Bytes) (i : Nat) : UInt8 :=
  match op with
  | .and => srcs.foldl (fun acc s => acc &&& s.getD i 0) 0xFF
  | .or => srcs.foldl (fun acc s => acc ||| s.getD i 0) 0
  | .xor => srcs.foldl (fun acc s => acc ^^^ s.getD i 0) 0
  | .not => ~~~ ((srcs.headD []).getD i 0)

/-- Read strings, missing ones as empty. -/
def readStrings : List Bytes → List Bytes → Handler (Except Failure (List Bytes))
  | [], acc => pure (.ok acc.reverse)
  | key :: keys, acc => do
    match ← readKind .string key with
    | .error f => pure (.error f)
    | .ok old => readStrings keys (old.elim [] Entry.payload :: acc)

/-- `BITOP op dst src ...`: an empty result only removes the destination. -/
def bitop (op : BitOp) (dst : Bytes) (keys : List Bytes) : Handler Reply := do
  match ← readStrings keys [] with
  | .error f => pure f.reply
  | .ok srcs => do
    let maxLen := srcs.foldl (fun n s => max n s.length) 0
    match ← removeOld dst with
    | some f => pure f.reply
    | none => do
      if maxLen = 0 then pure (.int 0)
      else do
        let r ← writeKind .string dst 0 ((List.range maxLen).map (op.byte srcs))
        pure (granted (.int (Int64.ofNat maxLen)) r)

/-- The first loop of `MSETNX`: no key may hold anything. -/
def msetnxCheck : List Bytes → Handler (Option Reply)
  | [] => pure none
  | key :: keys => do
    match ← readKind .string key with
    | .error f => pure (some f.reply)
    | .ok (some _) => pure (some (.int 0))
    | .ok none => msetnxCheck keys

/-- The second loop of `MSETNX`; a refused write leaves the earlier ones in place. -/
def msetnxWrite : List (Bytes × Bytes) → Handler Reply
  | [] => pure (.int 1)
  | (key, value) :: pairs => do
    match ← writeKind .string key 0 value with
    | .oom => pure Failure.oom.reply
    | .ok => msetnxWrite pairs

/-- `MSETNX key value ...`. -/
def msetnx (pairs : List (Bytes × Bytes)) : Handler Reply := do
  match ← msetnxCheck (pairs.map Prod.fst) with
  | some reply => pure reply
  | none => msetnxWrite pairs

/-- `SETEX` and `PSETEX`, with the length of their time unit in nanoseconds. -/
def setWithTTL (name : String) (unit : Int64) (key : Bytes) (n : Int64) (value : Bytes) :
    Handler Reply := do
  if n ≤ 0 then pure (.error ("ERR invalid expire time in '" ++ name ++ "' command"))
  else do
    let now ← Kv.now
    let r ← writeKind .string key (now + n * unit) value
    pure (granted .ok r)

/-- `SETEX key seconds value`. -/
def setex (key : Bytes) (n : Int64) (value : Bytes) : Handler Reply :=
  setWithTTL "setex" 1000000000 key n value

/-- `PSETEX key milliseconds value`. -/
def psetex (key : Bytes) (n : Int64) (value : Bytes) : Handler Reply :=
  setWithTTL "psetex" 1000000 key n value

/-- `MSET key value ...`. -/
def mset (pairs : List (Bytes × Bytes)) : Handler Reply := do
  let r ← Kv.writeBatch (pairs.map fun e => Kind.string.batchOp e.1 (some (0, e.2)))
  pure (granted .ok r)

/-- Read typed values one after the other. -/
def readAll {β : Type} (kind : Kind) (dec : Bytes → Except Reply β) :
    List Bytes → List (Option β) → Handler (Except Reply (List (Option β)))
  | [], acc => pure (.ok acc.reverse)
  | key :: keys, acc => do
    match ← readKind kind key with
    | .error f => pure (.error f.reply)
    | .ok none => readAll kind dec keys (none :: acc)
    | .ok (some e) =>
      match dec e.payload with
      | .error reply => pure (.error reply)
      | .ok b => readAll kind dec keys (some b :: acc)

/-- Write a set or a sorted set; an empty one, `none`, removes the record. -/
def storeResult (kind : Kind) (dst : Bytes) : Option Bytes → Int64 → Handler Reply
  | none, n => do
    Kv.delete (rawKey kind.pre dst)
    pure (.int n)
  | some payload, n => do
    let r ← writeKind kind dst 0 payload
    pure (granted (.int n) r)

/-- `SINTERSTORE`, `SUNIONSTORE` and `SDIFFSTORE`: what is found under the destination does not
matter, also when it is of another type. -/
def storeSetOp {β : Type} (dst : Bytes) (keys : List Bytes) (dec : Bytes → Except Reply β)
    (op : List (Option β) → Option Bytes × Int64) : Handler Reply := do
  match ← readAll .set dec keys [] with
  | .error reply => pure reply
  | .ok sets => do
    let _ ← lookupRaw dst
    storeResult .set dst (op sets).1 (op sets).2

/-- `GEOSEARCHSTORE` and `GEORADIUS ... STORE`: the hits of a search in one sorted set are
written to another, which is not looked at. -/
def storeSearch (dst src : Bytes)
    (search : Option Bytes → Except Reply (Option Bytes × Int64)) : Handler Reply := do
  match ← readKind .zset src with
  | .error f => pure f.reply
  | .ok old =>
    match search (old.map Entry.payload) with
    | .error reply => pure reply
    | .ok (payload, hits) => storeResult .zset dst payload hits

/-- The raw key of a function library, which no user key has. -/
def fnKey (name : Bytes) : Bytes := ascii ['f', 'n', ':'] ++ name

/-- `FUNCTION LOAD` keeps the code of a library. -/
def functionLoad (name code : Bytes) : Handler Reply := do
  let _ ← Kv.set (fnKey name) code
  pure (.bulk name)

/-- `FUNCTION DELETE`. -/
def functionDelete (name : Bytes) : Handler Reply := do
  Kv.delete (fnKey name)
  pure .ok

/-- `FUNCTION FLUSH`. -/
def functionFlush : Handler Reply := do
  let raws ← Kv.scan (fnKey [])
  deleteAll raws
  pure .ok

end Gedis.Commands
