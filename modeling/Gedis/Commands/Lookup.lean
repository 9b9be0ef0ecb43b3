import Gedis.Commands.UserKeys
import Gedis.Datastruct.Hash
import Gedis.Storage.Requests

/-!
# Finding the record of a user key

A user key is looked up by trying the type prefixes in order. The first record decides; when
it has expired, it and the field deadlines under the same user key are removed and the key
counts as missing. Typed reads then compare the type tag of the record.
-/

namespace Gedis.Commands

open Gedis.Core Datastruct Storage

/-- Replies of the modelled commands. -/
inductive Reply where
  /-- The null bulk string. -/
  | nil
  | bulk (b : Bytes)
  | int (n : Int64)
  | simple (text : String)
  | error (text : String)
  | ints (ns : List Int64)
  /-- The null array. -/
  | nilArray
  | bulks (bs : List Bytes)
  /-- A key and an array of what was taken from it. -/
  | popped (key : Bytes) (bs : List Bytes)
  /-- Numbers and null bulk strings. -/
  | optInts (ns : List (Option Int64))
  /-- Keys of streams with entries, each with its identifier. -/
  | streams (out : List (Bytes × List (Bytes × List Bytes)))
  /-- Entries of a stream, each with its identifier. -/
  | entries (es : List (Bytes × List Bytes))
  deriving DecidableEq, Repr

/-- The reply `OK`. -/
def Reply.ok : Reply := .simple "OK"

/-- Errors of the storage layer and of typed reads. -/
inductive Failure where
  | wrongType
  | notHll
  | notVector
  | truncatedEntry (length : Nat)
  | hash (e : HashError)
  | oom
  deriving DecidableEq, Repr

def Failure.message : Failure → String
  | .wrongType => "WRONGTYPE Operation against a key holding the wrong kind of value"
  | .notHll => "WRONGTYPE Key is not a valid HyperLogLog string value."
  | .notVector => "WRONGTYPE Key is not a valid vectorset value."
  | .truncatedEntry length => s!"datastruct: truncated entry {length} bytes"
  | .hash e => e.message
  | .oom => "OOM command not allowed when used memory > 'maxmemory'"

/-- The reply that reports an error. -/
def Failure.reply (f : Failure) : Reply := .error f.message

/-- What looking up a user key finds. -/
inductive Found where
  | missing
  | failed (f : Failure)
  | record (p : Prefix) (e : Entry)
  deriving DecidableEq, Repr

/-- The deadline has been reached at the given time. -/
def expired (e : Entry) (now : Int64) : Bool := e.expiry ≠ 0 && e.expiry ≤ now

/-- Try the given type prefixes in order. The clock is read only for a record with a deadline. -/
def lookupFrom (key : Bytes) : List Prefix → Handler Found
  | [] => pure .missing
  | p :: ps => do
    match ← Kv.get (rawKey p key) with
    | none => lookupFrom key ps
    | some value =>
      match decode value with
      | none => pure (.failed (.truncatedEntry value.length))
      | some e =>
        if e.expiry = 0 then pure (.record p e)
        else do
          let now ← Kv.now
          if e.expiry ≤ now then do
            Kv.delete (rawKey p key)
            Kv.delete (hashExpKey key)
            pure .missing
          else pure (.record p e)

/-- Look up a user key. -/
def lookupRaw (key : Bytes) : Handler Found := lookupFrom key typePrefixes

/-- The types whose value is a single record; hashes have a second one. -/
inductive Kind where
  | string | list | set | zset | hll | stream | vector
  deriving DecidableEq, Repr

/-- The type prefix of a kind. -/
def Kind.pre : Kind → Prefix
  | .string => .s
  | .list => .l
  | .set => .st
  | .zset => .z
  | .hll => .hll
  | .stream => .x
  | .vector => .vs

/-- The type tag of a kind. -/
def Kind.tag : Kind → UInt8
  | .string => typeString
  | .list => typeList
  | .set => typeSet
  | .zset => typeZSet
  | .hll => typeHLL
  | .stream => typeStream
  | .vector => typeVector

/-- The error for a record of another type. -/
def Kind.mismatch : Kind → Failure
  | .hll => .notHll
  | .vector => .notVector
  | _ => .wrongType

/-- Read a user key that must hold a given kind, if anything. -/
def readKind (kind : Kind) (key : Bytes) : Handler (Except Failure (Option Entry)) := do
  match ← lookupRaw key with
  | .missing => pure (.ok none)
  | .failed f => pure (.error f)
  | .record _ e => pure (if e.typ = kind.tag then .ok (some e) else .error kind.mismatch)

/-- Write the record of a user key. -/
def writeKind (kind : Kind) (key : Bytes) (expiry : Int64) (payload : Bytes) : Handler Outcome :=
  Kv.set (rawKey kind.pre key) (encode kind.tag expiry payload)

end Gedis.Commands
