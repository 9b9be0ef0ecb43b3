import Gedis.Commands.Typed

/-!
# Commands on keys of any type

Removing, expiring, copying, renaming, restoring and moving records, and the two passes over
the whole store. These handlers write raw keys that they compute from the type tag of a record
or take over from a lookup.
-/

namespace Gedis.Commands

open Gedis.Core Datastruct Storage

/-- Remove a raw key and, for a hash, the field deadlines of the user key. -/
def deleteByRaw (raw : Bytes) (e : Entry) (key : Bytes) : Handler Unit := do
  Kv.delete raw
  if e.typ = typeHash then Kv.delete (hashExpKey key) else pure ()

/-- `DEL` and `UNLINK`: keys that cannot be read are skipped. -/
def del : List Bytes → Int64 → Handler Reply
  | [], n => pure (.int n)
  | key :: keys, n => do
    match ← lookupRaw key with
    | .record p e => do
      deleteByRaw (rawKey p key) e key
      del keys (n + 1)
    | .missing => del keys n
    | .failed _ => del keys n

/-- The error of the store for a missing key. -/
def notFoundReply : Reply := .error "storage: key not found"

/-- A write that was granted is answered with a reply. -/
def granted (reply : Reply) : Outcome → Reply
  | .oom => Failure.oom.reply
  | .ok => reply

/-- The conditions of the `EXPIRE` family on the current deadline of a key, zero for none. -/
def ExpireCond.holds (cond : ExpireCond) (cur exp : Int64) : Bool :=
  match cond with
  | .none => true
  | .nx => cur = 0
  | .xx => cur ≠ 0
  | .gt => cur = 0 || cur < exp
  | .lt => cur ≠ 0 && exp < cur

/-- `EXPIRE`, `PEXPIRE`, `EXPIREAT` and `PEXPIREAT`. The key is looked up twice; a deadline that
has passed removes the record that was found, whatever the condition says. -/
def expire (kind : ExpireKind) (key : Bytes) (n : Int64) (cond : ExpireCond) : Handler Reply := do
  let exp ← readDeadline kind n
  match ← lookupRaw key with
  | .missing => pure (.int 0)
  | .failed f => pure f.reply
  | .record _ e => do
    match ← lookupRaw key with
    | .missing => pure notFoundReply
    | .failed f => pure f.reply
    | .record p _ => do
      let now ← Kv.now
      if exp ≤ now then do
        Kv.delete (rawKey p key)
        pure (.int 1)
      else if cond.holds e.expiry exp then do
        let r ← Kv.set (rawKey p key) (encode e.typ exp e.payload)
        pure (granted (.int 1) r)
      else pure (.int 0)

/-- `PERSIST key`. -/
def persist (key : Bytes) : Handler Reply := do
  match ← lookupRaw key with
  | .missing => pure (.int 0)
  | .failed f => pure f.reply
  | .record _ e => do
    if e.expiry = 0 then pure (.int 0)
    else do
      match ← lookupRaw key with
      | .missing => pure notFoundReply
      | .failed f => pure f.reply
      | .record p _ => do
        let r ← Kv.set (rawKey p key) (encode e.typ 0 e.payload)
        pure (granted (.int 1) r)

/-- The prefix that belongs to a type tag; sketches and streams are missing from the table. -/
def prefixForType (t : UInt8) : Option Prefix :=
  if t = typeString then some .s
  else if t = typeHash then some .h
  else if t = typeList then some .l
  else if t = typeSet then some .st
  else if t = typeZSet then some .z
  else if t = typeVector then some .vs
  else none

/-- The raw key under the prefix of a type tag, without a prefix when the table has none. -/
def rawFor (t : UInt8) (key : Bytes) : Bytes := (prefixForType t).elim key fun p => rawKey p key

/-- The writes of `COPY`: the record and, for a hash, its field deadlines. -/
def copyWrite (src dst : Bytes) (se : Entry) (p : Prefix) (val : Bytes) : Handler Reply := do
  match ← Kv.set (rawKey p dst) val with
  | .oom => pure Failure.oom.reply
  | .ok =>
    if se.typ = typeHash then do
      match ← Kv.get (hashExpKey src) with
      | none => pure (.int 1)
      | some expRaw => do
        let _ ← Kv.set (hashExpKey dst) expRaw
        pure (.int 1)
    else pure (.int 1)

/-- The part of `COPY` behind its checks. What is replaced is removed under the prefix that
`prefixForType` gives for its type. -/
def copyRecord (src dst : Bytes) (se : Entry) : Handler Reply := do
  match ← Kv.get (rawFor se.typ src) with
  | none => pure (.int 0)
  | some val =>
    match prefixForType se.typ with
    | none => pure (.error "ERR unknown source type")
    | some p => do
      match ← lookupRaw dst with
      | .record _ de => do
        deleteByRaw (rawFor de.typ dst) de dst
        copyWrite src dst se p val
      | .missing => copyWrite src dst se p val
      | .failed f => pure f.reply

/-- `COPY src dst [REPLACE]`. -/
def copy (src dst : Bytes) (replace : Bool) : Handler Reply := do
  if src = dst then pure (.error "ERR source and destination objects are the same")
  else do
    match ← lookupRaw src with
    | .missing => pure (.int 0)
    | .failed f => pure f.reply
    | .record _ se => do
      match ← lookupRaw dst with
      | .record _ _ => if replace then copyRecord src dst se else pure (.int 0)
      | .missing => copyRecord src dst se
      | .failed f => pure f.reply

/-- The part of `RENAME` behind its checks. The field deadlines of a hash are read after they
were removed. -/
def moveRecord (src dst : Bytes) (sp : Prefix) (se : Entry) (reply : Reply) : Handler Reply := do
  match ← Kv.get (rawKey sp src) with
  | none => pure (.error "ERR no such key")
  | some val =>
    match prefixForType se.typ with
    | none => pure (.error "ERR unknown source type")
    | some p => do
      match ← Kv.set (rawKey p dst) val with
      | .oom => pure Failure.oom.reply
      | .ok => do
        deleteByRaw (rawKey sp src) se src
        if se.typ = typeHash then do
          match ← Kv.get (hashExpKey src) with
          | none => pure reply
          | some expRaw => do
            let _ ← Kv.set (hashExpKey dst) expRaw
            Kv.delete (hashExpKey src)
            pure reply
        else pure reply

/-- `RENAME` and `RENAMENX`. -/
def rename (src dst : Bytes) (nx : Bool) : Handler Reply := do
  if src = dst then do
    if nx then pure (.int 0)
    else do
      match ← lookupRaw src with
      | .missing => pure (.error "ERR no such key")
      | .failed f => pure f.reply
      | .record _ _ => pure .ok
  else do
    let reply : Reply := if nx then .int 1 else .ok
    match ← lookupRaw src with
    | .missing => pure (.error "ERR no such key")
    | .failed f => pure f.reply
    | .record sp se => do
      match ← lookupRaw dst with
      | .record dp de => do
        if nx then pure (.int 0)
        else do
          deleteByRaw (rawKey dp dst) de dst
          moveRecord src dst sp se reply
      | .missing => moveRecord src dst sp se reply
      | .failed f => pure f.reply

/-- The prefix under which `RESTORE` writes a type tag. -/
def restorePrefix (t : UInt8) : Option Prefix :=
  match prefixForType t with
  | some p => some p
  | none =>
    if t = typeHLL then some .hll
    else if t = typeStream then some .x
    else none

/-- The deadline of a restored key; a time of zero means none. -/
def restoreDeadline (ttl : Int64) (absttl : Bool) : Handler Int64 := do
  if ttl = 0 then pure 0
  else if absttl then pure (ttl * 1000000)
  else do
    let now ← Kv.now
    pure (now + ttl * 1000000)

/-- The write of `RESTORE`. -/
def restoreWrite (key : Bytes) (p : Prefix) (e : Entry) (ttl : Int64) (absttl : Bool) :
    Handler Reply := do
  let expiry ← restoreDeadline ttl absttl
  let r ← Kv.set (rawKey p key) (encode e.typ expiry e.payload)
  pure (granted .ok r)

/-- `RESTORE key ttl payload [REPLACE] [ABSTTL]`. What is replaced is removed under the prefix
that `prefixForType` gives for its type. -/
def restore (key : Bytes) (ttl : Int64) (payload : Bytes) (replace absttl : Bool) :
    Handler Reply := do
  let bad : Reply := .error "ERR DUMP payload version or checksum are wrong"
  match decode payload with
  | none => pure bad
  | some e =>
    match restorePrefix e.typ with
    | none => pure bad
    | some p => do
      match ← lookupRaw key with
      | .missing => restoreWrite key p e ttl absttl
      | .failed f => pure f.reply
      | .record _ _ => do
        if replace then do
          match ← lookupRaw key with
          | .record _ de => do
            deleteByRaw (rawFor de.typ key) de key
            restoreWrite key p e ttl absttl
          | .missing => restoreWrite key p e ttl absttl
          | .failed _ => restoreWrite key p e ttl absttl
        else pure (.error "BUSYKEY Target key name already exists.")

/-- The end of `MIGRATE`, once the transfer has reported an error or none. Only the record
itself is removed. -/
def migrateSent (raw : Bytes) (copy : Bool) : Option String → Handler Reply
  | some text => pure (.error text)
  | none => do
    if copy then pure .ok
    else do
      Kv.delete raw
      pure .ok

/-- `MIGRATE`: the record is sent as the payload of a `RESTORE` with its remaining time to live;
`send` is what the transfer reports. -/
def migrate (key : Bytes) (copy : Bool) (send : Bytes → Int64 → Option String) :
    Handler Reply := do
  match ← lookupRaw key with
  | .missing => pure (.simple "NOKEY")
  | .failed f => pure f.reply
  | .record p e => do
    let payload := encode e.typ e.expiry e.payload
    if e.expiry = 0 then migrateSent (rawKey p key) copy (send payload 0)
    else do
      let now ← Kv.now
      migrateSent (rawKey p key) copy (send payload (max 0 ((e.expiry - now) / 1000000)))

/-- Enumerate the user keys by one scan per type prefix. -/
def scanUserKeys : List Prefix → List (Bytes × Bytes) → Handler (List (Bytes × Bytes))
  | [], found => pure found
  | p :: ps, found => do
    let raws ← Kv.scan p.bytes
    scanUserKeys ps (raws.foldl addRaw found)

/-- Remove raw keys one after the other. -/
def deleteAll : List Bytes → Handler Unit
  | [] => pure ()
  | raw :: raws => do
    Kv.delete raw
    deleteAll raws

/-- `FLUSHALL` and `FLUSHDB`: the first record of every user key is removed. -/
def flush : Handler Reply := do
  let keys ← scanUserKeys typePrefixes []
  deleteAll (keys.map Prod.snd)
  pure .ok

/-- Remove the records whose deadline has passed; the result counts them. A record that cannot
be decoded ends the pass. -/
def sweepRaws (now : Int64) : List Bytes → Int64 → Handler (Except Failure Int64)
  | [], n => pure (.ok n)
  | raw :: raws, n => do
    match ← Kv.get raw with
    | none => sweepRaws now raws n
    | some value =>
      match decode value with
      | none => pure (.error (.truncatedEntry value.length))
      | some e =>
        if e.expiry = 0 ∨ now < e.expiry then sweepRaws now raws n
        else do
          Kv.delete raw
          sweepRaws now raws (n + 1)

/-- One expiry sweep: the first record of every user key is checked against one clock reading. -/
def sweepOnce : Handler (Except Failure Int64) := do
  let keys ← scanUserKeys typePrefixes []
  let now ← Kv.now
  sweepRaws now (keys.map Prod.snd) 0

end Gedis.Commands
