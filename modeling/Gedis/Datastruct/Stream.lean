import Gedis.Datastruct.Containers

/-!
# Stream payloads

A stream has entries, the last and the greatest deleted ID, a counter of added entries and consumer
groups, each with consumers and pending entries. The payload lists all of it with counts and lengths.
-/

namespace Gedis.Datastruct

open Gedis.Core

structure StreamID where
  ms : UInt64
  seq : UInt64
  deriving DecidableEq, Repr

/-- An entry; fields and values alternate. -/
structure StreamEntry where
  id : StreamID
  fields : List Bytes
  even : fields.length % 2 = 0
  deriving DecidableEq, Repr

/-- A pending entry of a group. -/
structure StreamPEL where
  id : StreamID
  consumer : Bytes
  deliveryMs : UInt64
  count : UInt64
  deriving DecidableEq, Repr

structure StreamConsumer where
  name : Bytes
  seenMs : UInt64
  activeMs : UInt64
  hasActive : Bool
  deriving DecidableEq, Repr

structure StreamGroup where
  name : Bytes
  lastID : StreamID
  entriesRead : UInt64
  hasRead : Bool
  consumers : List StreamConsumer
  pel : List StreamPEL
  deriving DecidableEq, Repr

structure Stream where
  entries : List StreamEntry
  last : StreamID
  hasLast : Bool
  added : UInt64
  maxDeleted : StreamID
  groups : List StreamGroup
  deriving DecidableEq, Repr

def putUint (n : UInt64) : Bytes := appendUvarint n.toNat

def putBool (b : Bool) : Bytes := appendUvarint (if b then 1 else 0)

def putID (id : StreamID) : Bytes := putUint id.ms ++ putUint id.seq

/-- A count and the elements. -/
def putAll {α : Type} (put : α → Bytes) (xs : List α) : Bytes :=
  appendUvarint xs.length ++ xs.flatMap put

def putEntry (e : StreamEntry) : Bytes := putID e.id ++ putAll prefixed e.fields

def putConsumer (c : StreamConsumer) : Bytes :=
  prefixed c.name ++ putUint c.seenMs ++ putBool c.hasActive ++ putUint c.activeMs

def putPEL (p : StreamPEL) : Bytes :=
  putID p.id ++ prefixed p.consumer ++ putUint p.deliveryMs ++ putUint p.count

def putGroup (g : StreamGroup) : Bytes :=
  prefixed g.name ++ putID g.lastID ++ putBool g.hasRead ++ putUint g.entriesRead ++
    putAll putConsumer g.consumers ++ putAll putPEL g.pel

def encodeStream (s : Stream) : Bytes :=
  putAll putEntry s.entries ++ putID s.last ++ putBool s.hasLast ++ putUint s.added ++
    putID s.maxDeleted ++ putAll putGroup s.groups

/-- A number and what follows it. -/
def readUvarint (b : Bytes) : Decoder (UInt64 × Bytes) :=
  match uvarint b with
  | none => .fail .badStream
  | some (n, adv) => pure (UInt64.ofNat n, b.drop adv)

/-- A number; an unreadable one counts as zero and takes no input. -/
def readUvarintOrZero (b : Bytes) : Decoder (UInt64 × Bytes) :=
  match uvarint b with
  | none => pure (0, b)
  | some (n, adv) => pure (UInt64.ofNat n, b.drop adv)

def readStreamStr (b : Bytes) : Decoder (Bytes × Bytes) := do
  match ← readStr b with
  | none => .fail .badStream
  | some (text, rest) => pure (text, rest)

def readBool (b : Bytes) : Decoder (Bool × Bytes) := do
  let (n, rest) ← readUvarint b
  pure (n ≠ 0, rest)

def readID (b : Bytes) : Decoder (StreamID × Bytes) := do
  let (ms, rest) ← readUvarint b
  let (seq, rest) ← readUvarint rest
  pure (⟨ms, seq⟩, rest)

/-- One more element for a slice of elements of a width. -/
def appendBody {α : Type} (width : Nat) (read : Bytes → Decoder (α × Bytes)) (i : Nat)
    (s : List α × Bytes) : Decoder (List α × Bytes) := do
  let (x, rest) ← read s.2
  .grow width i
  pure (s.1 ++ [x], rest)

/-- A count and the elements, appended one by one. -/
def readAll {α : Type} (width : Nat) (read : Bytes → Decoder (α × Bytes)) (b : Bytes) :
    Decoder (List α × Bytes) := do
  let (n, rest) ← readUvarint b
  Meter.loop (appendBody width read) 0 n.toNat ([], rest)

def readEntry (b : Bytes) : Decoder (StreamEntry × Bytes) := do
  let (id, rest) ← readID b
  let (fields, rest) ← readAll 16 readStreamStr rest
  if h : fields.length % 2 = 0 then pure (⟨id, fields, h⟩, rest) else .fail .badStream

def readConsumer (b : Bytes) : Decoder (StreamConsumer × Bytes) := do
  let (name, rest) ← readStreamStr b
  let (seenMs, rest) ← readUvarint rest
  let (hasActive, rest) ← readBool rest
  let (activeMs, rest) ← readUvarint rest
  pure (⟨name, seenMs, activeMs, hasActive⟩, rest)

def readPEL (b : Bytes) : Decoder (StreamPEL × Bytes) := do
  let (id, rest) ← readID b
  let (consumer, rest) ← readStreamStr rest
  let (deliveryMs, rest) ← readUvarint rest
  let (count, rest) ← readUvarint rest
  pure (⟨id, consumer, deliveryMs, count⟩, rest)

def readGroup (b : Bytes) : Decoder (StreamGroup × Bytes) := do
  let (name, rest) ← readStreamStr b
  let (lastID, rest) ← readID rest
  let (hasRead, rest) ← readBool rest
  let (entriesRead, rest) ← readUvarint rest
  let (consumers, rest) ← readAll 40 readConsumer rest
  let (pel, rest) ← readAll 8 readPEL rest
  pure (⟨name, lastID, entriesRead, hasRead, consumers, pel⟩, rest)

/-- The last ID is read without a check that it is there. -/
def decodeStream (raw : Bytes) : Decoder Stream := do
  let (entries, rest) ← readAll 40 readEntry raw
  let (ms, rest) ← readUvarintOrZero rest
  let (seq, rest) ← readUvarintOrZero rest
  let (hasLast, rest) ← readBool rest
  let (added, rest) ← readUvarint rest
  let (maxDeleted, rest) ← readID rest
  let (groups, _) ← readAll 8 readGroup rest
  pure ⟨entries, ⟨ms, seq⟩, hasLast, added, maxDeleted, groups⟩

/-- The container types. -/
inductive Container where
  | hash | list | set | zset | stream | vector | hll
  deriving DecidableEq, Repr

/-- What a container holds in memory. -/
inductive Content where
  | hash (m : Fields)
  | list (elems : List Bytes)
  | set (m : Members)
  | zset (z : Scores)
  | stream (s : Stream)
  | vector (m : Vectors)
  | hll (registers : Bytes)

def Content.container : Content → Container
  | .hash _ => .hash
  | .list _ => .list
  | .set _ => .set
  | .zset _ => .zset
  | .stream _ => .stream
  | .vector _ => .vector
  | .hll _ => .hll

/-- The encoder of each type. Maps are enumerated in the given order. -/
def encodeContent (order : List Nat) : Content → Except PayloadError Bytes
  | .hash m => .ok (encodeHash m)
  | .list elems => .ok (encodeList elems)
  | .set m => .ok (encodeSet (arrange order (m.toList.map (·.1))))
  | .zset z => .ok (encodeZSet order z)
  | .stream s => .ok (encodeStream s)
  | .vector m => encodeVector m
  | .hll registers => .ok (encodeHLL registers)

/-- The decoder of each type. -/
def decodeContent (maxAlloc : Nat) : Container → Bytes → Decoder Content
  | .hash, raw => do
    let (m, _) ← meterHash maxAlloc raw
    pure (.hash m)
  | .list, raw => do
    let elems ← decodeList maxAlloc raw
    pure (.list elems)
  | .set, raw => do
    let (m, _) ← decodeSet maxAlloc raw
    pure (.set m)
  | .zset, raw => do
    let (z, _) ← decodeZSet maxAlloc raw
    pure (.zset z)
  | .stream, raw => do
    let s ← decodeStream raw
    pure (.stream s)
  | .vector, raw => do
    let m ← decodeVector maxAlloc raw
    pure (.vector m)
  | .hll, raw => do
    let registers ← decodeHLL raw
    pure (.hll registers)

end Gedis.Datastruct
