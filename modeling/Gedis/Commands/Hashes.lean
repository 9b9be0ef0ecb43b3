import Gedis.Commands.Lookup

/-!
# Hash commands

A hash is one record; the deadlines of its fields are a second record under the same user
key, in the namespace of streams. Reading a hash drops the fields whose deadline has passed
and writes both records back. Arguments are taken as already parsed.
-/

namespace Gedis.Commands

open Gedis.Core Datastruct Storage

/-- The field deadlines of a hash, empty when there are none or they cannot be read. The type
tag of the record is not looked at. -/
def readFieldExp (key : Bytes) : Handler Fields := do
  match ← Kv.get (hashExpKey key) with
  | none => pure ∅
  | some raw =>
    match decode raw with
    | none => pure ∅
    | some e =>
      match decodeHash e.payload with
      | .error _ => pure ∅
      | .ok (exp, _) => pure exp

/-- Write the field deadlines, or remove the record when there are none. -/
def writeFieldExp (key : Bytes) (exp : Fields) : Handler Outcome := do
  if exp.isEmpty then do
    Kv.delete (hashExpKey key)
    pure .ok
  else Kv.set (hashExpKey key) (encode typeHash 0 (encodeHash exp))

/-- Write the fields of a hash. -/
def writeHash (key : Bytes) (m : Fields) (expiry : Int64) : Handler Outcome :=
  Kv.set (hashKey key) (encode typeHash expiry (encodeHash m))

/-- Remove several fields. -/
def eraseAll (m : Fields) (fields : List Bytes) : Fields := fields.foldl (fun m f => m.erase f) m

/-- The fields whose deadline cannot be read or has passed. -/
def staleFields (exp : Fields) (now : Int64) : List Bytes :=
  (exp.toList.filter fun e => (parseInt e.2).elim true fun t => t ≤ now).map Prod.fst

/-- Read a hash with its deadline, dropping the fields whose own deadline has passed. -/
def readHash (key : Bytes) : Handler (Except Failure (Option (Fields × Int64))) := do
  match ← lookupRaw key with
  | .missing => pure (.ok none)
  | .failed f => pure (.error f)
  | .record _ e =>
    if e.typ ≠ typeHash then pure (.error .wrongType)
    else
      match decodeHash e.payload with
      | .error err => pure (.error (.hash err))
      | .ok (m, _) => do
        let exp ← readFieldExp key
        if exp.isEmpty then pure (.ok (some (m, e.expiry)))
        else do
          let now ← Kv.now
          let stale := staleFields exp now
          if stale = [] then pure (.ok (some (m, e.expiry)))
          else do
            match ← writeHash key (eraseAll m stale) e.expiry with
            | .oom => pure (.error .oom)
            | .ok =>
              match ← writeFieldExp key (eraseAll exp stale) with
              | .oom => pure (.error .oom)
              | .ok => pure (.ok (some (eraseAll m stale, e.expiry)))

/-- A command that computes new fields and a reply from the old ones; a missing hash is empty. -/
def updateHash (key : Bytes) (f : Fields → Except Reply (Fields × Reply)) : Handler Reply := do
  match ← readHash key with
  | .error err => pure err.reply
  | .ok old =>
    let (m, expiry) := old.getD (∅, 0)
    match f m with
    | .error reply => pure reply
    | .ok (m', reply) =>
      match ← writeHash key m' expiry with
      | .oom => pure Failure.oom.reply
      | .ok => pure reply

/-- One pair of `HSET`, with the number of new fields so far. -/
def hsetPair (acc : Fields × Int64) (e : Bytes × Bytes) : Fields × Int64 :=
  (acc.1.insert e.1 e.2, if e.1 ∈ acc.1 then acc.2 else acc.2 + 1)

/-- `HSET key field value ...`: the reply counts the new fields. -/
def hset (key : Bytes) (pairs : List (Bytes × Bytes)) : Handler Reply :=
  updateHash key fun m =>
    let r := pairs.foldl hsetPair (m, 0)
    .ok (r.1, .int r.2)

/-- `HMSET key field value ...`. -/
def hmset (key : Bytes) (pairs : List (Bytes × Bytes)) : Handler Reply :=
  updateHash key fun m => .ok (pairs.foldl (fun m e => m.insert e.1 e.2) m, .ok)

/-- `HSETNX key field value`: nothing is written when the field exists. -/
def hsetnx (key field value : Bytes) : Handler Reply :=
  updateHash key fun m =>
    if field ∈ m then .error (.int 0) else .ok (m.insert field value, .int 1)

/-- `HINCRBY key field delta`. -/
def hincrby (key field : Bytes) (delta : Int64) : Handler Reply :=
  updateHash key fun m =>
    match m[field]?.elim (some 0) parseInt with
    | none => .error (.error "ERR hash value is not an integer")
    | some cur =>
      if (0 < delta ∧ 9223372036854775807 - delta < cur) ∨
          (delta < 0 ∧ cur < -9223372036854775808 - delta) then
        .error (.error "ERR increment or decrement would overflow")
      else .ok (m.insert field (formatInt (cur + delta)), .int (cur + delta))

/-- `HINCRBYFLOAT key field delta`, with the decimal floating-point sum as a parameter. -/
def hincrbyfloat (key field : Bytes) (add : Option Bytes → Option Bytes) : Handler Reply :=
  updateHash key fun m =>
    match add m[field]? with
    | none => .error (.error "ERR hash value is not a valid float")
    | some out => .ok (m.insert field out, .bulk out)

/-- `HDEL key field ...`. The record goes when its last field goes; otherwise it is written
back, and so are the field deadlines when one of them went. -/
def hdel (key : Bytes) (fields : List Bytes) : Handler Reply := do
  match ← readHash key with
  | .error err => pure err.reply
  | .ok none => pure (.int 0)
  | .ok (some (m, expiry)) => do
    let exp ← readFieldExp key
    let deleted := m.size - (eraseAll m fields).size
    let reply : Reply := .int (Int64.ofNat deleted)
    let finish : Handler Reply := do
      if fields.any (· ∈ exp) then do
        match ← writeFieldExp key (eraseAll exp fields) with
        | .oom => pure Failure.oom.reply
        | .ok => pure reply
      else pure reply
    if (eraseAll m fields).isEmpty ∧ 0 < deleted then do
      Kv.delete (hashKey key)
      finish
    else do
      match ← writeHash key (eraseAll m fields) expiry with
      | .oom => pure Failure.oom.reply
      | .ok => finish

/-- How a time argument is read. -/
inductive ExpireKind where
  | relativeSec | relativeMs | absoluteSec | absoluteMs
  deriving DecidableEq, Repr

/-- The deadline of a time argument; 64-bit arithmetic wraps around. -/
def ExpireKind.deadline (kind : ExpireKind) (n now : Int64) : Int64 :=
  match kind with
  | .relativeSec => now + n * 1000000000
  | .relativeMs => now + n * 1000000
  | .absoluteSec => n * 1000000000
  | .absoluteMs => n * 1000000

/-- The deadline is counted from the current time. -/
def ExpireKind.relative : ExpireKind → Bool
  | .relativeSec | .relativeMs => true
  | .absoluteSec | .absoluteMs => false

/-- Compute a deadline; the clock is read only where the deadline depends on it. -/
def readDeadline (kind : ExpireKind) (n : Int64) : Handler Int64 := do
  if kind.relative then do
    let now ← Kv.now
    pure (kind.deadline n now)
  else pure (kind.deadline n 0)

/-- The condition of an expiry command. -/
inductive ExpireCond where
  | none | nx | xx | gt | lt
  deriving DecidableEq, Repr

/-- The condition of `HEXPIRE` on the current deadline of a field. -/
def ExpireCond.applies (cond : ExpireCond) (cur : Option Int64) (exp : Int64) : Bool :=
  match cond with
  | .none => true
  | .nx => cur.isNone
  | .xx => cur.isSome
  | .gt => cur.elim false fun c => c < exp
  | .lt => cur.elim true fun c => exp < c

/-- The hash, its deadlines, what changed and the replies while `HEXPIRE` runs over its fields. -/
structure HexpireState where
  m : Fields
  sidecar : Fields
  dirtyMain : Bool
  dirtyExp : Bool
  out : List Int64

/-- One field of `HEXPIRE`: a deadline that has passed removes the field. -/
def hexpireField (cond : ExpireCond) (exp now : Int64) (s : HexpireState) (f : Bytes) :
    HexpireState :=
  if f ∉ s.m then { s with out := s.out ++ [-2] }
  -- deadlines are written in decimal, so they are always read back
  else if !cond.applies (s.sidecar[f]?.map fun ts => (parseInt ts).getD 0) exp then
    { s with out := s.out ++ [0] }
  else if exp ≤ now then
    ⟨s.m.erase f, s.sidecar.erase f, true, true, s.out ++ [1]⟩
  else { s with sidecar := s.sidecar.insert f (formatInt exp), dirtyExp := true, out := s.out ++ [1] }

/-- `HEXPIRE`, `HPEXPIRE`, `HEXPIREAT` and `HPEXPIREAT`. -/
def hexpire (kind : ExpireKind) (key : Bytes) (n : Int64) (cond : ExpireCond)
    (fields : List Bytes) : Handler Reply := do
  let exp ← readDeadline kind n
  match ← readHash key with
  | .error err => pure err.reply
  | .ok none => pure (.ints (fields.map fun _ => -2))
  | .ok (some (m, expiry)) => do
    let sidecar ← readFieldExp key
    let now ← Kv.now
    let s := fields.foldl (hexpireField cond exp now) ⟨m, sidecar, false, false, []⟩
    let finish : Handler Reply := do
      if s.dirtyExp then do
        match ← writeFieldExp key s.sidecar with
        | .oom => pure Failure.oom.reply
        | .ok => pure (.ints s.out)
      else pure (.ints s.out)
    if s.dirtyMain then do
      match ← writeHash key s.m expiry with
      | .oom => pure Failure.oom.reply
      | .ok => finish
    else finish

/-- One field of `HPERSIST`. -/
def hpersistField (m : Fields) (acc : Fields × List Int64) (f : Bytes) : Fields × List Int64 :=
  if f ∉ m then (acc.1, acc.2 ++ [-2])
  else if f ∉ acc.1 then (acc.1, acc.2 ++ [-1])
  else (acc.1.erase f, acc.2 ++ [1])

/-- `HPERSIST key FIELDS n field ...`. -/
def hpersist (key : Bytes) (fields : List Bytes) : Handler Reply := do
  match ← readHash key with
  | .error err => pure err.reply
  | .ok none => pure (.ints (fields.map fun _ => -2))
  | .ok (some (m, _)) => do
    let sidecar ← readFieldExp key
    let r := fields.foldl (hpersistField m) (sidecar, [])
    if fields.any fun f => f ∈ m ∧ f ∈ sidecar then do
      match ← writeFieldExp key r.1 with
      | .oom => pure Failure.oom.reply
      | .ok => pure (.ints r.2)
    else pure (.ints r.2)

end Gedis.Commands
