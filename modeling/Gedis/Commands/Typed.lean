import Gedis.Commands.Hashes

/-!
# Commands that check before they write

Most commands work on records of one kind. They write a user key only after they have looked
it up and found that kind or nothing. A session is such a program: the keys that may be
written are an index of its type, so an unchecked write cannot be expressed.
-/

namespace Gedis.Commands

open Gedis.Core Datastruct Storage

/-- A program on records of one kind; `seen` are the keys found to hold the kind, if anything. -/
inductive Session (kind : Kind) (α : Type) : List Bytes → Type where
  | done {seen : List Bytes} (a : α) : Session kind α seen
  | now {seen : List Bytes} (next : Int64 → Session kind α seen) : Session kind α seen
  /-- Look up a key of any type. -/
  | look {seen : List Bytes} (key : Bytes) (next : Found → Session kind α seen) :
      Session kind α seen
  /-- Read a key that must hold the kind, if anything. -/
  | load {seen : List Bytes} (key : Bytes) (failed : Failure → Session kind α seen)
      (next : Option Entry → Session kind α (key :: seen)) : Session kind α seen
  /-- Write a checked key. -/
  | store {seen : List Bytes} (key : Bytes) (h : key ∈ seen) (expiry : Int64) (payload : Bytes)
      (next : Outcome → Session kind α seen) : Session kind α seen
  /-- Write or remove a checked key by a batch of one operation. -/
  | commit {seen : List Bytes} (key : Bytes) (h : key ∈ seen) (value : Option (Int64 × Bytes))
      (next : Outcome → Session kind α seen) : Session kind α seen
  /-- Remove the record of the kind; this needs no check. -/
  | drop {seen : List Bytes} (key : Bytes) (next : Session kind α seen) : Session kind α seen

/-- The batch operation that writes or removes a record of a kind. -/
def Kind.batchOp (kind : Kind) (key : Bytes) : Option (Int64 × Bytes) → BatchOp
  | some (expiry, payload) => ⟨rawKey kind.pre key, encode kind.tag expiry payload, false⟩
  | none => ⟨rawKey kind.pre key, [], true⟩

/-- The requests of a session. -/
def Session.handler {kind : Kind} {α : Type} {seen : List Bytes} : Session kind α seen → Handler α
  | done a => pure a
  | now next => do
    let t ← Kv.now
    (next t).handler
  | look key next => do
    let found ← lookupRaw key
    (next found).handler
  | load key failed next => do
    match ← readKind kind key with
    | .error f => (failed f).handler
    | .ok old => (next old).handler
  | store key _ expiry payload next => do
    let r ← writeKind kind key expiry payload
    (next r).handler
  | commit key _ value next => do
    let r ← Kv.writeBatch [kind.batchOp key value]
    (next r).handler
  | drop key next => do
    Kv.delete (rawKey kind.pre key)
    next.handler

namespace Session

variable {kind : Kind} {α β : Type} {seen : List Bytes}

/-- Continue with a reply unless the write was refused. -/
def orOom (next : Session kind Reply seen) : Outcome → Session kind Reply seen
  | .oom => .done Failure.oom.reply
  | .ok => next

/-- Look up keys one after the other and decode what they hold. -/
def gather (dec : Entry → Except Reply β) (next : List (Option β) → Session kind Reply seen) :
    List (Option β) → List Bytes → Session kind Reply seen
  | acc, [] => next acc.reverse
  | acc, key :: keys => .look key fun
    | .missing => gather dec next (none :: acc) keys
    | .failed f => .done f.reply
    | .record _ e =>
      match dec e with
      | .error reply => .done reply
      | .ok b => gather dec next (some b :: acc) keys

end Session

/-- What a command on one key does after reading it. -/
inductive Update where
  | keep (reply : Reply)
  | write (expiry : Int64) (payload : Bytes) (reply : Reply)
  | remove (reply : Reply)

/-- Read a key, then write it, remove it or leave it alone. -/
def modify (kind : Kind) (key : Bytes) (f : Option Entry → Update) : Session kind Reply [] :=
  .load key (fun err => .done err.reply) fun old =>
    match f old with
    | .keep reply => .done reply
    | .write expiry payload reply =>
      .store key (List.mem_cons_self ..) expiry payload (Session.orOom (.done reply))
    | .remove reply => .drop key (.done reply)

/-- The parsed options of `SET`. -/
structure SetOptions where
  expiry : Int64
  keepTTL : Bool
  nx : Bool
  xx : Bool
  get : Bool
  deriving DecidableEq, Repr

/-- The payload of an old value as a reply. -/
def oldValue (old : Option Entry) : Reply := old.elim .nil fun e => .bulk e.payload

/-- The deadline of an old value, none when there was none. -/
def oldExpiry (old : Option Entry) : Int64 := old.elim 0 Entry.expiry

/-- `SET key value [NX | XX] [GET] [EX n | ... | KEEPTTL]`. -/
def set (key value : Bytes) (opt : SetOptions) : Session .string Reply [] :=
  modify .string key fun old =>
    if opt.nx ∧ old.isSome then .keep .nil
    else if opt.xx ∧ old.isNone then .keep .nil
    else
      let expiry := if opt.keepTTL ∧ old.isSome then oldExpiry old else opt.expiry
      .write expiry value (if opt.get then oldValue old else .ok)

/-- `GETSET key value`. -/
def getset (key value : Bytes) : Session .string Reply [] :=
  modify .string key fun old => .write 0 value (oldValue old)

/-- `SETNX key value`: a key of any type counts as present. -/
def setnx (key value : Bytes) : Session .string Reply [] :=
  .load key (fun err => .done (if err = .wrongType then .int 0 else err.reply)) fun old =>
    if old.isSome then .done (.int 0)
    else .store key (List.mem_cons_self ..) 0 value (Session.orOom (.done (.int 1)))

/-- `GETDEL key`. -/
def getdel (key : Bytes) : Session .string Reply [] :=
  modify .string key fun old => if old.isSome then .remove (oldValue old) else .keep .nil

/-- The option of `GETEX`. -/
inductive GetexOption where
  | none
  | persist
  | expire (kind : ExpireKind) (n : Int64)
  deriving DecidableEq, Repr

/-- `GETEX key [PERSIST | EX n | ...]`. The option is parsed after the value was read. -/
def getex (key : Bytes) (opt : GetexOption) : Session .string Reply [] :=
  .load key (fun err => .done err.reply) fun old =>
    match old with
    | none => .done .nil
    | some e =>
      let finish (expiry : Int64) : Session .string Reply [key] :=
        if expiry = e.expiry then .done (.bulk e.payload)
        else .store key (List.mem_cons_self ..) expiry e.payload
          (Session.orOom (.done (.bulk e.payload)))
      match opt with
      | .none => finish e.expiry
      | .persist => finish 0
      | .expire kind n =>
        if kind.relative ∧ n ≤ 0 then
          .done (.error "ERR invalid expire time in 'set' command")
        else if kind.relative then .now fun now => finish (kind.deadline n now)
        else finish (kind.deadline n 0)

/-- `INCR`, `DECR`, `INCRBY` and `DECRBY`. -/
def incrBy (key : Bytes) (delta : Int64) : Session .string Reply [] :=
  modify .string key fun old =>
    match old.elim (some 0) fun e => parseInt e.payload with
    | none => .keep (.error "ERR value is not an integer or out of range")
    | some cur =>
      if (0 < delta ∧ 9223372036854775807 - delta < cur) ∨
          (delta < 0 ∧ cur < -9223372036854775808 - delta) then
        .keep (.error "ERR increment or decrement would overflow")
      else .write (oldExpiry old) (formatInt (cur + delta)) (.int (cur + delta))

/-- `INCRBYFLOAT key delta`, with the decimal floating-point sum as a parameter. -/
def incrbyfloat (key : Bytes) (add : Option Bytes → Option Bytes) : Session .string Reply [] :=
  modify .string key fun old =>
    match add (old.map Entry.payload) with
    | none => .keep (.error "ERR value is not a valid float")
    | some out => .write (oldExpiry old) out (.bulk out)

/-- `APPEND key value`. -/
def append (key value : Bytes) : Session .string Reply [] :=
  modify .string key fun old =>
    let out := old.elim [] Entry.payload ++ value
    .write (oldExpiry old) out (.int (Int64.ofNat out.length))

/-- `LMOVE` and its relatives: `pop` takes an element off a payload and returns what is left,
`none` for an empty list; `push` adds one to a payload. -/
def moveCore (src dst : Bytes) (pop : Bytes → Except Reply (Option (Bytes × Option Bytes)))
    (push : Option Bytes → Bytes → Except Reply Bytes) : Session .list Reply [] :=
  .load src (fun err => .done err.reply) fun
    | none => .done .nil
    | some srcEntry =>
      match pop srcEntry.payload with
      | .error reply => .done reply
      | .ok none => .done .nil
      | .ok (some (elem, rest)) =>
        .load dst (fun err => .done err.reply) fun old =>
          match push (old.map Entry.payload) elem with
          | .error reply => .done reply
          | .ok payload =>
            if src = dst then
              .store dst (List.mem_cons_self ..) srcEntry.expiry payload
                (Session.orOom (.done (.bulk elem)))
            else
              .store dst (List.mem_cons_self ..) (oldExpiry old) payload
                (Session.orOom
                  (match rest with
                  | none => .drop src (.done (.bulk elem))
                  | some rest =>
                    .store src (List.mem_cons_of_mem _ (List.mem_cons_self ..)) srcEntry.expiry
                      rest (Session.orOom (.done (.bulk elem)))))

/-- `SMOVE`: `remove` takes the member off a payload, `none` when it is no member; `add` adds it. -/
def smove (src dst : Bytes) (remove : Bytes → Except Reply (Option (Option Bytes)))
    (add : Option Bytes → Except Reply Bytes) : Session .set Reply [] :=
  .load src (fun err => .done err.reply) fun
    | none => .done (.int 0)
    | some srcEntry =>
      match remove srcEntry.payload with
      | .error reply => .done reply
      | .ok none => .done (.int 0)
      | .ok (some rest) =>
        if src = dst then .done (.int 1)
        else
          .load dst (fun err => .done err.reply) fun old =>
            match add (old.map Entry.payload) with
            | .error reply => .done reply
            | .ok payload =>
              let finish : Session .set Reply [dst, src] :=
                .store dst (List.mem_cons_self ..) (oldExpiry old) payload
                  (Session.orOom (.done (.int 1)))
              match rest with
              | none => .drop src finish
              | some rest =>
                .store src (List.mem_cons_of_mem _ (List.mem_cons_self ..)) srcEntry.expiry rest
                  (Session.orOom finish)

/-- Write a sorted set; an empty one, `none`, removes the record. -/
def writeZSet {seen : List Bytes} (key : Bytes) (h : key ∈ seen) (payload : Option Bytes)
    (reply : Reply) : Session .zset Reply seen :=
  match payload with
  | none => .drop key (.done reply)
  | some payload => .store key h 0 payload (Session.orOom (.done reply))

/-- Go on unless the value that was read cannot be decoded. -/
def Session.decoded {kind : Kind} {β : Type} {seen : List Bytes} (dec : Entry → Except Reply β)
    (old : Option Entry) (next : Option β → Session kind Reply seen) : Session kind Reply seen :=
  match old with
  | none => next none
  | some e =>
    match dec e with
    | .error reply => .done reply
    | .ok b => next (some b)

/-- `ZRANGESTORE dst src min max`: the destination is checked only when the source exists. -/
def zrangestore {β : Type} (dst src : Bytes) (dec : Entry → Except Reply β)
    (range : β → Option Bytes × Int64) : Session .zset Reply [] :=
  .load src (fun err => .done err.reply) fun old =>
    Session.decoded dec old fun
      | none => .drop dst (.done (.int 0))
      | some z =>
        .load dst (fun err => .done err.reply) fun oldDst =>
          Session.decoded dec oldDst fun _ =>
            writeZSet dst (List.mem_cons_self ..) (range z).1 (.int (range z).2)

/-- `ZUNIONSTORE`, `ZINTERSTORE` and `ZDIFFSTORE`: the destination is checked first, the result
goes in as a batch of one operation. -/
def storeZSetOp {β : Type} (dst : Bytes) (keys : List Bytes) (dec : Entry → Except Reply β)
    (op : List (Option β) → Option Bytes × Int64) : Session .zset Reply [] :=
  .load dst (fun err => .done err.reply) fun old =>
    Session.decoded dec old fun _ =>
      Session.gather dec (fun sets =>
        .commit dst (List.mem_cons_self ..) ((op sets).1.map fun payload => (0, payload))
          (Session.orOom (.done (.int (op sets).2)))) [] keys

/-- `PFMERGE dst src ...`. -/
def pfmerge {β : Type} (dst : Bytes) (keys : List Bytes) (dec : Entry → Except Reply β)
    (merge : Option β → List (Option β) → Bytes) : Session .hll Reply [] :=
  .load dst (fun err => .done err.reply) fun old =>
    Session.decoded dec old fun regs =>
      Session.gather dec (fun sources =>
        .commit dst (List.mem_cons_self ..) (some (oldExpiry old, merge regs sources))
          (Session.orOom (.done .ok))) [] keys

end Gedis.Commands
