import Gedis.Acl.KeySpec
import Gedis.Commands.UserKeys
import Gedis.Core.Links
import Gedis.Protocol.Value
import Gedis.Storage.Pebble

/-!
# Client tracking

A connection that tracks is told when a key changes that it has read. Reading registers the keys of a
command in a table with an index for each direction. The storage layer calls a hook for each record
that it writes, removes or evicts; the hook takes the type prefix off the raw key, looks up the
connections that have read the key and hands each of them a message through a bounded pipe.
-/

namespace Gedis.Commands

open Gedis.Core Datastruct Storage Protocol Acl

structure TrackingCfg where
  on : Bool := false
  bcast : Bool := false
  optIn : Bool := false
  optOut : Bool := false
  noLoop : Bool := false
  prefixes : List Bytes := []
  deriving DecidableEq, Repr

/-- The state of a connection: its number, protocol version and tracking. -/
structure ConnState where
  id : Nat
  proto : Nat := 2
  tracking : TrackingCfg := {}
  cachingYes : Bool := false
  deriving DecidableEq, Repr

/-- The connections with their states, and the last number given. -/
structure ConnRegistry where
  m : OrdMap Nat ConnState := ∅
  nextID : Nat := 0

namespace ConnRegistry

/-- The state of a connection, which is made when there is none. -/
def state (c : ConnRegistry) (conn : Nat) : ConnRegistry × ConnState :=
  match c.m[conn]? with
  | some st => (c, st)
  | none =>
    let st : ConnState := { id := c.nextID + 1 }
    ({ m := c.m.insert conn st, nextID := c.nextID + 1 }, st)

def modify (c : ConnRegistry) (conn : Nat) (f : ConnState → ConnState) : ConnRegistry :=
  let (c, st) := c.state conn
  { c with m := c.m.insert conn (f st) }

def setTracking (c : ConnRegistry) (conn : Nat) (cfg : TrackingCfg) : ConnRegistry :=
  c.modify conn fun st => { st with tracking := cfg }

def setCaching (c : ConnRegistry) (conn : Nat) (v : Bool) : ConnRegistry :=
  c.modify conn fun st => { st with cachingYes := v }

def setProto (c : ConnRegistry) (conn : Nat) (ver : Nat) : ConnRegistry :=
  c.modify conn fun st => { st with proto := ver }

/-- The connection with a number. -/
def connByID (c : ConnRegistry) (id : Nat) : Option (Nat × ConnState) :=
  c.m.toList.find? fun e => e.2.id == id

end ConnRegistry

/-- The connections of each key, the keys of each connection, and the connections that are told of
all keys with one of their prefixes. -/
structure TrackTable where
  fwd : Links Bytes Nat := ∅
  rev : Links Nat Bytes := ∅
  bcast : OrdMap Nat (List Bytes) := ∅

namespace TrackTable

def register (t : TrackTable) (connID : Nat) (keys : List Bytes) : TrackTable where
  fwd := keys.foldl (fun m k => m.link k connID) t.fwd
  rev := keys.foldl (fun m k => m.link connID k) t.rev
  bcast := t.bcast

/-- Remove all that is kept for a connection. -/
def removeConn (t : TrackTable) (connID : Nat) : TrackTable where
  fwd := (t.rev.linksOf connID).foldl (fun m k => m.unlink k connID) t.fwd
  rev := t.rev.erase connID
  bcast := t.bcast.erase connID

def connsFor (t : TrackTable) (key : Bytes) : List Nat := t.fwd.linksOf key

def registerBcast (t : TrackTable) (connID : Nat) (prefixes : List Bytes) : TrackTable :=
  if prefixes = [] then { t with bcast := t.bcast.erase connID }
  else { t with bcast := t.bcast.insert connID prefixes }

def removeBcast (t : TrackTable) (connID : Nat) : TrackTable :=
  { t with bcast := t.bcast.erase connID }

def bcastFor (t : TrackTable) (key : Bytes) : List Nat :=
  (t.bcast.toList.filter fun e => e.2.any (·.isPrefixOf key)).map (·.1)

end TrackTable

def connPipeBuf : Nat := 1024

/-- The frames that wait for the writer of a connection. -/
structure ConnPipe where
  ch : List Value := []
  closed : Bool := false

/-- Add a frame; a full pipe is closed. -/
def ConnPipe.enqueue (p : ConnPipe) (frame : Value) : ConnPipe × Bool :=
  if p.closed then (p, false)
  else if p.ch.length < connPipeBuf then ({ p with ch := p.ch ++ [frame] }, true)
  else ({ p with closed := true }, false)

structure TrackServer where
  conns : ConnRegistry := {}
  tracks : TrackTable := {}
  pipes : OrdMap Nat ConnPipe := ∅
  store : Pebble
  /-- Every frame that a pipe has taken; the program itself does not keep it. -/
  pushed : List (Nat × Value) := []
  /-- Every key published for connections of the older protocol, likewise. -/
  published : List Bytes := []

namespace TrackServer

variable (st : TrackServer)

/-- End the tracking of a connection. -/
def untrack (conn : Nat) : TrackServer :=
  let conns := (st.conns.setTracking conn {}).setCaching conn false
  let (conns, cs) := conns.state conn
  { st with conns, tracks := st.tracks.removeConn cs.id }

/-- Hand a frame to the pipe of a connection. A pipe that does not take it is removed, and the
tracking of the connection ends. -/
def push (conn : Nat) (frame : Value) : TrackServer :=
  match ((st.pipes[conn]?).getD {}).enqueue frame with
  | (p, true) =>
    { st with pipes := st.pipes.insert conn p, pushed := st.pushed ++ [(conn, frame)] }
  | (_, false) => { st with pipes := st.pipes.erase conn }.untrack conn

/-- The message that a key has changed. -/
def invalidate (key : Bytes) : Value :=
  .push (some [bulkOf (ascii "invalidate".toList), arrayOf [bulkOf key]])

/-- The user key of a raw key, which is the raw key itself when it has no type prefix. -/
def userKeyFromRaw (raw : Bytes) : Bytes :=
  match typePrefixes.find? fun p => p.bytes.isPrefixOf raw with
  | some p => raw.drop p.bytes.length
  | none => raw

/-- Tell one observer, unless it is the writer and does not want to hear of its own writes. The flag
says whether an observer of the older protocol was met. -/
def tell (muted : Option Nat) (frame : Value) (s : TrackServer × Bool) (id : Nat) :
    TrackServer × Bool :=
  if muted = some id then s
  else
    match s.1.conns.connByID id with
    | none => s
    | some (target, cs) => if 3 ≤ cs.proto then (s.1.push target frame, s.2) else (s.1, true)

/-- The writer's number if it does not want to hear of its own writes. -/
def mutedWriter (writer : Option Nat) : TrackServer × Option Nat :=
  match writer with
  | none => (st, none)
  | some conn =>
    let (conns, ws) := st.conns.state conn
    ({ st with conns }, if ws.tracking.noLoop then some ws.id else none)

/-- The connections that are told of a key, each once. -/
def observers (key : Bytes) : List Nat :=
  (st.tracks.connsFor key ++ st.tracks.bcastFor key).eraseDups

/-- A record has changed: tell those who have read the key. -/
def emit (writer : Option Nat) (rawKey : Bytes) : TrackServer :=
  let key := userKeyFromRaw rawKey
  if key = [] then st
  else
    let observers := st.observers key
    if observers = [] then st
    else
      let (st, muted) := st.mutedWriter writer
      let (st, needResp2) := observers.foldl (tell muted (invalidate key)) (st, false)
      if needResp2 then { st with published := st.published ++ [key] } else st

/-- The hook calls of a storage call. Evictions have no writer. -/
def emitAll (writer : Option Nat) (notices : List (Notice × Bytes)) : TrackServer :=
  notices.foldl (fun st n => st.emit (if n.1 = .evict then none else writer) n.2) st

/-- A storage call on behalf of a connection, or of none. -/
def change (writer : Option Nat) (call : Call) : TrackServer :=
  let store := st.store.step call
  { st with store }.emitAll writer (store.notices.drop st.store.notices.length)

end TrackServer

/-- The commands that change data, as the router has them. -/
def writeCommandSet : List Cmd :=
  [.SET, .GETDEL, .GETEX, .GETSET, .SETEX, .PSETEX, .SETNX, .DEL, .UNLINK, .MSET, .MSETNX,
    .INCR, .INCRBY, .DECR, .DECRBY, .INCRBYFLOAT,
    .APPEND, .SETRANGE,
    .HSET, .HMSET, .HDEL, .HSETNX, .HINCRBY, .HINCRBYFLOAT,
    .SWAPDB,
    .HEXPIRE, .HEXPIREAT, .HPEXPIRE, .HPEXPIREAT, .HPERSIST,
    .EVAL, .EVALSHA,
    .MIGRATE, .RESTORE,
    .LPUSH, .RPUSH, .LPOP, .RPOP,
    .LMOVE, .BLMOVE, .RPOPLPUSH, .BRPOPLPUSH,
    .LSET, .LINSERT, .LREM, .LTRIM,
    .BLPOP, .BRPOP, .BLMPOP, .BRMPOP, .LMPOP,
    .BZMPOP, .ZMPOP,
    .SADD, .SREM, .SPOP, .SMOVE,
    .SINTERSTORE, .SUNIONSTORE, .SDIFFSTORE,
    .GEOADD, .GEOSEARCHSTORE, .GEORADIUS, .GEORADIUSBYMEMBER,
    .COPY, .RENAME, .RENAMENX, .SORT, .MOVE,
    .FLUSHDB, .FLUSHALL,
    .FCALL, .FUNCTION,
    .SETBIT, .BITOP, .BITFIELD,
    .PFADD, .PFMERGE,
    .XADD, .XTRIM, .XDEL, .XGROUP, .XSETID,
    .XREADGROUP, .XACK, .XCLAIM, .XAUTOCLAIM,
    .ZADD, .ZREM, .ZINCRBY, .ZPOPMIN, .ZPOPMAX,
    .BZPOPMAX, .BZPOPMIN,
    .ZDIFFSTORE, .ZINTERSTORE, .ZUNIONSTORE, .ZRANGESTORE,
    .ZREMRANGEBYLEX, .ZREMRANGEBYRANK, .ZREMRANGEBYSCORE,
    .EXPIRE, .PEXPIRE, .EXPIREAT, .PEXPIREAT, .PERSIST]

/-- The keys that a configuration lets register. -/
def TrackingCfg.registered (cfg : TrackingCfg) (keys : List Bytes) : List Bytes :=
  if cfg.prefixes = [] then keys
  else keys.filter fun k => cfg.prefixes.any (·.isPrefixOf k)

namespace TrackServer

variable (st : TrackServer)

/-- Register the keys that a connection has read, as its configuration says. -/
def readHook (conn : Nat) (keys : List Bytes) : TrackServer :=
  let (conns, cs) := st.conns.state conn
  let cfg := cs.tracking
  if !cfg.on || cfg.optOut || cfg.bcast then { st with conns }
  else
    -- the permission of an opt-in connection is used up by asking for it
    let conns := if cfg.optIn then conns.setCaching conn false else conns
    if cfg.optIn && !cs.cachingYes then { st with conns }
    else
      let reg := cfg.registered keys
      if reg = [] then { st with conns }
      else { st with conns, tracks := st.tracks.register cs.id reg }

/-- The end of a dispatched command. Its keys are registered if it is not a write and did not
fail. -/
def dispatched (conn : Nat) (cmd : Cmd) (args : List Bytes) (failed : Bool) : TrackServer :=
  if cmd ∈ writeCommandSet ∨ failed then st
  else
    match extractKeys cmd args with
    | .error _ => st
    | .ok keys => if keys = [] then st else st.readHook conn keys

/-- The options of `CLIENT TRACKING`. A word may come again in other letters. -/
def trackingOptions : TrackingCfg → List Bytes → List Arg → Except String TrackingCfg
  | cfg, _, [] => .ok cfg
  | _, _, none :: _ => .error "ERR syntax error"
  | cfg, seen, some tok :: rest =>
    if toUpper tok = ascii "PREFIX".toList then
      match rest with
      | some p :: rest => trackingOptions { cfg with prefixes := cfg.prefixes ++ [p] } seen rest
      | _ => .error "ERR syntax error"
    else if tok ∈ seen then .error "ERR syntax error"
    else if toUpper tok = ascii "BCAST".toList then
      trackingOptions { cfg with bcast := true } (tok :: seen) rest
    else if toUpper tok = ascii "OPTIN".toList then
      trackingOptions { cfg with optIn := true } (tok :: seen) rest
    else if toUpper tok = ascii "OPTOUT".toList then
      trackingOptions { cfg with optOut := true } (tok :: seen) rest
    else if toUpper tok = ascii "NOLOOP".toList then
      trackingOptions { cfg with noLoop := true } (tok :: seen) rest
    else .error "ERR syntax error"

def parseTracking : List Arg → Except String TrackingCfg
  | some mode :: rest =>
    let on := equalFold mode (ascii "on".toList)
    if !on && !equalFold mode (ascii "off".toList) then .error "ERR syntax error"
    else
      match trackingOptions { on } [] rest with
      | .error e => .error e
      | .ok cfg =>
        if cfg.optIn && cfg.optOut then .error "ERR OPTIN and OPTOUT are not compatible"
        else .ok cfg
  | _ => .error "ERR syntax error"

/-- `CLIENT TRACKING on|off [BCAST] [OPTIN] [OPTOUT] [NOLOOP] [PREFIX p ...]`. -/
def tracking (conn : Nat) (args : List Arg) : TrackServer :=
  match parseTracking args with
  | .error _ => st
  | .ok cfg =>
    if !cfg.on then st.untrack conn
    else
      let conns := (st.conns.setTracking conn cfg).setCaching conn false
      let (conns, cs) := conns.state conn
      let tracks :=
        if cfg.bcast then
          st.tracks.registerBcast cs.id (if cfg.prefixes = [] then [[]] else cfg.prefixes)
        else st.tracks.removeBcast cs.id
      { st with conns, tracks }

/-- `CLIENT CACHING yes|no`. -/
def caching (conn : Nat) (args : List Arg) : TrackServer :=
  let (conns, cs) := st.conns.state conn
  if !cs.tracking.on then { st with conns }
  else
    match args with
    | [some v] =>
      if toUpper v = ascii "YES".toList then { st with conns := conns.setCaching conn true }
      else if toUpper v = ascii "NO".toList then { st with conns := conns.setCaching conn false }
      else { st with conns }
    | _ => { st with conns }

/-- A connection is closed. -/
def connClosed (conn : Nat) : TrackServer :=
  let st := if conn ∈ st.conns.m then st.untrack conn else st
  { st with pipes := st.pipes.erase conn, conns := { st.conns with m := st.conns.m.erase conn } }

/-- The writer of a pipe takes a frame. -/
def written (conn : Nat) : TrackServer :=
  match st.pipes[conn]? with
  | none => st
  | some p => { st with pipes := st.pipes.insert conn { p with ch := p.ch.tail } }

/-- The writer of a pipe fails and closes it. -/
def writeError (conn : Nat) : TrackServer :=
  match st.pipes[conn]? with
  | none => st
  | some p => { st with pipes := st.pipes.insert conn { ch := p.ch.tail, closed := true } }

end TrackServer

/-- What can happen. A command is its storage calls, in any order with those of other commands, and
its end. -/
inductive TrackEvent where
  | change (writer : Option Nat) (call : Call)
  | dispatched (conn : Nat) (cmd : Cmd) (args : List Bytes) (failed : Bool)
  | tracking (conn : Nat) (args : List Arg)
  | caching (conn : Nat) (args : List Arg)
  /-- `HELLO` with a protocol version. -/
  | hello (conn ver : Nat)
  | connClosed (conn : Nat)
  | written (conn : Nat)
  | writeError (conn : Nat)

def TrackServer.step (st : TrackServer) : TrackEvent → TrackServer
  | .change writer call => st.change writer call
  | .dispatched conn cmd args failed => st.dispatched conn cmd args failed
  | .tracking conn args => st.tracking conn args
  | .caching conn args => st.caching conn args
  | .hello conn ver => { st with conns := st.conns.setProto conn ver }
  | .connClosed conn => st.connClosed conn
  | .written conn => st.written conn
  | .writeError conn => st.writeError conn

end Gedis.Commands
