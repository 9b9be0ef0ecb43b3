import Gedis.Acl.Commands
import Gedis.Protocol.Value

/-!
# The keys in the arguments of a command

Every handler reads its arguments in its own way. This module says for each command which user
keys the handler looks up, writes or deletes when it accepts an argument vector. Checks that
reject a vector without moving a key (the form of a number or of a stream id, options that exclude
each other) are left to the handlers, so what is said of a rejected vector has no meaning.

A script is a command without keys beyond the declared ones: the commands that it calls are
checked one by one when it calls them.
-/

namespace Gedis.Commands.Grammar

open Gedis.Core Protocol Acl

/-- The user keys a handler works on: some by name, and those that a template of `SORT` yields for
the elements of the sorted key. -/
structure Reach where
  keys : List Bytes
  template : Bytes → Prop := fun _ => False

/-- All arguments as strings, unless one of them is something else. -/
def strings : List Arg → Option (List Bytes)
  | [] => some []
  | none :: _ => none
  | some w :: rest => (strings rest).map (w :: ·)

/-- The strings among the arguments. -/
def words (args : List Arg) : List Bytes := args.filterMap id

/-- A word in capitals, as the handlers compare it. -/
def reads (w : Bytes) (name : String) : Bool := toUpper w == ascii name.toList

/-- No user key is named. -/
def noKeys (_ : List Arg) : Option Reach := some { keys := [] }

/-- The first argument is the key. -/
def keyFirst : List Arg → Option Reach
  | some key :: _ => some { keys := [key] }
  | _ => none

/-- `SET`: what stands in place of the key is not checked to be a string. -/
def setKey : List Arg → Option Reach
  | key :: value :: options => do
    let _ ← strings (value :: options)
    some { keys := [key.getD []] }
  | _ => none

/-- Every string is a key; other arguments are skipped. -/
def keyList (args : List Arg) : Option Reach :=
  if args = [] then none else some { keys := words args }

/-- Every argument is a key. -/
def keysAll (args : List Arg) : Option Reach := do
  let ws ← strings args
  if ws = [] then none else some { keys := ws }

/-- The first two arguments are keys. -/
def keysTwo : List Arg → Option Reach
  | some a :: some b :: _ => some { keys := [a, b] }
  | _ => none

/-- `RENAMENX` does nothing when both names are the same. -/
def renamenxKeys : List Arg → Option Reach
  | [some src, some dst] => some { keys := if src = dst then [] else [src, dst] }
  | _ => none

/-- The keys of `MSETNX`; the values are not checked to be strings. -/
def msetnxPairs : List Arg → Option (List Bytes)
  | [] => some []
  | some key :: _ :: rest => (msetnxPairs rest).map (key :: ·)
  | _ => none

/-- `MSETNX key value ...`. -/
def msetnxKeys (args : List Arg) : Option Reach := do
  let keys ← msetnxPairs args
  if keys = [] then none else some { keys }

/-- `MSET key value ...`. -/
def msetKeys (args : List Arg) : Option Reach := do
  let _ ← strings args
  msetnxKeys args

/-- `BITOP op destkey key ...`. -/
def bitopKeys (args : List Arg) : Option Reach := do
  let ws ← strings args
  match ws with
  | _ :: dst :: src :: srcs => some { keys := dst :: src :: srcs }
  | _ => none

/-- `MIGRATE host port key db timeout ...`. -/
def migrateKey (args : List Arg) : Option Reach := do
  let ws ← strings args
  match ws with
  | _ :: _ :: key :: _ :: _ :: _ => some { keys := [key] }
  | _ => none

/-- All arguments but the last one, a timeout, are keys. -/
def keysButLast (args : List Arg) : Option Reach := do
  let ws ← strings args
  if ws.length < 2 then none else some { keys := ws.dropLast }

/-- A number of keys, and behind it that many keys. -/
def countedKeys (count : Bytes) (rest : List Bytes) : Option (List Bytes) := do
  let n ← parseInt count
  if n < 0 ∨ (rest.length : Int) < n.toInt then none else some (rest.take n.toInt.toNat)

/-- `numkeys key ...` first, with at least one key. -/
def numkeysFirst (args : List Arg) : Option Reach := do
  let ws ← strings args
  match ws with
  | count :: rest =>
    let keys ← countedKeys count rest
    if keys = [] then none else some { keys }
  | _ => none

/-- `numkeys key ...` behind a timeout, with at least one key. -/
def numkeysSecond (args : List Arg) : Option Reach := do
  let ws ← strings args
  match ws with
  | _ :: count :: rest =>
    let keys ← countedKeys count rest
    if keys = [] then none else some { keys }
  | _ => none

/-- A destination and `numkeys key ...`, with at least one key. -/
def zstoreKeys (args : List Arg) : Option Reach := do
  let ws ← strings args
  match ws with
  | dst :: count :: rest =>
    let keys ← countedKeys count rest
    if keys = [] then none else some { keys := dst :: keys }
  | _ => none

/-- `EVAL script numkeys key ... arg ...`. -/
def evalKeys (args : List Arg) : Option Reach := do
  let ws ← strings args
  match ws with
  | _ :: count :: rest =>
    let keys ← countedKeys count rest
    some { keys }
  | _ => none

/-- `FCALL function numkeys key ... arg ...`: a key that is not a string counts as empty. -/
def fcallKeys : List Arg → Option Reach
  | some _ :: some count :: rest => do
    let keys ← countedKeys count (rest.map (·.getD []))
    some { keys }
  | _ => none

/-- The keys of `STREAMS key ... id ...`: the first half of an even number of words. -/
def streamKeys (rest : List Bytes) : Option Reach :=
  if rest.length < 2 ∨ rest.length % 2 ≠ 0 then none
  else some { keys := rest.take (rest.length / 2) }

/-- The words behind `STREAMS` in `XREAD`, after `COUNT n` and `BLOCK ms`. -/
def xreadRest : List Bytes → Option (List Bytes)
  | [] => none
  | [w] => if reads w "STREAMS" then some [] else none
  | w :: v :: rest =>
    if reads w "COUNT" then if (parseInt v).isSome then xreadRest rest else none
    else if reads w "BLOCK" then if (parseInt v).any (0 ≤ ·) then xreadRest rest else none
    else if reads w "STREAMS" then some (v :: rest)
    else none

/-- `XREAD [COUNT n] [BLOCK ms] STREAMS key ... id ...`. -/
def xreadKeys (args : List Arg) : Option Reach := do
  let ws ← strings args
  let rest ← xreadRest ws
  streamKeys rest

/-- The words behind `STREAMS` in `XREADGROUP`, after `COUNT n`, `BLOCK ms` and `NOACK`. -/
def xreadgroupRest : List Bytes → Option (List Bytes)
  | [] => none
  | w :: rest =>
    if equalFold w (ascii "STREAMS".toList) then some rest
    else if equalFold w (ascii "NOACK".toList) then xreadgroupRest rest
    else
      match rest with
      | [] => none
      | v :: rest =>
        if equalFold w (ascii "COUNT".toList) then
          if (parseInt v).isSome then xreadgroupRest rest else none
        else if equalFold w (ascii "BLOCK".toList) then
          if (parseInt v).any (0 ≤ ·) then xreadgroupRest rest else none
        else none

/-- `XREADGROUP GROUP group consumer [COUNT n] [BLOCK ms] [NOACK] STREAMS key ... id ...`. -/
def xreadgroupKeys (args : List Arg) : Option Reach := do
  let ws ← strings args
  match ws with
  | kw :: _ :: _ :: options =>
    if equalFold kw (ascii "GROUP".toList) then do
      let rest ← xreadgroupRest options
      streamKeys rest
    else none
  | _ => none

/-- `OBJECT subcommand key`. -/
def objectKey : List Arg → Option Reach
  | [some sub, some key] =>
    if reads sub "REFCOUNT" ∨ reads sub "IDLETIME" ∨ reads sub "FREQ" ∨ reads sub "ENCODING" then
      some { keys := [key] }
    else none
  | _ => none

/-- `XINFO subcommand key ...`. -/
def xinfoKey : List Arg → Option Reach
  | some sub :: some key :: _ =>
    if reads sub "STREAM" ∨ reads sub "GROUPS" ∨ reads sub "CONSUMERS" then
      some { keys := [key] }
    else none
  | _ => none

/-- `XGROUP subcommand key group ...`. The two subcommands about consumers do not check that the
key is a string. -/
def xgroupKey : List Arg → Option Reach
  | some sub :: key :: some _ :: rest =>
    if reads sub "CREATE" ∨ reads sub "SETID" ∨ reads sub "DESTROY" then
      key.map fun key => { keys := [key] }
    else if reads sub "CREATECONSUMER" ∨ reads sub "DELCONSUMER" then
      match rest with
      | [some _] => some { keys := [key.getD []] }
      | _ => none
    else none
  | _ => none

/-- `MEMORY USAGE key [SAMPLES n]` and the subcommands without a key. -/
def memoryKey : List Arg → Option Reach
  | [some sub] =>
    if reads sub "DOCTOR" ∨ reads sub "PURGE" ∨ reads sub "HELP" then some { keys := [] } else none
  | [some sub, some key] => if reads sub "USAGE" then some { keys := [key] } else none
  | [some sub, some key, some opt, some _] =>
    if reads sub "USAGE" ∧ equalFold opt (ascii "SAMPLES".toList) then some { keys := [key] }
    else none
  | _ => none

/-- `DEBUG OBJECT key` and the subcommands without a key. -/
def debugKey : List Arg → Option Reach
  | [some sub] => if reads sub "RELOAD" then some { keys := [] } else none
  | [some sub, arg] =>
    if reads sub "SLEEP" then some { keys := [] }
    else if reads sub "OBJECT" then arg.map fun key => { keys := [key] }
    else none
  | _ => none

/-- The options of a radius query: the last target of `STORE` or `STOREDIST`, which is refused
together with the options that ask for more in the reply. `ANY` may follow a count. -/
def parseRadiusOpts (store : Option Bytes) (extra counted : Bool) :
    List Bytes → Option (Option Bytes)
  | [] => if store.isSome ∧ extra then none else some store
  | w :: rest =>
    if counted ∧ equalFold w (ascii "ANY".toList) then parseRadiusOpts store extra false rest
    else if reads w "WITHCOORD" ∨ reads w "WITHDIST" ∨ reads w "WITHHASH" then
      parseRadiusOpts store true false rest
    else if reads w "ASC" ∨ reads w "DESC" then parseRadiusOpts store extra false rest
    else
      match rest with
      | [] => none
      | v :: rest =>
        if reads w "COUNT" then
          if (parseInt v).any (0 ≤ ·) then parseRadiusOpts store extra true rest else none
        else if reads w "STORE" ∨ reads w "STOREDIST" then
          parseRadiusOpts (some v) extra false rest
        else none

/-- `GEORADIUS` and `GEORADIUSBYMEMBER`: the key, the query up to the given position, options. -/
def radiusKeys (optionsFrom : Nat) (args : List Arg) : Option Reach := do
  let ws ← strings args
  match ws with
  | key :: query => do
    if ws.length < optionsFrom then none
    else
      let store ← parseRadiusOpts none false false (query.drop (optionsFrom - 1))
      some { keys := key :: store.toList }
  | _ => none

/-- The options of `SORT` that decide which keys it visits. -/
structure SortOptions where
  sortBy : Option Bytes := none
  limit : Option (Int64 × Int64) := none
  gets : List Bytes := []
  store : Option Bytes := none
  deriving DecidableEq, Repr

/-- The options of `SORT`; the last `BY`, `LIMIT` and `STORE` win. -/
def parseSortOptions (o : SortOptions) : List Bytes → Option SortOptions
  | [] => some o
  | w :: rest =>
    if reads w "ASC" ∨ reads w "DESC" ∨ reads w "ALPHA" then parseSortOptions o rest
    else
      match rest with
      | [] => none
      | v :: rest =>
        if reads w "BY" then parseSortOptions { o with sortBy := some v } rest
        else if reads w "GET" then parseSortOptions { o with gets := o.gets ++ [v] } rest
        else if reads w "STORE" then parseSortOptions { o with store := some v } rest
        else if reads w "LIMIT" then
          match rest with
          | [] => none
          | c :: rest => do
            let off ← parseInt v
            let cnt ← parseInt c
            parseSortOptions { o with limit := some (off, cnt) } rest
        else none

/-- The part of the sorted elements that is returned or stored; the sum can wrap around. -/
def SortOptions.window (o : SortOptions) (len : Int64) : Int64 × Int64 :=
  match o.limit with
  | none => (0, len)
  | some (off, cnt) =>
    let lo := if off < 0 then 0 else off
    let lo := if len < lo then len else lo
    if cnt < 0 then (lo, len) else (lo, if len < lo + cnt then len else lo + cnt)

/-- For some number of elements the limit leaves any of them. -/
def SortOptions.Yields (o : SortOptions) : Prop :=
  ∃ len : Int64, 0 ≤ len ∧ (o.window len).1 < (o.window len).2

/-- The part of a name in front of the first `->`. -/
def beforeArrow : Bytes → Bytes
  | 45 :: 62 :: _ => []
  | b :: bs => b :: beforeArrow bs
  | [] => []

/-- Put an element in place of the first `*`. -/
def fillStar (elem : Bytes) : Bytes → Bytes
  | [] => []
  | b :: bs => if b = 42 then elem ++ bs else b :: fillStar elem bs

/-- The key that a template of `SORT` stands for at an element; `#` is the element itself. -/
def resolveSortPattern (pattern elem : Bytes) : Option Bytes :=
  if pattern = [35] then none else some (beforeArrow (fillStar elem pattern))

/-- `SORT key ...` and `SORT_RO key ...`, which refuses `STORE`. Every element is looked up under
the `BY` template, those in the window under the `GET` templates. -/
def sortKeys (readOnly : Bool) (args : List Arg) : Option Reach := do
  let ws ← strings args
  match ws with
  | key :: options =>
    let o ← parseSortOptions {} options
    if readOnly ∧ o.store.isSome then none
    else some {
      keys := key :: o.store.toList
      template := fun p => o.sortBy = some p ∨ (p ∈ o.gets ∧ o.Yields) }
  | _ => none

/-- The handler may look up, write or delete a user key. -/
def Reach.Touches (r : Reach) (key : Bytes) : Prop :=
  key ∈ r.keys ∨ ∃ p elem, r.template p ∧ resolveSortPattern p elem = some key

/-- The user keys that the handler of a command visits for an argument vector. -/
def touched (cmd : Cmd) : List Arg → Option Reach :=
  match cmd with
  | .APPEND | .BITCOUNT | .BITFIELD | .BITFIELD_RO | .BITPOS | .DECR | .DECRBY | .DUMP | .EXPIRE
  | .EXPIREAT | .EXPIRETIME | .GEOADD | .GEODIST | .GEOHASH | .GEOPOS | .GEOSEARCH | .GET
  | .GETBIT | .GETDEL | .GETEX | .GETRANGE | .GETSET | .HDEL | .HEXISTS | .HEXPIRE | .HEXPIREAT
  | .HEXPIRETIME | .HGET | .HGETALL | .HINCRBY | .HINCRBYFLOAT | .HKEYS | .HLEN | .HMGET | .HMSET
  | .HPERSIST | .HPEXPIRE | .HPEXPIREAT | .HPEXPIRETIME | .HPTTL | .HRANDFIELD | .HSCAN | .HSET
  | .HSETNX | .HSTRLEN | .HTTL | .HVALS | .INCR | .INCRBY | .INCRBYFLOAT | .LINDEX | .LINSERT
  | .LLEN | .LPOP | .LPOS | .LPUSH | .LRANGE | .LREM | .LSET | .LTRIM | .MOVE | .PERSIST
  | .PEXPIRE | .PEXPIREAT | .PEXPIRETIME | .PFADD | .PSETEX | .PTTL | .RESTORE | .RPOP | .RPUSH
  | .SADD | .SCARD | .SETBIT | .SETEX | .SETNX | .SETRANGE | .SISMEMBER | .SMEMBERS | .SMISMEMBER
  | .SPOP | .SRANDMEMBER | .SREM | .SSCAN | .STRLEN | .SUBSTR | .TTL | .TYPE | .VADD | .VCARD
  | .VDIM | .VEMB | .VRANDMEMBER | .VREM | .VSIM | .XACK | .XADD | .XAUTOCLAIM | .XCLAIM | .XDEL
  | .XLEN | .XPENDING | .XRANGE | .XREVRANGE | .XSETID | .XTRIM | .ZADD | .ZCARD | .ZCOUNT
  | .ZINCRBY | .ZMSCORE | .ZPOPMAX | .ZPOPMIN | .ZRANDMEMBER | .ZRANGE | .ZRANGEBYLEX
  | .ZRANGEBYSCORE | .ZRANK | .ZREM | .ZREMRANGEBYLEX | .ZREMRANGEBYRANK | .ZREMRANGEBYSCORE
  | .ZREVRANGE | .ZREVRANGEBYLEX | .ZREVRANGEBYSCORE | .ZREVRANK | .ZSCAN | .ZSCORE => keyFirst
  | .ACL | .ASKING | .AUTH | .BGREWRITEAOF | .BGSAVE | .CLIENT | .CLUSTER | .COMMAND | .CONFIG
  | .DBSIZE | .DISCARD | .ECHO | .EXEC | .FAILOVER | .FLUSHALL | .FLUSHDB | .FUNCTION | .HELLO
  | .INFO | .KEYS | .LASTSAVE | .LATENCY | .MONITOR | .MULTI | .PING | .PSUBSCRIBE | .PSYNC
  | .PUBLISH | .PUBSUB | .PUNSUBSCRIBE | .QUIT | .RANDOMKEY | .READONLY | .READWRITE | .REPLCONF
  | .REPLICAOF | .RESET | .ROLE | .SAVE | .SCAN | .SCRIPT | .SELECT | .SENTINEL | .SHUTDOWN
  | .SLAVEOF | .SLOWLOG | .SPUBLISH | .SSUBSCRIBE | .SUBSCRIBE | .SUNSUBSCRIBE | .SWAPDB | .SYNC
  | .TIME | .UNSUBSCRIBE | .UNWATCH | .WAIT | .WAITAOF | .WATCH => noKeys
  | .DEL | .EXISTS | .TOUCH | .UNLINK => keyList
  | .SET => setKey
  | .MGET | .PFCOUNT | .PFMERGE | .SDIFF | .SDIFFSTORE | .SINTER | .SINTERSTORE | .SUNION
  | .SUNIONSTORE => keysAll
  | .BLMOVE | .BRPOPLPUSH | .COPY | .GEOSEARCHSTORE | .LCS | .LMOVE | .RENAME | .RPOPLPUSH
  | .SMOVE | .ZRANGESTORE => keysTwo
  | .RENAMENX => renamenxKeys
  | .MSET => msetKeys
  | .MSETNX => msetnxKeys
  | .BITOP => bitopKeys
  | .MIGRATE => migrateKey
  | .BLPOP | .BRPOP | .BZPOPMAX | .BZPOPMIN => keysButLast
  | .LMPOP | .SINTERCARD | .ZDIFF | .ZINTER | .ZINTERCARD | .ZMPOP | .ZUNION => numkeysFirst
  | .BLMPOP | .BRMPOP | .BZMPOP => numkeysSecond
  | .ZDIFFSTORE | .ZINTERSTORE | .ZUNIONSTORE => zstoreKeys
  | .EVAL | .EVALSHA => evalKeys
  | .FCALL | .FCALL_RO => fcallKeys
  | .XREAD => xreadKeys
  | .XREADGROUP => xreadgroupKeys
  | .OBJECT => objectKey
  | .XINFO => xinfoKey
  | .XGROUP => xgroupKey
  | .MEMORY => memoryKey
  | .DEBUG => debugKey
  | .GEORADIUS | .GEORADIUS_RO => radiusKeys 5
  | .GEORADIUSBYMEMBER | .GEORADIUSBYMEMBER_RO => radiusKeys 4
  | .SORT => sortKeys false
  | .SORT_RO => sortKeys true

end Gedis.Commands.Grammar
