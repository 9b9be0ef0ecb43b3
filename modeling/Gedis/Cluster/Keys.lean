import Gedis.Acl.Commands

/-!
# The keys that routing looks at

Before a command is served by a node of a cluster, a table says which of its arguments are keys.
The commands fall into a few groups, and a command without a group is not routed. Neither is one
with an empty word in place of a key, nor one whose arguments do not have the expected form.
-/

namespace Gedis.Cluster

open Gedis.Core Acl

/-- All the words, unless there are none or one of them is empty. -/
def allNonEmpty (args : List Bytes) : Option (List Bytes) :=
  if args = [] ∨ args.contains [] then none else some args

/-- The word at a position, unless it is empty. -/
def wordAt (i : Nat) (args : List Bytes) : Option (List Bytes) :=
  match args[i]? with
  | none => none
  | some key => if key = [] then none else some [key]

/-- The words from `start` on whose number stands at `numAt`. The end of the slice is computed in
64 bits; when it wraps around, the slice is out of bounds. -/
def numbered (numAt start : Nat) (args : List Bytes) : Go (Option (List Bytes)) :=
  match args[numAt]?.bind parseInt with
  | none => .ok none
  | some n =>
    if n < 1 ∨ (args.length : Int) < (Int64.ofNat start + n).toInt then .ok none
    else if (args.length : Int) < start + n.toInt then .error .sliceBounds
    else .ok (some ((args.drop start).take n.toInt.toNat))

/-- `numkeys key ...`; the number is read from the first argument. -/
def evalKeys (args : List Bytes) : Go (Option (List Bytes)) := do
  let keys ← numbered 0 1 args
  pure (keys.bind allNonEmpty)

/-- `numkeys key ...` with at least two arguments. -/
def numkeysKeys (args : List Bytes) : Go (Option (List Bytes)) :=
  if args.length < 2 then .ok none
  else do
    let keys ← numbered 0 1 args
    pure (keys.bind allNonEmpty)

/-- A destination and `numkeys key ...`. -/
def zstoreKeys (args : List Bytes) : Go (Option (List Bytes)) :=
  match args with
  | dst :: _ :: _ :: _ => do
    let keys ← numbered 1 2 args
    pure (keys.bind fun keys => allNonEmpty (dst :: keys))
  | _ => .ok none

/-- `function numkeys key ... arg ...`. -/
def fcallKeys (args : List Bytes) : Option (List Bytes) :=
  match args with
  | _ :: count :: rest =>
    match parseInt count with
    | none => none
    | some n =>
      if n < 0 ∨ (rest.length : Int) < n.toInt ∨ n = 0 then none
      else allNonEmpty (rest.take n.toInt.toNat)
  | _ => none

/-- The first half of what follows the first `STREAMS`. -/
def streamsKeys (args : List Bytes) : Option (List Bytes) :=
  match args.dropWhile fun w => toUpper w != ascii "STREAMS".toList with
  | [] => none
  | _ :: rest =>
    if rest = [] ∨ rest.length % 2 ≠ 0 then none else allNonEmpty (rest.take (rest.length / 2))

/-- The word behind the first `STORE`, which must not be missing or empty. -/
def storeKeys : List Bytes → Option (List Bytes)
  | [] => some []
  | w :: rest => if toUpper w = ascii "STORE".toList then wordAt 0 rest else storeKeys rest

/-- The sorted key and the destination. -/
def sortKeys : List Bytes → Option (List Bytes)
  | [] => none
  | key :: rest => if key = [] then none else (storeKeys rest).map (key :: ·)

/-- The keys of complete pairs of a key and a value. -/
def pairKeys : List Bytes → List Bytes
  | key :: _ :: rest => key :: pairKeys rest
  | _ => []

/-- The groups of commands. -/
inductive Rule where
  | eval
  | fcall
  | streams
  | sort
  /-- One key at a position. -/
  | single (i : Nat)
  /-- Every argument is a key. -/
  | all
  /-- The first two arguments, or the one that is there. -/
  | two
  | smove
  | pairs
  | zstore
  | numkeys
  /-- Not routed. -/
  | pass
  deriving DecidableEq, Repr

/-- The keys that a group takes from the arguments, or nothing. -/
def Rule.keys (args : List Bytes) : Rule → Go (Option (List Bytes))
  | .eval => evalKeys args
  | .fcall => .ok (fcallKeys args)
  | .streams => .ok (streamsKeys args)
  | .sort => .ok (sortKeys args)
  | .single i => .ok (wordAt i args)
  | .all => .ok (allNonEmpty args)
  | .two => .ok (allNonEmpty (args.take 2))
  | .smove => .ok (if 2 ≤ args.length then allNonEmpty (args.take 2) else none)
  | .pairs => .ok (allNonEmpty (pairKeys args))
  | .zstore => zstoreKeys args
  | .numkeys => numkeysKeys args
  | .pass => .ok none

/-- The group of a command. -/
def cmdRule : Cmd → Rule
  | .EVAL | .EVALSHA => .eval
  | .FCALL | .FCALL_RO => .fcall
  | .XREAD | .XREADGROUP => .streams
  | .SORT => .sort
  | .MIGRATE => .single 2
  | .MEMORY | .OBJECT | .XGROUP | .XINFO => .single 1
  | .BITOP | .DEL | .EXISTS | .MGET | .PFCOUNT | .SDIFF | .SDIFFSTORE | .SINTER | .SINTERCARD
  | .SINTERSTORE | .SUNION | .SUNIONSTORE | .TOUCH | .UNLINK => .all
  | .COPY | .LCS | .RENAME | .RENAMENX => .two
  | .SMOVE => .smove
  | .MSET | .MSETNX => .pairs
  | .ZDIFFSTORE | .ZINTERSTORE | .ZUNIONSTORE => .zstore
  | .BLMPOP | .BZMPOP | .LMPOP | .ZDIFF | .ZINTER | .ZINTERCARD | .ZMPOP | .ZUNION => .numkeys
  | .APPEND | .BITCOUNT | .BITFIELD | .BITFIELD_RO | .BITPOS | .BLMOVE | .BLPOP | .BRPOP
  | .BRPOPLPUSH | .DECR | .DECRBY | .DUMP | .EXPIRE | .EXPIREAT | .EXPIRETIME | .GEOADD | .GEODIST
  | .GEOHASH | .GEOPOS | .GEORADIUS | .GEORADIUSBYMEMBER | .GEOSEARCH | .GEOSEARCHSTORE | .GET
  | .GETBIT | .GETDEL | .GETEX | .GETRANGE | .GETSET | .HDEL | .HEXISTS | .HEXPIRE | .HEXPIREAT
  | .HEXPIRETIME | .HGET | .HGETALL | .HINCRBY | .HINCRBYFLOAT | .HKEYS | .HLEN | .HMGET
  | .HPERSIST | .HPEXPIRE | .HPEXPIREAT | .HPEXPIRETIME | .HPTTL | .HRANDFIELD | .HSET | .HSETNX
  | .HSTRLEN | .HTTL | .HVALS | .INCR | .INCRBY | .INCRBYFLOAT | .KEYS | .LINDEX | .LINSERT
  | .LLEN | .LMOVE | .LPOP | .LPUSH | .LRANGE | .LREM | .LSET | .LTRIM | .MOVE | .PERSIST
  | .PEXPIRE | .PEXPIREAT | .PEXPIRETIME | .PFADD | .PFMERGE | .PSETEX | .PTTL | .RESTORE | .RPOP
  | .RPOPLPUSH | .RPUSH | .SADD | .SCARD | .SET | .SETBIT | .SETEX | .SETNX | .SETRANGE
  | .SISMEMBER | .SMEMBERS | .SMISMEMBER | .SORT_RO | .SPOP | .SRANDMEMBER | .SREM | .STRLEN
  | .SUBSTR | .TTL | .TYPE | .XACK | .XADD | .XAUTOCLAIM | .XCLAIM | .XDEL | .XLEN | .XPENDING
  | .XRANGE | .XREVRANGE | .XSETID | .XTRIM | .ZADD | .ZCARD | .ZCOUNT | .ZINCRBY | .ZMSCORE
  | .ZPOPMAX | .ZPOPMIN | .ZRANDMEMBER | .ZRANGE | .ZRANGEBYLEX | .ZRANGEBYSCORE | .ZRANGESTORE
  | .ZRANK | .ZREM | .ZREMRANGEBYLEX | .ZREMRANGEBYRANK | .ZREMRANGEBYSCORE | .ZREVRANGE
  | .ZREVRANGEBYLEX | .ZREVRANGEBYSCORE | .ZREVRANK | .ZSCORE => .single 0
  | .ACL | .ASKING | .AUTH | .BGREWRITEAOF | .BGSAVE | .BRMPOP | .BZPOPMAX | .BZPOPMIN | .CLIENT
  | .CLUSTER | .COMMAND | .CONFIG | .DBSIZE | .DEBUG | .DISCARD | .ECHO | .EXEC | .FAILOVER
  | .FLUSHALL | .FLUSHDB | .FUNCTION | .GEORADIUSBYMEMBER_RO | .GEORADIUS_RO | .HELLO | .HMSET
  | .HSCAN | .INFO | .LASTSAVE | .LATENCY | .LPOS | .MONITOR | .MULTI | .PING | .PSUBSCRIBE
  | .PSYNC | .PUBLISH | .PUBSUB | .PUNSUBSCRIBE | .QUIT | .RANDOMKEY | .READONLY | .READWRITE
  | .REPLCONF | .REPLICAOF | .RESET | .ROLE | .SAVE | .SCAN | .SCRIPT | .SELECT | .SENTINEL
  | .SHUTDOWN | .SLAVEOF | .SLOWLOG | .SPUBLISH | .SSCAN | .SSUBSCRIBE | .SUBSCRIBE
  | .SUNSUBSCRIBE | .SWAPDB | .SYNC | .TIME | .UNSUBSCRIBE | .UNWATCH | .VADD | .VCARD | .VDIM
  | .VEMB | .VRANDMEMBER | .VREM | .VSIM | .WAIT | .WAITAOF | .WATCH | .ZSCAN => .pass

/-- The group of a name in capitals. A few names have one though no command is registered for
them. -/
def ruleOf (name : Bytes) : Rule :=
  match Cmd.all.find? fun cmd => cmd.name == name with
  | some cmd => cmdRule cmd
  | none =>
    if name = ascii "EVAL_RO".toList ∨ name = ascii "EVALSHA_RO".toList then .eval
    else if name = ascii "LPUSHX".toList ∨ name = ascii "RPUSHX".toList ∨
        name = ascii "ZLEXCOUNT".toList ∨ name = ascii "DELEX".toList ∨
        name = ascii "GETDELEX".toList then .single 0
    else .pass

/-- The keys of a command as routing sees them, from its name in capitals. -/
def keysOf (name : Bytes) (args : List Bytes) : Go (Option (List Bytes)) := (ruleOf name).keys args

theorem keysOf_toUpper {name : Bytes} {cmd : Cmd} (h : lookupMeta name = some cmd)
    {args : List Bytes} : keysOf (toUpper name) args = (cmdRule cmd).keys args := by
  unfold lookupMeta at h
  simp [keysOf, ruleOf, h]

end Gedis.Cluster
