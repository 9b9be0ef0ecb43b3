import Gedis.Core.Runtime

/-!
# Registered commands

The commands of the router with their metadata: the category that permission rules refer to, and
the specification of the arguments that are keys.
-/

namespace Gedis.Acl

open Gedis.Core

/-- The registered commands. -/
inductive Cmd where
  | ACL | APPEND | ASKING | AUTH | BGREWRITEAOF | BGSAVE | BITCOUNT | BITFIELD | BITFIELD_RO
  | BITOP | BITPOS | BLMOVE | BLMPOP | BLPOP | BRMPOP | BRPOP | BRPOPLPUSH | BZMPOP | BZPOPMAX
  | BZPOPMIN | CLIENT | CLUSTER | COMMAND | CONFIG | COPY | DBSIZE | DEBUG | DECR | DECRBY | DEL
  | DISCARD | DUMP | ECHO | EVAL | EVALSHA | EXEC | EXISTS | EXPIRE | EXPIREAT | EXPIRETIME
  | FAILOVER | FCALL | FCALL_RO | FLUSHALL | FLUSHDB | FUNCTION | GEOADD | GEODIST | GEOHASH
  | GEOPOS | GEORADIUS | GEORADIUSBYMEMBER | GEORADIUSBYMEMBER_RO | GEORADIUS_RO | GEOSEARCH
  | GEOSEARCHSTORE | GET | GETBIT | GETDEL | GETEX | GETRANGE | GETSET | HDEL | HELLO | HEXISTS
  | HEXPIRE | HEXPIREAT | HEXPIRETIME | HGET | HGETALL | HINCRBY | HINCRBYFLOAT | HKEYS | HLEN
  | HMGET | HMSET | HPERSIST | HPEXPIRE | HPEXPIREAT | HPEXPIRETIME | HPTTL | HRANDFIELD | HSCAN
  | HSET | HSETNX | HSTRLEN | HTTL | HVALS | INCR | INCRBY | INCRBYFLOAT | INFO | KEYS | LASTSAVE
  | LATENCY | LCS | LINDEX | LINSERT | LLEN | LMOVE | LMPOP | LPOP | LPOS | LPUSH | LRANGE | LREM
  | LSET | LTRIM | MEMORY | MGET | MIGRATE | MONITOR | MOVE | MSET | MSETNX | MULTI | OBJECT
  | PERSIST | PEXPIRE | PEXPIREAT | PEXPIRETIME | PFADD | PFCOUNT | PFMERGE | PING | PSETEX
  | PSUBSCRIBE | PSYNC | PTTL | PUBLISH | PUBSUB | PUNSUBSCRIBE | QUIT | RANDOMKEY | READONLY
  | READWRITE | RENAME | RENAMENX | REPLCONF | REPLICAOF | RESET | RESTORE | ROLE | RPOP
  | RPOPLPUSH | RPUSH | SADD | SAVE | SCAN | SCARD | SCRIPT | SDIFF | SDIFFSTORE | SELECT
  | SENTINEL | SET | SETBIT | SETEX | SETNX | SETRANGE | SHUTDOWN | SINTER | SINTERCARD
  | SINTERSTORE | SISMEMBER | SLAVEOF | SLOWLOG | SMEMBERS | SMISMEMBER | SMOVE | SORT | SORT_RO
  | SPOP | SPUBLISH | SRANDMEMBER | SREM | SSCAN | SSUBSCRIBE | STRLEN | SUBSCRIBE | SUBSTR
  | SUNION | SUNIONSTORE | SUNSUBSCRIBE | SWAPDB | SYNC | TIME | TOUCH | TTL | TYPE | UNLINK
  | UNSUBSCRIBE | UNWATCH | VADD | VCARD | VDIM | VEMB | VRANDMEMBER | VREM | VSIM | WAIT
  | WAITAOF | WATCH | XACK | XADD | XAUTOCLAIM | XCLAIM | XDEL | XGROUP | XINFO | XLEN | XPENDING
  | XRANGE | XREAD | XREADGROUP | XREVRANGE | XSETID | XTRIM | ZADD | ZCARD | ZCOUNT | ZDIFF
  | ZDIFFSTORE | ZINCRBY | ZINTER | ZINTERCARD | ZINTERSTORE | ZMPOP | ZMSCORE | ZPOPMAX
  | ZPOPMIN | ZRANDMEMBER | ZRANGE | ZRANGEBYLEX | ZRANGEBYSCORE | ZRANGESTORE | ZRANK | ZREM
  | ZREMRANGEBYLEX | ZREMRANGEBYRANK | ZREMRANGEBYSCORE | ZREVRANGE | ZREVRANGEBYLEX
  | ZREVRANGEBYSCORE | ZREVRANK | ZSCAN | ZSCORE | ZUNION | ZUNIONSTORE
  deriving DecidableEq, Repr

/-- All commands. -/
def Cmd.all : List Cmd :=
    [.ACL, .APPEND, .ASKING, .AUTH, .BGREWRITEAOF, .BGSAVE, .BITCOUNT, .BITFIELD, .BITFIELD_RO,
    .BITOP, .BITPOS, .BLMOVE, .BLMPOP, .BLPOP, .BRMPOP, .BRPOP, .BRPOPLPUSH, .BZMPOP, .BZPOPMAX,
    .BZPOPMIN, .CLIENT, .CLUSTER, .COMMAND, .CONFIG, .COPY, .DBSIZE, .DEBUG, .DECR, .DECRBY,
    .DEL, .DISCARD, .DUMP, .ECHO, .EVAL, .EVALSHA, .EXEC, .EXISTS, .EXPIRE, .EXPIREAT,
    .EXPIRETIME, .FAILOVER, .FCALL, .FCALL_RO, .FLUSHALL, .FLUSHDB, .FUNCTION, .GEOADD, .GEODIST,
    .GEOHASH, .GEOPOS, .GEORADIUS, .GEORADIUSBYMEMBER, .GEORADIUSBYMEMBER_RO, .GEORADIUS_RO,
    .GEOSEARCH, .GEOSEARCHSTORE, .GET, .GETBIT, .GETDEL, .GETEX, .GETRANGE, .GETSET, .HDEL,
    .HELLO, .HEXISTS, .HEXPIRE, .HEXPIREAT, .HEXPIRETIME, .HGET, .HGETALL, .HINCRBY,
    .HINCRBYFLOAT, .HKEYS, .HLEN, .HMGET, .HMSET, .HPERSIST, .HPEXPIRE, .HPEXPIREAT,
    .HPEXPIRETIME, .HPTTL, .HRANDFIELD, .HSCAN, .HSET, .HSETNX, .HSTRLEN, .HTTL, .HVALS, .INCR,
    .INCRBY, .INCRBYFLOAT, .INFO, .KEYS, .LASTSAVE, .LATENCY, .LCS, .LINDEX, .LINSERT, .LLEN,
    .LMOVE, .LMPOP, .LPOP, .LPOS, .LPUSH, .LRANGE, .LREM, .LSET, .LTRIM, .MEMORY, .MGET,
    .MIGRATE, .MONITOR, .MOVE, .MSET, .MSETNX, .MULTI, .OBJECT, .PERSIST, .PEXPIRE, .PEXPIREAT,
    .PEXPIRETIME, .PFADD, .PFCOUNT, .PFMERGE, .PING, .PSETEX, .PSUBSCRIBE, .PSYNC, .PTTL,
    .PUBLISH, .PUBSUB, .PUNSUBSCRIBE, .QUIT, .RANDOMKEY, .READONLY, .READWRITE, .RENAME,
    .RENAMENX, .REPLCONF, .REPLICAOF, .RESET, .RESTORE, .ROLE, .RPOP, .RPOPLPUSH, .RPUSH, .SADD,
    .SAVE, .SCAN, .SCARD, .SCRIPT, .SDIFF, .SDIFFSTORE, .SELECT, .SENTINEL, .SET, .SETBIT,
    .SETEX, .SETNX, .SETRANGE, .SHUTDOWN, .SINTER, .SINTERCARD, .SINTERSTORE, .SISMEMBER,
    .SLAVEOF, .SLOWLOG, .SMEMBERS, .SMISMEMBER, .SMOVE, .SORT, .SORT_RO, .SPOP, .SPUBLISH,
    .SRANDMEMBER, .SREM, .SSCAN, .SSUBSCRIBE, .STRLEN, .SUBSCRIBE, .SUBSTR, .SUNION,
    .SUNIONSTORE, .SUNSUBSCRIBE, .SWAPDB, .SYNC, .TIME, .TOUCH, .TTL, .TYPE, .UNLINK,
    .UNSUBSCRIBE, .UNWATCH, .VADD, .VCARD, .VDIM, .VEMB, .VRANDMEMBER, .VREM, .VSIM, .WAIT,
    .WAITAOF, .WATCH, .XACK, .XADD, .XAUTOCLAIM, .XCLAIM, .XDEL, .XGROUP, .XINFO, .XLEN,
    .XPENDING, .XRANGE, .XREAD, .XREADGROUP, .XREVRANGE, .XSETID, .XTRIM, .ZADD, .ZCARD, .ZCOUNT,
    .ZDIFF, .ZDIFFSTORE, .ZINCRBY, .ZINTER, .ZINTERCARD, .ZINTERSTORE, .ZMPOP, .ZMSCORE,
    .ZPOPMAX, .ZPOPMIN, .ZRANDMEMBER, .ZRANGE, .ZRANGEBYLEX, .ZRANGEBYSCORE, .ZRANGESTORE,
    .ZRANK, .ZREM, .ZREMRANGEBYLEX, .ZREMRANGEBYRANK, .ZREMRANGEBYSCORE, .ZREVRANGE,
    .ZREVRANGEBYLEX, .ZREVRANGEBYSCORE, .ZREVRANK, .ZSCAN, .ZSCORE, .ZUNION, .ZUNIONSTORE]

/-- The name of a command. -/
def Cmd.name : Cmd → Bytes
  | .ACL => ascii "ACL".toList
  | .APPEND => ascii "APPEND".toList
  | .ASKING => ascii "ASKING".toList
  | .AUTH => ascii "AUTH".toList
  | .BGREWRITEAOF => ascii "BGREWRITEAOF".toList
  | .BGSAVE => ascii "BGSAVE".toList
  | .BITCOUNT => ascii "BITCOUNT".toList
  | .BITFIELD => ascii "BITFIELD".toList
  | .BITFIELD_RO => ascii "BITFIELD_RO".toList
  | .BITOP => ascii "BITOP".toList
  | .BITPOS => ascii "BITPOS".toList
  | .BLMOVE => ascii "BLMOVE".toList
  | .BLMPOP => ascii "BLMPOP".toList
  | .BLPOP => ascii "BLPOP".toList
  | .BRMPOP => ascii "BRMPOP".toList
  | .BRPOP => ascii "BRPOP".toList
  | .BRPOPLPUSH => ascii "BRPOPLPUSH".toList
  | .BZMPOP => ascii "BZMPOP".toList
  | .BZPOPMAX => ascii "BZPOPMAX".toList
  | .BZPOPMIN => ascii "BZPOPMIN".toList
  | .CLIENT => ascii "CLIENT".toList
  | .CLUSTER => ascii "CLUSTER".toList
  | .COMMAND => ascii "COMMAND".toList
  | .CONFIG => ascii "CONFIG".toList
  | .COPY => ascii "COPY".toList
  | .DBSIZE => ascii "DBSIZE".toList
  | .DEBUG => ascii "DEBUG".toList
  | .DECR => ascii "DECR".toList
  | .DECRBY => ascii "DECRBY".toList
  | .DEL => ascii "DEL".toList
  | .DISCARD => ascii "DISCARD".toList
  | .DUMP => ascii "DUMP".toList
  | .ECHO => ascii "ECHO".toList
  | .EVAL => ascii "EVAL".toList
  | .EVALSHA => ascii "EVALSHA".toList
  | .EXEC => ascii "EXEC".toList
  | .EXISTS => ascii "EXISTS".toList
  | .EXPIRE => ascii "EXPIRE".toList
  | .EXPIREAT => ascii "EXPIREAT".toList
  | .EXPIRETIME => ascii "EXPIRETIME".toList
  | .FAILOVER => ascii "FAILOVER".toList
  | .FCALL => ascii "FCALL".toList
  | .FCALL_RO => ascii "FCALL_RO".toList
  | .FLUSHALL => ascii "FLUSHALL".toList
  | .FLUSHDB => ascii "FLUSHDB".toList
  | .FUNCTION => ascii "FUNCTION".toList
  | .GEOADD => ascii "GEOADD".toList
  | .GEODIST => ascii "GEODIST".toList
  | .GEOHASH => ascii "GEOHASH".toList
  | .GEOPOS => ascii "GEOPOS".toList
  | .GEORADIUS => ascii "GEORADIUS".toList
  | .GEORADIUSBYMEMBER => ascii "GEORADIUSBYMEMBER".toList
  | .GEORADIUSBYMEMBER_RO => ascii "GEORADIUSBYMEMBER_RO".toList
  | .GEORADIUS_RO => ascii "GEORADIUS_RO".toList
  | .GEOSEARCH => ascii "GEOSEARCH".toList
  | .GEOSEARCHSTORE => ascii "GEOSEARCHSTORE".toList
  | .GET => ascii "GET".toList
  | .GETBIT => ascii "GETBIT".toList
  | .GETDEL => ascii "GETDEL".toList
  | .GETEX => ascii "GETEX".toList
  | .GETRANGE => ascii "GETRANGE".toList
  | .GETSET => ascii "GETSET".toList
  | .HDEL => ascii "HDEL".toList
  | .HELLO => ascii "HELLO".toList
  | .HEXISTS => ascii "HEXISTS".toList
  | .HEXPIRE => ascii "HEXPIRE".toList
  | .HEXPIREAT => ascii "HEXPIREAT".toList
  | .HEXPIRETIME => ascii "HEXPIRETIME".toList
  | .HGET => ascii "HGET".toList
  | .HGETALL => ascii "HGETALL".toList
  | .HINCRBY => ascii "HINCRBY".toList
  | .HINCRBYFLOAT => ascii "HINCRBYFLOAT".toList
  | .HKEYS => ascii "HKEYS".toList
  | .HLEN => ascii "HLEN".toList
  | .HMGET => ascii "HMGET".toList
  | .HMSET => ascii "HMSET".toList
  | .HPERSIST => ascii "HPERSIST".toList
  | .HPEXPIRE => ascii "HPEXPIRE".toList
  | .HPEXPIREAT => ascii "HPEXPIREAT".toList
  | .HPEXPIRETIME => ascii "HPEXPIRETIME".toList
  | .HPTTL => ascii "HPTTL".toList
  | .HRANDFIELD => ascii "HRANDFIELD".toList
  | .HSCAN => ascii "HSCAN".toList
  | .HSET => ascii "HSET".toList
  | .HSETNX => ascii "HSETNX".toList
  | .HSTRLEN => ascii "HSTRLEN".toList
  | .HTTL => ascii "HTTL".toList
  | .HVALS => ascii "HVALS".toList
  | .INCR => ascii "INCR".toList
  | .INCRBY => ascii "INCRBY".toList
  | .INCRBYFLOAT => ascii "INCRBYFLOAT".toList
  | .INFO => ascii "INFO".toList
  | .KEYS => ascii "KEYS".toList
  | .LASTSAVE => ascii "LASTSAVE".toList
  | .LATENCY => ascii "LATENCY".toList
  | .LCS => ascii "LCS".toList
  | .LINDEX => ascii "LINDEX".toList
  | .LINSERT => ascii "LINSERT".toList
  | .LLEN => ascii "LLEN".toList
  | .LMOVE => ascii "LMOVE".toList
  | .LMPOP => ascii "LMPOP".toList
  | .LPOP => ascii "LPOP".toList
  | .LPOS => ascii "LPOS".toList
  | .LPUSH => ascii "LPUSH".toList
  | .LRANGE => ascii "LRANGE".toList
  | .LREM => ascii "LREM".toList
  | .LSET => ascii "LSET".toList
  | .LTRIM => ascii "LTRIM".toList
  | .MEMORY => ascii "MEMORY".toList
  | .MGET => ascii "MGET".toList
  | .MIGRATE => ascii "MIGRATE".toList
  | .MONITOR => ascii "MONITOR".toList
  | .MOVE => ascii "MOVE".toList
  | .MSET => ascii "MSET".toList
  | .MSETNX => ascii "MSETNX".toList
  | .MULTI => ascii "MULTI".toList
  | .OBJECT => ascii "OBJECT".toList
  | .PERSIST => ascii "PERSIST".toList
  | .PEXPIRE => ascii "PEXPIRE".toList
  | .PEXPIREAT => ascii "PEXPIREAT".toList
  | .PEXPIRETIME => ascii "PEXPIRETIME".toList
  | .PFADD => ascii "PFADD".toList
  | .PFCOUNT => ascii "PFCOUNT".toList
  | .PFMERGE => ascii "PFMERGE".toList
  | .PING => ascii "PING".toList
  | .PSETEX => ascii "PSETEX".toList
  | .PSUBSCRIBE => ascii "PSUBSCRIBE".toList
  | .PSYNC => ascii "PSYNC".toList
  | .PTTL => ascii "PTTL".toList
  | .PUBLISH => ascii "PUBLISH".toList
  | .PUBSUB => ascii "PUBSUB".toList
  | .PUNSUBSCRIBE => ascii "PUNSUBSCRIBE".toList
  | .QUIT => ascii "QUIT".toList
  | .RANDOMKEY => ascii "RANDOMKEY".toList
  | .READONLY => ascii "READONLY".toList
  | .READWRITE => ascii "READWRITE".toList
  | .RENAME => ascii "RENAME".toList
  | .RENAMENX => ascii "RENAMENX".toList
  | .REPLCONF => ascii "REPLCONF".toList
  | .REPLICAOF => ascii "REPLICAOF".toList
  | .RESET => ascii "RESET".toList
  | .RESTORE => ascii "RESTORE".toList
  | .ROLE => ascii "ROLE".toList
  | .RPOP => ascii "RPOP".toList
  | .RPOPLPUSH => ascii "RPOPLPUSH".toList
  | .RPUSH => ascii "RPUSH".toList
  | .SADD => ascii "SADD".toList
  | .SAVE => ascii "SAVE".toList
  | .SCAN => ascii "SCAN".toList
  | .SCARD => ascii "SCARD".toList
  | .SCRIPT => ascii "SCRIPT".toList
  | .SDIFF => ascii "SDIFF".toList
  | .SDIFFSTORE => ascii "SDIFFSTORE".toList
  | .SELECT => ascii "SELECT".toList
  | .SENTINEL => ascii "SENTINEL".toList
  | .SET => ascii "SET".toList
  | .SETBIT => ascii "SETBIT".toList
  | .SETEX => ascii "SETEX".toList
  | .SETNX => ascii "SETNX".toList
  | .SETRANGE => ascii "SETRANGE".toList
  | .SHUTDOWN => ascii "SHUTDOWN".toList
  | .SINTER => ascii "SINTER".toList
  | .SINTERCARD => ascii "SINTERCARD".toList
  | .SINTERSTORE => ascii "SINTERSTORE".toList
  | .SISMEMBER => ascii "SISMEMBER".toList
  | .SLAVEOF => ascii "SLAVEOF".toList
  | .SLOWLOG => ascii "SLOWLOG".toList
  | .SMEMBERS => ascii "SMEMBERS".toList
  | .SMISMEMBER => ascii "SMISMEMBER".toList
  | .SMOVE => ascii "SMOVE".toList
  | .SORT => ascii "SORT".toList
  | .SORT_RO => ascii "SORT_RO".toList
  | .SPOP => ascii "SPOP".toList
  | .SPUBLISH => ascii "SPUBLISH".toList
  | .SRANDMEMBER => ascii "SRANDMEMBER".toList
  | .SREM => ascii "SREM".toList
  | .SSCAN => ascii "SSCAN".toList
  | .SSUBSCRIBE => ascii "SSUBSCRIBE".toList
  | .STRLEN => ascii "STRLEN".toList
  | .SUBSCRIBE => ascii "SUBSCRIBE".toList
  | .SUBSTR => ascii "SUBSTR".toList
  | .SUNION => ascii "SUNION".toList
  | .SUNIONSTORE => ascii "SUNIONSTORE".toList
  | .SUNSUBSCRIBE => ascii "SUNSUBSCRIBE".toList
  | .SWAPDB => ascii "SWAPDB".toList
  | .SYNC => ascii "SYNC".toList
  | .TIME => ascii "TIME".toList
  | .TOUCH => ascii "TOUCH".toList
  | .TTL => ascii "TTL".toList
  | .TYPE => ascii "TYPE".toList
  | .UNLINK => ascii "UNLINK".toList
  | .UNSUBSCRIBE => ascii "UNSUBSCRIBE".toList
  | .UNWATCH => ascii "UNWATCH".toList
  | .VADD => ascii "VADD".toList
  | .VCARD => ascii "VCARD".toList
  | .VDIM => ascii "VDIM".toList
  | .VEMB => ascii "VEMB".toList
  | .VRANDMEMBER => ascii "VRANDMEMBER".toList
  | .VREM => ascii "VREM".toList
  | .VSIM => ascii "VSIM".toList
  | .WAIT => ascii "WAIT".toList
  | .WAITAOF => ascii "WAITAOF".toList
  | .WATCH => ascii "WATCH".toList
  | .XACK => ascii "XACK".toList
  | .XADD => ascii "XADD".toList
  | .XAUTOCLAIM => ascii "XAUTOCLAIM".toList
  | .XCLAIM => ascii "XCLAIM".toList
  | .XDEL => ascii "XDEL".toList
  | .XGROUP => ascii "XGROUP".toList
  | .XINFO => ascii "XINFO".toList
  | .XLEN => ascii "XLEN".toList
  | .XPENDING => ascii "XPENDING".toList
  | .XRANGE => ascii "XRANGE".toList
  | .XREAD => ascii "XREAD".toList
  | .XREADGROUP => ascii "XREADGROUP".toList
  | .XREVRANGE => ascii "XREVRANGE".toList
  | .XSETID => ascii "XSETID".toList
  | .XTRIM => ascii "XTRIM".toList
  | .ZADD => ascii "ZADD".toList
  | .ZCARD => ascii "ZCARD".toList
  | .ZCOUNT => ascii "ZCOUNT".toList
  | .ZDIFF => ascii "ZDIFF".toList
  | .ZDIFFSTORE => ascii "ZDIFFSTORE".toList
  | .ZINCRBY => ascii "ZINCRBY".toList
  | .ZINTER => ascii "ZINTER".toList
  | .ZINTERCARD => ascii "ZINTERCARD".toList
  | .ZINTERSTORE => ascii "ZINTERSTORE".toList
  | .ZMPOP => ascii "ZMPOP".toList
  | .ZMSCORE => ascii "ZMSCORE".toList
  | .ZPOPMAX => ascii "ZPOPMAX".toList
  | .ZPOPMIN => ascii "ZPOPMIN".toList
  | .ZRANDMEMBER => ascii "ZRANDMEMBER".toList
  | .ZRANGE => ascii "ZRANGE".toList
  | .ZRANGEBYLEX => ascii "ZRANGEBYLEX".toList
  | .ZRANGEBYSCORE => ascii "ZRANGEBYSCORE".toList
  | .ZRANGESTORE => ascii "ZRANGESTORE".toList
  | .ZRANK => ascii "ZRANK".toList
  | .ZREM => ascii "ZREM".toList
  | .ZREMRANGEBYLEX => ascii "ZREMRANGEBYLEX".toList
  | .ZREMRANGEBYRANK => ascii "ZREMRANGEBYRANK".toList
  | .ZREMRANGEBYSCORE => ascii "ZREMRANGEBYSCORE".toList
  | .ZREVRANGE => ascii "ZREVRANGE".toList
  | .ZREVRANGEBYLEX => ascii "ZREVRANGEBYLEX".toList
  | .ZREVRANGEBYSCORE => ascii "ZREVRANGEBYSCORE".toList
  | .ZREVRANK => ascii "ZREVRANK".toList
  | .ZSCAN => ascii "ZSCAN".toList
  | .ZSCORE => ascii "ZSCORE".toList
  | .ZUNION => ascii "ZUNION".toList
  | .ZUNIONSTORE => ascii "ZUNIONSTORE".toList

/-- Command categories. -/
inductive Category where
  | admin | bitmap | connection | dangerous | geo | hash | hyperloglog | keyspace | list | pubsub
  | scripting | server | set | sortedset | stream | string | transaction | vectorset
  deriving DecidableEq, Repr

/-- The name of a category. -/
def Category.name : Category → Bytes
  | .admin => ascii "admin".toList
  | .bitmap => ascii "bitmap".toList
  | .connection => ascii "connection".toList
  | .dangerous => ascii "dangerous".toList
  | .geo => ascii "geo".toList
  | .hash => ascii "hash".toList
  | .hyperloglog => ascii "hyperloglog".toList
  | .keyspace => ascii "keyspace".toList
  | .list => ascii "list".toList
  | .pubsub => ascii "pubsub".toList
  | .scripting => ascii "scripting".toList
  | .server => ascii "server".toList
  | .set => ascii "set".toList
  | .sortedset => ascii "sortedset".toList
  | .stream => ascii "stream".toList
  | .string => ascii "string".toList
  | .transaction => ascii "transaction".toList
  | .vectorset => ascii "vectorset".toList

/-- The category of a command. -/
def Cmd.category : Cmd → Category
  | .ASKING | .BGREWRITEAOF | .BGSAVE | .CLIENT | .CLUSTER | .CONFIG | .DEBUG | .FAILOVER
  | .LATENCY | .MONITOR | .PSYNC | .READONLY | .READWRITE | .REPLCONF | .REPLICAOF | .SAVE
  | .SENTINEL | .SHUTDOWN | .SLAVEOF | .SLOWLOG | .SYNC | .WAIT | .WAITAOF =>
    .admin
  | .BITCOUNT | .BITFIELD | .BITFIELD_RO | .BITOP | .BITPOS | .GETBIT | .SETBIT =>
    .bitmap
  | .ACL | .AUTH | .COMMAND | .ECHO | .HELLO | .PING | .QUIT | .RESET | .SELECT | .SWAPDB =>
    .connection
  | .INFO =>
    .dangerous
  | .GEOADD | .GEODIST | .GEOHASH | .GEOPOS | .GEORADIUS | .GEORADIUSBYMEMBER
  | .GEORADIUSBYMEMBER_RO | .GEORADIUS_RO | .GEOSEARCH | .GEOSEARCHSTORE =>
    .geo
  | .HDEL | .HEXISTS | .HEXPIRE | .HEXPIREAT | .HEXPIRETIME | .HGET | .HGETALL | .HINCRBY
  | .HINCRBYFLOAT | .HKEYS | .HLEN | .HMGET | .HMSET | .HPERSIST | .HPEXPIRE | .HPEXPIREAT
  | .HPEXPIRETIME | .HPTTL | .HRANDFIELD | .HSCAN | .HSET | .HSETNX | .HSTRLEN | .HTTL | .HVALS =>
    .hash
  | .PFADD | .PFCOUNT | .PFMERGE =>
    .hyperloglog
  | .COPY | .DBSIZE | .DEL | .DUMP | .EXISTS | .EXPIRE | .EXPIREAT | .EXPIRETIME | .FLUSHALL
  | .FLUSHDB | .KEYS | .MIGRATE | .MOVE | .OBJECT | .PERSIST | .PEXPIRE | .PEXPIREAT
  | .PEXPIRETIME | .PTTL | .RANDOMKEY | .RENAME | .RENAMENX | .RESTORE | .SCAN | .SORT | .SORT_RO
  | .TOUCH | .TTL | .TYPE | .UNLINK =>
    .keyspace
  | .BLMOVE | .BLMPOP | .BLPOP | .BRMPOP | .BRPOP | .BRPOPLPUSH | .LINDEX | .LINSERT | .LLEN
  | .LMOVE | .LMPOP | .LPOP | .LPOS | .LPUSH | .LRANGE | .LREM | .LSET | .LTRIM | .RPOP
  | .RPOPLPUSH | .RPUSH =>
    .list
  | .PSUBSCRIBE | .PUBLISH | .PUBSUB | .PUNSUBSCRIBE | .SPUBLISH | .SSUBSCRIBE | .SUBSCRIBE
  | .SUNSUBSCRIBE | .UNSUBSCRIBE =>
    .pubsub
  | .EVAL | .EVALSHA | .FCALL | .FCALL_RO | .FUNCTION | .SCRIPT =>
    .scripting
  | .LASTSAVE | .MEMORY | .ROLE | .TIME =>
    .server
  | .SADD | .SCARD | .SDIFF | .SDIFFSTORE | .SINTER | .SINTERCARD | .SINTERSTORE | .SISMEMBER
  | .SMEMBERS | .SMISMEMBER | .SMOVE | .SPOP | .SRANDMEMBER | .SREM | .SSCAN | .SUNION
  | .SUNIONSTORE =>
    .set
  | .BZMPOP | .BZPOPMAX | .BZPOPMIN | .ZADD | .ZCARD | .ZCOUNT | .ZDIFF | .ZDIFFSTORE | .ZINCRBY
  | .ZINTER | .ZINTERCARD | .ZINTERSTORE | .ZMPOP | .ZMSCORE | .ZPOPMAX | .ZPOPMIN | .ZRANDMEMBER
  | .ZRANGE | .ZRANGEBYLEX | .ZRANGEBYSCORE | .ZRANGESTORE | .ZRANK | .ZREM | .ZREMRANGEBYLEX
  | .ZREMRANGEBYRANK | .ZREMRANGEBYSCORE | .ZREVRANGE | .ZREVRANGEBYLEX | .ZREVRANGEBYSCORE
  | .ZREVRANK | .ZSCAN | .ZSCORE | .ZUNION | .ZUNIONSTORE =>
    .sortedset
  | .XACK | .XADD | .XAUTOCLAIM | .XCLAIM | .XDEL | .XGROUP | .XINFO | .XLEN | .XPENDING
  | .XRANGE | .XREAD | .XREADGROUP | .XREVRANGE | .XSETID | .XTRIM =>
    .stream
  | .APPEND | .DECR | .DECRBY | .GET | .GETDEL | .GETEX | .GETRANGE | .GETSET | .INCR | .INCRBY
  | .INCRBYFLOAT | .LCS | .MGET | .MSET | .MSETNX | .PSETEX | .SET | .SETEX | .SETNX | .SETRANGE
  | .STRLEN | .SUBSTR =>
    .string
  | .DISCARD | .EXEC | .MULTI | .UNWATCH | .WATCH =>
    .transaction
  | .VADD | .VCARD | .VDIM | .VEMB | .VRANDMEMBER | .VREM | .VSIM =>
    .vectorset

/-- The command with the given name in any letter case. -/
def lookupMeta (cmd : Bytes) : Option Cmd := Cmd.all.find? fun c => c.name == toUpper cmd

/-- How the positions of keys are found when they do not form a range. -/
inductive Custom where
  | sortStoreKey
  | evalKeys
  | numkeysKeys (numPos keyPos : Nat)
  | zStoreKeys
  | dstSrc
  | allButLast
  | geoRadiusKeys
  | xreadKeys
  | subKeyAt1
  deriving DecidableEq, Repr

/-- Which arguments of a command are keys. A negative first position means none, a negative last
position the end, and a step below one counts as one. -/
structure KeySpec where
  first : Int
  last : Int := 0
  step : Int := 0
  custom : Option Custom := none
  deriving DecidableEq, Repr

/-- The key specification of a command. -/
def Cmd.keys : Cmd → KeySpec
  | .APPEND | .BITCOUNT | .BITFIELD | .BITFIELD_RO | .BITPOS | .DECR | .DECRBY | .DEL | .DUMP
  | .EXISTS | .EXPIRE | .EXPIREAT | .EXPIRETIME | .GEOADD | .GEODIST | .GEOHASH | .GEOPOS
  | .GEORADIUSBYMEMBER_RO | .GEORADIUS_RO | .GEOSEARCH | .GET | .GETBIT | .GETDEL | .GETEX
  | .GETRANGE | .GETSET | .HDEL | .HEXISTS | .HEXPIRE | .HEXPIREAT | .HEXPIRETIME | .HGET
  | .HGETALL | .HINCRBY | .HINCRBYFLOAT | .HKEYS | .HLEN | .HMGET | .HMSET | .HPERSIST
  | .HPEXPIRE | .HPEXPIREAT | .HPEXPIRETIME | .HPTTL | .HRANDFIELD | .HSCAN | .HSET | .HSETNX
  | .HSTRLEN | .HTTL | .HVALS | .INCR | .INCRBY | .INCRBYFLOAT | .LINDEX | .LINSERT | .LLEN
  | .LPOP | .LPOS | .LPUSH | .LRANGE | .LREM | .LSET | .LTRIM | .MOVE | .PERSIST | .PEXPIRE
  | .PEXPIREAT | .PEXPIRETIME | .PFADD | .PSETEX | .PTTL | .RESTORE | .RPOP | .RPUSH | .SADD
  | .SCARD | .SET | .SETBIT | .SETEX | .SETNX | .SETRANGE | .SISMEMBER | .SMEMBERS | .SMISMEMBER
  | .SORT_RO | .SPOP | .SRANDMEMBER | .SREM | .SSCAN | .STRLEN | .SUBSTR | .TTL | .TYPE | .UNLINK
  | .VADD | .VCARD | .VDIM | .VEMB | .VRANDMEMBER | .VREM | .VSIM | .XACK | .XADD | .XAUTOCLAIM
  | .XCLAIM | .XDEL | .XLEN | .XPENDING | .XRANGE | .XREVRANGE | .XSETID | .XTRIM | .ZADD
  | .ZCARD | .ZCOUNT | .ZINCRBY | .ZMSCORE | .ZPOPMAX | .ZPOPMIN | .ZRANDMEMBER | .ZRANGE
  | .ZRANGEBYLEX | .ZRANGEBYSCORE | .ZRANK | .ZREM | .ZREMRANGEBYLEX | .ZREMRANGEBYRANK
  | .ZREMRANGEBYSCORE | .ZREVRANGE | .ZREVRANGEBYLEX | .ZREVRANGEBYSCORE | .ZREVRANK | .ZSCAN
  | .ZSCORE =>
    { first := 0 }
  | .ACL | .ASKING | .AUTH | .BGREWRITEAOF | .BGSAVE | .CLIENT | .CLUSTER | .COMMAND | .CONFIG
  | .DBSIZE | .DEBUG | .DISCARD | .ECHO | .EXEC | .FAILOVER | .FLUSHALL | .FLUSHDB | .FUNCTION
  | .HELLO | .INFO | .KEYS | .LASTSAVE | .LATENCY | .MEMORY | .MONITOR | .MULTI | .PING
  | .PSUBSCRIBE | .PSYNC | .PUBLISH | .PUBSUB | .PUNSUBSCRIBE | .QUIT | .RANDOMKEY | .READONLY
  | .READWRITE | .REPLCONF | .REPLICAOF | .RESET | .ROLE | .SAVE | .SCAN | .SCRIPT | .SELECT
  | .SENTINEL | .SHUTDOWN | .SLAVEOF | .SLOWLOG | .SPUBLISH | .SSUBSCRIBE | .SUBSCRIBE
  | .SUNSUBSCRIBE | .SWAPDB | .SYNC | .TIME | .TOUCH | .UNSUBSCRIBE | .UNWATCH | .WAIT | .WAITAOF =>
    { first := -1 }
  | .MGET | .PFCOUNT | .PFMERGE | .SDIFF | .SDIFFSTORE | .SINTER | .SINTERSTORE | .SUNION
  | .SUNIONSTORE | .WATCH =>
    { first := 0, last := -1 }
  | .BLMOVE | .BRPOPLPUSH | .COPY | .LCS | .LMOVE | .RENAME | .RENAMENX | .RPOPLPUSH | .SMOVE =>
    { first := 0, last := 1 }
  | .LMPOP | .SINTERCARD | .ZDIFF | .ZINTER | .ZINTERCARD | .ZMPOP | .ZUNION =>
    { first := 0, custom := some (.numkeysKeys 0 1) }
  | .BLMPOP | .BRMPOP | .BZMPOP | .FCALL | .FCALL_RO =>
    { first := 0, custom := some (.numkeysKeys 1 2) }
  | .BLPOP | .BRPOP | .BZPOPMAX | .BZPOPMIN =>
    { first := 0, custom := some .allButLast }
  | .OBJECT | .XGROUP | .XINFO =>
    { first := 0, custom := some .subKeyAt1 }
  | .ZDIFFSTORE | .ZINTERSTORE | .ZUNIONSTORE =>
    { first := 0, custom := some .zStoreKeys }
  | .EVAL | .EVALSHA =>
    { first := 0, custom := some .evalKeys }
  | .GEORADIUS | .GEORADIUSBYMEMBER =>
    { first := 0, custom := some .geoRadiusKeys }
  | .GEOSEARCHSTORE | .ZRANGESTORE =>
    { first := 0, custom := some .dstSrc }
  | .MSET | .MSETNX =>
    { first := 0, last := -1, step := 2 }
  | .XREAD | .XREADGROUP =>
    { first := 0, custom := some .xreadKeys }
  | .BITOP =>
    { first := 1, last := -1 }
  | .MIGRATE =>
    { first := 2, last := 2 }
  | .SORT =>
    { first := 0, custom := some .sortStoreKey }

/-- Every other word, from the first one on, where keys and values alternate. -/
def evens {α : Type} : List α → List α
  | a :: _ :: rest => a :: evens rest
  | [a] => [a]
  | [] => []

end Gedis.Acl
