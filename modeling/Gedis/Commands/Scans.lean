import Gedis.Commands.Dispatch
import Gedis.Datastruct.Containers
import Gedis.Protocol.Value

/-!
# Cursor scans

`SCAN` pages through the user keys, `HSCAN`, `SSCAN` and `ZSCAN` through the elements of a container.
All of them read everything, sort it, keep the names that match the pattern, and cut out the page
that begins at the cursor.
-/

namespace Gedis.Commands

open Gedis.Core Datastruct Protocol Storage

/-- The scan commands. -/
inductive ScanCommand where
  | scan | hscan | sscan | zscan
  deriving DecidableEq, Repr

/-- The lone star, which is the default pattern. -/
def starPattern : Bytes := [42]

/-- The options of a scan. -/
structure ScanOptions where
  pattern : Bytes := starPattern
  count : Int64 := 10
  typeFilter : Bytes := []
  noValues : Bool := false
  deriving DecidableEq, Repr

def errRange : String := "ERR value is not an integer or out of range"

def errSyntax : String := "ERR syntax error"

/-- A number that is not negative. -/
def readNatural (text : Bytes) : Except String Int64 :=
  match parseInt text with
  | none => .error errRange
  | some n => if n < 0 then .error errRange else .ok n

/-- The options behind the cursor. `TYPE` is an option of `SCAN` only, `NOVALUES` of `HSCAN` only. -/
def scanOptions (cmd : ScanCommand) : ScanOptions → List Arg → Except String ScanOptions
  | o, [] => .ok o
  | _, none :: _ => .error errSyntax
  | o, some name :: rest =>
    if toUpper name = ascii ['M', 'A', 'T', 'C', 'H'] then
      match rest with
      | some pattern :: rest => scanOptions cmd { o with pattern } rest
      | _ => .error errSyntax
    else if toUpper name = ascii ['C', 'O', 'U', 'N', 'T'] then
      match rest with
      | some n :: rest =>
        match readNatural n with
        | .error text => .error text
        | .ok count => scanOptions cmd { o with count } rest
      | _ => .error errSyntax
    else if cmd = .scan ∧ toUpper name = ascii ['T', 'Y', 'P', 'E'] then
      match rest with
      | some typeFilter :: rest => scanOptions cmd { o with typeFilter } rest
      | _ => .error errSyntax
    else if cmd = .hscan ∧ toUpper name = ascii ['N', 'O', 'V', 'A', 'L', 'U', 'E', 'S'] then
      scanOptions cmd { o with noValues := true } rest
    else .error errSyntax

def readCursor : Arg → Except String Int64
  | none => .error "ERR invalid cursor"
  | some text => readNatural text

/-- Library functions: path patterns other than a lone star, where a malformed pattern matches
nothing, and the text of a score. -/
structure ScanLibrary where
  glob : Bytes → Bytes → Bool
  formatScore : UInt64 → Bytes

variable (lib : ScanLibrary)

/-- The names that `path.Match` accepts. A star does not match across a slash. -/
def pathMatch (pattern name : Bytes) : Bool :=
  if pattern = starPattern then !name.contains 47 else lib.glob pattern name

/-- The page at a cursor and the next cursor. The end of the page is computed in 64 bits; when it
wraps around, making room for the page panics. -/
def page {α : Type} (cursor count : Int64) (matched : List α) : Go (Int64 × List α) :=
  let len : Int := matched.length
  let cursor := min cursor.toInt len
  let stop := (cursor + count.toInt).bmod (2 ^ 64)
  let (stop, next) := if len ≤ stop then (len, 0) else (stop, stop)
  if stop < cursor then .error .makeSlice
  else .ok (Int64.ofInt next, (matched.drop cursor.toNat).take (stop - cursor).toNat)

/-- The reply of a scan: an error, or the next cursor and the bulk strings of each element. -/
inductive ScanReply where
  | error (text : String)
  | page (next : Int64) (elems : List (List Bytes))
  deriving DecidableEq, Repr

/-- The elements of a scan by name, each with what is sent for it. -/
abbrev Elements := List (Bytes × List Bytes)

def respond (o : ScanOptions) (cursor : Int64) (elems : Elements) : Go ScanReply := do
  let (next, window) ← page cursor o.count (elems.filter fun e => pathMatch lib o.pattern e.1)
  pure (.page next (window.map Prod.snd))

/-- Read the arguments and the elements, and cut out the page. -/
def scanWith (cmd : ScanCommand) (cursor : Arg) (opts : List Arg)
    (elements : ScanOptions → Handler (Except (Fault String) Elements)) :
    Handler (Go ScanReply) :=
  match readCursor cursor with
  | .error text => pure (.ok (.error text))
  | .ok cursor =>
    match scanOptions cmd {} opts with
    | .error text => pure (.ok (.error text))
    | .ok o => do
      match ← elements o with
      | .error (.failed text) => pure (.ok (.error text))
      | .error (.panicked p) => pure (.error p)
      | .ok elems => pure (respond lib o cursor elems)

/-- Move an element from the end towards the front past greater ones. The list is reversed. -/
def sift {α : Type} (less : α → α → Bool) (x : α) : List α → List α
  | [] => [x]
  | y :: ys => if less x y then y :: sift less x ys else x :: y :: ys

def sortBy {α : Type} (less : α → α → Bool) (xs : List α) : List α :=
  (xs.foldl (fun sorted x => sift less x sorted) []).reverse

/-- By name. Names are distinct, so every way of sorting them gives the same. -/
def nameLess {α : Type} (x y : Bytes × α) : Bool := compare x.1 y.1 = .lt

def typeName (t : UInt8) : Bytes :=
  if t = typeString then ascii ['s', 't', 'r', 'i', 'n', 'g']
  else if t = typeHash then ascii ['h', 'a', 's', 'h']
  else if t = typeList then ascii ['l', 'i', 's', 't']
  else if t = typeSet then ascii ['s', 'e', 't']
  else if t = typeZSet then ascii ['z', 's', 'e', 't']
  else if t = typeHLL then ascii ['s', 't', 'r', 'i', 'n', 'g']
  else if t = typeStream then ascii ['s', 't', 'r', 'e', 'a', 'm']
  else if t = typeVector then ascii ['v', 'e', 'c', 't', 'o', 'r', 's', 'e', 't']
  else ascii ['n', 'o', 'n', 'e']

/-- The names whose record is there, can be decoded and has not expired, with their types. -/
def liveTypes (now : Int64) : List (Bytes × Bytes) → Handler (List (Bytes × UInt8))
  | [] => pure []
  | (name, raw) :: found => do
    match ← Kv.get raw with
    | none => liveTypes now found
    | some value =>
      match decode value with
      | none => liveTypes now found
      | some e =>
        if expired e now then liveTypes now found
        else do
          let rest ← liveTypes now found
          pure ((name, e.typ) :: rest)

/-- The user keys, sorted by name. -/
def keyElements (o : ScanOptions) : Handler (Except (Fault String) Elements) := do
  let found ← scanUserKeys typePrefixes []
  let now ← Kv.now
  let typed ← liveTypes now found
  let wanted := (sortBy nameLess typed).filter fun k =>
    o.typeFilter = [] || equalFold (typeName k.2) o.typeFilter
  pure (.ok (wanted.map fun k => (k.1, [k.1])))

/-- The fields of a hash, sorted by name from the order in which the map is enumerated. -/
def hashElements (order : List Nat) (key : Bytes) (o : ScanOptions) :
    Handler (Except (Fault String) Elements) := do
  match ← readHash key with
  | .error f => pure (.error (.failed f.message))
  | .ok none => pure (.ok [])
  | .ok (some (m, _)) =>
    let sorted := sortBy nameLess (arrange order m.toList)
    pure (.ok (sorted.map fun f => (f.1, if o.noValues then [f.1] else [f.1, f.2])))

/-- Read a record of a kind and decode its payload. -/
def readDecoded {α : Type} (kind : Kind) (dec : Bytes → Decoder (α × UInt8)) (key : Bytes) :
    Handler (Except (Fault String) (Option α)) := do
  match ← readKind kind key with
  | .error f => pure (.error (.failed f.message))
  | .ok none => pure (.ok none)
  | .ok (some e) =>
    match (dec e.payload).result with
    | .error (.failed err) => pure (.error (.failed err.message))
    | .error (.panicked p) => pure (.error (.panicked p))
    | .ok (x, _) => pure (.ok (some x))

def readSet (maxAlloc : Nat) (key : Bytes) : Handler (Except (Fault String) (Option Members)) :=
  readDecoded .set (decodeSet maxAlloc) key

def readZSet (maxAlloc : Nat) (key : Bytes) : Handler (Except (Fault String) (Option Scores)) :=
  readDecoded .zset (decodeZSet maxAlloc) key

def setElements (maxAlloc : Nat) (order : List Nat) (key : Bytes) :
    Handler (Except (Fault String) Elements) := do
  match ← readSet maxAlloc key with
  | .error f => pure (.error f)
  | .ok none => pure (.ok [])
  | .ok (some m) => pure (.ok ((sortBy nameLess (arrange order m.toList)).map fun e => (e.1, [e.1])))

/-- The members of a sorted set by score. -/
def zsetElements (maxAlloc : Nat) (order : List Nat) (key : Bytes) :
    Handler (Except (Fault String) Elements) := do
  match ← readZSet maxAlloc key with
  | .error f => pure (.error f)
  | .ok none => pure (.ok [])
  | .ok (some z) =>
    let sorted := sortBy pairLess (arrange order z.toList)
    pure (.ok (sorted.map fun e => (e.1, [e.1, lib.formatScore e.2])))

/-- `SCAN cursor [MATCH pattern] [COUNT n] [TYPE type]`. -/
def scan : List Arg → Handler (Go ScanReply)
  | [] => pure (.ok (.error "ERR wrong number of arguments for 'scan' command"))
  | cursor :: opts => scanWith lib .scan cursor opts keyElements

/-- A scan of the container under a key. -/
def scanKeyed (cmd : ScanCommand) (usage : String)
    (elements : Bytes → ScanOptions → Handler (Except (Fault String) Elements)) :
    List Arg → Handler (Go ScanReply)
  | none :: _ :: _ => pure (.ok (.error "ERR invalid key"))
  | some key :: cursor :: opts => scanWith lib cmd cursor opts (elements key)
  | _ => pure (.ok (.error usage))

/-- `HSCAN key cursor [MATCH pattern] [COUNT n] [NOVALUES]`. -/
def hscan (order : List Nat) (args : List Arg) : Handler (Go ScanReply) :=
  scanKeyed lib .hscan "ERR wrong number of arguments for 'hscan' command" (hashElements order) args

/-- `SSCAN key cursor [MATCH pattern] [COUNT n]`. -/
def sscan (maxAlloc : Nat) (order : List Nat) (args : List Arg) : Handler (Go ScanReply) :=
  scanKeyed lib .sscan "ERR wrong number of arguments for 'sscan' command"
    (fun key _ => setElements maxAlloc order key) args

/-- `ZSCAN key cursor [MATCH pattern] [COUNT n]`. -/
def zscan (maxAlloc : Nat) (order : List Nat) (args : List Arg) : Handler (Go ScanReply) :=
  scanKeyed lib .zscan "ERR wrong number of arguments for 'zscan' command"
    (fun key _ => zsetElements lib maxAlloc order key) args

end Gedis.Commands
