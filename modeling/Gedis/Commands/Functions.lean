import Gedis.Core.OrdMap
import Gedis.Core.Run
import Gedis.Protocol.Value

/-!
# The function registry

Libraries of functions are loaded from source text and kept under their names. A second index leads
from the lower-cased name of a function to its library. Compiling is a parameter: it gives a name and
at least one function, without two of the same name up to case.
-/

namespace Gedis.Commands

open Gedis.Core Protocol

/-- A function as its library registers it. -/
structure FnDef where
  name : Bytes
  desc : Option Bytes := none
  flags : List Bytes := []
  deriving DecidableEq, Repr

/-- The name in the index. -/
def FnDef.key (d : FnDef) : Bytes := toLower d.name

/-- What the source text of a library registers. -/
structure Compiled where
  name : Bytes
  funcs : List FnDef
  nonempty : funcs ≠ []
  distinct : (funcs.map FnDef.key).Nodup
  deriving DecidableEq

/-- A library. -/
structure FnLibrary extends Compiled where
  code : Bytes
  deriving DecidableEq

/-- An entry of the index. -/
structure FnRef where
  libName : Bytes
  lib : FnLibrary
  defn : FnDef
  deriving DecidableEq

/-- The libraries by name and the functions by lower-cased name. -/
structure FnRegistry where
  libs : OrdMap Bytes FnLibrary := ∅
  fns : OrdMap Bytes FnRef := ∅

/-- Take a function out of the index if it is in there for the library. -/
def dropFunc (name : Bytes) (fns : OrdMap Bytes FnRef) (d : FnDef) : OrdMap Bytes FnRef :=
  match fns[d.key]? with
  | some ref => if ref.libName = name then fns.erase d.key else fns
  | none => fns

/-- Take the functions of a library out of the index. -/
def dropFuncs (name : Bytes) (fns : OrdMap Bytes FnRef) (funcs : List FnDef) : OrdMap Bytes FnRef :=
  funcs.foldl (dropFunc name) fns

/-- Put functions into the index. -/
def indexFuncs (lib : FnLibrary) (fns : OrdMap Bytes FnRef) (funcs : List FnDef) :
    OrdMap Bytes FnRef :=
  funcs.foldl (fun fns d => fns.insert d.key ⟨lib.name, lib, d⟩) fns

/-- The index before the functions of a library enter it: with `replace`, those of the library that
had its name are taken out. -/
def commitBase (r : FnRegistry) (lib : FnLibrary) (replace : Bool) : OrdMap Bytes FnRef :=
  if replace then
    match r.libs[lib.name]? with
    | some old => dropFuncs lib.name r.fns old.funcs
    | none => r.fns
  else r.fns

/-- Enter a library. -/
def commit (r : FnRegistry) (lib : FnLibrary) (replace : Bool) : FnRegistry where
  libs := r.libs.insert lib.name lib
  fns := indexFuncs lib (commitBase r lib replace) lib.funcs

/-- Enter libraries one after the other. -/
def commitAll (r : FnRegistry) (libs : List FnLibrary) (replace : Bool) : FnRegistry :=
  libs.foldl (fun r lib => commit r lib replace) r

/-- The first function of a library whose name is taken. Under `replace` the names of the library
that it replaces are free. -/
def takenFunc (r : FnRegistry) (lib : FnLibrary) (replace : Bool) : Option FnDef :=
  lib.funcs.find? fun d =>
    match r.fns[d.key]? with
    | some ref => !(replace && ref.libName == lib.name)
    | none => false

def wrongArgs (cmd : String) : Value :=
  .error (ascii ("ERR wrong number of arguments for '" ++ cmd ++ "' command").toList)

def okReply : Value := .simpleString (ascii "OK".toList)

/-- A client's text in an error line: line breaks at its end are cut off, others become blanks. -/
def sanitizeErrText (s : Bytes) : Bytes :=
  ((s.reverse.dropWhile fun b => b == 13 || b == 10).reverse).map fun b =>
    if b = 13 ∨ b = 10 then 32 else b

def unknownOption (opt : Bytes) : Value :=
  .error (ascii "ERR Unknown option given: ".toList ++ sanitizeErrText opt)

def functionExists (d : FnDef) : Bytes :=
  ascii "ERR Function ".toList ++ d.name ++ ascii " already exists".toList

def badPayload : Value := .error (ascii "ERR DUMP payload version or checksum are wrong".toList)

section
variable (compile : Bytes → Except Bytes Compiled)

/-- Compile a source text, which stays with the library. -/
def compileLibrary (code : Bytes) : Except Bytes FnLibrary :=
  match compile code with
  | .error e => .error e
  | .ok c => .ok { c with code }

/-- Load a source text. -/
def loadCode (r : FnRegistry) (replace : Bool) (code : Bytes) : FnRegistry × Value :=
  match compileLibrary compile code with
  | .error e => (r, .error e)
  | .ok lib =>
    if r.libs[lib.name]?.isSome && !replace then
      (r, .error (ascii "ERR Library '".toList ++ lib.name ++ ascii "' already exists".toList))
    else
      match takenFunc r lib replace with
      | some d => (r, .error (functionExists d))
      | none => (commit r lib replace, bulkOf lib.name)

/-- `FUNCTION LOAD [REPLACE] code`. -/
def load (r : FnRegistry) : List Arg → FnRegistry × Value
  | [] => (r, wrongArgs "function|load")
  | [none] => (r, wrongArgs "function|load")
  | [some code] => loadCode compile r false code
  | none :: _ :: _ => (r, wrongArgs "function|load")
  | some opt :: code :: extra =>
    if ¬ equalFold opt (ascii "REPLACE".toList) then (r, unknownOption opt)
    else
      match code, extra with
      | none, _ => (r, wrongArgs "function|load")
      | some code, [] => loadCode compile r true code
      | some _, arg :: _ => (r, unknownOption (arg.getD []))

/-- `FUNCTION DELETE name`. -/
def deleteLibrary (r : FnRegistry) : List Arg → FnRegistry × Value
  | [some name] =>
    match r.libs[name]? with
    | none => (r, .error (ascii "ERR Library not found".toList))
    | some lib =>
      ({ libs := r.libs.erase name, fns := dropFuncs name r.fns lib.funcs }, okReply)
  | _ => (r, wrongArgs "function|delete")

/-- `FUNCTION FLUSH [SYNC|ASYNC]`. -/
def flushFunctions (r : FnRegistry) : List Arg → FnRegistry × Value
  | [] => ({}, okReply)
  | [opt] =>
    if ¬ equalFold (opt.getD []) (ascii "SYNC".toList) ∧
        ¬ equalFold (opt.getD []) (ascii "ASYNC".toList) then
      (r, .error (ascii "ERR FUNCTION FLUSH only supports SYNC|ASYNC option".toList))
    else ({}, okReply)
  | _ =>
    (r, .error (ascii
      "ERR unknown subcommand or wrong number of arguments for 'FLUSH'. Try FUNCTION HELP.".toList))

/-- The text at the front of a payload, behind its length. -/
def takeText (rest : Bytes) : Option (Bytes × Bytes) :=
  match uvarint rest with
  | none => none
  | some (n, m) =>
    if n > (rest.drop m).length then none
    else some ((rest.drop m).take n, (rest.drop m).drop n)

/-- The names and source texts of `count` libraries, the last of which ends the payload. A name comes
only once. -/
def decodeLibs : Nat → List Bytes → Bytes → Option (List (Bytes × Bytes))
  | 0, _, rest => if rest.length ≠ 0 then none else some []
  | count + 1, seen, rest => do
    let (name, rest) ← takeText rest
    let (code, rest) ← takeText rest
    if name ∈ seen then none
    else
      let libs ← decodeLibs count (name :: seen) rest
      some ((name, code) :: libs)

def fnDumpMagic : Bytes := ascii "GDISFN01".toList

/-- The libraries of a payload. -/
def decodeFnDump (payload : Bytes) : Option (List (Bytes × Bytes)) :=
  if payload.take fnDumpMagic.length ≠ fnDumpMagic then none
  else
    match uvarint (payload.drop fnDumpMagic.length) with
    | none => none
    | some (count, m) =>
      let rest := (payload.drop fnDumpMagic.length).drop m
      if count > rest.length then none else decodeLibs count [] rest

/-- Compile the libraries of a payload; each must have the name that the payload gives it. -/
def compileAll : List (Bytes × Bytes) → Option (List FnLibrary)
  | [] => some []
  | (name, code) :: raws =>
    match compileLibrary compile code with
    | .error _ => none
    | .ok lib =>
      if lib.name ≠ name then none
      else
        match compileAll raws with
        | none => none
        | some libs => some (lib :: libs)

inductive RestorePolicy where
  | flush
  | append
  | replace
  deriving DecidableEq, Repr

/-- The policy that an argument names; without one the libraries are added. -/
def parsePolicy : Option Arg → Option RestorePolicy
  | none => some .append
  | some none => none
  | some (some p) =>
    if equalFold p (ascii "FLUSH".toList) then some .flush
    else if equalFold p (ascii "APPEND".toList) then some .append
    else if equalFold p (ascii "REPLACE".toList) then some .replace
    else none

/-- What stands against entering a library. Under `flush` nothing does, as the registry is emptied
first. -/
def restoreConflict (r : FnRegistry) (policy : RestorePolicy) (lib : FnLibrary) : Option Bytes :=
  if policy = .flush then none
  else if policy = .append ∧ r.libs[lib.name]?.isSome then
    some (ascii "ERR Library ".toList ++ lib.name ++ ascii " already exists".toList)
  else (takenFunc r lib (policy == .replace)).map functionExists

/-- The policy and the libraries that `FUNCTION RESTORE` enters. -/
def restorePlan (r : FnRegistry) : List Arg → Except Value (RestorePolicy × List FnLibrary)
  | [] => .error (wrongArgs "function|restore")
  | payload :: opts =>
    if opts.length > 1 then
      .error (.error (ascii
        "ERR unknown subcommand or wrong number of arguments for 'RESTORE'. Try FUNCTION HELP.".toList))
    else
      match payload with
      | none => .error (wrongArgs "function|restore")
      | some payload =>
        match parsePolicy opts.head? with
        | none =>
          .error (.error (ascii ("ERR Wrong restore policy given, value should be either FLUSH, " ++
            "APPEND or REPLACE.").toList))
        | some policy =>
          match (decodeFnDump payload).bind (compileAll compile) with
          | none => .error badPayload
          | some libs =>
            match libs.findSome? (restoreConflict r policy) with
            | some e => .error (.error e)
            | none => .ok (policy, libs)

/-- `FUNCTION RESTORE payload [FLUSH|APPEND|REPLACE]`. -/
def restoreFn (r : FnRegistry) (args : List Arg) : FnRegistry × Value :=
  match restorePlan compile r args with
  | .error reply => (r, reply)
  | .ok (policy, libs) =>
    (commitAll (if policy = .flush then {} else r) libs (policy == .replace), okReply)

/-- A subcommand with its arguments. -/
inductive FnCall where
  | load (args : List Arg)
  | delete (args : List Arg)
  | flush (args : List Arg)
  | restore (args : List Arg)
  deriving DecidableEq, Repr

def handleFunction (r : FnRegistry) : FnCall → FnRegistry × Value
  | .load args => load compile r args
  | .delete args => deleteLibrary r args
  | .flush args => flushFunctions r args
  | .restore args => restoreFn compile r args

end

end Gedis.Commands
