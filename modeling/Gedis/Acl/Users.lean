import Gedis.Acl.Commands
import Gedis.Core.OrdMap
import Gedis.Core.Run

/-!
# Users and their permissions

The user table, the rule language that builds user records, and the three-stage check: the command
against ordered rules, every key against the key patterns, and every channel against the channel
patterns. A record also has selectors, each a complete set of rules and patterns of its own.
-/

namespace Gedis.Acl

open Gedis.Core

/-- Library functions: the password digest and glob matching of paths. -/
structure Library where
  sha256 : Bytes → Bytes
  /-- A malformed pattern matches nothing. -/
  pathMatch : Bytes → Bytes → Bool

/-- Allow or forbid a command or a category. -/
structure RuleOp where
  allow : Bool
  token : Bytes
  deriving DecidableEq, Repr

/-- A parenthesized group of rules. -/
structure Selector where
  cmds : List RuleOp := []
  keys : List Bytes := []
  chans : List Bytes := []
  deriving DecidableEq, Repr

/-- A user record. -/
structure User where
  on : Bool := false
  noPass : Bool := false
  passHash : Bytes := []
  hasPass : Bool := false
  rules : List RuleOp := []
  keyPatterns : List Bytes := []
  channels : List Bytes := []
  selectors : List Selector := []
  deriving DecidableEq, Repr

/-- The user table. -/
abbrev Store := OrdMap Bytes User

def defaultUser : Bytes := ascii "default".toList

/-- The rule that allows every command. -/
def allowAll : RuleOp := ⟨true, ascii "@all".toList⟩

/-- The table of a new server. -/
def newStore : Store :=
  (∅ : Store).insert defaultUser { on := true, noPass := true, rules := [allowAll] }

/-- Errors of the rule language. -/
inductive RuleError where
  | invalidSelectorRule (r : Bytes)
  /-- A closing parenthesis without an open selector. -/
  | unexpectedClose
  | invalidPasswordHash (r : Bytes)
  | unknownRule (r : Bytes)
  | unclosedSelector
  deriving DecidableEq, Repr

/-- The value of a hexadecimal digit. -/
def hexDigit (b : UInt8) : Option UInt8 :=
  if 48 ≤ b ∧ b ≤ 57 then some (b - 48)
  else if 97 ≤ b ∧ b ≤ 102 then some (b - 87)
  else if 65 ≤ b ∧ b ≤ 70 then some (b - 55)
  else none

/-- The bytes that a text of hexadecimal digit pairs stands for. -/
def hexDecode : Bytes → Option Bytes
  | [] => some []
  | [_] => none
  | hi :: lo :: rest => do
    let hi ← hexDigit hi
    let lo ← hexDigit lo
    let rest ← hexDecode rest
    some ((hi * 16 + lo) :: rest)

/-- A rule inside parentheses. -/
def selectorRule (cur : Selector) : Bytes → Except RuleError Selector
  | 43 :: token => .ok { cur with cmds := cur.cmds ++ [⟨true, token⟩] }
  | 45 :: token => .ok { cur with cmds := cur.cmds ++ [⟨false, token⟩] }
  | 126 :: pattern => .ok { cur with keys := cur.keys ++ [pattern] }
  | 38 :: pattern => .ok { cur with chans := cur.chans ++ [pattern] }
  | r => .error (.invalidSelectorRule r)

/-- A rule outside parentheses that starts with a sign. -/
def userRule (lib : Library) (u : User) : Bytes → Except RuleError User
  | 62 :: pass => .ok { u with passHash := lib.sha256 pass, hasPass := true }
  | 35 :: digits =>
    match hexDecode digits with
    | none => .error (.invalidPasswordHash (35 :: digits))
    | some h =>
      if h.length ≠ 32 then .error (.invalidPasswordHash (35 :: digits))
      else .ok { u with passHash := h, hasPass := true }
  | 43 :: token => .ok { u with rules := u.rules ++ [⟨true, token⟩] }
  | 45 :: token => .ok { u with rules := u.rules ++ [⟨false, token⟩] }
  | 126 :: pattern => .ok { u with keyPatterns := u.keyPatterns ++ [pattern] }
  | 38 :: pattern => .ok { u with channels := u.channels ++ [pattern] }
  | r => .error (.unknownRule r)

/-- Read rules into a record; `sel` is the selector that is open. -/
def parseRules (lib : Library) (u : User) (sel : Option Selector) :
    List Bytes → Except RuleError User
  | [] => if sel.isSome then .error .unclosedSelector else .ok u
  | r :: rs =>
    match sel with
    | some cur =>
      if r = [41] then parseRules lib { u with selectors := u.selectors ++ [cur] } none rs
      else do
        let cur ← selectorRule cur r
        parseRules lib u (some cur) rs
    | none =>
      if r = [40] then parseRules lib u (some {}) rs
      else if r = [41] then .error .unexpectedClose
      else if r = ascii "on".toList then parseRules lib { u with on := true } none rs
      else if r = ascii "off".toList then parseRules lib { u with on := false } none rs
      else if r = ascii "nopass".toList then parseRules lib { u with noPass := true } none rs
      else if r = ascii "reset".toList then parseRules lib u none rs
      else do
        let u ← userRule lib u r
        parseRules lib u none rs

/-- Replace a user by the record that the rules describe. -/
def setUser (lib : Library) (s : Store) (name : Bytes) (rules : List Bytes) :
    Except RuleError Store :=
  match parseRules lib {} none rules with
  | .error e => .error e
  | .ok u => .ok (s.insert name u)

/-- Remove a user; `none` reports that the default user cannot be removed. -/
def delUser (s : Store) (name : Bytes) : Option Store :=
  if name = defaultUser then none else some (s.erase name)

def userExists (s : Store) (name : Bytes) : Bool := s[name]?.isSome

/-- The command belongs to the category. -/
def inCategory (cmd cat : Bytes) : Bool :=
  if cat = ascii "all".toList then true
  else
    match lookupMeta cmd with
    | none => false
    | some c => c.category.name == cat

/-- A rule is about a command. -/
def ruleMatches (cmd : Bytes) (r : RuleOp) : Bool :=
  match toUpper r.token with
  | 64 :: cat => inCategory (toUpper cmd) (toLower cat)
  | tok => equalFold tok cmd

/-- The last rule about a command decides; without one the command is refused. -/
def evalRules (rules : List RuleOp) (cmd : Bytes) : Bool :=
  rules.foldl (fun allowed r => if ruleMatches cmd r then r.allow else allowed) false

inductive DenyKind where
  | command
  | key
  | channel
  deriving DecidableEq, Repr

/-- A refusal with the text that the client gets. -/
structure Denial where
  kind : DenyKind
  user : Bytes
  cmd : Bytes
  name : Bytes := []
  msg : Bytes
  deriving DecidableEq, Repr

/-- The refusal of a command. -/
def commandNOPERM (user cmd : Bytes) : Denial :=
  let cmd := toLower cmd
  let tail := ascii " to run the '".toList ++ cmd ++ ascii "' command".toList
  if user = defaultUser then
    { kind := .command, user, cmd
      msg := ascii "NOPERM this user has no permissions".toList ++ tail }
  else
    { kind := .command, user, cmd
      msg := ascii "NOPERM User ".toList ++ user ++ ascii " has no permissions".toList ++ tail }

def keyNOPERM (user cmd key : Bytes) : Denial :=
  { kind := .key, user, cmd := toLower cmd, name := key
    msg := ascii "NOPERM No permissions to access a key".toList }

def channelNOPERM (user cmd channel : Bytes) : Denial :=
  { kind := .channel, user, cmd := toLower cmd, name := channel
    msg := ascii "NOPERM No permissions to access a channel".toList }

section
variable (lib : Library)

def matchAny (patterns : List Bytes) (s : Bytes) : Bool := patterns.any fun p => lib.pathMatch p s

/-- One set of rules and patterns: the command, then the keys, then the channels. -/
def checkTriple (user cmd : Bytes) (rules : List RuleOp)
    (patterns chans keys channels : List Bytes) : Option Denial :=
  if ¬ evalRules rules cmd then some (commandNOPERM user cmd)
  else
    match keys.find? fun k => ! matchAny lib patterns k with
    | some k => some (keyNOPERM user cmd k)
    | none =>
      match channels.find? fun c => ! matchAny lib chans c with
      | some c => some (channelNOPERM user cmd c)
      | none => none

/-- The check of a record that exists. -/
def User.check (u : User) (user cmd : Bytes) (keys channels : List Bytes) : Option Denial :=
  if ¬ u.on then some (commandNOPERM user cmd)
  else
    match checkTriple lib user cmd u.rules u.keyPatterns u.channels keys channels with
    | none => none
    | some mainErr =>
      if u.selectors.any fun sel =>
          (checkTriple lib user cmd sel.cmds sel.keys sel.chans keys channels).isNone
      then none
      else some mainErr

/-- The full check. The fields of the record are read before it is known to exist. -/
def check (s : Store) (user cmd : Bytes) (keys channels : List Bytes) : Go (Option Denial) :=
  match s[user]? with
  | none => .error .nilDereference
  | some u => .ok (u.check lib user cmd keys channels)

end

/-- The check of the command alone, which reads the rules of the record first as well. -/
def canRun (s : Store) (name cmd : Bytes) : Go Bool :=
  match s[name]? with
  | none => .error .nilDereference
  | some u => .ok (u.on && evalRules u.rules cmd)

/-- The default user has to authenticate. -/
def defaultRequiresAuth (s : Store) : Bool :=
  match s[defaultUser]? with
  | none => true
  | some u => ! u.on || (! u.noPass && u.hasPass)

/-- The table is not the one with an open default user only. -/
def hasRestrictedUsers (s : Store) : Bool :=
  if s.size ≠ 1 then true
  else
    match s[defaultUser]? with
    | none => true
    | some d => ! d.noPass || d.rules != [allowAll]

end Gedis.Acl
