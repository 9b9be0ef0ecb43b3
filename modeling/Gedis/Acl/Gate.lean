import Gedis.Acl.Users

/-!
# The permission gate of the dispatcher

The dispatcher asks the user table only when the table holds anything beyond an open default user.
The decision about a user then depends on that user's record alone. The results say when skipping
the gate agrees with the full check, when a change of one user leaves the decisions about the
others as they were, and when the check returns at all.
-/

namespace Gedis.Acl

open Gedis.Core

variable {keys channels patterns : List Bytes} {s : Store} {who : Option Bytes} {user cmd : Bytes}

/-- Commands that need no permission. -/
def isAuthExempt (name : Bytes) : Bool :=
  name == Cmd.name .AUTH || name == Cmd.name .HELLO || name == Cmd.name .QUIT

/-- The decision of the gate. -/
inductive Access where
  | allowed
  /-- `NOAUTH Authentication required.` -/
  | noAuth
  | denied (d : Denial)
  deriving DecidableEq, Repr

/-- The user as which a connection acts. `who` is the name it authenticated as, if any. -/
def actingUser (who : Option Bytes) : Bytes :=
  match who with
  | some (b :: name) => b :: name
  | _ => defaultUser

/-- The connection has authenticated. -/
def isAuthed (who : Option Bytes) : Bool :=
  match who with
  | some (_ :: _) => true
  | _ => false

section
variable (lib : Library)

/-- The check behind the gate. -/
def fullCheck (s : Store) (who : Option Bytes) (name : Bytes) (keys channels : List Bytes) :
    Go Access :=
  if ! isAuthed who && defaultRequiresAuth s then .ok .noAuth
  else
    match check lib s (actingUser who) name keys channels with
    | .error p => .error p
    | .ok none => .ok .allowed
    | .ok (some d) => .ok (.denied d)

/-- The access decision of the dispatcher. -/
def gate (s : Store) (who : Option Bytes) (name : Bytes) (keys channels : List Bytes) : Go Access :=
  if hasRestrictedUsers s && ! isAuthExempt name then fullCheck lib s who name keys channels
  else .ok .allowed

end

/-- A call that changes the table. -/
inductive Change where
  | setUser (name : Bytes) (rules : List Bytes)
  | delUser (name : Bytes)
  deriving DecidableEq, Repr

/-- The user that a call is about. -/
def Change.name : Change → Bytes
  | .setUser name _ => name
  | .delUser name => name

/-- The table after a call; a call that fails leaves it unchanged. -/
def apply (lib : Library) (s : Store) : Change → Store
  | .setUser name rules =>
    match Acl.setUser lib s name rules with
    | .error _ => s
    | .ok s' => s'
  | .delUser name => (Acl.delUser s name).getD s

/-- A call leaves the records of the other users as they are. -/
theorem apply_other (lib : Library) (s : Store) {c : Change} {a : Bytes} (h : c.name ≠ a) :
    (apply lib s c)[a]? = s[a]? := by
  cases c with
  | setUser name rules =>
    simp only [apply, Acl.setUser]
    cases parseRules lib {} none rules with
    | error => rfl
    | ok => exact OrdMap.getElem?_insert.trans (if_neg h)
  | delUser =>
    simp only [apply, Acl.delUser]
    split
    · rfl
    · exact OrdMap.getElem?_erase.trans (if_neg h)

section
variable (lib : Library)

/-- Every name matches one of the patterns. -/
def Covers (patterns names : List Bytes) : Prop := ∀ n ∈ names, matchAny lib patterns n = true

instance (patterns names : List Bytes) : Decidable (Covers lib patterns names) :=
  inferInstanceAs (Decidable (∀ n ∈ names, matchAny lib patterns n = true))

/-- One set of rules and patterns admits the command with its keys and channels. -/
def Admits (rules : List RuleOp) (patterns chans : List Bytes) (cmd : Bytes)
    (keys channels : List Bytes) : Prop :=
  evalRules rules cmd = true ∧ Covers lib patterns keys ∧ Covers lib chans channels

instance (rules : List RuleOp) (patterns chans : List Bytes) (cmd : Bytes)
    (keys channels : List Bytes) : Decidable (Admits lib rules patterns chans cmd keys channels) :=
  inferInstanceAs (Decidable (_ ∧ _ ∧ _))

/-- The record is on, and its own rules or one of its selectors admit the command. -/
def User.Admits (u : User) (cmd : Bytes) (keys channels : List Bytes) : Prop :=
  u.on = true ∧
    (Acl.Admits lib u.rules u.keyPatterns u.channels cmd keys channels ∨
      ∃ sel ∈ u.selectors, Acl.Admits lib sel.cmds sel.keys sel.chans cmd keys channels)

private theorem find_uncovered {names : List Bytes} :
    (names.find? fun n => ! matchAny lib patterns n) = none ↔ Covers lib patterns names := by
  simp [Covers]

theorem checkTriple_eq_none {rules : List RuleOp} {chans : List Bytes} :
    checkTriple lib user cmd rules patterns chans keys channels = none ↔
      Acl.Admits lib rules patterns chans cmd keys channels := by
  rw [checkTriple, Acl.Admits, ← find_uncovered, ← find_uncovered]
  cases evalRules rules cmd with
  | false => simp
  | true =>
    cases keys.find? fun k => ! matchAny lib patterns k with
    | some => simp
    | none => cases channels.find? fun c => ! matchAny lib chans c <;> simp

/-- The check of a record passes exactly when the record admits the command. -/
theorem User.check_eq_none {u : User} :
    u.check lib user cmd keys channels = none ↔ u.Admits lib cmd keys channels := by
  have hsel : (u.selectors.any fun sel =>
      (checkTriple lib user cmd sel.cmds sel.keys sel.chans keys channels).isNone) = true ↔
      ∃ sel ∈ u.selectors, Acl.Admits lib sel.cmds sel.keys sel.chans cmd keys channels := by
    simp [checkTriple_eq_none]
  rw [User.check, User.Admits, ← checkTriple_eq_none lib, ← hsel]
  cases u.on with
  | false => simp
  | true =>
    cases checkTriple lib user cmd u.rules u.keyPatterns u.channels keys channels with
    | none => simp
    | some => simp

/-- The check passes exactly when the user has a record that admits the command. -/
theorem check_eq_none : check lib s user cmd keys channels = .ok none ↔
      ∃ u, s[user]? = some u ∧ u.Admits lib cmd keys channels := by
  rw [check]
  cases s[user]? with
  | none => simp
  | some => simp [User.check_eq_none]

theorem evalRules_allowAll : evalRules [allowAll] cmd = true := rfl

/-- A table that skips the gate holds a default user with the one rule that allows everything. -/
theorem rules_of_unrestricted (h : hasRestrictedUsers s = false) :
    ∃ u, s[defaultUser]? = some u ∧ u.rules = [allowAll] := by
  simp only [hasRestrictedUsers] at h
  split at h
  · simp at h
  · cases hu : s[defaultUser]? with
    | none => simp [hu] at h
    | some u =>
      simp only [hu, Bool.or_eq_false_iff] at h
      exact ⟨u, rfl, by simpa using h.2⟩

/-- In a table that skips the gate, the full check admits a command of the default user exactly
when that user is on and the keys and channels match its patterns, or a selector admits the
command. -/
theorem fastPath_admits_iff (cs : List Change)
    (h : hasRestrictedUsers (run (apply lib) newStore cs) = false) (c : Cmd)
    (keys channels : List Bytes) :
    check lib (run (apply lib) newStore cs) defaultUser c.name keys channels = .ok none ↔
      ∃ u, (run (apply lib) newStore cs)[defaultUser]? = some u ∧ u.on = true ∧
        ((Covers lib u.keyPatterns keys ∧ Covers lib u.channels channels) ∨
          ∃ sel ∈ u.selectors,
            Acl.Admits lib sel.cmds sel.keys sel.chans c.name keys channels) := by
  obtain ⟨d, hd, hrules⟩ := rules_of_unrestricted h
  rw [check_eq_none]
  simp [hd, Option.some.injEq, exists_eq_left', User.Admits, Acl.Admits, hrules, evalRules_allowAll, true_and]

/-- A library whose patterns match themselves only. -/
def exactNames : Library := ⟨id, fun p s => p == s⟩

/-- The call that gives the open default user a key pattern. -/
def openWithPattern : Change :=
  .setUser defaultUser
    [ascii "on".toList, ascii "nopass".toList, ascii "+@all".toList, ascii "~k".toList]

/-- With a pattern for the key, skipping the gate and the full check agree. -/
theorem fastPath_admits_pattern :
    hasRestrictedUsers (run (apply exactNames) newStore [openWithPattern]) = false ∧
      check exactNames (run (apply exactNames) newStore [openWithPattern]) defaultUser
        (Cmd.name .GET) [[107]] [] = .ok none := by
  have h : hasRestrictedUsers (run (apply exactNames) newStore [openWithPattern]) = false := by
    decide
  exact ⟨h, (fastPath_admits_iff exactNames [openWithPattern] h .GET [[107]] []).mpr
    ⟨_, rfl, rfl, .inl ⟨by decide, by decide⟩⟩⟩

/-- A new table skips the gate, but the full check refuses the default user every key. -/
theorem fastPath_refuses_key :
    hasRestrictedUsers (run (apply exactNames) newStore []) = false ∧
      check exactNames (run (apply exactNames) newStore []) defaultUser (Cmd.name .GET) [[107]] [] =
        .ok (some (keyNOPERM defaultUser (Cmd.name .GET) [107])) := by
  decide

/-- Which records the check behind the gate reads. -/
theorem fullCheck_congr {s' : Store} (h : s'[actingUser who]? = s[actingUser who]?) (name : Bytes)
    (keys channels : List Bytes) :
    fullCheck lib s' who name keys channels = fullCheck lib s who name keys channels := by
  have hauth : (! isAuthed who && defaultRequiresAuth s') =
      (! isAuthed who && defaultRequiresAuth s) := by
    cases hw : isAuthed who with
    | true => rfl
    | false =>
      have hdefault : actingUser who = defaultUser := by
        unfold isAuthed at hw
        unfold actingUser
        split at hw
        · cases hw
        · rfl
      rw [hdefault] at h
      simp [defaultRequiresAuth, h]
  simp only [fullCheck, hauth, check, h]

/-- The gate would let the connection pass: it need not authenticate first, and its user has a
record that admits the command. -/
def Passes (s : Store) (who : Option Bytes) (name : Bytes) (keys channels : List Bytes) : Prop :=
  (isAuthed who = true ∨ defaultRequiresAuth s = false) ∧
    ∃ u, s[actingUser who]? = some u ∧ u.Admits lib name keys channels

theorem fullCheck_eq_allowed {name : Bytes} :
    fullCheck lib s who name keys channels = .ok .allowed ↔
      Passes lib s who name keys channels := by
  rw [Passes, ← check_eq_none, fullCheck]
  cases isAuthed who <;> cases defaultRequiresAuth s <;>
    rcases check lib s (actingUser who) name keys channels with p | _ | d <;> simp

/-- A change of one user leaves the decision about another as it was exactly when the command
needs no permission, or the change does not switch the gate on or off, or the other user passes
the gate anyway. -/
theorem gate_unchanged_iff (s : Store) (who : Option Bytes) (c : Change)
    (h : c.name ≠ actingUser who) (name : Bytes) (keys channels : List Bytes) :
    gate lib (apply lib s c) who name keys channels = gate lib s who name keys channels ↔
      isAuthExempt name = true ∨ hasRestrictedUsers (apply lib s c) = hasRestrictedUsers s ∨
        Passes lib s who name keys channels := by
  have hcheck := fullCheck_congr lib (apply_other lib s h) name keys channels
  rw [gate, gate, hcheck, ← fullCheck_eq_allowed]
  cases isAuthExempt name <;> cases hasRestrictedUsers (apply lib s c) <;>
    cases hasRestrictedUsers s <;> simp [eq_comm]

/-- A name for a second user. -/
def bob : Bytes := ascii "bob".toList

/-- A second user does not change what the default user may do without keys. -/
theorem gate_unchanged_ping :
    gate exactNames (apply exactNames newStore (.setUser bob [])) none (Cmd.name .PING) [] [] =
      gate exactNames newStore none (Cmd.name .PING) [] [] :=
  (gate_unchanged_iff exactNames newStore none (.setUser bob []) (by decide) (Cmd.name .PING) []
    []).mpr (.inr (.inr ⟨.inr (by decide), _, rfl, rfl, .inl ⟨rfl, by decide, by decide⟩⟩))

/-- Adding a second user switches the gate on, and the default user loses its keys. -/
theorem gate_interferes :
    gate exactNames newStore none (Cmd.name .GET) [[107]] [] = .ok .allowed ∧
      gate exactNames (apply exactNames newStore (.setUser bob [])) none (Cmd.name .GET)
          [[107]] [] =
        .ok (.denied (keyNOPERM defaultUser (Cmd.name .GET) [107])) := by
  decide

/-- The user has a record and is on. -/
def Active (s : Store) (user : Bytes) : Prop := ∃ u, s[user]? = some u ∧ u.on = true

/-- Both checks return, and refuse a user that does not exist or is off. -/
def Returns (s : Store) (user : Bytes) : Prop :=
  (∀ cmd, ∃ b, canRun s user cmd = .ok b ∧ (¬ Active s user → b = false)) ∧
    ∀ cmd keys channels, ∃ r, check lib s user cmd keys channels = .ok r ∧
      (¬ Active s user → r = some (commandNOPERM user cmd))

/-- After any calls, the checks return for a user exactly when the user has a record. -/
theorem check_returns_iff (cs : List Change) (user : Bytes) :
    Returns lib (run (apply lib) newStore cs) user ↔
      userExists (run (apply lib) newStore cs) user = true := by
  generalize run (apply lib) newStore cs = s
  cases hu : s[user]? with
  | none =>
    constructor
    · rintro ⟨hrun, -⟩
      obtain ⟨b, hb, -⟩ := hrun []
      simp [canRun, hu] at hb
    · simp [userExists, hu]
  | some u =>
    have hactive : ¬ Active s user → u.on = false := by
      intro hoff
      by_contra hon
      exact hoff ⟨u, hu, by simpa using hon⟩
    refine ⟨fun _ => by simp [userExists, hu], fun _ => ⟨fun cmd => ?_, ?_⟩⟩
    · refine ⟨u.on && evalRules u.rules cmd, by simp [canRun, hu], fun hoff => ?_⟩
      simp [hactive hoff]
    · intro cmd keys channels
      refine ⟨u.check lib user cmd keys channels, by simp [check, hu], fun hoff => ?_⟩
      simp [User.check, hactive hoff]

/-- A user that was removed is looked up through a nil record. -/
theorem check_removed_panics :
    check exactNames
        (run (apply exactNames) newStore [.setUser bob [ascii "on".toList], .delUser bob]) bob
        (Cmd.name .PING) [] [] =
      .error .nilDereference := by
  decide

end

end Gedis.Acl
