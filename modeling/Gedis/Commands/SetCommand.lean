import Gedis.Commands.Deadlines
import Gedis.Protocol.Value

/-!
# The options of `SET`

The option words are compared in upper case, but the word of a time option is handed on as it was
written, and the helper that computes the deadline only knows the words in capitals. Another spelling
gives no deadline and skips the check of the time argument.
-/

namespace Gedis.Commands

open Gedis.Core Datastruct Storage Protocol List

variable {word value : Bytes} {kind : ExpireKind} {rest rest' : List Arg} {capitals : Bool}
  {s : Pebble} {now : Int64} {prior : Option Entry}

def syntaxError : Reply := .error "ERR syntax error"

def notIntegerError : Reply := .error "ERR value is not an integer or out of range"

def expireTimeError : Reply := .error "ERR invalid expire time in 'set' command"

/-- The words of the options with a time, in capitals. -/
def timeWord (word : Bytes) : Option ExpireKind :=
  if word = ascii ['E', 'X'] then some .relativeSec
  else if word = ascii ['P', 'X'] then some .relativeMs
  else if word = ascii ['E', 'X', 'A', 'T'] then some .absoluteSec
  else if word = ascii ['P', 'X', 'A', 'T'] then some .absoluteMs
  else none

/-- The deadline of a time option. The word is compared as it is; one that is not known has the
deadline zero. -/
def parseExpiry (kind s : Bytes) : Handler (Except Reply Int64) :=
  match parseInt s with
  | none => pure (.error notIntegerError)
  | some n =>
    match timeWord kind with
    | none => pure (.ok 0)
    | some k =>
      if k.relative ∧ n ≤ 0 then pure (.error expireTimeError)
      else do
        let exp ← readDeadline k n
        pure (.ok exp)

/-- The words that the options begin with. -/
inductive SetWord where
  | nx | xx | keepttl | get
  | time (kind : ExpireKind)
  deriving DecidableEq, Repr

def setWord (word : Bytes) : Option SetWord :=
  if word = ascii ['N', 'X'] then some .nx
  else if word = ascii ['X', 'X'] then some .xx
  else if word = ascii "KEEPTTL".toList then some .keepttl
  else if word = ascii ['G', 'E', 'T'] then some .get
  else (timeWord word).map .time

/-- The loop over the option words. -/
def parseSetOptions (opt : SetOptions) : List Arg → Handler (Except Reply SetOptions)
  | [] => pure (.ok opt)
  | none :: _ => pure (.error syntaxError)
  | some name :: rest =>
    match setWord (toUpper name) with
    | none => pure (.error syntaxError)
    | some .nx => parseSetOptions { opt with nx := true } rest
    | some .xx => parseSetOptions { opt with xx := true } rest
    | some .keepttl => parseSetOptions { opt with keepTTL := true } rest
    | some .get => parseSetOptions { opt with get := true } rest
    | some (.time _) =>
      match rest with
      | [] => pure (.error syntaxError)
      | none :: _ => pure (.error notIntegerError)
      | some n :: rest => do
        match ← parseExpiry name n with
        | .error reply => pure (.error reply)
        | .ok exp => parseSetOptions { opt with expiry := exp } rest

def parseSetArgs : List Arg → Handler (Except Reply (Bytes × SetOptions))
  | _ :: some value :: options => do
    match ← parseSetOptions ⟨0, false, false, false, false⟩ options with
    | .error reply => pure (.error reply)
    | .ok opt => pure (if opt.nx ∧ opt.xx then .error syntaxError else .ok (value, opt))
  | _ :: none :: _ => pure (.error (.error "ERR invalid value"))
  | _ => pure (.error (.error "ERR wrong number of arguments for 'set' command"))

/-- `SET key value [option ...]`; a key that is no string counts as the empty one. -/
def setCommand (args : List Arg) : Handler Reply := do
  match ← parseSetArgs args with
  | .error reply => pure reply
  | .ok (value, opt) => (set (args.head?.join.getD []) value opt).handler

/-- The options as a reader of the command sees them. A time option remembers whether its word is
written in capitals. -/
inductive SetOption where
  | nx | xx | keepttl | get
  | time (capitals : Bool) (kind : ExpireKind) (n : Int64)
  deriving DecidableEq, Repr

/-- Read the options, letter case aside. -/
def readSetOptions : List Arg → Option (List SetOption)
  | [] => some []
  | none :: _ => none
  | some name :: rest =>
    match setWord (toUpper name) with
    | none => none
    | some .nx => (readSetOptions rest).map (.nx :: ·)
    | some .xx => (readSetOptions rest).map (.xx :: ·)
    | some .keepttl => (readSetOptions rest).map (.keepttl :: ·)
    | some .get => (readSetOptions rest).map (.get :: ·)
    | some (.time kind) =>
      match rest with
      | some text :: rest =>
        match parseInt text with
        | none => none
        | some n => (readSetOptions rest).map (.time (timeWord name).isSome kind n :: ·)
      | _ => none

namespace SetOption

/-- The option is refused: a relative time that is not positive, behind a word in capitals. -/
def refused : SetOption → Bool
  | .time true kind n => kind.relative && n ≤ 0
  | _ => false

/-- The effect of an option on the options that have been parsed, at a given time. -/
def apply (now : Int64) (opt : SetOptions) : SetOption → SetOptions
  | .nx => { opt with nx := true }
  | .xx => { opt with xx := true }
  | .keepttl => { opt with keepTTL := true }
  | .get => { opt with get := true }
  | .time capitals kind n => { opt with expiry := if capitals then kind.deadline n now else 0 }

end SetOption

/-- The word of a time option, in capitals or in small letters. -/
def spelledWord : Bool → ExpireKind → Bytes
  | true, .relativeSec => ascii ['E', 'X']
  | true, .relativeMs => ascii ['P', 'X']
  | true, .absoluteSec => ascii ['E', 'X', 'A', 'T']
  | true, .absoluteMs => ascii ['P', 'X', 'A', 'T']
  | false, .relativeSec => ascii ['e', 'x']
  | false, .relativeMs => ascii ['p', 'x']
  | false, .absoluteSec => ascii ['e', 'x', 'a', 't']
  | false, .absoluteMs => ascii ['p', 'x', 'a', 't']

theorem toUpper_spelledWord : toUpper (spelledWord capitals kind) = spelledWord true kind := by
  cases capitals <;> cases kind <;> decide

theorem timeWord_spelledWord :
    timeWord (spelledWord capitals kind) = if capitals then some kind else none := by
  cases capitals <;> cases kind <;> decide

theorem eq_spelledWord (h : timeWord word = some kind) : word = spelledWord true kind := by
  unfold timeWord at h
  split_ifs at h with hword hword hword hword <;> cases h <;> exact hword

/-- A word in capitals is its own upper case. -/
theorem timeWord_toUpper {name : Bytes} (h : timeWord name = some kind) :
    timeWord (toUpper name) = some kind := by
  rw [eq_spelledWord h, toUpper_spelledWord, timeWord_spelledWord]
  rfl

theorem setWord_of_timeWord (h : timeWord word = some kind) : setWord word = some (.time kind) := by
  rw [eq_spelledWord h]
  cases kind <;> decide

theorem timeWord_of_setWord (h : setWord word = some (.time kind)) : timeWord word = some kind := by
  unfold setWord at h
  split_ifs at h
  any_goals cases h
  obtain ⟨k, hk, he⟩ := Option.map_eq_some_iff.mp h
  cases he
  exact hk

/-- Parsing a time option at a fixed time. -/
theorem exec_parseExpiry {name text : Bytes} {n : Int64}
    (hkind : timeWord (toUpper name) = some kind) (hn : parseInt text = some n) :
    (parseExpiry name text).exec World.answer ⟨s, fun _ => now⟩ =
      (⟨s, fun _ => now⟩,
        if (SetOption.time (timeWord name).isSome kind n).refused then .error expireTimeError
        else .ok (if (timeWord name).isSome then kind.deadline n now else 0)) := by
  rw [parseExpiry, hn]
  cases hword : timeWord name with
  | none => rfl
  | some =>
    have hk := timeWord_toUpper hword
    rw [hkind] at hk
    cases hk
    have hrefused : (SetOption.time true kind n).refused = true ↔ kind.relative = true ∧ n ≤ 0 := by
      simp [SetOption.refused]
    dsimp only [Option.isSome_some]
    by_cases hbad : kind.relative = true ∧ n ≤ 0
    · rw [if_pos hbad, if_pos (hrefused.mpr hbad)]
      rfl
    · rw [if_neg hbad, if_neg (fun h => hbad (hrefused.mp h))]
      cases kind <;> rfl

/-- Parsing options at a fixed time; those that cannot be read are refused. -/
theorem exec_parseSetOptions (rest : List Arg) (opt : SetOptions) :
    ∃ parsed, (parseSetOptions opt rest).exec World.answer ⟨s, fun _ => now⟩ =
        (⟨s, fun _ => now⟩, parsed) ∧
      match readSetOptions rest with
      | none => ∃ reply, parsed = .error reply
      | some os => parsed = if os.any SetOption.refused then .error expireTimeError
          else .ok (os.foldl (SetOption.apply now) opt) := by
  fun_induction readSetOptions rest generalizing opt with
  | case1 => exact ⟨_, rfl, rfl⟩
  | case2 => exact ⟨_, rfl, _, rfl⟩
  | case3 name rest hword =>
    unfold parseSetOptions
    rw [hword]
    exact ⟨_, rfl, _, rfl⟩
  | case4 name rest hword ih
  | case5 name rest hword ih
  | case6 name rest hword ih
  | case7 name rest hword ih =>
    unfold parseSetOptions
    rw [hword]
    generalize readSetOptions rest = os at ih ⊢
    cases os <;> exact ih _
  | case8 name kind hword text rest hn =>
    unfold parseSetOptions
    rw [hword]
    rw [Prog.exec_bind, parseExpiry, hn]
    exact ⟨_, rfl, _, rfl⟩
  | case9 name kind hword text rest n hn ih =>
    unfold parseSetOptions
    rw [hword]
    rw [Prog.exec_bind, exec_parseExpiry (timeWord_of_setWord hword) hn]
    generalize readSetOptions rest = os at ih ⊢
    cases hrefused : (SetOption.time (timeWord name).isSome kind n).refused with
    | true => cases os with
      | none => exact ⟨_, rfl, _, rfl⟩
      | some => exact ⟨_, rfl, by simp [hrefused]⟩
    | false => cases os with
      | none => exact ih _
      | some => simpa [hrefused, SetOption.apply] using ih _
  | case10 name rest kind hword hno =>
    unfold parseSetOptions
    rw [hword]
    cases rest with
    | nil => exact ⟨_, rfl, _, rfl⟩
    | cons arg rest =>
      cases arg with
      | none => exact ⟨_, rfl, _, rfl⟩
      | some text => exact absurd rfl (hno text rest)

/-- The options as the code has parsed them. -/
def parsedOptions (now : Int64) (os : List SetOption) : SetOptions :=
  os.foldl (SetOption.apply now) ⟨0, false, false, false, false⟩

/-- The last option with a time. -/
def lastTime : List SetOption → Option (Bool × ExpireKind × Int64)
  | [] => none
  | .time capitals kind n :: os => some ((lastTime os).getD (capitals, kind, n))
  | _ :: os => lastTime os

/-- The deadline that the code keeps for a time option. -/
def keptTime (now : Int64) : Bool × ExpireKind × Int64 → Int64
  | (capitals, kind, n) => if capitals then kind.deadline n now else 0

private theorem foldl_apply (now : Int64) (os : List SetOption) (opt : SetOptions) :
    os.foldl (SetOption.apply now) opt =
      ⟨(lastTime os).elim opt.expiry (keptTime now), opt.keepTTL || decide (.keepttl ∈ os),
        opt.nx || decide (.nx ∈ os), opt.xx || decide (.xx ∈ os), opt.get || decide (.get ∈ os)⟩ := by
  induction os generalizing opt with
  | nil => simp [lastTime]
  | cons o os ih =>
    rw [foldl_cons, ih]
    cases o with
    | time => cases h : lastTime os <;> simp [lastTime, SetOption.apply, keptTime, h]
    | _ => simp [lastTime, SetOption.apply]

theorem parsedOptions_eq {os : List SetOption} :
    parsedOptions now os = ⟨(lastTime os).elim 0 (keptTime now), decide (.keepttl ∈ os),
      decide (.nx ∈ os), decide (.xx ∈ os), decide (.get ∈ os)⟩ := by
  rw [parsedOptions, foldl_apply]
  simp

/-- Parsing the arguments of a command whose options can be read. -/
theorem exec_parseSetArgs {key : Arg} {os : List SetOption} (h : readSetOptions rest = some os) :
    (parseSetArgs (key :: some value :: rest)).exec World.answer ⟨s, fun _ => now⟩ =
      (⟨s, fun _ => now⟩,
        if os.any SetOption.refused then .error expireTimeError
        else if .nx ∈ os ∧ .xx ∈ os then .error syntaxError
        else .ok (value, parsedOptions now os)) := by
  obtain ⟨parsed, hexec, hparsed⟩ := exec_parseSetOptions rest ⟨0, false, false, false, false⟩
  rw [h] at hparsed
  subst hparsed
  rw [parseSetArgs, Prog.exec_bind, hexec]
  cases os.any SetOption.refused with
  | true => rfl
  | false =>
    have hflags : (parsedOptions now os).nx = true ∧ (parsedOptions now os).xx = true ↔
        .nx ∈ os ∧ .xx ∈ os := by
      rw [parsedOptions_eq]
      simp
    by_cases hboth : .nx ∈ os ∧ .xx ∈ os
    · rw [if_pos hboth]
      exact congrArg (Prod.mk _) (if_pos (hflags.mpr hboth))
    · rw [if_neg hboth]
      exact congrArg (Prod.mk _) (if_neg fun hf => hboth (hflags.mp hf))

/-- The string that a lookup finds: `some none` when the key is missing, `none` when it holds
something else. -/
def Found.string : Found → Option (Option Entry)
  | .missing => some none
  | .record p e => if p = .s ∧ e.typ = typeString then some (some e) else none
  | .failed _ => none

/-- The value is to be written. -/
def SetDue (os : List SetOption) (prior : Option Entry) : Prop :=
  ¬ (.nx ∈ os ∧ prior.isSome) ∧ ¬ (.xx ∈ os ∧ prior.isNone)

/-- The old deadline is to be kept. -/
def KeepsDeadline (os : List SetOption) (prior : Option Entry) : Prop :=
  .keepttl ∈ os ∧ prior.isSome

instance (os : List SetOption) (prior : Option Entry) : Decidable (SetDue os prior) :=
  inferInstanceAs (Decidable (_ ∧ _))

instance (os : List SetOption) (prior : Option Entry) : Decidable (KeepsDeadline os prior) :=
  inferInstanceAs (Decidable (_ ∧ _))

/-- The instant that the new value is to expire at, zero for none. -/
def dueInstant (os : List SetOption) (prior : Option Entry) (now : Int64) : Int :=
  if KeepsDeadline os prior then (oldExpiry prior).toInt
  else (lastTime os).elim 0 fun o => o.2.1.instant o.2.2 now

/-- The run has followed the options. The records are compared with those that looking up the key
leaves, which are the ones before the command except for an expired record of the key. -/
def FollowsOptions (os : List SetOption) (prior : Option Entry) (now : Int64) (key value : Bytes)
    (looked : OrdMap Bytes Bytes) (r : World × Reply) : Prop :=
  (if SetDue os prior then
    r.2 ≠ Failure.oom.reply ∧ ∃ expiry : Int64, expiry.toInt = dueInstant os prior now ∧
      r.1.store.db[rawKey .s key]? = some (encode typeString expiry value)
  else r.1.store.db = looked) ∧
  (.get ∈ os → r.2 = oldValue prior)

/-- What the code keeps for a time option is the instant it denotes. -/
def ExactTime (now : Int64) : Bool × ExpireKind × Int64 → Prop
  | (true, kind, n) => -2 ^ 63 ≤ kind.instant n now ∧ kind.instant n now < 2 ^ 63
  | (false, kind, n) => kind.instant n now = 0

instance (now : Int64) (o : Bool × ExpireKind × Int64) : Decidable (ExactTime now o) := by
  obtain ⟨capitals, kind, n⟩ := o
  cases capitals <;> unfold ExactTime <;> infer_instance

theorem keptTime_iff {o : Bool × ExpireKind × Int64} :
    (keptTime now o).toInt = o.2.1.instant o.2.2 now ↔ ExactTime now o := by
  obtain ⟨capitals, kind, n⟩ := o
  cases capitals with
  | true => exact kind.toInt_deadline_eq_iff n now
  | false => exact eq_comm

/-- There is room for the value once the key has been looked up. -/
def HasRoom (w : World) (key value : Bytes) : Prop :=
  ((w.seen key).store.makeRoom (rawKey .s key) (encode typeString 0 value)).2 = .ok

instance (w : World) (key value : Bytes) : Decidable (HasRoom w key value) :=
  inferInstanceAs (Decidable (_ = _))

theorem length_encode_deadline (expiry : Int64) :
    (encode typeString 0 value).length = (encode typeString expiry value).length := by
  rw [length_encode, length_encode]

section

variable {w : World} {key : Bytes}

/-- Whether there is room does not depend on the deadline. -/
theorem hasRoom_iff (expiry : Int64) : HasRoom w key value ↔
    ((w.seen key).store.set (rawKey .s key) (encode typeString expiry value)).2 = .ok := by
  rw [HasRoom, makeRoom_congr (length_encode_deadline expiry), (db_set _ _ _).1]

/-- Neither does a write that finds none. -/
theorem set_of_no_room (h : ¬ HasRoom w key value) (expiry : Int64) :
    (w.seen key).store.set (rawKey .s key) (encode typeString expiry value) =
      (((w.seen key).store.makeRoom (rawKey .s key) (encode typeString 0 value)).1, .oom) := by
  rcases Pebble.set_cases (w.seen key).store (rawKey .s key) (encode typeString expiry value) with
    ⟨-, he⟩ | ⟨-, he⟩
  · rw [he, makeRoom_congr (length_encode_deadline expiry)]
  · exact absurd ((hasRoom_iff expiry).mpr (by rw [he])) h

end

theorem read_of_string {found : Found} (h : found.string = some prior) :
    Kind.string.read found = .ok prior := by
  cases found with
  | missing =>
    cases h
    rfl
  | failed => cases h
  | record p e =>
    rw [Found.string] at h
    split at h
    · next hs =>
      cases h
      exact if_pos hs.2
    · cases h

/-- The deadline that the code writes. -/
def writtenExpiry (os : List SetOption) (prior : Option Entry) (now : Int64) : Int64 :=
  if KeepsDeadline os prior then oldExpiry prior else (lastTime os).elim 0 (keptTime now)

/-- The options are read and accepted, and the key holds a string or nothing. -/
structure SetAccepted (s : Pebble) (now : Int64) (key : Arg) (rest : List Arg) (os : List SetOption)
    (prior : Option Entry) : Prop where
  read : readSetOptions rest = some os
  kept : os.any SetOption.refused = false
  notBoth : ¬ (.nx ∈ os ∧ .xx ∈ os)
  prior : (World.found ⟨s, fun _ => now⟩ (key.getD [])).string = some prior

section SetAccepted

variable {s : Pebble} {now : Int64} {key : Arg} {value : Bytes} {rest : List Arg}
  {os os' : List SetOption} {prior : Option Entry}

/-- A run of the command with options that were accepted. -/
theorem exec_setCommand (h : SetAccepted s now key rest os prior) :
    (setCommand (key :: some value :: rest)).exec World.answer ⟨s, fun _ => now⟩ =
      let w := World.seen ⟨s, fun _ => now⟩ (key.getD [])
      let record := encode typeString (writtenExpiry os prior now) value
      if SetDue os prior then
        (w.next (.set (rawKey .s (key.getD [])) record),
          granted (if .get ∈ os then oldValue prior else .ok)
            (w.store.set (rawKey .s (key.getD [])) record).2)
      else (w, .nil) := by
  rw [setCommand, Prog.exec_bind, exec_parseSetArgs h.read, h.kept, if_neg h.notBoth, parsedOptions_eq]
  change Prog.exec World.answer (set (key.getD []) value _).handler ⟨s, fun _ => now⟩ = _
  rw [set, exec_modify, read_of_string h.prior]
  dsimp only
  by_cases hnx : .nx ∈ os ∧ prior.isSome
  · rw [if_neg fun h : SetDue os prior => h.1 hnx, if_pos (by simpa using hnx)]
  · by_cases hxx : .xx ∈ os ∧ prior.isNone
    · rw [if_neg fun h : SetDue os prior => h.2 hxx, if_neg (by simpa using hnx),
        if_pos (by simpa using hxx)]
    · rw [if_pos (show SetDue os prior from ⟨hnx, hxx⟩), if_neg (by simpa using hnx),
        if_neg (by simpa using hxx)]
      have hexpiry : (if decide (SetOption.keepttl ∈ os) = true ∧ prior.isSome = true then
          oldExpiry prior else (lastTime os).elim 0 (keptTime now)) =
          writtenExpiry os prior now := by
        rw [writtenExpiry]
        by_cases hkeeps : KeepsDeadline os prior
        · rw [if_pos hkeeps, if_pos ⟨decide_eq_true hkeeps.1, hkeeps.2⟩]
        · rw [if_neg hkeeps, if_neg fun h => hkeeps ⟨of_decide_eq_true h.1, h.2⟩]
      have hreply : (if decide (SetOption.get ∈ os) = true then oldValue prior else .ok) =
          if SetOption.get ∈ os then oldValue prior else .ok := by
        simp
      rw [hexpiry, hreply]
      rfl

theorem toInt_writtenExpiry_iff : (writtenExpiry os prior now).toInt = dueInstant os prior now ↔
      (¬ KeepsDeadline os prior → ∀ o ∈ lastTime os, ExactTime now o) := by
  rw [writtenExpiry, dueInstant]
  by_cases hkeeps : KeepsDeadline os prior
  · rw [if_pos hkeeps, if_pos hkeeps]
    exact iff_of_true rfl fun h => absurd hkeeps h
  · rw [if_neg hkeeps, if_neg hkeeps]
    cases lastTime os with
    | none => exact iff_of_true rfl fun _ _ h => nomatch h
    | some => simpa [hkeeps] using keptTime_iff

/-- Whether a run follows its options. -/
theorem followsOptions_iff (h : SetAccepted s now key rest os prior) :
    FollowsOptions os prior now (key.getD []) value
        (World.seen ⟨s, fun _ => now⟩ (key.getD [])).store.db
        ((setCommand (key :: some value :: rest)).exec World.answer ⟨s, fun _ => now⟩) ↔
      (SetDue os prior → HasRoom ⟨s, fun _ => now⟩ (key.getD []) value ∧
        (¬ KeepsDeadline os prior → ∀ o ∈ lastTime os, ExactTime now o)) ∧
      (.get ∈ os → .nx ∈ os → prior = none) := by
  rw [exec_setCommand h, FollowsOptions]
  generalize hw : World.seen ⟨s, fun _ => now⟩ (key.getD []) = w
  by_cases hdue : SetDue os prior
  · have hnone : .nx ∈ os → prior = none := fun hnx => by
      cases prior with
      | none => rfl
      | some => exact absurd ⟨hnx, rfl⟩ hdue.1
    rw [← toInt_writtenExpiry_iff, hasRoom_iff (writtenExpiry os prior now), hw]
    simp only [hdue, if_true, forall_true_left]
    cases hset : (w.store.set (rawKey .s (key.getD []))
      (encode typeString (writtenExpiry os prior now) value)).2 with
    | oom => exact iff_of_false (fun h => h.1.1 rfl) fun h => nomatch h.1.1
    | ok =>
      have hreply : (if .get ∈ os then oldValue prior else Reply.ok) ≠ Failure.oom.reply := by
        split
        · cases prior <;> nofun
        · nofun
      rw [World.store_next_set, db_set_of_ok hset, Std.ExtTreeMap.getElem?_insert_self]
      constructor
      · rintro ⟨⟨-, expiry, hinstant, hrecord⟩, -⟩
        obtain ⟨-, rfl, -⟩ := encode_inj.mp (Option.some.inj hrecord)
        exact ⟨⟨rfl, hinstant⟩, fun _ => hnone⟩
      · rintro ⟨⟨-, hinstant⟩, -⟩
        exact ⟨⟨hreply, _, hinstant, rfl⟩, fun hget => if_pos hget⟩
  · simp only [hdue, if_false, true_and, false_imp_iff]
    refine imp_congr_right fun _ => ?_
    cases prior with
    | none => exact iff_of_true rfl fun _ => rfl
    | some =>
      -- a live string stands in the way only of `NX`
      have hnx : SetOption.nx ∈ os := by
        by_contra hnx
        exact hdue ⟨fun h => hnx h.1, fun h => nomatch h.2⟩
      exact iff_of_false nofun fun h => nomatch h hnx

end SetAccepted

/-- The option words differ in letter case only; what follows a time option is the same. -/
inductive CaseVariant : List Arg → List Arg → Prop where
  | nil : CaseVariant [] []
  | word {a b : Bytes} {rest rest' : List Arg} (h : toUpper a = toUpper b)
      (hword : timeWord (toUpper a) = none) (htail : CaseVariant rest rest') :
      CaseVariant (some a :: rest) (some b :: rest')
  | time {a b : Bytes} {arg : Arg} {rest rest' : List Arg} (h : toUpper a = toUpper b)
      (hword : (timeWord (toUpper a)).isSome) (htail : CaseVariant rest rest') :
      CaseVariant (some a :: arg :: rest) (some b :: arg :: rest')

/-- An option with the word of a time written in capitals or not. -/
def SetOption.spell (capitals : Bool) : SetOption → SetOption
  | .time _ kind n => .time capitals kind n
  | o => o

/-- The same options up to the spelling of the time words. -/
def SameOptions (os os' : List SetOption) : Prop :=
  os.map (SetOption.spell false) = os'.map (SetOption.spell false)

/-- A case variant is read as the same options. -/
theorem CaseVariant.read (h : CaseVariant rest rest') {os : List SetOption}
    (hos : readSetOptions rest = some os) :
    ∃ os', readSetOptions rest' = some os' ∧ SameOptions os os' := by
  induction h generalizing os with
  | nil =>
    cases hos
    exact ⟨[], rfl, rfl⟩
  | @word a b rest rest' hab hword htail ih =>
    unfold readSetOptions at hos ⊢
    rw [← hab]
    cases hw : setWord (toUpper a) with
    | none =>
      rw [hw] at hos
      cases hos
    | some word =>
      rw [hw] at hos
      cases word with
      | time =>
        rw [timeWord_of_setWord hw] at hword
        cases hword
      | _ =>
        obtain ⟨os₁, hos₁, rfl⟩ := Option.map_eq_some_iff.mp hos
        obtain ⟨os', hos', hsame⟩ := ih hos₁
        refine ⟨_ :: os', Option.map_eq_some_iff.mpr ⟨os', hos', rfl⟩, ?_⟩
        exact congrArg (cons _) hsame
  | @time a b arg rest rest' hab hword htail ih =>
    obtain ⟨kind, hkind⟩ := Option.isSome_iff_exists.mp hword
    unfold readSetOptions at hos ⊢
    rw [← hab, setWord_of_timeWord hkind]
    rw [setWord_of_timeWord hkind] at hos
    cases arg with
    | none => cases hos
    | some text =>
      dsimp only at hos ⊢
      cases hn : parseInt text with
      | none =>
        rw [hn] at hos
        cases hos
      | some =>
        rw [hn] at hos
        obtain ⟨os₁, hos₁, rfl⟩ := Option.map_eq_some_iff.mp hos
        obtain ⟨os', hos', hsame⟩ := ih hos₁
        refine ⟨_ :: os', Option.map_eq_some_iff.mpr ⟨os', hos', rfl⟩, ?_⟩
        exact congrArg (cons _) hsame

/-- All time words of an option list can be written in capitals, and all in small letters. -/
theorem exists_variant {os : List SetOption} (h : readSetOptions rest = some os) :
    ∃ rest', CaseVariant rest rest' ∧
      readSetOptions rest' = some (os.map (SetOption.spell capitals)) := by
  fun_induction readSetOptions rest generalizing os with
  | case1 =>
    cases h
    exact ⟨[], .nil, rfl⟩
  | case2 | case3 | case8 | case10 => cases h
  | case4 name rest hword ih
  | case5 name rest hword ih
  | case6 name rest hword ih
  | case7 name rest hword ih =>
    obtain ⟨os, hos, rfl⟩ := Option.map_eq_some_iff.mp h
    obtain ⟨rest', hvariant, hread⟩ := ih hos
    have hflag : timeWord (toUpper name) = none := by
      cases htime : timeWord (toUpper name) with
      | none => rfl
      | some =>
        rw [setWord_of_timeWord htime] at hword
        cases hword
    refine ⟨some name :: rest', .word rfl hflag hvariant, ?_⟩
    unfold readSetOptions
    rw [hword]
    exact Option.map_eq_some_iff.mpr ⟨_, hread, rfl⟩
  | case9 name kind hword text rest n hn ih =>
    obtain ⟨os, hos, rfl⟩ := Option.map_eq_some_iff.mp h
    obtain ⟨rest', hvariant, hread⟩ := ih hos
    have htime := timeWord_of_setWord hword
    have hupper : toUpper name = toUpper (spelledWord capitals kind) := by
      rw [toUpper_spelledWord]
      exact eq_spelledWord htime
    refine ⟨some (spelledWord capitals kind) :: some text :: rest',
      .time hupper (by rw [htime]; rfl) hvariant, ?_⟩
    unfold readSetOptions
    rw [← hupper, hword]
    dsimp only
    rw [hn, timeWord_spelledWord]
    refine Option.map_eq_some_iff.mpr ⟨_, hread, ?_⟩
    cases capitals <;> rfl

namespace SameOptions

variable {os os' : List SetOption} {prior : Option Entry}

theorem spell (os : List SetOption) (capitals : Bool) :
    SameOptions os (os.map (SetOption.spell capitals)) := by
  rw [SameOptions, map_map]
  refine map_congr_left fun o _ => ?_
  cases o <;> rfl

section

variable (h : SameOptions os os')
include h

theorem mem {o : SetOption} (ho : ∀ x : SetOption, x.spell false = o ↔ x = o) :
    o ∈ os' ↔ o ∈ os := by
  have hmem (xs : List SetOption) : o ∈ xs.map (SetOption.spell false) ↔ o ∈ xs := by
    rw [mem_map]
    constructor
    · rintro ⟨x, hx, he⟩
      exact (ho x).mp he ▸ hx
    · exact fun hx => ⟨o, hx, (ho o).mpr rfl⟩
  rw [← hmem os', ← hmem os, ← show _ = _ from h]

theorem flags : ∀ o ∈ [.nx, .xx, .keepttl, SetOption.get], (o ∈ os' ↔ o ∈ os) := by
  simp only [forall_mem_cons, not_mem_nil, false_imp_iff, implies_true, and_true]
  refine ⟨h.mem ?_, h.mem ?_, h.mem ?_, h.mem ?_⟩ <;> intro x <;> cases x <;> simp [SetOption.spell]

theorem due : SetDue os' prior ↔ SetDue os prior := by
  rw [SetDue, SetDue, h.flags .nx (by simp), h.flags .xx (by simp)]

theorem keeps : KeepsDeadline os' prior ↔ KeepsDeadline os prior := by
  rw [KeepsDeadline, KeepsDeadline, h.flags .keepttl (by simp)]

theorem time {n : Int64} (hmem : .time capitals kind n ∈ os') :
    ∃ capitals', .time capitals' kind n ∈ os := by
  have hplain : .time false kind n ∈ os.map (SetOption.spell false) := by
    rw [show _ = _ from h]
    exact mem_map.mpr ⟨_, hmem, rfl⟩
  obtain ⟨o, ho, he⟩ := mem_map.mp hplain
  cases o with
  | time capitals' =>
    cases he
    exact ⟨capitals', ho⟩
  | _ => cases he

end

theorem lastTime_spell : lastTime (os.map (SetOption.spell capitals)) =
      (lastTime os).map fun o => (capitals, o.2) := by
  induction os with
  | nil => rfl
  | cons o os ih =>
    cases o with
    | time =>
      rw [map_cons, SetOption.spell, lastTime, lastTime, ih]
      cases lastTime os <;> rfl
    | _ => exact ih

/-- The last time options differ in the spelling of their word only. -/
theorem lastTime (h : SameOptions os os') :
    (Commands.lastTime os').map Prod.snd = (Commands.lastTime os).map Prod.snd := by
  have hplain : (Commands.lastTime os).map (fun o => (false, o.2)) =
      (Commands.lastTime os').map fun o => (false, o.2) := by
    rw [← lastTime_spell, ← lastTime_spell, show _ = _ from h]
  cases hos : Commands.lastTime os <;> cases hos' : Commands.lastTime os' <;> simp_all

end SameOptions

/-- A command with an option that is refused. -/
theorem exec_setCommand_refused {key : Arg} {os : List SetOption}
    (hos : readSetOptions rest = some os) (hrefused : os.any SetOption.refused = true) :
    (setCommand (key :: some value :: rest)).exec World.answer ⟨s, fun _ => now⟩ =
      (⟨s, fun _ => now⟩, expireTimeError) := by
  rw [setCommand, Prog.exec_bind, exec_parseSetArgs hos, hrefused]
  rfl

section CaseBlind

variable {s : Pebble} {now : Int64} {key : Arg} {value : Bytes} {rest : List Arg}
  {os os' : List SetOption} {prior : Option Entry}

/-- No option with a relative time is refused, however its word is written. -/
theorem SameOptions.refused (h : SameOptions os os')
    (htimes : ∀ capitals kind n, .time capitals kind n ∈ os → kind.relative = true → 0 < n) :
    os'.any SetOption.refused = false := by
  rw [any_eq_false]
  intro o ho
  cases o with
  | time capitals kind n =>
    cases capitals with
    | false => exact Bool.false_ne_true
    | true =>
      obtain ⟨capitals, hmem⟩ := h.time ho
      intro hr
      rw [SetOption.refused, Bool.and_eq_true, decide_eq_true_eq] at hr
      exact Int64.not_le.mpr (htimes capitals kind n hmem hr.1) hr.2
  | _ => exact Bool.false_ne_true

/-- Options whose last time is kept as zero in every spelling have the same effect. -/
theorem SameOptions.writtenExpiry (h : SameOptions os os')
    (hzero : ¬ KeepsDeadline os prior → ∀ o ∈ Commands.lastTime os, o.2.1.deadline o.2.2 now = 0) :
    Commands.writtenExpiry os' prior now = Commands.writtenExpiry os prior now := by
  have hkept {o : Bool × ExpireKind × Int64} (ho : o.2.1.deadline o.2.2 now = 0) :
      keptTime now o = 0 := by
    rw [keptTime, ho, ite_self]
  rw [Commands.writtenExpiry, Commands.writtenExpiry]
  by_cases hkeeps : KeepsDeadline os prior
  · rw [if_pos hkeeps, if_pos (h.keeps.mpr hkeeps)]
  · rw [if_neg hkeeps, if_neg fun hk => hkeeps (h.keeps.mp hk)]
    have hlast := h.lastTime
    have hzero := hzero hkeeps
    cases hos : Commands.lastTime os with
    | none =>
      rw [hos, Option.map_none, Option.map_eq_none_iff] at hlast
      rw [hlast]
    | some o =>
      rw [hos, Option.map_some, Option.map_eq_some_iff] at hlast
      obtain ⟨o', ho', he⟩ := hlast
      have ho := hzero o (by rw [hos]; rfl)
      rw [ho', Option.elim_some, Option.elim_some, hkept ho, hkept (by rw [he]; exact ho)]

/-- Another spelling is accepted as well. -/
theorem SetAccepted.variant (h : SetAccepted s now key rest os prior)
    (hread : readSetOptions rest' = some os') (hsame : SameOptions os os')
    (htimes : ∀ capitals kind n, .time capitals kind n ∈ os → kind.relative = true → 0 < n) :
    SetAccepted s now key rest' os' prior where
  read := hread
  kept := hsame.refused htimes
  notBoth hb := h.notBoth ⟨(hsame.flags .nx (by simp)).mp hb.1, (hsame.flags .xx (by simp)).mp hb.2⟩
  prior := h.prior

/-- The record of a value that was due and found room. -/
theorem stored_of_room (h : SetAccepted s now key rest os prior) (hdue : SetDue os prior)
    (hroom : HasRoom ⟨s, fun _ => now⟩ (key.getD []) value) :
    ((setCommand (key :: some value :: rest)).exec World.answer
        ⟨s, fun _ => now⟩).1.store.db[rawKey .s (key.getD [])]? =
      some (encode typeString (writtenExpiry os prior now) value) := by
  rw [exec_setCommand h]
  simp only [hdue, if_true]
  rw [World.store_next_set, db_set_of_ok ((hasRoom_iff _).mp hroom)]
  exact Std.ExtTreeMap.getElem?_insert_self

/-- A command whose options were accepted does not reply as if they were refused. -/
theorem reply_ne_expireTimeError (h : SetAccepted s now key rest os prior) :
    ((setCommand (key :: some value :: rest)).exec World.answer ⟨s, fun _ => now⟩).2 ≠
      expireTimeError := by
  rw [exec_setCommand h]
  split
  · intro he
    obtain ⟨-, hreply⟩ := ok_of_granted he nofun
    split at hreply
    · cases prior <;> cases hreply
    · cases hreply
  · nofun

/-- Whether the letter case of the option words does not matter. -/
theorem caseBlind_iff (h : SetAccepted s now key rest os prior) :
    (∀ rest', CaseVariant rest rest' →
        (setCommand (key :: some value :: rest')).exec World.answer ⟨s, fun _ => now⟩ =
          (setCommand (key :: some value :: rest)).exec World.answer ⟨s, fun _ => now⟩) ↔
      (∀ capitals kind n, .time capitals kind n ∈ os → kind.relative = true → 0 < n) ∧
        (SetDue os prior → HasRoom ⟨s, fun _ => now⟩ (key.getD []) value →
          ¬ KeepsDeadline os prior → ∀ o ∈ lastTime os, o.2.1.deadline o.2.2 now = 0) := by
  constructor
  · intro hblind
    have htimes : ∀ capitals kind n, .time capitals kind n ∈ os → kind.relative = true → 0 < n := by
      intro capitals kind n hmem hrelative
      by_contra hn
      obtain ⟨rest', hvariant, hread⟩ := exists_variant h.read
      have hbad : (os.map (SetOption.spell true)).any SetOption.refused = true := by
        refine any_eq_true.mpr ⟨.time true kind n, mem_map.mpr ⟨_, hmem, rfl⟩, ?_⟩
        rw [SetOption.refused, hrelative, decide_eq_true (Int64.not_lt.mp hn)]
        rfl
      have hsame := hblind rest' hvariant
      rw [exec_setCommand_refused hread hbad] at hsame
      exact reply_ne_expireTimeError h (congrArg Prod.snd hsame).symm
    refine ⟨htimes, fun hdue hroom hkeeps o ho => ?_⟩
    -- the records written under either spelling are the same
    have hstored (capitals : Bool) :
        ((setCommand (key :: some value :: rest)).exec World.answer
            ⟨s, fun _ => now⟩).1.store.db[rawKey .s (key.getD [])]? =
          some (encode typeString (keptTime now (capitals, o.2)) value) := by
      obtain ⟨rest', hvariant, hread⟩ := exists_variant h.read
      have hspell := SameOptions.spell os capitals
      have hexpiry : writtenExpiry (os.map (SetOption.spell capitals)) prior now =
          keptTime now (capitals, o.2) := by
        rw [writtenExpiry, if_neg fun h => hkeeps (hspell.keeps.mp h), SameOptions.lastTime_spell,
          Option.mem_def.mp ho]
        rfl
      rw [← hblind rest' hvariant, stored_of_room (h.variant hread hspell htimes)
        (hspell.due.mpr hdue) hroom, hexpiry]
    have hrecords := (hstored true).symm.trans (hstored false)
    exact (encode_inj.mp (Option.some.inj hrecords)).2.1
  · rintro ⟨htimes, hzero⟩ rest' hvariant
    obtain ⟨os', hos', hsame⟩ := hvariant.read h.read
    rw [exec_setCommand (h.variant hos' hsame htimes), exec_setCommand h]
    simp only [hsame.due, hsame.flags .get (by simp)]
    by_cases hdue : SetDue os prior
    · simp only [hdue, if_true]
      by_cases hroom : HasRoom ⟨s, fun _ => now⟩ (key.getD []) value
      · rw [hsame.writtenExpiry (hzero hdue hroom)]
      · rw [World.next_set, World.next_set, set_of_no_room hroom, set_of_no_room hroom]
    · simp [hdue]

/-- `SET` follows the options it accepts exactly when a value that is due finds room and the last
time option, unless the old deadline is kept, is in capitals with an instant that fits or denotes the
instant zero, and `GET` is not used with `NX` on a live key. The letter case of the words does not
matter exactly when relative times are positive and no time option has an effect. -/
theorem setCommand_follows_iff {opt : SetOptions}
    (haccepted : ((parseSetArgs (key :: some value :: rest)).exec World.answer
      ⟨s, fun _ => now⟩).2 = .ok (value, opt))
    (hprior : (World.found ⟨s, fun _ => now⟩ (key.getD [])).string = some prior) :
    ∃ os, readSetOptions rest = some os ∧
      (FollowsOptions os prior now (key.getD []) value
          (World.seen ⟨s, fun _ => now⟩ (key.getD [])).store.db
          ((setCommand (key :: some value :: rest)).exec World.answer ⟨s, fun _ => now⟩) ↔
        (SetDue os prior → HasRoom ⟨s, fun _ => now⟩ (key.getD []) value ∧
          (¬ KeepsDeadline os prior → ∀ o ∈ lastTime os, ExactTime now o)) ∧
        (.get ∈ os → .nx ∈ os → prior = none)) ∧
      ((∀ rest', CaseVariant rest rest' →
          (setCommand (key :: some value :: rest')).exec World.answer ⟨s, fun _ => now⟩ =
            (setCommand (key :: some value :: rest)).exec World.answer ⟨s, fun _ => now⟩) ↔
        (∀ capitals kind n, .time capitals kind n ∈ os → kind.relative = true → 0 < n) ∧
          (SetDue os prior → HasRoom ⟨s, fun _ => now⟩ (key.getD []) value →
            ¬ KeepsDeadline os prior → ∀ o ∈ lastTime os, o.2.1.deadline o.2.2 now = 0)) := by
  cases hos : readSetOptions rest with
  | none =>
    obtain ⟨_, hexec, hparsed⟩ := exec_parseSetOptions rest ⟨0, false, false, false, false⟩
    rw [hos] at hparsed
    obtain ⟨reply, rfl⟩ := hparsed
    rw [parseSetArgs, Prog.exec_bind, hexec] at haccepted
    cases haccepted
  | some os =>
    rw [exec_parseSetArgs hos] at haccepted
    have hrefused : os.any SetOption.refused = false := by
      by_contra hr
      rw [if_pos (Bool.eq_true_of_not_eq_false hr)] at haccepted
      cases haccepted
    rw [hrefused] at haccepted
    have hboth : ¬ (.nx ∈ os ∧ .xx ∈ os) := by
      intro hb
      rw [if_pos hb] at haccepted
      cases haccepted
    have h : SetAccepted s now key rest os prior := ⟨hos, hrefused, hboth, hprior⟩
    exact ⟨os, rfl, followsOptions_iff h, caseBlind_iff h⟩

end CaseBlind

theorem found_emptyStore :
    (World.found ⟨emptyStore, fun _ => 1⟩ (Option.getD (some [107]) [])).string = some none := by
  decide +kernel

/-- `SET k v EX 10` at time one in an empty store. -/
theorem setCommand_follows_capitals :
    ((parseSetArgs [some [107], some [118], some [69, 88], some [49, 48]]).exec World.answer
        ⟨emptyStore, fun _ => 1⟩).2 = .ok ([118], ⟨10000000001, false, false, false, false⟩) ∧
      FollowsOptions [.time true .relativeSec 10] none 1 [107] [118]
        (World.seen ⟨emptyStore, fun _ => 1⟩ [107]).store.db
        ((setCommand [some [107], some [118], some [69, 88], some [49, 48]]).exec World.answer
          ⟨emptyStore, fun _ => 1⟩) := by
  have haccepted : ((parseSetArgs [some [107], some [118], some [69, 88], some [49, 48]]).exec
      World.answer ⟨emptyStore, fun _ => 1⟩).2 =
      .ok ([118], ⟨10000000001, false, false, false, false⟩) := by decide +kernel
  refine ⟨haccepted, ?_⟩
  obtain ⟨os, hos, hfollows, -⟩ := setCommand_follows_iff haccepted found_emptyStore
  have hread : readSetOptions [some [69, 88], some [49, 48]] =
      some [.time true .relativeSec 10] := by decide +kernel
  rw [hread, Option.some.injEq] at hos
  subst hos
  exact hfollows.mpr (by decide +kernel)

/-- `SET k v ex 10` stores the value without a deadline. -/
theorem setCommand_small_letters :
    readSetOptions [some [101, 120], some [49, 48]] = some [.time false .relativeSec 10] ∧
      ((setCommand [some [107], some [118], some [101, 120], some [49, 48]]).exec World.answer
        ⟨emptyStore, fun _ => 1⟩).2 = .ok ∧
      ((setCommand [some [107], some [118], some [101, 120], some [49, 48]]).exec World.answer
        ⟨emptyStore, fun _ => 1⟩).1.store.db[rawKey .s [107]]? = some (encode typeString 0 [118]) ∧
      ¬ FollowsOptions [.time false .relativeSec 10] none 1 [107] [118]
        (World.seen ⟨emptyStore, fun _ => 1⟩ [107]).store.db
        ((setCommand [some [107], some [118], some [101, 120], some [49, 48]]).exec World.answer
          ⟨emptyStore, fun _ => 1⟩) := by
  have hread : readSetOptions [some [101, 120], some [49, 48]] =
      some [.time false .relativeSec 10] := by decide +kernel
  refine ⟨hread, by decide +kernel, by decide +kernel, fun h => ?_⟩
  have hexact := (followsOptions_iff ⟨hread, by decide, by decide, found_emptyStore⟩).mp h
  exact absurd hexact (by decide +kernel)

end Gedis.Commands
