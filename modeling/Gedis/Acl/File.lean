import Gedis.Acl.Password
import Gedis.Core.Words

/-!
# The ACL file

The user table is written as one line a user and read back line by line. Reading applies each line to
the table at once: a bad line ends it with the lines before in force, and a user that the file does
not name stays.
-/

namespace Gedis.Acl

open Gedis.Core Std

variable {entries : List (Bytes × User)}

/-- What is wrong with a line. -/
inductive LineError where
  /-- It must start with `user <name>`. -/
  | noUser
  | rule (e : RuleError)
  deriving DecidableEq, Repr

/-- Why reading failed: the file could not be read, or the line with a number is bad. -/
inductive LoadError where
  | unreadable
  | line (n : Nat) (e : LineError)
  deriving DecidableEq, Repr

/-- A line `user <name> <rules...>`. -/
def parseLine (line : Bytes) : Except LineError (Bytes × List Bytes) :=
  match splitFields line with
  | word :: name :: rules => if word = ascii "user".toList then .ok (name, rules) else .error .noUser
  | _ => .error .noUser

section
variable (lib : Library)

/-- Apply a line to the table; empty lines and comments are skipped. -/
def loadLine (s : Store) (line : Bytes) : Except LineError Store :=
  let line := trimSpace line
  if line = [] ∨ line.head? = some 35 then .ok s
  else
    match parseLine line with
    | .error e => .error e
    | .ok (name, rules) =>
      match setUser lib s name rules with
      | .error e => .error (.rule e)
      | .ok s' => .ok s'

/-- Apply the lines from number `n` on, up to the first that is bad. -/
def loadLines (s : Store) (n : Nat) : List Bytes → Store × Option LoadError
  | [] => (s, none)
  | line :: lines =>
    match loadLine lib s line with
    | .error e => (s, some (.line n e))
    | .ok s' => loadLines s' (n + 1) lines

/-- Read a file into a table; `none` is a file that cannot be read. -/
def load (s : Store) : Option Bytes → Store × Option LoadError
  | none => (s, some .unreadable)
  | some content => loadLines lib s 1 (splitLines content)

/-- The record that a line gives a user, if it gives one. -/
def lineEntry (line : Bytes) : Except LineError (Option (Bytes × User)) :=
  let line := trimSpace line
  if line = [] ∨ line.head? = some 35 then .ok none
  else
    match parseLine line with
    | .error e => .error e
    | .ok (name, rules) =>
      match parseRules lib {} none rules with
      | .error e => .error (.rule e)
      | .ok u => .ok (some (name, u))

/-- The records that the lines give, up to the first line that is bad. -/
def lineEntries : List Bytes → List (Bytes × User)
  | [] => []
  | line :: lines =>
    match lineEntry lib line with
    | .error _ => []
    | .ok none => lineEntries lines
    | .ok (some entry) => entry :: lineEntries lines

/-- The records that a file gives. -/
def fileEntries : Option Bytes → List (Bytes × User)
  | none => []
  | some content => lineEntries lib (splitLines content)

/-- Put records into a table, later ones over earlier ones. -/
def insertAll (s : Store) (entries : List (Bytes × User)) : Store :=
  entries.foldl (fun s e => s.insert e.1 e.2) s

/-- The last record that a list gives a user. -/
def lastEntry (entries : List (Bytes × User)) (name : Bytes) : Option User :=
  (entries.reverse.find? fun e => e.1 = name).map (·.2)

theorem loadLine_eq {s : Store} {line : Bytes} :
    loadLine lib s line = (lineEntry lib line).map fun entry => insertAll s entry.toList := by
  rw [loadLine, lineEntry]
  split
  · rfl
  · cases parseLine (trimSpace line) with
    | error => rfl
    | ok r =>
      dsimp only
      rw [setUser]
      cases parseRules lib {} none r.2 with
      | error => rfl
      | ok => rfl

/-- Reading leaves the records of the lines in the table. -/
theorem loadLines_fst (s : Store) (n : Nat) {lines : List Bytes} :
    (loadLines lib s n lines).1 = insertAll s (lineEntries lib lines) := by
  induction lines generalizing s n with
  | nil => rfl
  | cons line lines ih =>
    rw [loadLines, loadLine_eq, lineEntries]
    cases lineEntry lib line with
    | error => rfl
    | ok entry =>
      cases entry with
      | none => exact ih s (n + 1)
      | some entry => exact ih (s.insert entry.1 entry.2) (n + 1)

theorem load_fst {s : Store} {file : Option Bytes} :
    (load lib s file).1 = insertAll s (fileEntries lib file) := by
  cases file with
  | none => rfl
  | some => exact loadLines_fst lib s 1

end

theorem getElem?_insertAll (s : Store) (entries : List (Bytes × User)) (name : Bytes) :
    (insertAll s entries)[name]? = (lastEntry entries name).or s[name]? := by
  induction entries generalizing s with
  | nil => rfl
  | cons e entries ih =>
    have hlast : lastEntry (e :: entries) name =
        (lastEntry entries name).or (if e.1 = name then some e.2 else none) := by
      rw [lastEntry, lastEntry, List.reverse_cons, List.find?_append]
      cases entries.reverse.find? fun e => e.1 = name with
      | some => rfl
      | none =>
        by_cases h : e.1 = name
        · simp [h]
        · simp [h]
    have hinsert := ih (s.insert e.1 e.2)
    rw [OrdMap.getElem?_insert] at hinsert
    rw [hlast, Option.or_assoc]
    refine hinsert.trans ?_
    congr 1
    split <;> rfl

/-- A file names a user. -/
def Names (entries : List (Bytes × User)) (name : Bytes) : Prop := name ∈ entries.map (·.1)

theorem names_iff {name : Bytes} : Names entries name ↔ (lastEntry entries name).isSome := by
  rw [Names, lastEntry, Option.isSome_map]
  simp

theorem mem_insertAll {s : Store} {name : Bytes} :
    name ∈ insertAll s entries ↔ Names entries name ∨ name ∈ s := by
  rw [ExtTreeMap.mem_iff_isSome_getElem?, getElem?_insertAll, Option.isSome_or, Bool.or_eq_true,
    names_iff, ← ExtTreeMap.mem_iff_isSome_getElem?]

/-- Records leave a table as it is exactly when it holds the last one of each user. -/
theorem insertAll_eq_self_iff {s : Store} :
    insertAll s entries = s ↔ ∀ name u, lastEntry entries name = some u → s[name]? = some u := by
  constructor
  · intro h name u hlast
    have hget := getElem?_insertAll s entries name
    rw [h, hlast] at hget
    exact hget
  · intro h
    ext name u
    rw [getElem?_insertAll]
    cases hlast : lastEntry entries name with
    | none => rw [Option.none_or]
    | some v => rw [Option.some_or, h name v hlast]

section
variable (lib : Library)

/-- Reading a file changes nothing when it fails. When it succeeds, the users are those that the file
names and the default user, each with the record of its last line, and no other user can
authenticate. -/
def ExactLoad (s : Store) (file : Option Bytes) : Prop :=
  ((load lib s file).2 ≠ none → (load lib s file).1 = s) ∧
    ((load lib s file).2 = none →
      (∀ name, name ∈ (load lib s file).1 ↔
        Names (fileEntries lib file) name ∨ name = defaultUser) ∧
      (∀ name u, lastEntry (fileEntries lib file) name = some u →
        (load lib s file).1[name]? = some u) ∧
      ∀ name pass, ¬ Names (fileEntries lib file) name → name ≠ defaultUser →
        authenticate lib (load lib s file).1 name pass = false)

/-- Reading is exact exactly when the users named before a bad line have those records already, and,
without a bad line, the table holds no user but the default one that the file does not name. -/
theorem load_exact_iff (s : Store) (file : Option Bytes) :
    ExactLoad lib s file ↔
      ((load lib s file).2 ≠ none →
        ∀ name u, lastEntry (fileEntries lib file) name = some u → s[name]? = some u) ∧
      ((load lib s file).2 = none →
        (∀ name ∈ s, Names (fileEntries lib file) name ∨ name = defaultUser) ∧
        (defaultUser ∈ s ∨ Names (fileEntries lib file) defaultUser)) := by
  rw [ExactLoad, load_fst, insertAll_eq_self_iff, and_congr_right_iff]
  refine fun _ => forall_congr' fun _ => ?_
  simp only [mem_insertAll]
  constructor
  · rintro ⟨hnames, -⟩
    exact ⟨fun name hmem => (hnames name).mp (.inr hmem), ((hnames defaultUser).mpr (.inr rfl)).symm⟩
  · rintro ⟨hothers, hdefault⟩
    have hnames : ∀ name, Names (fileEntries lib file) name ∨ name ∈ s ↔
        Names (fileEntries lib file) name ∨ name = defaultUser := by
      intro name
      constructor
      · rintro (h | h)
        · exact .inl h
        · exact hothers name h
      · rintro (h | rfl)
        · exact .inl h
        · exact hdefault.symm
    refine ⟨hnames, fun name u hlast => ?_, fun name pass hnot hne => ?_⟩
    · rw [getElem?_insertAll, hlast]
      rfl
    · have habsent : name ∉ insertAll s (fileEntries lib file) := by
        rw [mem_insertAll, hnames]
        exact fun h => h.elim hnot hne
      rw [authenticate, ExtTreeMap.getElem?_eq_none habsent]

end

/-- The line `user a on` and a line that is no user. -/
def badSecondLine : Bytes := ascii "user a on\nuser".toList

/-- A file with a bad second line leaves the first one in force, and a file without lines does not
remove a user. -/
theorem load_not_exact :
    ¬ ExactLoad exactNames newStore (some badSecondLine) ∧
      ¬ ExactLoad exactNames (newStore.insert bob {}) (some []) := by
  constructor
  · intro h
    have hsame := h.1 (by decide +kernel)
    have hfound : [97] ∈ (load exactNames newStore (some badSecondLine)).1 := by decide +kernel
    rw [hsame] at hfound
    revert hfound
    decide +kernel
  · intro h
    have hmem : bob ∈ (load exactNames (newStore.insert bob {}) (some [])).1 := by decide +kernel
    have hnamed := ((h.2 (by decide +kernel)).1 bob).mp hmem
    rcases hnamed with hnamed | heq
    · exact absurd hnamed List.not_mem_nil
    · exact absurd heq (by decide)

end Gedis.Acl
