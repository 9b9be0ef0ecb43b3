import Gedis.Acl.Gate

/-!
# Passwords

A record holds the digest of one password. A server that is configured with a password replaces the
default user by one with that password and the right to run every command. Such a user has no key or
channel pattern, while the open default user of a new table never meets the gate.
-/

namespace Gedis.Acl

open Gedis.Core

variable {pass : Bytes}

section
variable (lib : Library)

/-- The password admits to the record. -/
def User.accepts (u : User) (pass : Bytes) : Bool :=
  u.on && (u.noPass || (u.hasPass && lib.sha256 pass == u.passHash))

/-- The name and the password admit to the table. -/
def authenticate (s : Store) (name pass : Bytes) : Bool :=
  match s[name]? with
  | none => false
  | some u => u.accepts lib pass

/-- The rules of the default user with a password. -/
def requirePassRules (pass : Bytes) : List Bytes :=
  [ascii "on".toList, 62 :: pass, ascii "+@all".toList]

/-- The table of a server without an ACL file, for a configured password or none. -/
def startStore (requirePass : Bytes) : Except RuleError Store :=
  if requirePass = [] then .ok newStore
  else setUser lib newStore defaultUser (requirePassRules requirePass)

/-- The default user with a password. -/
def passUser (pass : Bytes) : User :=
  { on := true, passHash := lib.sha256 pass, hasPass := true, rules := [allowAll] }

variable {pass : Bytes}

theorem parseRules_requirePass :
    parseRules lib {} none (requirePassRules pass) = .ok (passUser lib pass) := rfl

theorem startStore_eq (hpass : pass ≠ []) :
    startStore lib pass = .ok (newStore.insert defaultUser (passUser lib pass)) := by
  rw [startStore, if_neg hpass, setUser, parseRules_requirePass]

/-- The password admits to the table that it configures. -/
theorem authenticate_start :
    authenticate lib (newStore.insert defaultUser (passUser lib pass)) defaultUser pass = true := by
  simp [authenticate, User.accepts, passUser]

theorem hasRestrictedUsers_pass :
    hasRestrictedUsers (newStore.insert defaultUser (passUser lib pass)) = true := by
  simp [hasRestrictedUsers, passUser]

theorem covers_nil_iff {names : List Bytes} : Covers lib [] names ↔ names = [] := by
  refine ⟨fun h => List.eq_nil_iff_forall_not_mem.mpr fun n hn => ?_, ?_⟩
  · cases h n hn
  · rintro rfl n hn
    cases hn

/-- The gate with a password lets the default user pass exactly when the command names no key and no
channel. -/
theorem gate_pass_iff {name : Bytes} {keys channels : List Bytes} :
    gate lib (newStore.insert defaultUser (passUser lib pass)) (some defaultUser) name keys channels =
        .ok .allowed ↔
      isAuthExempt name = true ∨ keys = [] ∧ channels = [] := by
  rw [gate, hasRestrictedUsers_pass, Bool.true_and]
  cases isAuthExempt name with
  | true => simp
  | false =>
    have hrecord : (newStore.insert defaultUser (passUser lib pass))[actingUser (some defaultUser)]? =
        some (passUser lib pass) := by
      rw [OrdMap.getElem?_insert]
      exact if_pos rfl
    have hauthed : isAuthed (some defaultUser) = true := rfl
    rw [Bool.not_false, if_pos rfl, fullCheck_eq_allowed, Passes, hrecord, hauthed]
    simp [User.Admits, Acl.Admits, passUser, evalRules_allowAll, covers_nil_iff]

/-- A configured password changes no decision exactly for the commands that name no key and no
channel, and for those that need no permission. -/
theorem requirePass_decides_iff (pass : Bytes) (hpass : pass ≠ []) :
    ∃ s, startStore lib pass = .ok s ∧ authenticate lib s defaultUser pass = true ∧
      ∀ name keys channels,
        gate lib s (some defaultUser) name keys channels = gate lib newStore none name keys channels ↔
          isAuthExempt name = true ∨ keys = [] ∧ channels = [] := by
  refine ⟨_, startStore_eq lib hpass, authenticate_start lib, fun name keys channels => ?_⟩
  have hopen : gate lib newStore none name keys channels = .ok .allowed := by
    have hskip : hasRestrictedUsers newStore = false := by decide
    rfl
  rw [hopen, gate_pass_iff]

/-- `PING` is decided alike with the password `p` and without one. -/
theorem requirePass_decides_ping :
    ∃ s, startStore exactNames [112] = .ok s ∧
      gate exactNames s (some defaultUser) (Cmd.name .PING) [] [] =
        gate exactNames newStore none (Cmd.name .PING) [] [] := by
  obtain ⟨s, hs, -, hiff⟩ := requirePass_decides_iff exactNames [112] (by decide)
  exact ⟨s, hs, (hiff (Cmd.name .PING) [] []).mpr (.inr ⟨rfl, rfl⟩)⟩

/-- With the password `p`, the authenticated default user is refused a key that anyone may read
without a password. -/
theorem requirePass_refuses_key :
    startStore exactNames [112] = .ok (newStore.insert defaultUser (passUser exactNames [112])) ∧
      gate exactNames (newStore.insert defaultUser (passUser exactNames [112])) (some defaultUser)
          (Cmd.name .GET) [[107]] [] =
        .ok (.denied (keyNOPERM defaultUser (Cmd.name .GET) [107])) ∧
      gate exactNames newStore none (Cmd.name .GET) [[107]] [] = .ok .allowed :=
  ⟨rfl, by decide, by decide⟩

end

end Gedis.Acl
