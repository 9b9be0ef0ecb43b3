import Gedis.Commands.TxnQueue
import Gedis.Storage.OpLog

/-!
# Watched keys

`EXEC` compares what was published since `WATCH` with the watched keys. It aborts exactly
when more was published than the backlog holds, or something published maps back to a
watched key. Records of vector sets do not map back to their user key, and a batch that
fails after its commit publishes nothing, so a change of a watched key can stay unnoticed.
-/

namespace Gedis.Commands

open Gedis.Core Datastruct Replication Storage List Txn

/-- What happens between a `WATCH` and its `EXEC`: storage calls of other connections, and
the connection's own `MULTI` and queued commands. -/
inductive WatchEvent (κ : Type) where
  | foreign (c : Call)
  | multi
  | queue (cmd : κ)
  deriving DecidableEq, Repr

/-- The event is the connection's `MULTI`. -/
def WatchEvent.isMulti {κ : Type} : WatchEvent κ → Bool
  | .multi => true
  | _ => false

/-- The storage calls of the other connections. -/
def WatchEvent.call {κ : Type} : WatchEvent κ → Option Call
  | .foreign c => some c
  | _ => none

/-- A published raw key that maps back to a watched key: a record of the key other than a
vector set, or a raw key that is itself watched and carries no other type prefix. -/
def Watches (keys : List Bytes) (raw : Bytes) : Prop :=
  (∃ p, p ≠ Prefix.vs ∧ ∃ key ∈ keys, raw = rawKey p key) ∨
    (raw ∈ keys ∧ ∀ p, p ≠ Prefix.vs → ¬ p.bytes <+: raw)

/-- Some record of a watched key was written or removed between two states. -/
def Touched (keys : List Bytes) (s s' : Pebble) : Prop :=
  ∃ w ∈ s'.journal.drop s.journal.length, ∃ p, ∃ key ∈ keys, w.key = rawKey p key

/-- More was published between two states than the backlog holds, or something published maps
back to a watched key. -/
def Noticed (keys : List Bytes) (s s' : Pebble) : Prop :=
  s'.hub.backlog.max < (s'.hub.log.drop s.hub.log.length).length ∨
    ∃ op ∈ s'.hub.log.drop s.hub.log.length, Watches keys op.key

private theorem mem_rawKeyPrefixes {p : Prefix} : p ∈ rawKeyPrefixes ↔ p ≠ .vs := by
  cases p <;> decide

/-- The keys that map back to a watched key. -/
theorem rawToUserKey_mem_iff {keys : List Bytes} {raw : Bytes} :
    rawToUserKey raw ∈ keys ↔ Watches keys raw := by
  constructor
  · intro h
    unfold rawToUserKey at h
    split at h
    · next p hp =>
      have hmem := mem_rawKeyPrefixes.mp (mem_of_find?_eq_some hp)
      have hpre : p.bytes.isPrefixOf raw := by simpa using find?_some hp
      obtain ⟨key, hkey⟩ := isPrefixOf_iff_prefix.mp hpre
      rw [← hkey, drop_left] at h
      exact .inl ⟨p, hmem, key, h, hkey.symm⟩
    · next hnone =>
      refine .inr ⟨h, fun p hp hpre => ?_⟩
      exact find?_eq_none.mp hnone p (mem_rawKeyPrefixes.mpr hp)
        ( isPrefixOf_iff_prefix.mpr hpre)
  · rintro (⟨p, hp, key, hkey, rfl⟩ | ⟨hraw, hnone⟩)
    · rwa [rawToUserKey_rawKey hp]
    · have hfind : (rawKeyPrefixes.find? fun p => p.bytes.isPrefixOf raw) = none := by
        rw [find?_eq_none]
        intro p hp hpre
        exact hnone p (mem_rawKeyPrefixes.mp hp) ( isPrefixOf_iff_prefix.mp hpre)
      simpa [rawToUserKey, hfind] using hraw

namespace Watch

variable {κ ρ : Type} (b : Backend Pebble κ ρ)

/-- One event. -/
def step (conn : Conn Pebble κ) : WatchEvent κ → Conn Pebble κ
  | .foreign c => { conn with store := conn.store.step c }
  | .multi => (Txn.dispatch b conn .multi).conn
  | .queue cmd => (Txn.dispatch b conn (.plain (.other cmd))).conn

/-- Queued commands are registered and have a fitting argument count. -/
def WellFormed (b : Backend Pebble κ ρ) : WatchEvent κ → Prop
  | .queue cmd => b.has cmd ∧ b.arityOk cmd
  | _ => True

instance : (e : WatchEvent κ) → Decidable (WellFormed b e)
  | .queue _ => inferInstanceAs (Decidable (_ ∧ _))
  | .foreign _ | .multi => .isTrue trivial

variable {b}

private theorem session_run {keys : List Bytes} {lastOff : Nat} (events : List (WatchEvent κ)) :
    ∀ (conn : Conn Pebble κ) (queue : List (Plain κ)) (inMulti : Bool),
      (∀ e ∈ events, WellFormed b e) →
      conn.session = some ⟨queue, false, inMulti, keys, lastOff⟩ →
      (run (step b) conn events).store =
          run Pebble.step conn.store (events.filterMap WatchEvent.call) ∧
        ∃ queue', (run (step b) conn events).session =
          some ⟨queue', false, inMulti || events.any WatchEvent.isMulti, keys, lastOff⟩ := by
  induction events with
  | nil =>
    intro conn queue inMulti _ hsess
    exact ⟨rfl, queue, by simpa using hsess⟩
  | cons e events ih =>
    intro conn queue inMulti hwf hsess
    have hrest : ∀ e ∈ events, WellFormed b e := fun e he => hwf e (mem_cons_of_mem _ he)
    cases e with
    | foreign c =>
      have h := ih (step b conn (.foreign c)) queue inMulti hrest hsess
      simpa [WatchEvent.isMulti, WatchEvent.call, step] using h
    | multi =>
      have hstep : (step b conn .multi).session = some ⟨queue, false, true, keys, lastOff⟩ ∧
          (step b conn .multi).store = conn.store := by
        cases inMulti <;> simp [step, dispatch, handleMulti, hsess]
      have h := ih (step b conn .multi) queue true hrest hstep.1
      simpa [WatchEvent.isMulti, filterMap_cons, WatchEvent.call, hstep.2] using h
    | queue cmd =>
      obtain ⟨hhas, har⟩ := hwf _ (mem_cons_self ..)
      have hstep : (step b conn (.queue cmd)).session =
            some ⟨queue ++ [.other cmd], false, inMulti, keys, lastOff⟩ ∧
          (step b conn (.queue cmd)).store = conn.store := by
        simp [step, dispatch, intercept, push, fits, hsess, hhas, har]
      have h := ih (step b conn (.queue cmd)) (queue ++ [.other cmd]) inMulti hrest hstep.1
      simpa [WatchEvent.isMulti, filterMap_cons, WatchEvent.call, hstep.2] using h

/-- The check of `EXEC` against the backlog. -/
theorem catchupDirty_iff {s s' : Pebble}
    (hord : s'.hub.Ordered) {sess : TxnSession κ} (hkeys : sess.watched ≠ [])
    (hoff : sess.lastOff = s.hub.log.length) :
    Txn.catchupDirty (some s'.hub.backlog) sess = true ↔ Noticed sess.watched s s' := by
  have hne : sess.watched.isEmpty = false := by simpa using hkeys
  have hsince := Backlog.Keeps.since hord s.hub.log.length
  have hbase := hord.base_eq
  simp only [catchupDirty, hne, Bool.false_eq_true, ite_false, hoff, hsince, Noticed,
    length_drop]
  by_cases hslid : s.hub.log.length < s'.hub.backlog.base
  · simp only [hslid, ite_true, true_iff]
    left
    omega
  · simp only [hslid, ite_false, any_eq_true, contains_iff_mem, rawToUserKey_mem_iff]
    constructor
    · exact .inr
    · rintro (hmax | hop)
      · omega
      · exact hop

/-- In `MULTI`, with an unspoiled session, `EXEC` runs nothing exactly on a hit. -/
theorem exec_null_iff (hpre : ∀ s queue, b.preExec s queue = none) {conn : Conn Pebble κ}
    {sess : TxnSession κ} (hsess : conn.session = some sess) (hmulti : sess.inMulti = true)
    (hclean : sess.dirty = false) :
    ((Txn.dispatch b conn .exec).reply = .null ∧ (Txn.dispatch b conn .exec).executed = []) ↔
      Txn.catchupDirty (b.backlog conn.store) sess = true := by
  simp only [dispatch, handleExec, hsess, hmulti, hclean, hpre, Bool.not_true,
    Bool.false_eq_true, ite_false]
  cases catchupDirty (b.backlog conn.store) sess <;> simp

end Watch

/-- A server whose only command reads nothing and answers zero. -/
def idleBackend : Backend Pebble Unit Nat where
  name _ := "ping"
  has _ := true
  arityOk _ := true
  unknownReply _ := 0
  run s _ := (s, 0)
  backlog s := some s.hub.backlog
  preExec _ _ := none

end Gedis.Commands
