import Gedis.Cluster.Intercept
import Gedis.Cluster.Routing
import Gedis.Commands.Txn

/-!
# Commands on a slot that moves away

A slot that is marked as migrating is emptied key by key, so some of its keys are here and others
are gone. This module says which commands on such a slot are redirected: alone, and in the queue of
a transaction.
-/

namespace Gedis.Cluster

open Gedis.Core Protocol Datastruct Acl Commands Replication List
open Storage
open Commands.Grammar (strings words touched Reach)

variable {t : Topology} {w : World} {asked : Bool} {key name : Bytes} {s : Nat} {rest : List Bytes}
  {queue : List (List Value)} {a : Redirect} {joined : Option Nat}

/-- The key has a value in the store. -/
def Present (w : World) (key : Bytes) : Prop := ((keyPresent key).exec World.answer w).2 = true

instance (w : World) (key : Bytes) : Decidable (Present w key) :=
  inferInstanceAs (Decidable (_ = true))

/-- A command with its arguments. -/
structure Call where
  name : Bytes
  args : List Value

/-- The command as it is sent. -/
def Call.elems (c : Call) : List Value := bulkOf c.name :: c.args

/-- The handler of the command may visit a user key. -/
def Call.Touches (c : Call) (key : Bytes) : Prop :=
  ∃ cmd r, lookupMeta c.name = some cmd ∧ touched cmd (c.args.map argString) = some r ∧
    r.Touches key

/-- The keys that routing finds for a command. -/
def Call.routed (c : Call) : Go (Option (List Bytes)) :=
  match strings (c.args.map argString) with
  | none => .ok none
  | some ws => keysOf (toUpper c.name) ws

/-- The client is sent to another node. -/
def Redirected : Go (Option Redirect) → Prop
  | .ok (some (.ask ..)) | .ok (some (.moved ..)) => True
  | _ => False

theorem Redirected.answered {x : Go (Option Redirect)} (h : Redirected x) :
    ∃ a, x = .ok (some a) := by
  match x with
  | .ok (some a) => exact ⟨a, rfl⟩

/-- The answer of the hook to a command outside a transaction. -/
def Call.answer (c : Call) (t : Topology) (asked : Bool) (w : World) : Go (Option Redirect) :=
  ((intercept (some t) false asked c.elems).exec World.answer w).2

/-- A key is not served here: it has left a slot that moves away, or its slot belongs to another
node and the client does not come with `ASKING` to where the key is. -/
def Unserved (t : Topology) (w : World) (asked : Bool) (key : Bytes) : Prop :=
  if (t.migrating (slot key)).isSome then ¬ Present w key
  else if (t.importing (slot key)).isSome then asked = false ∧ ¬ t.ownerAddr (slot key) = []
  else t.owns (slot key) = false ∧ ¬ t.ownerAddr (slot key) = [] ∧ (asked = true → ¬ Present w key)

theorem unserved_migrating (hmig : (t.migrating (slot key)).isSome) :
    Unserved t w asked key ↔ ¬ Present w key := by
  rw [Unserved, if_pos hmig]

theorem unserved_importing (hmig : t.migrating (slot key) = none)
    (himp : (t.importing (slot key)).isSome) :
    Unserved t w asked key ↔ asked = false ∧ ¬ t.ownerAddr (slot key) = [] := by
  rw [Unserved, if_neg (Option.not_isSome_iff_eq_none.mpr hmig), if_pos himp]

theorem unserved_settled (hmig : t.migrating (slot key) = none)
    (himp : t.importing (slot key) = none) :
    Unserved t w asked key ↔ t.owns (slot key) = false ∧ ¬ t.ownerAddr (slot key) = [] ∧
      (asked = true → ¬ Present w key) := by
  rw [Unserved, if_neg (Option.not_isSome_iff_eq_none.mpr hmig),
    if_neg (Option.not_isSome_iff_eq_none.mpr himp)]

theorem redirected_movedTo : Redirected (.ok (some (movedTo t s))) ↔ ¬ t.ownerAddr s = [] := by
  unfold movedTo
  split
  · rename_i h
    simp [Redirected, h]
  · rename_i h
    simp [Redirected, h]

/-- A decision that rests on the presence of a key. -/
theorem exec_ifPresent {a b : Option Redirect} :
    ((do if ← keyPresent key then pure a else pure b : Handler (Option Redirect)).exec
      World.answer w).2 = if Present w key then a else b := by
  rw [Prog.exec_bind]
  by_cases h : Present w key
  · have hpresent : ((keyPresent key).exec World.answer w).2 = true := h
    rw [if_pos h, if_pos hpresent]
    rfl
  · have habsent : ¬ ((keyPresent key).exec World.answer w).2 = true := h
    rw [if_neg h, if_neg habsent]
    rfl

/-- The decisions about a command with keys, and when they are taken. -/
inductive Decides (t : Topology) (name : Bytes) (asked : Bool) (w : World) (key : Bytes)
    (rest : List Bytes) : Option Redirect → Prop
  | crossSlot (k : Bytes) (hk : k ∈ rest) (hne : ¬ slot k = slot key) :
    Decides t name asked w key rest (some .crossSlot)
  | moving (hsame : ∀ k ∈ rest, slot k = slot key) (hmig : (t.migrating (slot key)).isSome)
    (h : name = Cmd.name .MIGRATE ∨ Present w key) : Decides t name asked w key rest none
  | gone (hsame : ∀ k ∈ rest, slot k = slot key) (hmig : (t.migrating (slot key)).isSome)
    (hname : ¬ name = Cmd.name .MIGRATE) (hgone : ¬ Present w key) (addr : Bytes) :
    Decides t name asked w key rest (some (.ask (slot key) addr))
  | importing (hsame : ∀ k ∈ rest, slot k = slot key) (hmig : t.migrating (slot key) = none)
    (himp : (t.importing (slot key)).isSome) :
    Decides t name asked w key rest (if asked then none else some (movedTo t (slot key)))
  | owned (hsame : ∀ k ∈ rest, slot k = slot key) (hmig : t.migrating (slot key) = none)
    (himp : t.importing (slot key) = none) (howns : t.owns (slot key) = true) :
    Decides t name asked w key rest none
  | foreign (hsame : ∀ k ∈ rest, slot k = slot key) (hmig : t.migrating (slot key) = none)
    (himp : t.importing (slot key) = none) (howns : t.owns (slot key) = false) :
    Decides t name asked w key rest
      (if t.ownerAddr (slot key) = [] then some .clusterDown
      else if asked then
        if Present w key then none else some (.ask (slot key) (t.ownerAddr (slot key)))
      else some (.moved (slot key) (t.ownerAddr (slot key))))

/-- The hook takes one of these decisions. -/
theorem redirect_decides :
    Decides t name asked w key rest ((redirect t name asked key rest).exec World.answer w).2 := by
  unfold redirect
  by_cases hcross : rest.any fun k => slot k != slot key
  · rw [if_pos hcross]
    simp only [any_eq_true, bne_iff_ne] at hcross
    obtain ⟨k, hk, hne⟩ := hcross
    exact .crossSlot k hk hne
  have hsame : ∀ k ∈ rest, slot k = slot key := by simpa using hcross
  rw [if_neg hcross]
  cases hmig : t.migrating (slot key) with
  | some =>
    have hmarked : (t.migrating (slot key)).isSome := by rw [hmig]; rfl
    by_cases hname : name = Cmd.name .MIGRATE
    · simp only [hname, ite_true]
      exact .moving hsame hmarked (.inl rfl)
    · simp only [hname, ite_false]
      rw [exec_ifPresent]
      split
      · exact .moving hsame hmarked (.inr ‹_›)
      · exact .gone hsame hmarked hname ‹_› _
  | none =>
    dsimp only
    by_cases himp : (t.importing (slot key)).isSome
    · rw [if_pos himp]
      exact .importing hsame hmig himp
    · rw [if_neg himp]
      rw [Option.not_isSome_iff_eq_none] at himp
      split
      · exact .owned hsame hmig himp ‹_›
      · have howns : t.owns (slot key) = false := eq_false_of_ne_true ‹_›
        have hforeign := @Decides.foreign t name asked w key rest hsame hmig himp howns
        rw [← exec_ifPresent] at hforeign
        convert hforeign using 1
        split_ifs <;> rfl

/-- The client is sent away when the keys are in one slot and the first of them is not served
here. -/
theorem Decides.redirected_iff {a : Option Redirect} (h : Decides t name asked w key rest a) :
    Redirected (.ok a) ↔
      (∀ k ∈ rest, slot k = slot key) ∧ Unserved t w asked key ∧
        ((t.migrating (slot key)).isSome → ¬ name = Cmd.name .MIGRATE) := by
  cases h with
  | crossSlot k hk hne => exact iff_of_false id fun h => hne (h.1 k hk)
  | moving hsame hmig h =>
    rw [unserved_migrating hmig]
    exact iff_of_false id fun hall => h.elim (hall.2.2 hmig) hall.2.1
  | gone hsame hmig hname hgone =>
    rw [unserved_migrating hmig]
    exact iff_of_true trivial ⟨hsame, hgone, fun _ => hname⟩
  | importing hsame hmig himp =>
    rw [unserved_importing hmig himp]
    cases asked with
    | true => exact iff_of_false id fun h => nomatch h.2.1.1
    | false =>
      refine redirected_movedTo.trans ⟨fun h => ⟨hsame, ⟨rfl, h⟩, ?_⟩, fun h => h.2.1.2⟩
      rw [hmig]
      exact fun h => nomatch h
  | owned hsame hmig himp howns =>
    rw [unserved_settled hmig himp]
    exact iff_of_false id fun h => nomatch howns.symm.trans h.2.1.1
  | foreign hsame hmig himp howns =>
    rw [unserved_settled hmig himp]
    have hmarked (h : (t.migrating (slot key)).isSome) : ¬ name = Cmd.name .MIGRATE := by
      rw [hmig] at h
      nomatch h
    split_ifs with haddr hasked hpresent
    · exact iff_of_false id fun h => h.2.1.2.1 haddr
    · exact iff_of_false id fun h => h.2.1.2.2 hasked hpresent
    · exact iff_of_true trivial ⟨hsame, ⟨howns, haddr, fun _ => hpresent⟩, hmarked⟩
    · exact iff_of_true trivial ⟨hsame, ⟨howns, haddr, fun h => absurd h hasked⟩, hmarked⟩

private theorem keysOf_asking (ws : List Bytes) : keysOf (Cmd.name .ASKING) ws = .ok none := by
  have hrule : ruleOf (Cmd.name .ASKING) = .pass := by decide +kernel
  rw [keysOf, hrule, Rule.keys]

variable {c : Call}

/-- The hook decides by the keys that routing finds. -/
theorem intercept_eq : intercept (some t) false asked c.elems =
      match c.routed with
      | .error p => pure (.error p)
      | .ok (some (key :: rest)) => do
        let answer ← redirect t (toUpper c.name) asked key rest
        pure (.ok answer)
      | .ok _ => pure (.ok none) := by
  unfold Call.elems bulkOf intercept Call.routed
  simp only [Option.getD_some, Bool.false_eq_true, false_or]
  cases hws : strings (c.args.map argString) with
  | none => simp
  | some =>
    by_cases hasking : toUpper c.name = Cmd.name .ASKING
    · rw [if_pos hasking]
      simp [hasking, keysOf_asking]
    · exact if_neg hasking

/-- Where routing finds keys, the hook decides about them. -/
theorem answer_of_keys (h : c.routed = .ok (some (key :: rest))) :
    ∃ a, c.answer t asked w = .ok a ∧ Decides t (toUpper c.name) asked w key rest a := by
  refine ⟨_, ?_, redirect_decides⟩
  unfold Call.answer
  rw [intercept_eq, h, Prog.exec_bind]
  rfl

/-- Where routing finds no keys, the hook does not answer. -/
theorem answer_of_no_keys (h : ∀ key rest, ¬ c.routed = .ok (some (key :: rest))) :
    ¬ c.answer t asked w = .ok (some a) := by
  unfold Call.answer
  rw [intercept_eq]
  match hrouted : c.routed with
  | .error p | .ok none | .ok (some []) => exact fun h => nomatch h
  | .ok (some (key :: rest)) => exact absurd hrouted (h key rest)

/-- A command is redirected when routing finds keys in one slot and the first of them is not
served here. -/
theorem redirected_answer_iff : Redirected (c.answer t asked w) ↔
      ∃ key rest, c.routed = .ok (some (key :: rest)) ∧ (∀ k ∈ rest, slot k = slot key) ∧
        Unserved t w asked key ∧
        ((t.migrating (slot key)).isSome → ¬ toUpper c.name = Cmd.name .MIGRATE) := by
  constructor
  · intro h
    by_cases hkeys : ∃ key rest, c.routed = .ok (some (key :: rest))
    · obtain ⟨key, rest, hrouted⟩ := hkeys
      obtain ⟨a, ha, hdecides⟩ := answer_of_keys hrouted
      rw [ha] at h
      exact ⟨key, rest, hrouted, hdecides.redirected_iff.mp h⟩
    · push Not at hkeys
      obtain ⟨a, ha⟩ := h.answered
      exact absurd ha (answer_of_no_keys hkeys)
  · rintro ⟨key, rest, hrouted, hall⟩
    obtain ⟨a, ha, hdecides⟩ := answer_of_keys hrouted
    rw [ha]
    exact hdecides.redirected_iff.mpr hall

/-- A command whose first key is here is answered here, whatever has become of its other keys. -/
theorem answer_of_present {target : Bytes} (hmarked : t.migrating s = some target)
    (hrouted : c.routed = .ok (some (key :: rest))) (hslots : ∀ k ∈ key :: rest, slot k = s)
    (hpresent : Present w key) : c.answer t asked w = .ok none := by
  have hkey : slot key = s := hslots key (mem_cons_self ..)
  have hmig : (t.migrating (slot key)).isSome := by rw [hkey, hmarked]; rfl
  have hnot (hnone : t.migrating (slot key) = none) : False := by simp [hnone] at hmig
  obtain ⟨a, ha, hdecides⟩ := answer_of_keys hrouted
  rw [ha]
  cases hdecides with
  | crossSlot k hk hne =>
    exact absurd ((hslots k (mem_cons_of_mem _ hk)).trans hkey.symm) hne
  | moving => rfl
  | gone _ _ _ hgone => exact absurd hpresent hgone
  | importing _ hnone | owned _ hnone | foreign _ hnone => exact (hnot hnone).elim

/-- Looking for a key creates none. -/
theorem keyPresent_shrinks :
    Shrinks w.store.db ((keyPresent key).exec World.answer w).1.store.db := by
  have hlookup : (lookupRaw key).wp (Answers False fun _ => True)
      (fun _ m' => Shrinks w.store.db m') w.store.db := by
    refine wp_lookupFrom (fun _ => Shrinks.refl) fun p v _ _ => ?_
    refine ⟨fun _ => Shrinks.refl, fun e _ => ⟨Shrinks.refl, ?_⟩⟩
    exact (shrinks_erase _).trans (shrinks_erase _)
  have hpresent : (keyPresent key).wp (Answers False fun _ => True)
      (fun _ m' => Shrinks w.store.db m') w.store.db :=
    Prog.wp_bind_of hlookup fun found m' hm' => by cases found <;> exact hm'
  exact exec_world (fun _ => trivial) hpresent (Prog.During.of_forall _ (fun _ _ h => h.elim) _)

theorem redirect_shrinks :
    Shrinks w.store.db ((redirect t name asked key rest).exec World.answer w).1.store.db := by
  have hasks (a b : Option Redirect) : Shrinks w.store.db
      ((do if ← keyPresent key then pure a else pure b : Handler (Option Redirect)).exec
        World.answer w).1.store.db := by
    rw [Prog.exec_bind]
    split <;> exact keyPresent_shrinks
  unfold redirect
  dsimp only
  split
  · exact Shrinks.refl
  split
  · split
    · exact Shrinks.refl
    · exact hasks _ _
  split
  · exact Shrinks.refl
  split
  · exact Shrinks.refl
  split
  · exact Shrinks.refl
  split
  · exact hasks _ _
  · exact Shrinks.refl

theorem intercept_shrinks (t : Topology) (asked : Bool) (w : World) (c : Call) :
    Shrinks w.store.db
      ((intercept (some t) false asked c.elems).exec World.answer w).1.store.db := by
  rw [intercept_eq]
  split
  · exact Shrinks.refl
  · rw [Prog.exec_bind]
    exact redirect_shrinks
  · exact Shrinks.refl

/-- The client is sent to another node in place of any handler, and no record is created. -/
def Call.Refused (c : Call) (t : Topology) (asked : Bool) (w : World) : Prop :=
  ∃ a : Redirect, Redirected (.ok (some a)) ∧ ∀ handler : Handler Value,
    ((dispatch (some t) false asked c.elems handler).exec World.answer w).2 = .ok a.reply ∧
      Shrinks w.store.db
        ((dispatch (some t) false asked c.elems handler).exec World.answer w).1.store.db

theorem refused_of_redirected (h : Redirected (c.answer t asked w)) : c.Refused t asked w := by
  have hshrinks := intercept_shrinks t asked w c
  unfold Call.Refused dispatch
  simp only [Prog.exec_bind]
  revert h hshrinks
  unfold Call.answer
  generalize (intercept (some t) false asked c.elems).exec World.answer w = r
  obtain ⟨w', answer⟩ := r
  intro h hshrinks
  match answer, h with
  | .ok (some a), h => exact ⟨a, h, fun _ => ⟨rfl, hshrinks⟩⟩

/-- The first letter of an answer. -/
private def Redirect.letter : Redirect → UInt8
  | .crossSlot | .clusterDown => 67
  | .ask .. => 65
  | .moved .. => 77

private theorem letter_reply {b : Redirect} (h : a.reply = b.reply) : a.letter = b.letter := by
  have htext (a : Redirect) : ∃ rest, a.reply = .error (a.letter :: rest) := by
    cases a <;> exact ⟨_, rfl⟩
  obtain ⟨rest, ha⟩ := htext a
  obtain ⟨rest', hb⟩ := htext b
  rw [ha, hb] at h
  exact (cons.inj (Value.error.inj h)).1

/-- The texts of redirections are those of no other answer. -/
theorem redirected_of_reply {b : Redirect} (h : Redirected (.ok (some a)))
    (hreply : a.reply = b.reply) : Redirected (.ok (some b)) := by
  have hletter := letter_reply hreply
  cases b with
  | ask | moved => trivial
  | crossSlot | clusterDown =>
    cases a with
    | crossSlot | clusterDown => exact h
    | ask | moved => simp [Redirect.letter] at hletter

theorem refused_iff : c.Refused t asked w ↔ Redirected (c.answer t asked w) := by
  refine ⟨fun ⟨a, ha, h⟩ => ?_, refused_of_redirected⟩
  -- a handler with a reply of its own tells the answers of the hook apart
  have hreply := (h (pure (.integer 0))).1
  revert hreply
  unfold dispatch Call.answer
  rw [Prog.exec_bind]
  generalize (intercept (some t) false asked c.elems).exec World.answer w = r
  obtain ⟨w', answer⟩ := r
  intro hreply
  match answer, hreply with
  | .ok (some b), hreply => exact redirected_of_reply ha (Except.ok.inj hreply).symm
  | .ok none, hreply =>
    cases a <;> cases hreply

theorem joinSlots_some_iff {keys : List Bytes} :
    joinSlots (some s) keys = some joined ↔ joined = some s ∧ ∀ k ∈ keys, slot k = s := by
  induction keys with
  | nil => simp [joinSlots, eq_comm]
  | cons key rest ih =>
    rw [joinSlots]
    split
    · rename_i h
      simp [ih, h]
    · rename_i h
      simp [h]

/-- All keys that are found for the queued commands hash to a slot. -/
def QueuedIn (queue : List (List Value)) (s : Nat) : Prop :=
  ∀ elems ∈ queue, ∃ found, queuedKeys elems = .ok found ∧ ∀ keys ∈ found, ∀ k ∈ keys, slot k = s

/-- Some key is found for a queued command. -/
def SomeQueued (queue : List (List Value)) : Prop :=
  ∃ elems ∈ queue, ∃ keys, queuedKeys elems = .ok (some keys) ∧ keys ≠ []

theorem queueSlot_some_iff :
    queueSlot (some s) queue = .ok (some joined) ↔ joined = some s ∧ QueuedIn queue s := by
  induction queue with
  | nil => simp [queueSlot, QueuedIn, eq_comm]
  | cons elems queue ih =>
    rw [QueuedIn, forall_mem_cons, ← QueuedIn, queueSlot]
    cases hkeys : queuedKeys elems with
    | error => simp
    | ok found =>
      cases found with
      | none => simp [ih]
      | some keys =>
        have hfound : (∃ found, Except.ok (some keys) = (Except.ok found : Go _) ∧
            ∀ keys ∈ found, ∀ k ∈ keys, slot k = s) ↔ ∀ k ∈ keys, slot k = s := by
          simp
        rw [hfound]
        by_cases hall : ∀ k ∈ keys, slot k = s
        · simp only [joinSlots_some_iff.mpr ⟨rfl, hall⟩, ih]
          exact and_congr_right fun _ => ⟨fun h => ⟨hall, h⟩, And.right⟩
        · have hjoin : joinSlots (some s) keys = none := by
            cases hjoin : joinSlots (some s) keys with
            | none => rfl
            | some => exact absurd (joinSlots_some_iff.mp hjoin).2 hall
          simp only [hjoin]
          exact iff_of_false (by simp) fun h => hall h.2.1

/-- The slot of a queue is the one slot of all its keys. -/
theorem queueSlot_none_iff :
    queueSlot none queue = .ok (some (some s)) ↔ QueuedIn queue s ∧ SomeQueued queue := by
  induction queue with
  | nil => simp [queueSlot, SomeQueued]
  | cons elems queue ih =>
    cases hkeys : queuedKeys elems with
    | error => simp [queueSlot, QueuedIn, hkeys]
    | ok found =>
      cases found with
      | none => simpa [queueSlot, QueuedIn, SomeQueued, hkeys] using ih
      | some keys =>
        cases keys with
        | nil => simpa [queueSlot, joinSlots, QueuedIn, SomeQueued, hkeys] using ih
        | cons key rest =>
          -- from the first key on, its slot is the one to meet
          have hstart : queueSlot none (elems :: queue) =
              queueSlot (some (slot key)) (elems :: queue) := by
            simp [queueSlot, hkeys, joinSlots]
          have hsome : SomeQueued (elems :: queue) :=
            ⟨elems, mem_cons_self .., key :: rest, hkeys, by simp⟩
          rw [hstart, queueSlot_some_iff]
          constructor
          · rintro ⟨he, hin⟩
            exact ⟨Option.some.inj he ▸ hin, hsome⟩
          · rintro ⟨hin, -⟩
            obtain ⟨found, hfound, hall⟩ := hin elems (mem_cons_self ..)
            obtain rfl : some (key :: rest) = found := Except.ok.inj (hkeys.symm.trans hfound)
            have hslot : slot key = s := hall _ rfl key (mem_cons_self ..)
            exact ⟨congrArg some hslot.symm, hslot ▸ hin⟩

/-- A queue is redirected when the keys that are found for it hash to one slot, which another node
owns. -/
theorem redirected_checkExec_iff : Redirected (checkExec (some t) queue) ↔
      ∃ s, QueuedIn queue s ∧ SomeQueued queue ∧ t.owns s = false ∧ ¬ t.ownerAddr s = [] := by
  have hslot (s : Nat) : queueSlot none queue = .ok (some (some s)) ↔
      QueuedIn queue s ∧ SomeQueued queue := queueSlot_none_iff
  simp only [← and_assoc, ← hslot]
  unfold checkExec
  dsimp only
  split
  · rename_i p hq
    exact iff_of_false id (by simp [hq])
  · rename_i hq
    exact iff_of_false id (by simp [hq])
  · rename_i hq
    exact iff_of_false id (by simp [hq])
  · rename_i s hq
    simp only [hq, Except.ok.injEq, Option.some.injEq, and_assoc, exists_eq_left']
    split
    · rename_i howns
      exact iff_of_false id (by simp [howns])
    · rename_i howns
      rw [redirected_movedTo]
      simp [howns]

theorem queueSlot_of_in (h : QueuedIn queue s) :
    queueSlot none queue = .ok (some none) ∨ queueSlot none queue = .ok (some (some s)) := by
  induction queue with
  | nil => exact .inl rfl
  | cons elems queue ih =>
    obtain ⟨⟨found, hfound, -⟩, hqueue⟩ := forall_mem_cons.mp h
    match found, hfound with
    | none, hfound => simpa [queueSlot, hfound] using ih hqueue
    | some [], hfound => simpa [queueSlot, hfound, joinSlots] using ih hqueue
    | some (key :: rest), hfound =>
      exact .inr (queueSlot_none_iff.mpr
        ⟨h, elems, mem_cons_self .., key :: rest, hfound, by simp⟩)

/-- A queue on a slot of this node is replayed here, whatever has become of its keys. -/
theorem checkExec_of_owns (howns : t.owns s = true) (h : QueuedIn queue s) :
    checkExec (some t) queue = .ok none := by
  unfold checkExec
  rcases queueSlot_of_in h with hslot | hslot
  · simp [hslot]
  · simp [hslot, howns]

/-- The check before a replay is the one of the cluster. -/
def ChecksCluster {σ : Type} (b : Backend σ Call Value) (t : Topology) : Prop :=
  ∀ st (queue : List Call) (answer : Option Redirect),
    checkExec (some t) (queue.map Call.elems) = .ok answer →
      b.preExec st (queue.map .other) = answer.map Redirect.reply

/-- `EXEC` sends the client to another node, and no command of the queue is carried out. -/
def QueueRefused (t : Topology) (queue : List Call) : Prop :=
  ∃ a : Redirect, Redirected (.ok (some a)) ∧
    checkExec (some t) (queue.map Call.elems) = .ok (some a) ∧
    ∀ {σ : Type} (b : Backend σ Call Value), ChecksCluster b t →
      ∀ (conn : Conn σ Call) (sess : TxnSession Call), conn.session = some sess →
        sess.inMulti = true → sess.dirty = false → sess.queue = queue.map .other →
          Txn.handleExec b conn = ⟨{ conn with session := none }, .answer (.reply a.reply), []⟩

theorem queueRefused_iff {queue : List Call} :
    QueueRefused t queue ↔ Redirected (checkExec (some t) (queue.map Call.elems)) := by
  constructor
  · rintro ⟨a, ha, hcheck, -⟩
    rw [hcheck]
    exact ha
  · intro h
    obtain ⟨a, ha⟩ := h.answered
    refine ⟨a, ha ▸ h, ha, fun b hb conn sess hsess hmulti hclean hqueue => ?_⟩
    have hpre : b.preExec conn.store sess.queue = some a.reply := by
      rw [hqueue, hb conn.store queue (some a) ha]
      rfl
    simp [Txn.handleExec, hsess, hmulti, hclean, hpre, Bool.not_true, Bool.false_eq_true, ite_false]

/-- All user keys of the command hash to a slot. -/
def Call.Within (c : Call) (s : Nat) : Prop := ∀ key, c.Touches key → slot key = s

/-- Some user key of the command is not here. -/
def Call.Misses (c : Call) (w : World) : Prop := ∃ key, c.Touches key ∧ ¬ Present w key

/-- The first key that routing finds has left the slot, and the command is not the one that moves
keys. Where routing finds keys of another slot, that slot decides. -/
def Call.FirstGone (c : Call) (t : Topology) (s : Nat) (asked : Bool) (w : World) : Prop :=
  ∃ key rest, c.routed = .ok (some (key :: rest)) ∧ (∀ k ∈ rest, slot k = slot key) ∧
    if slot key = s then ¬ toUpper c.name = Cmd.name .MIGRATE ∧ ¬ Present w key
    else Unserved t w asked key ∧
      ((t.migrating (slot key)).isSome → ¬ toUpper c.name = Cmd.name .MIGRATE)

/-- Routing finds keys of one other slot, which another node owns. -/
def QueuedElsewhere (t : Topology) (s : Nat) (queue : List Call) : Prop :=
  ∃ s', ¬ s' = s ∧ QueuedIn (queue.map Call.elems) s' ∧ SomeQueued (queue.map Call.elems) ∧
    t.owns s' = false ∧ ¬ t.ownerAddr s' = []

/-- While a slot that this node owns moves away: a command on keys of the slot of which one is not
here is redirected in place of its handler if and only if the first key that routing finds is gone,
and a queue of such commands if and only if routing sends it elsewhere. -/
theorem migrating_redirects_iff {t : Topology} {s : Nat} {target : Bytes} (howns : t.owns s = true)
    (hmarked : t.migrating s = some target) (w : World) :
    (∀ asked (c : Call), c.Within s → c.Misses w →
      (c.Refused t asked w ↔ c.FirstGone t s asked w)) ∧
    ∀ queue : List Call, (∀ c ∈ queue, c.Within s) → (∃ c ∈ queue, c.Misses w) →
      (QueueRefused t queue ↔ QueuedElsewhere t s queue) := by
  constructor
  · intro asked c _ _
    rw [refused_iff, redirected_answer_iff]
    refine exists₂_congr fun key rest => and_congr_right fun _ => and_congr_right fun _ => ?_
    split
    · rename_i hslot
      simp only [Unserved, hslot, hmarked, Option.isSome_some, ite_true, forall_const]
      exact and_comm
    · exact Iff.rfl
  · intro queue _ _
    rw [queueRefused_iff, redirected_checkExec_iff]
    refine exists_congr fun s' => ⟨fun h => ⟨?_, h⟩, And.right⟩
    rintro rfl
    rw [h.2.2.1] at howns
    cases howns

theorem touches_iff {cmd : Cmd} {r : Reach} (hcmd : lookupMeta c.name = some cmd)
    (hr : touched cmd (c.args.map argString) = some r) (key : Bytes) :
    c.Touches key ↔ r.Touches key := by
  constructor
  · rintro ⟨cmd', r', hcmd', hr', h⟩
    obtain rfl : cmd = cmd' := Option.some.inj (hcmd.symm.trans hcmd')
    obtain rfl : r = r' := Option.some.inj (hr.symm.trans hr')
    exact h
  · exact fun h => ⟨cmd, r, hcmd, hr, h⟩

theorem routed_eq_route {cmd : Cmd} (h : lookupMeta c.name = some cmd) :
    c.routed = (cmdRule cmd).route (c.args.map argString) := by
  unfold Call.routed
  cases hws : strings (c.args.map argString) with
  | none => exact (route_of_none (Grammar.strings_eq_none.mp hws)).symm
  | some =>
    rw [Grammar.strings_eq_some.mp hws, route_strings]
    exact keysOf_toUpper h

/-- The first of two nodes while it hands over its slot. -/
@[irreducible] def movingTable : Topology :=
  setslotStep twoNodeTable ⟨[some [48], some (ascii "migrating".toList), some [98]], true⟩

/-- A store with one key of the slot. -/
@[irreducible] def halfMoved : World :=
  ⟨Pebble.opened ((∅ : OrdMap Bytes Bytes).insert (rawKey .s (ascii "urea".toList))
    (encode typeString 0 [118])) 0 .noeviction (newHub 0) [], fun _ => 0⟩

/-- A command of words. -/
def callOf (name : String) (words : List String) : Call :=
  ⟨ascii name.toList, words.map fun w => bulkOf (ascii w.toList)⟩

private theorem half_moved_facts :
    movingTable.owns 0 = true ∧ movingTable.migrating 0 = some [98] ∧
      slot (ascii "urea".toList) = 0 ∧ slot (ascii "zbgn".toList) = 0 ∧
      Present halfMoved (ascii "urea".toList) ∧ ¬ Present halfMoved (ascii "zbgn".toList) ∧
      lookupMeta (ascii "MGET".toList) = some .MGET ∧
      lookupMeta (ascii "SET".toList) = some .SET := by
  decide +kernel

theorem owns_movingTable : movingTable.owns 0 = true := half_moved_facts.1

theorem migrating_movingTable : movingTable.migrating 0 = some [98] := half_moved_facts.2.1

private theorem slot_urea : slot (ascii "urea".toList) = 0 := half_moved_facts.2.2.1

private theorem slot_zbgn : slot (ascii "zbgn".toList) = 0 := half_moved_facts.2.2.2.1

theorem present_halfMoved : Present halfMoved (ascii "urea".toList) :=
  half_moved_facts.2.2.2.2.1

theorem absent_halfMoved : ¬ Present halfMoved (ascii "zbgn".toList) :=
  half_moved_facts.2.2.2.2.2.1

private theorem lookup_mget : lookupMeta (ascii "MGET".toList) = some .MGET :=
  half_moved_facts.2.2.2.2.2.2.1

private theorem lookup_set : lookupMeta (ascii "SET".toList) = some .SET :=
  half_moved_facts.2.2.2.2.2.2.2

private theorem touches_mget (key : Bytes) :
    (callOf "MGET" ["urea", "zbgn"]).Touches key ↔
      key ∈ [ascii "urea".toList, ascii "zbgn".toList] :=
  (@touches_iff (callOf "MGET" ["urea", "zbgn"]) .MGET _ lookup_mget rfl key).trans
    Grammar.touches_keys

private theorem touches_set (key : Bytes) :
    (callOf "SET" ["zbgn", "v"]).Touches key ↔ key ∈ [ascii "zbgn".toList] :=
  (@touches_iff (callOf "SET" ["zbgn", "v"]) .SET _ lookup_set rfl key).trans Grammar.touches_keys

theorem within_mget : (callOf "MGET" ["urea", "zbgn"]).Within 0 := by
  intro key h
  rw [touches_mget] at h
  rcases mem_pair.mp h with rfl | rfl
  · exact slot_urea
  · exact slot_zbgn

theorem misses_mget : (callOf "MGET" ["urea", "zbgn"]).Misses halfMoved :=
  ⟨_, (touches_mget _).mpr (by simp), absent_halfMoved⟩

theorem within_set : (callOf "SET" ["zbgn", "v"]).Within 0 := by
  intro key h
  rw [touches_set, mem_singleton] at h
  rw [h]
  exact slot_zbgn

theorem misses_set : (callOf "SET" ["zbgn", "v"]).Misses halfMoved :=
  ⟨_, (touches_set _).mpr (by simp), absent_halfMoved⟩

/-- With the second of two keys gone, `MGET` is answered here. A transaction that creates the key
again is let through. -/
theorem half_moved_answered :
    movingTable.owns 0 = true ∧ movingTable.migrating 0 = some [98] ∧
      (callOf "MGET" ["urea", "zbgn"]).Within 0 ∧
      (callOf "MGET" ["urea", "zbgn"]).Misses halfMoved ∧
      (callOf "MGET" ["urea", "zbgn"]).answer movingTable false halfMoved = .ok none ∧
      ¬ (callOf "MGET" ["urea", "zbgn"]).Refused movingTable false halfMoved ∧
      (callOf "SET" ["zbgn", "v"]).Within 0 ∧ (callOf "SET" ["zbgn", "v"]).Misses halfMoved ∧
      checkExec (some movingTable) [(callOf "SET" ["zbgn", "v"]).elems] = .ok none ∧
      ¬ QueueRefused movingTable [callOf "SET" ["zbgn", "v"]] := by
  have hrouted : (callOf "MGET" ["urea", "zbgn"]).routed =
      .ok (some [ascii "urea".toList, ascii "zbgn".toList]) :=
    (@routed_eq_route (callOf "MGET" ["urea", "zbgn"]) .MGET lookup_mget).trans rfl
  have hqueued : queuedKeys (callOf "SET" ["zbgn", "v"]).elems = .ok (some [ascii "zbgn".toList]) :=
    (keysOf_toUpper lookup_set).trans rfl
  have hslots : ∀ k ∈ [ascii "urea".toList, ascii "zbgn".toList], slot k = 0 :=
    forall_mem_cons.mpr ⟨slot_urea, forall_mem_singleton.mpr slot_zbgn⟩
  have hin : QueuedIn [(callOf "SET" ["zbgn", "v"]).elems] 0 := by
    refine forall_mem_singleton.mpr ⟨some [ascii "zbgn".toList], hqueued, ?_⟩
    rintro _ ⟨⟩
    exact forall_mem_singleton.mpr slot_zbgn
  have hanswer : (callOf "MGET" ["urea", "zbgn"]).answer movingTable false halfMoved = .ok none :=
    answer_of_present migrating_movingTable hrouted hslots present_halfMoved
  have hexec := checkExec_of_owns owns_movingTable hin
  refine ⟨owns_movingTable, migrating_movingTable, within_mget, misses_mget, hanswer, ?_,
    within_set, misses_set, hexec, ?_⟩
  · rw [refused_iff, hanswer]
    exact id
  · rw [queueRefused_iff, map_singleton, hexec]
    exact id

/-- Outside a transaction the same command is sent to the new owner. -/
theorem migrating_redirects_set :
    movingTable.owns 0 = true ∧ movingTable.migrating 0 = some [98] ∧
      (callOf "SET" ["zbgn", "v"]).Refused movingTable false halfMoved := by
  have hiff := (migrating_redirects_iff owns_movingTable migrating_movingTable halfMoved).1 false
    (callOf "SET" ["zbgn", "v"]) within_set misses_set
  have hrouted : (callOf "SET" ["zbgn", "v"]).routed = .ok (some [ascii "zbgn".toList]) :=
    (@routed_eq_route (callOf "SET" ["zbgn", "v"]) .SET lookup_set).trans rfl
  have hname : ¬ toUpper (ascii "SET".toList) = Cmd.name .MIGRATE := by decide
  refine ⟨owns_movingTable, migrating_movingTable, hiff.mpr ?_⟩
  refine ⟨ascii "zbgn".toList, [], hrouted, by simp, ?_⟩
  rw [if_pos slot_zbgn]
  exact ⟨hname, absent_halfMoved⟩

end Gedis.Cluster
