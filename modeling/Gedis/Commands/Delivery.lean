import Gedis.Commands.PubSub

/-!
# Delivery is exact

In every reachable state the sets and the lists of subscriptions agree, a sender runs exactly while
there are subscriptions, and every running sender has an open queue of its own. A published message
therefore goes out once for each subscription that it is meant for.
-/

namespace Gedis.Commands

open Gedis.Core Protocol Std List PubSubSession PubSub

variable {x : Subscriptions} {n name : Bytes} {s : PubSubSession} {t : Turn} {names : List Bytes}
  {kind : SubKind} {args : List Value}

/-- The list holds the members of the set, each once. -/
structure Subscriptions.Listed (x : Subscriptions) : Prop where
  nodup : x.order.Nodup
  mem : ∀ name, name ∈ x.order ↔ name ∈ x.members

namespace Subscriptions

theorem listed_empty : Listed {} where
  nodup := nodup_nil
  mem := by simp

theorem Listed.add (h : x.Listed) : (x.add name).Listed := by
  rw [Subscriptions.add]
  split
  · exact h
  · next hnew =>
    have hfresh : name ∉ x.order := fun hmem => hnew ((h.mem name).mp hmem)
    have hnodup : (x.order ++ [name]).Nodup := by
      refine nodup_append.mpr ⟨h.nodup, pairwise_singleton .., fun a ha b hb heq => ?_⟩
      rw [heq, mem_singleton.mp hb] at ha
      exact hfresh ha
    refine ⟨hnodup, fun n => ?_⟩
    rw [mem_append, h.mem, mem_singleton, ExtTreeMap.mem_insert,
      Std.compare_eq_iff_eq, or_comm, eq_comm]

theorem Listed.remove (h : x.Listed) (name : Bytes) : (x.remove name).Listed where
  nodup := h.nodup.erase name
  mem := by
    intro n
    rw [Subscriptions.remove, h.nodup.mem_erase_iff, h.mem, ExtTreeMap.mem_erase,
      Std.compare_eq_iff_eq.ne, ne_comm]

theorem size_ne_zero_iff : x.members.size ≠ 0 ↔ ∃ name, name ∈ x.members := by
  rw [← OrdMap.isEmpty_eq_false_iff, ExtTreeMap.isEmpty_eq_size_beq_zero, beq_eq_false_iff_ne]

theorem mem_add : n ∈ (x.add name).members ↔ n ∈ x.members ∨ n = name := by
  rw [Subscriptions.add]
  split
  · next h =>
    refine ⟨.inl, ?_⟩
    rintro (hn | rfl)
    · exact hn
    · exact h
  · rw [ExtTreeMap.mem_insert, Std.compare_eq_iff_eq, or_comm, eq_comm]

end Subscriptions

namespace PubSubSession

theorem activeTotal_ne_zero_iff : s.activeTotal ≠ 0 ↔ ∃ kind name, name ∈ (s.get kind).members := by
  have hsum : s.activeTotal ≠ 0 ↔ s.subs.members.size ≠ 0 ∨ s.patterns.members.size ≠ 0 ∨
      s.shards.members.size ≠ 0 := by
    rw [activeTotal]
    omega
  rw [hsum, Subscriptions.size_ne_zero_iff, Subscriptions.size_ne_zero_iff,
    Subscriptions.size_ne_zero_iff]
  constructor
  · rintro (h | h | h)
    · exact ⟨.channel, h⟩
    · exact ⟨.pattern, h⟩
    · exact ⟨.shard, h⟩
  · rintro ⟨kind, h⟩
    cases kind with
    | channel => exact .inl h
    | pattern => exact .inr (.inl h)
    | shard => exact .inr (.inr h)

@[simp] theorem get_set_self : (s.set x kind).get kind = x := by
  cases kind <;> rfl

theorem get_set_of_ne {kind' : SubKind} (h : kind ≠ kind') :
    (s.set x kind).get kind' = s.get kind' := by
  cases kind <;> cases kind' <;> first | rfl | exact absurd rfl h

@[simp] theorem live_set : (s.set x kind).live = s.live := by
  cases kind <;> rfl

@[simp] theorem ch_set : (s.set x kind).ch = s.ch := by
  cases kind <;> rfl

theorem listed_set (h : ∀ kind, (s.get kind).Listed) (hx : x.Listed) (kind : SubKind) :
    ∀ kind', ((s.set x kind).get kind').Listed := by
  intro kind'
  by_cases heq : kind = kind'
  · subst heq
    rwa [get_set_self]
  · rw [get_set_of_ne heq]
    exact h kind'

end PubSubSession

/-- The lists agree with the sets, the sender runs while there are subscriptions, and its queue is
one that was made and is open while the sender runs. -/
structure PubSubSession.Sound (q : Queues) (s : PubSubSession) : Prop where
  listed : ∀ kind, (s.get kind).Listed
  live_iff : s.live = true ↔ s.activeTotal ≠ 0
  made : ∀ i, s.ch = some i → i < q.made
  isOpen : s.live = true → ∃ i, s.ch = some i ∧ i ∉ q.shut

/-- Only queues that were made are closed. -/
def Queues.Bounded (q : Queues) : Prop := ∀ i ∈ q.shut, i < q.made

/-- What a turn of a session with the queue `ch` may do to the queues: it may make new ones, and it
closes none but these and its own. -/
structure Turn.Spares (q : Queues) (ch : Option Nat) (t : Turn) : Prop where
  made : q.made ≤ t.queues.made
  own : t.sess.ch = ch ∨ ∃ i, t.sess.ch = some i ∧ q.made ≤ i
  shut : ∀ i ∈ t.queues.shut, i ∈ q.shut ∨ ch = some i ∨ q.made ≤ i

section
variable {t : Turn} {q : Queues} {ch : Option Nat}

theorem Turn.spares_self (t : Turn) : t.Spares t.queues t.sess.ch where
  made := Nat.le_refl _
  own := .inl rfl
  shut := fun _ h => .inl h

theorem ensureSender_spares (h : t.Spares q ch) : (ensureSender t).Spares q ch := by
  rw [ensureSender]
  split
  · exact h
  · exact ⟨Nat.le_succ_of_le h.made, .inr ⟨_, rfl, h.made⟩, h.shut⟩

theorem stopSender_spares (h : t.Spares q ch) : (stopSender t).Spares q ch := by
  rw [stopSender]
  split
  · refine ⟨h.made, h.own, fun i hi => ?_⟩
    rcases mem_append.mp hi with hi | hi
    · rw [Option.mem_toList] at hi
      rcases h.own with hown | ⟨j, hj, hle⟩
      · exact .inr (.inl (hown.symm.trans hi))
      · rw [hj] at hi
        cases hi
        exact .inr (.inr hle)
    · exact h.shut i hi
  · exact h

theorem subscribeOne_spares (h : t.Spares q ch) : (subscribeOne kind t name).Spares q ch := by
  have hsender := ensureSender_spares h
  refine ⟨hsender.made, ?_, hsender.shut⟩
  simp only [subscribeOne, Turn.confirmed, ch_set]
  exact hsender.own

theorem removeOne_spares (h : t.Spares q ch) : (removeOne kind t name).Spares q ch := by
  have hset : Turn.Spares q ch { t with sess := t.sess.set ((t.sess.get kind).remove name) kind } := by
    refine ⟨h.made, ?_, h.shut⟩
    rw [ch_set]
    exact h.own
  rw [removeOne]
  split
  · have hstop := stopSender_spares hset
    exact ⟨hstop.made, hstop.own, hstop.shut⟩
  · exact ⟨hset.made, hset.own, hset.shut⟩

theorem stopSender_bounded (hq : t.queues.Bounded)
    (hmade : ∀ i, t.sess.ch = some i → i < t.queues.made) : (stopSender t).queues.Bounded := by
  rw [stopSender]
  split
  · intro i hi
    rcases mem_append.mp hi with hi | hi
    · exact hmade i (Option.mem_toList.mp hi)
    · exact hq i hi
  · exact hq

theorem ensureSender_live : (ensureSender t).sess.live = true := by
  rw [ensureSender]
  split
  · next h => exact h
  · rfl

theorem ensureSender_get : (ensureSender t).sess.get kind = t.sess.get kind := by
  rw [ensureSender]
  split
  · rfl
  · cases kind <;> rfl

/-- Subscribing keeps the session sound. -/
theorem subscribeOne_sound (hq : t.queues.Bounded) (h : t.sess.Sound t.queues) :
    (subscribeOne kind t name).queues.Bounded ∧
      (subscribeOne kind t name).sess.Sound (subscribeOne kind t name).queues := by
  have hlisted : ∀ kind', ((ensureSender t).sess.get kind').Listed := by
    intro kind'
    rw [ensureSender_get]
    exact h.listed kind'
  have hqueue : (ensureSender t).queues.Bounded ∧
      (∀ i, (ensureSender t).sess.ch = some i → i < (ensureSender t).queues.made) ∧
      ∃ i, (ensureSender t).sess.ch = some i ∧ i ∉ (ensureSender t).queues.shut := by
    rw [ensureSender]
    split
    · next hlive => exact ⟨hq, h.made, h.isOpen hlive⟩
    · refine ⟨fun i hi => Nat.lt_succ_of_lt (hq i hi), fun i hi => ?_, _, rfl, fun hi => ?_⟩
      · cases hi
        exact Nat.lt_succ_self _
      · exact lt_irrefl _ (hq _ hi)
  obtain ⟨hbounded, hmade, hopen⟩ := hqueue
  refine ⟨hbounded, ?_⟩
  simp only [subscribeOne, Turn.confirmed]
  constructor
  · exact listed_set hlisted ((hlisted kind).add) kind
  · rw [live_set, ensureSender_live, activeTotal_ne_zero_iff]
    refine iff_of_true rfl ⟨kind, name, ?_⟩
    rw [get_set_self]
    exact Subscriptions.mem_add.mpr (.inr rfl)
  · rw [ch_set]
    exact hmade
  · rw [ch_set]
    exact fun _ => hopen

/-- Ending a subscription keeps the session sound. -/
theorem removeOne_sound (hq : t.queues.Bounded) (h : t.sess.Sound t.queues) :
    (removeOne kind t name).queues.Bounded ∧
      (removeOne kind t name).sess.Sound (removeOne kind t name).queues := by
  have hlisted := listed_set h.listed ((h.listed kind).remove name) kind
  rw [removeOne]
  generalize hs : t.sess.set ((t.sess.get kind).remove name) kind = s at hlisted ⊢
  have hch : s.ch = t.sess.ch := by rw [← hs, ch_set]
  have hlive : s.live = t.sess.live := by rw [← hs, live_set]
  have hmade : ∀ i, s.ch = some i → i < t.queues.made := fun i hi => h.made i (hch ▸ hi)
  by_cases hzero : s.activeTotal = 0
  · rw [if_pos hzero]
    refine ⟨stopSender_bounded hq hmade, ?_⟩
    rw [stopSender]
    split
    · -- the last subscription is gone, so the queue is closed
      refine ⟨hlisted, ?_, hmade, ?_⟩
      · have hdown : live { s with closed := true } = false := by
          rw [live, Bool.not_true, Bool.and_false]
        simp only [Turn.confirmed]
        rw [hdown]
        exact iff_of_false Bool.false_ne_true fun hne => hne hzero
      · intro hup
        rw [Turn.confirmed, live, Bool.not_true, Bool.and_false] at hup
        cases hup
    · next hdown =>
      exact ⟨hlisted, iff_of_false hdown fun hne => hne hzero, hmade, fun hup => absurd hup hdown⟩
  · rw [if_neg hzero]
    -- something is left of what was there before
    have hbefore : t.sess.activeTotal ≠ 0 := by
      obtain ⟨kind', n, hn⟩ := activeTotal_ne_zero_iff.mp hzero
      refine activeTotal_ne_zero_iff.mpr ⟨kind', n, ?_⟩
      rw [← hs] at hn
      by_cases heq : kind = kind'
      · subst heq
        rw [get_set_self] at hn
        exact ExtTreeMap.mem_of_mem_erase hn
      · rwa [get_set_of_ne heq] at hn
    have hup : s.live = true := hlive.trans (h.live_iff.mpr hbefore)
    refine ⟨hq, hlisted, iff_of_true hup hzero, hmade, fun _ => ?_⟩
    obtain ⟨i, hi, hnot⟩ := h.isOpen (h.live_iff.mpr hbefore)
    exact ⟨i, hch.trans hi, hnot⟩

end

section
variable {kind kind' : SubKind} {name : Bytes}

theorem mem_subscribeOne : n ∈ ((subscribeOne kind t name).sess.get kind').members ↔
      n ∈ (t.sess.get kind').members ∨ kind = kind' ∧ n = name := by
  simp only [subscribeOne, Turn.confirmed]
  by_cases h : kind = kind'
  · subst h
    rw [get_set_self, Subscriptions.mem_add, ensureSender_get]
    simp
  · rw [get_set_of_ne h, ensureSender_get]
    simp [h]

/-- Subscribing adds the names to the set of their kind. -/
theorem mem_subscribeAll : n ∈ ((names.foldl (subscribeOne kind) t).sess.get kind').members ↔
      n ∈ (t.sess.get kind').members ∨ kind = kind' ∧ n ∈ names := by
  induction names generalizing t with
  | nil => simp
  | cons name names ih =>
    refine ih.trans ?_
    rw [mem_subscribeOne, mem_cons, or_assoc, and_or_left]

theorem stopSender_get : (stopSender t).sess.get kind = t.sess.get kind := by
  rw [stopSender]
  split
  · cases kind <;> rfl
  · rfl

theorem mem_of_removeOne (h : n ∈ ((removeOne kind t name).sess.get kind').members) :
    n ∈ (t.sess.get kind').members := by
  have hset : n ∈ ((t.sess.set ((t.sess.get kind).remove name) kind).get kind').members := by
    simp only [removeOne, Turn.confirmed] at h
    split at h
    · rwa [stopSender_get] at h
    · exact h
  by_cases heq : kind = kind'
  · subst heq
    rw [get_set_self] at hset
    exact ExtTreeMap.mem_of_mem_erase hset
  · rwa [get_set_of_ne heq] at hset

/-- Ending subscriptions adds none. -/
theorem mem_of_removeAll (h : n ∈ ((names.foldl (removeOne kind) t).sess.get kind').members) :
    n ∈ (t.sess.get kind').members := by
  induction names generalizing t with
  | nil => exact h
  | cons name names ih => exact mem_of_removeOne (ih h)

end

/-- Every session is sound, and no two sessions have the same queue. -/
structure PubSub.Sound (reg : PubSub) : Prop where
  bounded : reg.queues.Bounded
  sessions : ∀ (conn : Nat) (s : PubSubSession), reg.sessions[conn]? = some s → s.Sound reg.queues
  own : ∀ (conn conn' : Nat) (s s' : PubSubSession) (i : Nat), reg.sessions[conn]? = some s →
    reg.sessions[conn']? = some s' → s.ch = some i → s'.ch = some i → conn = conn'

theorem PubSub.sound_empty : PubSub.Sound {} where
  bounded := fun _ h => absurd h not_mem_nil
  sessions := by simp
  own := by simp

theorem PubSubSession.sound_new {q : Queues} : PubSubSession.Sound q {} where
  listed := by
    intro kind
    cases kind <;> exact Subscriptions.listed_empty
  live_iff := by simp [live, activeTotal]
  made := by simp
  isOpen := by simp [live]

section
variable {reg : PubSub} {conn : Nat}

section

variable (h : reg.Sound)
include h

theorem PubSub.turn_sound : (reg.turn conn).sess.Sound reg.queues := by
  rw [turn]
  cases hs : reg.sessions[conn]? with
  | none => exact sound_new
  | some s => exact h.sessions conn s hs

/-- The queue of another session is not touched by a turn. -/
theorem PubSub.Sound.other {conn' : Nat} {s' : PubSubSession} (hne : conn ≠ conn')
    (hs' : reg.sessions[conn']? = some s') (ht : t.Spares reg.queues (reg.turn conn).sess.ch) :
    s'.Sound t.queues ∧ ∀ i, t.sess.ch = some i → s'.ch ≠ some i := by
  have hsound := h.sessions conn' s' hs'
  -- a queue of the session that takes the turn is not the one of another session
  have hforeign : ∀ i, (reg.turn conn).sess.ch = some i → s'.ch ≠ some i := by
    intro i hi hi'
    rw [turn] at hi
    cases hs : reg.sessions[conn]? with
    | none =>
      rw [hs] at hi
      cases hi
    | some s =>
      rw [hs] at hi
      exact hne (h.own conn conn' s s' i hs hs' hi hi')
  refine ⟨⟨hsound.listed, hsound.live_iff, fun i hi => ?_, fun hlive => ?_⟩, fun i hi hi' => ?_⟩
  · exact (hsound.made i hi).trans_le ht.made
  · obtain ⟨i, hi, hnot⟩ := hsound.isOpen hlive
    refine ⟨i, hi, fun hshut => ?_⟩
    rcases ht.shut i hshut with hold | hown | hnew
    · exact hnot hold
    · exact hforeign i hown hi
    · exact absurd (hsound.made i hi) (Nat.not_lt.mpr hnew)
  · rcases ht.own with hown | ⟨j, hj, hnew⟩
    · exact hforeign i (hown ▸ hi) hi'
    · rw [hj, Option.some.injEq] at hi
      subst hi
      exact absurd (hsound.made j hi') (Nat.not_lt.mpr hnew)

/-- Keeping what a turn leaves behind. -/
theorem PubSub.keep_sound (ht : t.Spares reg.queues (reg.turn conn).sess.ch) (hq : t.queues.Bounded)
    (hs : t.sess.Sound t.queues) : (reg.keep conn t).Sound where
  bounded := hq
  sessions := by
    intro conn' s' hs'
    rw [keep, OrdMap.getElem?_insert] at hs'
    split at hs'
    · cases hs'
      exact hs
    · next hne => exact (h.other hne hs' ht).1
  own := by
    intro c c' s s' i hc hc' hi hi'
    rw [keep, OrdMap.getElem?_insert] at hc hc'
    split at hc
    · next heq =>
      split at hc'
      · next heq' => exact heq.symm.trans heq'
      · next hne =>
        cases hc
        exact absurd hi' ((h.other hne hc' ht).2 i hi)
    · next hne =>
      split at hc'
      · cases hc'
        exact absurd hi ((h.other hne hc ht).2 i hi')
      · exact h.own c c' s s' i hc hc' hi hi'

/-- A turn that takes names one by one. -/
theorem PubSub.keep_foldl_sound {f : Turn → Bytes → Turn} (hspares : ∀ t name, t.Spares reg.queues
      (reg.turn conn).sess.ch → (f t name).Spares reg.queues (reg.turn conn).sess.ch) (hsound : ∀ t
      name, t.queues.Bounded → t.sess.Sound t.queues → (f t name).queues.Bounded ∧ (f t
      name).sess.Sound (f t name).queues)
    (ht : t.Spares reg.queues (reg.turn conn).sess.ch) (hq : t.queues.Bounded)
    (hs : t.sess.Sound t.queues) : (reg.keep conn (names.foldl f t)).Sound := by
  induction names generalizing t with
  | nil => exact keep_sound h ht hq hs
  | cons name names ih =>
    obtain ⟨hq', hs'⟩ := hsound t name hq hs
    exact ih (hspares t name ht) hq' hs'

theorem subscribeTo_sound {conn : Option Nat} : (subscribeTo kind reg conn args).1.Sound := by
  unfold subscribeTo
  split
  · exact h
  · cases conn with
    | none => exact h
    | some conn =>
      exact keep_foldl_sound h (fun _ name ht => subscribeOne_spares ht)
        (fun _ name hq hs => subscribeOne_sound hq hs) (Turn.spares_self (reg.turn conn))
        h.bounded (turn_sound h)

theorem unsubscribeFrom_sound {conn : Option Nat} :
    (unsubscribeFrom kind reg conn args).1.Sound := by
  cases conn with
  | none => exact h
  | some conn =>
    have hself := Turn.spares_self (reg.turn conn)
    refine keep_foldl_sound h (fun _ name ht => removeOne_spares ht)
      (fun _ name hq hs => removeOne_sound hq hs) ?_ ?_ ?_
    · split
      · exact ⟨hself.made, hself.own, hself.shut⟩
      · exact hself
    · split <;> exact h.bounded
    · split <;> exact turn_sound h

theorem connClosed_sound : (connClosed reg conn).Sound := by
  rw [connClosed]
  cases hs : reg.sessions[conn]? with
  | none => exact h
  | some s =>
    have hturn : (reg.turn conn).sess = s := by rw [turn, hs, Option.getD_some]
    have hspares : (stopSender { queues := reg.queues, sess := s }).Spares reg.queues
        (reg.turn conn).sess.ch := by
      rw [hturn]
      exact stopSender_spares (Turn.spares_self { queues := reg.queues, sess := s })
    refine ⟨?_, fun conn' s' hs' => ?_, fun c c' a a' i hc hc' => ?_⟩
    · exact stopSender_bounded h.bounded (h.sessions conn s hs).made
    · rw [OrdMap.getElem?_erase] at hs'
      split at hs'
      · cases hs'
      · next hne => exact (h.other hne hs' hspares).1
    · rw [OrdMap.getElem?_erase] at hc hc'
      split at hc
      · cases hc
      · split at hc'
        · cases hc'
        · exact h.own c c' a a' i hc hc'

end

theorem PubSub.step_sound (reg : PubSub) (e : PubSubEvent) (h : reg.Sound) : (reg.step e).Sound := by
  cases e with
  | subscribe => exact subscribeTo_sound h
  | psubscribe => exact subscribeTo_sound h
  | ssubscribe => exact subscribeTo_sound h
  | unsubscribe => exact unsubscribeFrom_sound h
  | punsubscribe => exact unsubscribeFrom_sound h
  | sunsubscribe => exact unsubscribeFrom_sound h
  | connClosed => exact connClosed_sound h

theorem PubSub.run_sound (es : List PubSubEvent) : (run PubSub.step {} es).Sound :=
  run_invariant step_sound sound_empty es

end

/-- The messages that a session is to get: one for a subscription to the channel, and one for each
member of the set of patterns that matches. -/
def PubSubSession.due (s : PubSubSession) (channel : Bytes) (payload : Value) : List Value :=
  (if channel ∈ s.subs.members then [message channel payload] else []) ++
    (s.patterns.members.keys.filter (matchPattern · channel)).map (pmessage · channel payload)

/-- The messages that a session is to get from a shard channel. -/
def PubSubSession.shardDue (s : PubSubSession) (channel : Bytes) (payload : Value) : List Value :=
  if channel ∈ s.shards.members then [smessage channel payload] else []

/-- The call counts its messages, and they are what is due to the live sessions, each in the queue of
its session. -/
def PubSub.Delivers (reg : PubSub) (p : Publication) (due : PubSubSession → List Value) : Prop :=
  p.count = p.sends.length ∧
    p.sends.Perm ((reg.sessions.toList.filter (·.2.live)).flatMap fun e =>
      (due e.2).map fun m => (e.2.ch, m))

theorem flatMap_targets {α β γ : Type} {xs : List α} {p : α → Bool} {key : α → γ} {f : α → List β} :
    ((xs.filterMap fun x => if p x && !(f x).isEmpty then some (key x, f x) else none).flatMap
        fun d => d.2.map fun m => (d.1, m)) =
      (xs.filter p).flatMap fun x => (f x).map fun m => (key x, m) := by
  induction xs with
  | nil => rfl
  | cons x xs ih =>
    cases hp : p x with
    | false =>
      rw [filterMap_cons_none (by rw [hp]; rfl), filter_cons_of_neg (by rw [hp]; decide)]
      exact ih
    | true =>
      rw [filter_cons_of_pos hp, flatMap_cons, ← ih]
      cases hf : f x with
      | nil => rw [filterMap_cons_none (by rw [hp, hf]; rfl)]; rfl
      | cons =>
        rw [filterMap_cons_some (by rw [hp, hf]; rfl), flatMap_cons]

theorem perm_order (h : x.Listed) : x.order.Perm x.members.keys := by
  rw [perm_ext_iff_of_nodup h.nodup ExtTreeMap.nodup_keys]
  intro name
  rw [h.mem, ExtTreeMap.mem_keys]

theorem messages_perm {q : Queues} (h : s.Sound q) (channel : Bytes) (payload : Value) :
    (s.messages channel payload).Perm (s.due channel payload) :=
  ((perm_order (h.listed .pattern)).filter _ |>.map _).append_left _

theorem collect_delivers {reg : PubSub} (ns : List Nat) {messages due : PubSubSession → List Value}
    (h : ∀ (conn : Nat) (s : PubSubSession), reg.sessions[conn]? = some s → (messages s).Perm (due s)) :
    reg.Delivers (collect reg ns messages) due := by
  constructor
  · rw [collect]
    rw [length_flatMap]
    simp
  · rw [collect]
    rw [flatMap_targets]
    refine List.Perm.flatMap ((arrange_perm ns _).filter _) fun e he => ?_
    have hmem := (arrange_perm ns _).subset (mem_filter.mp he).1
    exact (h e.1 e.2 (ExtTreeMap.mem_toList_iff_getElem?_eq_some.mp hmem)).map _

/-- The sender is running and its queue is open. -/
def PubSubSession.Open (q : Queues) (s : PubSubSession) : Prop :=
  s.live = true ∧ ∃ i, s.ch = some i ∧ i ∉ q.shut

/-- After any commands and disconnections, in every session the lists hold exactly the members of the
sets, the sender is open exactly when there is a subscription of any kind, and no two sessions share
a queue. A message that is published then goes out exactly once for each live session and exact
subscription and once for each live session and matching pattern, and on a shard channel once for
each session that is subscribed to it. -/
theorem delivery_exact (es : List PubSubEvent) :
    (∀ (conn : Nat) (s : PubSubSession), (run PubSub.step {} es).sessions[conn]? = some s →
      (∀ kind, (s.get kind).Listed) ∧
        (s.Open (run PubSub.step {} es).queues ↔ ∃ kind name, name ∈ (s.get kind).members)) ∧
    (∀ (conn conn' : Nat) (s s' : PubSubSession) (i : Nat),
      (run PubSub.step {} es).sessions[conn]? = some s →
      (run PubSub.step {} es).sessions[conn']? = some s' → s.ch = some i → s'.ch = some i →
        conn = conn') ∧
    ∀ ns channel payload,
      (run PubSub.step {} es).Delivers (publish (run PubSub.step {} es) ns channel payload)
          (fun s => s.due channel payload) ∧
        (run PubSub.step {} es).Delivers (shardPublish (run PubSub.step {} es) ns channel payload)
          fun s => s.shardDue channel payload := by
  have h := run_sound es
  refine ⟨fun conn s hs => ?_, h.own, fun ns channel payload => ⟨?_, ?_⟩⟩
  · have hsound := h.sessions conn s hs
    refine ⟨hsound.listed, ?_⟩
    rw [← activeTotal_ne_zero_iff, ← hsound.live_iff]
    exact ⟨fun hopen => hopen.1, fun hlive => ⟨hlive, hsound.isOpen hlive⟩⟩
  · exact collect_delivers ns fun conn s hs => messages_perm (h.sessions conn s hs) channel payload
  · exact collect_delivers ns fun conn s _ => List.Perm.refl _

end Gedis.Commands
