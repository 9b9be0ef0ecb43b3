import Gedis.Acl.Gate
import Gedis.Acl.KeySpec
import Gedis.Commands.Delivery

/-!
# Channel permissions

The dispatcher checks the channels of some commands against the channel patterns of the user before
it runs them. What a connection can then receive depends on its subscriptions. Shard channels are not
checked, subscription patterns are compared as texts, and an argument that is no bulk string is
skipped by the check while the handler takes it for a name.
-/

namespace Gedis.Acl

open Gedis.Core Protocol Commands Std List PubSubSession PubSub

variable {channel : Bytes} {p : Publication} {payload : Value} {kind : SubKind} {reg : PubSub}
  {c : Nat} {args : List Value}

/-- The commands about channels. -/
inductive BusCmd where
  | subscribe
  | psubscribe
  | ssubscribe
  | unsubscribe
  | punsubscribe
  | sunsubscribe
  | publish
  | spublish
  deriving DecidableEq, Repr

def BusCmd.cmd : BusCmd → Cmd
  | .subscribe => .SUBSCRIBE
  | .psubscribe => .PSUBSCRIBE
  | .ssubscribe => .SSUBSCRIBE
  | .unsubscribe => .UNSUBSCRIBE
  | .punsubscribe => .PUNSUBSCRIBE
  | .sunsubscribe => .SUNSUBSCRIBE
  | .publish => .PUBLISH
  | .spublish => .SPUBLISH

/-- The texts of the bulk strings among the arguments. -/
def bulkArgs (args : List Value) : List Bytes := args.filterMap argString

/-- The channels that are checked. -/
def extractChannels (c : BusCmd) (args : List Value) : List Bytes :=
  match c with
  | .subscribe | .unsubscribe | .psubscribe | .punsubscribe => bulkArgs args
  | .publish => (bulkArgs args).take 1
  | .ssubscribe | .sunsubscribe | .spublish => []

/-- Subscriptions, and who published and who received a message on which channel so far. -/
structure Bus where
  reg : PubSub := {}
  published : List (Nat × Bytes) := []
  received : List (Nat × Bytes) := []

/-- A command of a connection. `replay` is set for a command of a transaction, and `ns` draws the
order in which sessions are visited. -/
structure Request where
  conn : Nat
  cmd : BusCmd
  args : List Value
  replay : Bool := false
  ns : List Nat := []

/-- A connection with subscriptions may not publish, except in a transaction. -/
def intercept (reg : PubSub) (r : Request) : Bool :=
  !r.replay && (r.cmd = .publish || r.cmd = .spublish) &&
    (reg.sessions[r.conn]?.map (·.activeTotal)).getD 0 ≠ 0

/-- The connections that get the messages of a publication on a channel. -/
def receivers (reg : PubSub) (channel : Bytes) (p : Publication) : List (Nat × Bytes) :=
  p.sends.flatMap fun d =>
    (reg.sessions.toList.filter fun e => e.2.ch == d.1).map fun e => (e.1, channel)

/-- A publication goes out. -/
def Bus.deliver (st : Bus) (channel : Bytes) (p : Publication) : Bus :=
  { st with received := st.received ++ receivers st.reg channel p }

def Bus.handlePublish (st : Bus) (conn : Nat)
    (publish : Bytes → Value → Publication) : List Value → Bus
  | [channel, payload] =>
    Bus.deliver { st with published := st.published ++ [(conn, bulkBytes channel)] }
      (bulkBytes channel) (publish (bulkBytes channel) payload)
  | _ => st

/-- Run the handler of a command. -/
def Bus.handle (st : Bus) (r : Request) : Bus :=
  match r.cmd with
  | .subscribe => { st with reg := st.reg.step (.subscribe (some r.conn) r.args) }
  | .psubscribe => { st with reg := st.reg.step (.psubscribe (some r.conn) r.args) }
  | .ssubscribe => { st with reg := st.reg.step (.ssubscribe (some r.conn) r.args) }
  | .unsubscribe => { st with reg := st.reg.step (.unsubscribe (some r.conn) r.args) }
  | .punsubscribe => { st with reg := st.reg.step (.punsubscribe (some r.conn) r.args) }
  | .sunsubscribe => { st with reg := st.reg.step (.sunsubscribe (some r.conn) r.args) }
  | .publish => st.handlePublish r.conn (publish st.reg r.ns) r.args
  | .spublish => st.handlePublish r.conn (shardPublish st.reg r.ns) r.args

/-- A command, a message that the server itself publishes, or the end of a connection. -/
inductive BusEvent where
  | request (r : Request)
  | server (ns : List Nat) (channel : Bytes) (payload : Value)
  | connClosed (conn : Nat)

section
variable (lib : Library) (s : Store) (who : Nat → Option Bytes)

/-- The access decision about a command. -/
def access (r : Request) : Go Access := do
  let keys ← extractKeys r.cmd.cmd (bulkArgs r.args)
  gate lib s (who r.conn) r.cmd.cmd.name keys (extractChannels r.cmd r.args)

/-- The command reaches its handler. -/
def Runs (reg : PubSub) (r : Request) : Prop :=
  intercept reg r = false ∧ access lib s who r = .ok .allowed

instance (reg : PubSub) (r : Request) : Decidable (Runs lib s who reg r) :=
  inferInstanceAs (Decidable (_ ∧ _))

/-- `who` is the name that each connection has authenticated as. -/
def Bus.step (st : Bus) : BusEvent → Bus
  | .request r => if Runs lib s who st.reg r then st.handle r else st
  | .server ns channel payload => st.deliver channel (publish st.reg ns channel payload)
  | .connClosed conn => { st with reg := st.reg.step (.connClosed conn) }

end

section
variable {reg : PubSub} {conn : Nat}

/-- The connection gets a message of the publication. -/
def Receives (reg : PubSub) (conn : Nat) (p : Publication) : Prop :=
  ∃ s v, reg.sessions[conn]? = some s ∧ (s.ch, v) ∈ p.sends

theorem mem_receivers {c : Bytes} :
    (conn, c) ∈ receivers reg channel p ↔ c = channel ∧ Receives reg conn p := by
  simp only [receivers, mem_flatMap, mem_map, mem_filter, beq_iff_eq, Prod.mk.injEq]
  constructor
  · rintro ⟨d, hd, ⟨conn', s⟩, ⟨hmem, hch⟩, rfl, rfl⟩
    refine ⟨rfl, s, d.2, ExtTreeMap.mem_toList_iff_getElem?_eq_some.mp hmem, ?_⟩
    rw [hch]
    exact hd
  · rintro ⟨rfl, s, v, hs, hd⟩
    exact ⟨(s.ch, v), hd, (conn, s),
      ⟨ExtTreeMap.mem_toList_iff_getElem?_eq_some.mpr hs, rfl⟩, rfl, rfl⟩

/-- A connection gets something exactly when something is due to its session. -/
theorem receives_iff (h : reg.Sound) {due : PubSubSession → List Value} (hp : reg.Delivers p due)
    (hdue : ∀ s, due s ≠ [] → s.activeTotal ≠ 0) :
    Receives reg conn p ↔ ∃ s, reg.sessions[conn]? = some s ∧ due s ≠ [] := by
  constructor
  · rintro ⟨s, v, hs, hsend⟩
    obtain ⟨e, he, hmem⟩ := mem_flatMap.mp (hp.2.subset hsend)
    obtain ⟨m, hm, heq⟩ := mem_map.mp hmem
    obtain ⟨hlisted, hlive⟩ := mem_filter.mp he
    have hs' : reg.sessions[e.1]? = some e.2 :=
      ExtTreeMap.mem_toList_iff_getElem?_eq_some.mp hlisted
    -- the queue belongs to one session
    obtain ⟨i, hi, -⟩ := (h.sessions e.1 e.2 hs').isOpen hlive
    have hch : s.ch = some i := (congrArg Prod.fst heq).symm.trans hi
    have hconn := h.own conn e.1 s e.2 i hs hs' hch hi
    rw [← hconn] at hs'
    exact ⟨e.2, hs', ne_nil_of_mem hm⟩
  · rintro ⟨s, hs, hne⟩
    obtain ⟨v, hv⟩ := exists_mem_of_ne_nil _ hne
    refine ⟨s, v, hs, hp.2.symm.subset ?_⟩
    have hlive := (h.sessions conn s hs).live_iff.mpr (hdue s hne)
    refine mem_flatMap.mpr ⟨(conn, s), mem_filter.mpr ⟨?_, hlive⟩, ?_⟩
    · exact ExtTreeMap.mem_toList_iff_getElem?_eq_some.mpr hs
    · exact mem_map_of_mem hv

theorem receives_publish_iff (h : reg.Sound) {ns : List Nat} :
    Receives reg conn (publish reg ns channel payload) ↔
      ∃ s, reg.sessions[conn]? = some s ∧
        (channel ∈ s.subs.members ∨ ∃ p ∈ s.patterns.members, matchPattern p channel = true) := by
  have hdue : ∀ s : PubSubSession, s.due channel payload ≠ [] ↔
      channel ∈ s.subs.members ∨ ∃ p ∈ s.patterns.members, matchPattern p channel = true := by
    intro s
    rw [due, ne_eq, append_eq_nil_iff, not_and_or, map_eq_nil_iff]
    simp
  have hdelivers := collect_delivers ns fun c s hs =>
    messages_perm (h.sessions c s hs) channel payload
  rw [publish, receives_iff h hdelivers]
  · simp [hdue]
  · intro s hne
    rw [activeTotal_ne_zero_iff]
    rcases (hdue s).mp hne with hmem | ⟨p, hp, -⟩
    · exact ⟨.channel, channel, hmem⟩
    · exact ⟨.pattern, p, hp⟩

theorem receives_shardPublish_iff (h : reg.Sound) {ns : List Nat} :
    Receives reg conn (shardPublish reg ns channel payload) ↔
      ∃ s, reg.sessions[conn]? = some s ∧ channel ∈ s.shards.members := by
  have hdue : ∀ s : PubSubSession, s.shardDue channel payload ≠ [] ↔ channel ∈ s.shards.members := by
    intro s
    rw [shardDue]
    split
    · next hmem => exact iff_of_true (cons_ne_nil _ _) hmem
    · next hmem => exact iff_of_false (fun hne => hne rfl) hmem
  have hdelivers : reg.Delivers (shardPublish reg ns channel payload)
      fun s => s.shardDue channel payload :=
    collect_delivers ns fun _ _ _ => List.Perm.refl _
  rw [receives_iff h hdelivers]
  · simp [hdue]
  · intro s hne
    rw [activeTotal_ne_zero_iff]
    exact ⟨.shard, channel, (hdue s).mp hne⟩

variable {covered : Bytes → Prop}

/-- A subscription lets in messages on those channels only. -/
def Grants (covered : Bytes → Prop) : SubKind → Bytes → Prop
  | .channel, name => covered name
  | .pattern, name => ∀ channel, matchPattern name channel = true → covered channel
  | .shard, name => covered name

/-- All subscriptions of the connection do. -/
def Held (covered : Bytes → Prop) (reg : PubSub) (conn : Nat) : Prop :=
  ∀ kind name, name ∈ ((reg.turn conn).sess.get kind).members → Grants covered kind name

/-- Whatever is published next, the connection gets it only on those channels. -/
def Ahead (covered : Bytes → Prop) (reg : PubSub) (conn : Nat) : Prop :=
  ∀ ns channel payload, (Receives reg conn (publish reg ns channel payload) → covered channel) ∧
    (Receives reg conn (shardPublish reg ns channel payload) → covered channel)

theorem turn_of_some {s : PubSubSession} (hs : reg.sessions[conn]? = some s) :
    (reg.turn conn).sess = s := by
  rw [turn, hs, Option.getD_some]

theorem some_of_mem_turn {name : Bytes} (h : name ∈ ((reg.turn conn).sess.get kind).members) :
    reg.sessions[conn]? = some (reg.turn conn).sess := by
  cases hs : reg.sessions[conn]? with
  | some => rw [turn_of_some hs]
  | none =>
    rw [turn, hs] at h
    cases kind <;> simp [PubSubSession.get] at h

theorem ahead_iff_held (h : reg.Sound) : Ahead covered reg conn ↔ Held covered reg conn := by
  constructor
  · intro hahead kind name hmem
    have hs := some_of_mem_turn hmem
    cases kind with
    | channel =>
      exact (hahead [] name .null).1 ((receives_publish_iff h).mpr ⟨_, hs, .inl hmem⟩)
    | pattern =>
      intro channel hmatch
      exact (hahead [] channel .null).1
        ((receives_publish_iff h).mpr ⟨_, hs, .inr ⟨name, hmem, hmatch⟩⟩)
    | shard => exact (hahead [] name .null).2 ((receives_shardPublish_iff h).mpr ⟨_, hs, hmem⟩)
  · intro hheld ns channel payload
    rw [receives_publish_iff h, receives_shardPublish_iff h]
    refine ⟨?_, ?_⟩
    · rintro ⟨s, hs, hreach⟩
      rw [← turn_of_some hs] at hreach
      rcases hreach with hmem | ⟨p, hp, hmatch⟩
      · exact hheld .channel channel hmem
      · exact hheld .pattern p hp channel hmatch
    · rintro ⟨s, hs, hmem⟩
      rw [← turn_of_some hs] at hmem
      exact hheld .shard channel hmem

theorem turn_keep {t : Turn} :
    ((reg.keep c t).turn conn).sess = if c = conn then t.sess else (reg.turn conn).sess := by
  rw [turn, keep, OrdMap.getElem?_insert]
  split
  · rfl
  · rfl

theorem held_subscribeTo : Held covered (subscribeTo kind reg (some c) args).1 conn ↔
      Held covered reg conn ∧ (c = conn → ∀ a ∈ args, Grants covered kind (bulkBytes a)) := by
  unfold subscribeTo
  split
  · next hempty =>
    rw [isEmpty_iff.mp hempty]
    simp
  · dsimp only
    simp only [Held, turn_keep]
    by_cases hc : c = conn
    · subst hc
      simp only [if_true, mem_subscribeAll, forall_const]
      constructor
      · intro h
        refine ⟨fun k n hn => h k n (.inl hn), fun a ha => h kind _ (.inr ⟨rfl, ?_⟩)⟩
        exact mem_map_of_mem ha
      · rintro ⟨hold, hnew⟩ k n (hn | ⟨rfl, hn⟩)
        · exact hold k n hn
        · obtain ⟨a, ha, rfl⟩ := mem_map.mp hn
          exact hnew a ha
    · simp [hc]

theorem held_unsubscribeFrom (h : Held covered reg conn) :
    Held covered (unsubscribeFrom kind reg (some c) args).1 conn := by
  intro k n hn
  refine h k n ?_
  unfold unsubscribeFrom at hn
  rw [turn_keep] at hn
  split at hn
  · next hc =>
    subst hc
    have hbefore := mem_of_removeAll hn
    split at hbefore
    · exact hbefore
    · exact hbefore
  · exact hn

theorem turn_connClosed :
    ((connClosed reg c).turn conn).sess = if c = conn then {} else (reg.turn conn).sess := by
  rw [connClosed]
  cases hold : reg.sessions[c]? with
  | none =>
    dsimp only
    split
    · next hc => rw [← hc, turn, hold, Option.getD_none]
    · rfl
  | some =>
    simp only [turn, OrdMap.getElem?_erase]
    split <;> rfl

theorem held_connClosed (h : Held covered reg conn) : Held covered (connClosed reg c) conn := by
  intro k n hn
  rw [turn_connClosed] at hn
  split at hn
  · cases k <;> simp [PubSubSession.get] at hn
  · exact h k n hn

end

/-- What a command that runs has to keep to beyond what the dispatcher checks. -/
def Request.Within (covered : Bytes → Prop) (r : Request) : Prop :=
  match r.cmd, r.args with
  | .subscribe, args => ∀ a ∈ args, argString a = none → covered (bulkBytes a)
  | .psubscribe, args =>
    ∀ a ∈ args, ∀ channel, matchPattern (bulkBytes a) channel = true → covered channel
  | .ssubscribe, args => ∀ a ∈ args, covered (bulkBytes a)
  | .publish, [channel, _] => argString channel = none → covered (bulkBytes channel)
  | .spublish, [channel, _] => covered (bulkBytes channel)
  | _, _ => True

theorem bulkBytes_of_argString {a : Value} {text : Bytes} (h : argString a = some text) :
    bulkBytes a = text := by
  cases a with
  | bulkString => exact Option.some.inj h
  | _ => cases h

theorem extractKeys_busCmd {c : BusCmd} {args : List Bytes} : extractKeys c.cmd args = .ok [] := by
  cases c <;> rfl

section
variable (lib : Library) (s : Store) (who : Nat → Option Bytes)

/-- The condition on a step for the connection. -/
def BusEvent.Within (covered : Bytes → Prop) (conn : Nat) (st : Bus) : BusEvent → Prop
  | .request r => r.conn = conn → Runs lib s who st.reg r → r.Within covered
  | _ => True

variable {lib s who} {u : User} {r : Request} {reg : PubSub}

/-- The channels of a command that runs match the patterns of the user. -/
theorem covered_of_runs (hrestricted : hasRestrictedUsers s = true)
    (hu : s[actingUser (who r.conn)]? = some u) (hsel : u.selectors = [])
    (hruns : Runs lib s who reg r) : Covers lib u.channels (extractChannels r.cmd r.args) := by
  have haccess := hruns.2
  rw [access, extractKeys_busCmd] at haccess
  have hexempt : isAuthExempt r.cmd.cmd.name = false := by
    cases r.cmd <;> decide
  have hgate : gate lib s (who r.conn) r.cmd.cmd.name [] (extractChannels r.cmd r.args) =
      fullCheck lib s (who r.conn) r.cmd.cmd.name [] (extractChannels r.cmd r.args) := by
    rw [gate, hrestricted, hexempt]
    rfl
  obtain ⟨-, v, hv, hadmits⟩ := (fullCheck_eq_allowed lib).mp (hgate.symm.trans haccess)
  rw [hu, Option.some.injEq] at hv
  subst hv
  rcases hadmits.2 with hmain | ⟨sel, hmem, -⟩
  · exact hmain.2.2
  · rw [hsel] at hmem
    cases hmem

/-- What the connection published and received so far, and what it can receive next, is on those
channels. -/
structure Bus.Confined (covered : Bytes → Prop) (conn : Nat) (st : Bus) : Prop where
  published : ∀ channel, (conn, channel) ∈ st.published → covered channel
  received : ∀ channel, (conn, channel) ∈ st.received → covered channel
  ahead : Ahead covered st.reg conn

section
variable {covered : Bytes → Prop} {conn : Nat} {st : Bus}

theorem Bus.confined_reg_iff (h : st.Confined covered conn) (hreg : reg.Sound) :
    Bus.Confined covered conn { st with reg } ↔ Held covered reg conn := by
  rw [← ahead_iff_held hreg]
  exact ⟨fun hc => hc.ahead, fun hahead => ⟨h.published, h.received, hahead⟩⟩

theorem Bus.confined_deliver (h : st.Confined covered conn)
    (hp : Receives st.reg conn p → covered channel) :
    (st.deliver channel p).Confined covered conn where
  published := h.published
  received := by
    intro c hc
    rcases mem_append.mp hc with hold | hnew
    · exact h.received c hold
    · obtain ⟨rfl, hreceives⟩ := mem_receivers.mp hnew
      exact hp hreceives
  ahead := h.ahead

/-- Publishing keeps to the channels exactly when the channel of the message does, if the message is
the connection's own. -/
theorem Bus.confined_publish_iff (h : st.Confined covered conn)
    {publish : Bytes → Value → Publication}
    (hp : ∀ channel payload, Receives st.reg conn (publish channel payload) → covered channel)
    {channel : Value} : (st.handlePublish c publish [channel, payload]).Confined covered conn ↔
      (c = conn → covered (bulkBytes channel)) := by
  constructor
  · rintro hafter rfl
    exact hafter.published _ (mem_append_right _ (mem_cons_self ..))
  · intro hc
    have hlogged : Bus.Confined covered conn
        { st with published := st.published ++ [(c, bulkBytes channel)] } := by
      refine ⟨fun name hname => ?_, h.received, h.ahead⟩
      rcases mem_append.mp hname with hold | hnew
      · exact h.published name hold
      · obtain ⟨rfl, rfl⟩ := Prod.mk.inj (mem_singleton.mp hnew)
        exact hc rfl
    exact Bus.confined_deliver hlogged (hp _ _)

end

variable {conn : Nat}

/-- Where the dispatcher checks names, only arguments that it skips are left to be looked at. -/
theorem bulk_covered_iff {covered : Bytes → Prop} (h : ∀ name ∈ bulkArgs args, covered name) :
    (∀ a ∈ args, covered (bulkBytes a)) ↔ ∀ a ∈ args, argString a = none → covered (bulkBytes a) := by
  refine ⟨fun hall a ha _ => hall a ha, fun hskipped a ha => ?_⟩
  cases htext : argString a with
  | none => exact hskipped a ha htext
  | some text =>
    rw [bulkBytes_of_argString htext]
    exact h text (mem_filterMap.mpr ⟨a, ha, htext⟩)

/-- A command that runs keeps to the channels exactly when it is within them. -/
theorem handle_confined_iff {st : Bus} (hreg : st.reg.Sound)
    (h : st.Confined (fun c => matchAny lib u.channels c = true) conn)
    (hcovered : r.conn = conn → Covers lib u.channels (extractChannels r.cmd r.args)) :
    (st.handle r).Confined (fun c => matchAny lib u.channels c = true) conn ↔
      (r.conn = conn → r.Within fun c => matchAny lib u.channels c = true) := by
  have hheld := (ahead_iff_held hreg).mp h.ahead
  obtain ⟨c, cmd, args, replay, ns⟩ := r
  cases cmd with
  | subscribe =>
    refine (Bus.confined_reg_iff h (step_sound st.reg _ hreg)).trans ?_
    refine held_subscribeTo.trans ⟨fun hafter hc => ?_, fun hwithin => ⟨hheld, ?_⟩⟩
    · exact (bulk_covered_iff (hcovered hc)).mp (hafter.2 hc)
    · exact fun hc => (bulk_covered_iff (hcovered hc)).mpr (hwithin hc)
  | psubscribe =>
    refine (Bus.confined_reg_iff h (step_sound st.reg _ hreg)).trans ?_
    refine held_subscribeTo.trans ⟨fun hafter => hafter.2, fun hwithin => ?_⟩
    exact ⟨hheld, hwithin⟩
  | ssubscribe =>
    refine (Bus.confined_reg_iff h (step_sound st.reg _ hreg)).trans ?_
    refine held_subscribeTo.trans ⟨fun hafter => hafter.2, fun hwithin => ?_⟩
    exact ⟨hheld, hwithin⟩
  | unsubscribe =>
    refine iff_of_true ?_ fun _ => trivial
    exact (Bus.confined_reg_iff h (step_sound st.reg _ hreg)).mpr
      (held_unsubscribeFrom hheld)
  | punsubscribe =>
    refine iff_of_true ?_ fun _ => trivial
    exact (Bus.confined_reg_iff h (step_sound st.reg _ hreg)).mpr
      (held_unsubscribeFrom hheld)
  | sunsubscribe =>
    refine iff_of_true ?_ fun _ => trivial
    exact (Bus.confined_reg_iff h (step_sound st.reg _ hreg)).mpr
      (held_unsubscribeFrom hheld)
  | publish =>
    match args with
    | [channel, payload] =>
      refine (Bus.confined_publish_iff h fun name m => (h.ahead ns name m).1).trans ?_
      refine forall_congr' fun hc => ⟨fun hall _ => hall, fun hskipped => ?_⟩
      cases htext : argString channel with
      | none => exact hskipped htext
      | some text =>
        rw [bulkBytes_of_argString htext]
        refine hcovered hc text ?_
        rw [extractChannels, bulkArgs, filterMap_cons_some htext]
        exact mem_cons_self ..
    | [] | [_] | _ :: _ :: _ :: _ => exact iff_of_true h fun _ => trivial
  | spublish =>
    match args with
    | [channel, payload] => exact Bus.confined_publish_iff h fun name m => (h.ahead ns name m).2
    | [] | [_] | _ :: _ :: _ :: _ => exact iff_of_true h fun _ => trivial

theorem handle_reg_sound {st : Bus} {r : Request} (h : st.reg.Sound) : (st.handle r).reg.Sound := by
  obtain ⟨c, cmd, args, replay, ns⟩ := r
  have hpublish : ∀ publish : Bytes → Value → Publication,
      (st.handlePublish c publish args).reg.Sound := by
    intro publish
    unfold Bus.handlePublish
    split
    · exact h
    · exact h
  cases cmd with
  | subscribe => exact step_sound st.reg (.subscribe (some c) args) h
  | psubscribe => exact step_sound st.reg (.psubscribe (some c) args) h
  | ssubscribe => exact step_sound st.reg (.ssubscribe (some c) args) h
  | unsubscribe => exact step_sound st.reg (.unsubscribe (some c) args) h
  | punsubscribe => exact step_sound st.reg (.punsubscribe (some c) args) h
  | sunsubscribe => exact step_sound st.reg (.sunsubscribe (some c) args) h
  | publish => exact hpublish _
  | spublish => exact hpublish _

variable (lib s who)

theorem step_reg_sound (st : Bus) (e : BusEvent) (h : st.reg.Sound) :
    (st.step lib s who e).reg.Sound := by
  cases e with
  | request =>
    rw [Bus.step]
    split
    · exact handle_reg_sound h
    · exact h
  | server => exact h
  | connClosed c => exact step_sound st.reg (.connClosed c) h

/-- For a user without selectors, in every run and every state of it, the channels of the messages
that a connection of the user has published, has received or can receive next match the channel
patterns of the user, exactly when each of its commands that runs is within these patterns where the
dispatcher does not look. -/
theorem channels_confined_iff (hrestricted : hasRestrictedUsers s = true) (conn : Nat) (u : User)
    (hu : s[actingUser (who conn)]? = some u) (hsel : u.selectors = []) (es : List BusEvent) :
    (∀ before, before <+: es → (run (Bus.step lib s who) {} before).Confined
      (fun c => matchAny lib u.channels c = true) conn) ↔
    Along (Bus.step lib s who)
      (fun st e => e.Within lib s who (fun c => matchAny lib u.channels c = true) conn st) {} es := by
  refine (along_iff_reached (step_reg_sound lib s who) ?_ sound_empty ?_).symm
  · intro st e hreg h
    cases e with
    | request r =>
      rw [Bus.step]
      split
      · next hruns =>
        rw [handle_confined_iff hreg h]
        · exact forall_congr' fun _ => ⟨fun hwithin _ => hwithin, fun hwithin => hwithin hruns⟩
        · rintro rfl
          exact covered_of_runs hrestricted hu hsel hruns
      · next hnot => exact iff_of_true h fun _ hruns => absurd hruns hnot
    | server ns channel payload =>
      exact iff_of_true (Bus.confined_deliver h (h.ahead ns channel payload).1) trivial
    | connClosed =>
      refine iff_of_true ?_ trivial
      exact (Bus.confined_reg_iff h (step_sound st.reg _ hreg)).mpr
        (held_connClosed ((ahead_iff_held hreg).mp h.ahead))
  · have hahead : Ahead (fun c => matchAny lib u.channels c = true) {} conn := by
      rw [ahead_iff_held sound_empty]
      intro kind name hmem
      have hnone := some_of_mem_turn hmem
      simp at hnone
    exact ⟨fun _ hmem => absurd hmem not_mem_nil, fun _ hmem => absurd hmem not_mem_nil,
      hahead⟩

end

/-- Everyone but the default user is `bob`, who may run every command and has the channel `a`. -/
def oneChannel : Store :=
  newStore.insert bob { on := true, rules := [allowAll], channels := [[97]] }

/-- `bob` subscribes to `a`, and the server publishes on `a`. -/
def subscribeRun : List BusEvent :=
  [.request ⟨0, .subscribe, [bulkOf [97]], false, []⟩, .server [] [97] (bulkOf [109])]

/-- The connection stays within its channel. -/
theorem confined_subscribe :
    (run (Bus.step exactNames oneChannel fun _ => some bob) {} subscribeRun).Confined
      (fun c => matchAny exactNames [[97]] c = true) 0 := by
  refine (channels_confined_iff exactNames oneChannel (fun _ => some bob) (by decide) 0
    { on := true, rules := [allowAll], channels := [[97]] } (by decide) rfl subscribeRun).mpr
    ⟨?_, trivial, trivial⟩ subscribeRun (prefix_refl _)
  intro _ _ a ha htext
  rw [mem_singleton.mp ha] at htext
  cases htext

/-- `bob` subscribes to the shard channel `x`, and publishes on it over another connection. -/
def shardRun : List BusEvent :=
  [.request ⟨0, .ssubscribe, [bulkOf [120]], false, []⟩,
    .request ⟨1, .spublish, [bulkOf [120], bulkOf [109]], false, []⟩]

/-- Both are allowed, and the message arrives. -/
theorem shard_not_confined :
    (run (Bus.step exactNames oneChannel fun _ => some bob) {} shardRun).published = [(1, [120])] ∧
      (run (Bus.step exactNames oneChannel fun _ => some bob) {} shardRun).received = [(0, [120])] ∧
      matchAny exactNames [[97]] [120] = false := by
  decide +kernel

end Gedis.Acl
