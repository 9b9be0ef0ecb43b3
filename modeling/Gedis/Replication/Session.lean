import Gedis.Replication.Resync
import Gedis.Storage.OpLog

/-!
# Synchronisation sessions over many reconnects

A master serves storage calls while a replica connects, is answered with a snapshot or with
the operations it missed, and then receives streamed operations; any session may be cut,
and any write to the replica's store may fail. The master gathers a snapshot type by type
and key by key and announces the offset it has when it is done. The offset that the replica
claims at its next connection is one it has applied, provided that snapshots are gathered
undisturbed, applied completely and exact, and that streamed operations arrive in order.
-/

namespace Gedis.Replication

open Gedis.Core Datastruct Commands Storage Std List

variable {m : OrdMap Bytes Bytes} {c : Client} {master : Pebble} {dels sets : List Bool}

/-- How far a session has come. -/
inductive Phase where
  | down
  /-- The master still has to scan these types. -/
  | scanning (types : List Prefix) (found : List (Bytes × Bytes))
  /-- The master still has to read these raw keys. -/
  | reading (raws : List Bytes) (entries : List RawEntry)
  | replied (reply : Reply)
  | streaming
  deriving DecidableEq, Repr

/-- The master gathers a snapshot. -/
def Phase.gathering : Phase → Bool
  | .scanning .. | .reading .. => true
  | _ => false

/-- A master, one replica, and the session between them. -/
structure Sync where
  master : Pebble
  masterID : Bytes
  client : Client
  phase : Phase

/-- The steps of the master, of the session, and its failures. -/
inductive Event where
  /-- A storage call on the master. -/
  | call (c : Call)
  /-- The client connects and sends its identity and offset. -/
  | psync
  | scan
  | read
  | announce
  /-- The client processes the reply; the lists say which removals and writes succeed. -/
  | reply (dels sets : List Bool)
  /-- The client receives the `i`-th operation of the master's history. -/
  | frame (i : Nat) (ok : Bool)
  | cut
  deriving DecidableEq, Repr

namespace Sync

/-- The master's answer to a synchronisation request. -/
def answer (s : Sync) : Phase :=
  let (replID, offset) := s.client.state
  if replID ≠ ascii ['?'] ∧ replID = s.masterID then
    match s.master.hub.backlog.since offset with
    | some missed => .replied (.continuing s.masterID missed)
    | none => .scanning typePrefixes []
  else .scanning typePrefixes []

/-- One step. A failed write ends the session. -/
def step (s : Sync) : Event → Sync
  | .call c => { s with master := s.master.step c }
  | .psync => if s.phase = .down then { s with phase := s.answer } else s
  | .scan =>
    match s.phase with
    | .scanning (p :: types) found =>
      { s with phase := .scanning types (addType s.master.db found p) }
    | .scanning [] found => { s with phase := .reading (found.map Prod.snd) [] }
    | _ => s
  | .read =>
    match s.phase with
    | .reading (raw :: raws) entries =>
      { s with phase := .reading raws (entries ++ readRaws s.master.db [raw]) }
    | _ => s
  | .announce =>
    match s.phase with
    | .reading [] entries =>
      let offset := s.master.hub.backlog.latest
      { s with phase := .replied (.fullresync s.masterID offset (marshalRDB entries)) }
    | _ => s
  | .reply dels sets =>
    match s.phase with
    | .replied reply =>
      let (client, ok) := s.client.onReply reply dels sets
      { s with client, phase := if ok then .streaming else .down }
    | _ => s
  | .frame i ok =>
    match s.phase, s.master.hub.log[i]? with
    | .streaming, some op =>
      let (client, ok) := s.client.applyOp op ok
      { s with client, phase := if ok then .streaming else .down }
    | _, _ => s
  | .cut => { s with phase := .down }

/-- A master started on an empty store, and a replica that never synchronised. -/
def start (maxBytes : Int) (policy : Policy) (maxOps : Int) (draws : List Draw)
    (masterID : Bytes) (replica : OrdMap Bytes Bytes) : Sync where
  master := .opened ∅ maxBytes policy (newHub maxOps) draws
  masterID
  client := newClient replica
  phase := .down

/-- Once the replica names a master, its store is the result of the operations up to the
offset it claims, up to later operations applied on top. -/
def Honest (s : Sync) : Prop :=
  s.client.replID ≠ [] →
    ∃ n : Nat, s.client.offset = n ∧ n ≤ s.master.hub.log.length ∧
      ∃ later ⊆ s.master.hub.log.drop n,
        s.client.store = replay (contents (s.master.hub.log.take n)) (later.map Op.write)

/-- The snapshot of a store reproduces it over what the client would not clear. -/
def ExactOver (m : OrdMap Bytes Bytes) (c : Client) : Prop :=
  ∀ raw : Bytes, FirstRecord m raw ∨ (if raw ∈ c.keys then none else c.store[raw]?) = m[raw]?

/-- Exactness is decided by the keys that are stored on either side. -/
theorem exactOver_iff : ExactOver m c ↔ ∀ raw ∈ m.keys ++ c.store.keys,
      FirstRecord m raw ∨ (if raw ∈ c.keys then none else c.store[raw]?) = m[raw]? := by
  constructor
  · exact fun h raw _ => h raw
  · intro h raw
    by_cases hraw : raw ∈ m.keys ++ c.store.keys
    · exact h raw hraw
    · rw [mem_append, not_or, ExtTreeMap.mem_keys, ExtTreeMap.mem_keys] at hraw
      right
      simp [ExtTreeMap.getElem?_eq_none hraw.1, ExtTreeMap.getElem?_eq_none hraw.2]

instance (m : OrdMap Bytes Bytes) (c : Client) : Decidable (ExactOver m c) :=
  decidable_of_iff _ exactOver_iff.symm

/-- A snapshot is applied without failing writes and is exact for the state it was taken
from; other replies need nothing. -/
def AppliesFully (s : Sync) (dels sets : List Bool) : Phase → Prop
  | .replied (.fullresync _ offset _) =>
    (∀ b ∈ dels ++ sets, b = true) ∧ Addressable (contents (s.master.hub.log.take offset.toNat)) ∧
      ExactOver (contents (s.master.hub.log.take offset.toNat)) s.client
  | _ => True

instance (s : Sync) (dels sets : List Bool) : (p : Phase) → Decidable (s.AppliesFully dels sets p)
  | .replied (.fullresync _ offset _) =>
    inferInstanceAs (Decidable ((∀ b ∈ dels ++ sets, b = true) ∧
      Addressable (contents (s.master.hub.log.take offset.toNat)) ∧
      ExactOver (contents (s.master.hub.log.take offset.toNat)) s.client))
  | .replied (.continuing ..) | .down | .scanning .. | .reading .. | .streaming => .isTrue trivial

/-- What the steps of a run must meet: the master publishes what it commits and accepts no
write while it gathers a snapshot; a snapshot is applied fully; a streamed operation is the
one that follows the client's offset. -/
def Undisturbed (s : Sync) : Event → Prop
  | .call c => s.master.PublishesCommitted c ∧ (s.phase.gathering → c.reads)
  | .reply dels sets => s.AppliesFully dels sets s.phase
  | .frame i _ => s.phase = .streaming → s.client.offset = i
  | _ => True

instance (s : Sync) (e : Event) : Decidable (s.Undisturbed e) := by
  cases e <;> unfold Undisturbed <;> infer_instance

/-- The client's store is the state at the offset it claims. -/
def ClientInv (s : Sync) : Prop :=
  s.client.replID ≠ [] →
    ∃ n : Nat, s.client.offset = n ∧ n ≤ s.master.hub.log.length ∧
      s.client.store = contents (s.master.hub.log.take n)

/-- What a session has gathered or been answered. -/
def PhaseInv (s : Sync) : Prop :=
  match s.phase with
  | .scanning types found =>
    ∃ scanned, typePrefixes = scanned ++ types ∧ found = scanned.foldl (addType s.master.db) []
  | .reading raws entries => entries ++ readRaws s.master.db raws = gatherRDB s.master.db
  | .replied (.fullresync _ offset rdb) =>
    ∃ n : Nat, offset = n ∧ n ≤ s.master.hub.log.length ∧
      rdb = marshalRDB (gatherRDB (contents (s.master.hub.log.take n)))
  | .replied (.continuing _ missed) =>
    s.client.replID ≠ [] ∧ ∃ n m : Nat, s.client.offset = n ∧ n ≤ m ∧
      m ≤ s.master.hub.log.length ∧ missed = stretch s.master.hub.log n m
  | _ => True

structure Inv (s : Sync) : Prop where
  reproduces : s.master.Reproduces
  ordered : s.master.hub.Ordered
  client : s.ClientInv
  phase : s.PhaseInv

theorem inv_start {maxBytes : Int} {policy : Policy} {maxOps : Int} {draws : List Draw}
    {masterID : Bytes} {replica : OrdMap Bytes Bytes} :
    (start maxBytes policy maxOps draws masterID replica).Inv :=
  ⟨rfl, Hub.ordered_newHub, fun h => absurd rfl h, trivial⟩

variable {s : Sync}

theorem Inv.honest (h : s.Inv) : s.Honest := by
  intro hid
  obtain ⟨n, hoff, hn, hstore⟩ := h.client hid
  exact ⟨n, hoff, hn, [], nil_subset _, hstore⟩

private theorem ClientInv.grow (h : s.ClientInv) {new : List Op}
    (hlog : master.hub.log = s.master.hub.log ++ new) : ({ s with master } : Sync).ClientInv := by
  intro hid
  obtain ⟨n, hoff, hn, hstore⟩ := h hid
  refine ⟨n, hoff, ?_, ?_⟩
  · rw [hlog, length_append]
    omega
  · rw [hlog, take_append_of_le_length hn]
    exact hstore

private theorem PhaseInv.grow (h : s.PhaseInv) {new : List Op}
    (hlog : master.hub.log = s.master.hub.log ++ new)
    (hdb : s.phase.gathering → master.db = s.master.db) : ({ s with master } : Sync).PhaseInv := by
  have hlen : s.master.hub.log.length ≤ master.hub.log.length := by
    rw [hlog, length_append]
    omega
  unfold PhaseInv at h ⊢
  cases hs : s.phase with
  | scanning types found | reading raws entries =>
    rw [hs] at h hdb
    rw [hdb rfl]
    exact h
  | replied reply =>
    rw [hs] at h
    cases reply with
    | fullresync =>
      obtain ⟨n, hoff, hn, hrdb⟩ := h
      refine ⟨n, hoff, Nat.le_trans hn hlen, ?_⟩
      rw [hlog, take_append_of_le_length hn]
      exact hrdb
    | continuing =>
      obtain ⟨hid, n, m, hoff, hnm, hm, hmissed⟩ := h
      refine ⟨hid, n, m, hoff, hnm, Nat.le_trans hm hlen, ?_⟩
      rw [hlog, stretch_append_of_le hm]
      exact hmissed
  | down => trivial
  | streaming => trivial

private theorem Inv.call (h : s.Inv) {c : Call} (hc : s.Undisturbed (.call c)) :
    (s.step (.call c)).Inv := by
  obtain ⟨hpub, hgather⟩ := hc
  obtain ⟨new, hlog⟩ := Pebble.log_step
  exact ⟨h.reproduces.step hpub, Pebble.ordered_step h.ordered, h.client.grow hlog,
    h.phase.grow hlog fun hg => Pebble.step_db_of_reads (hgather hg)⟩

private theorem Inv.withPhase (h : s.Inv) {phase : Phase}
    (hp : ({ s with phase } : Sync).PhaseInv) : ({ s with phase } : Sync).Inv :=
  ⟨h.reproduces, h.ordered, h.client, hp⟩

/-- A request is answered with the missed operations, or a snapshot is gathered. -/
theorem answer_cases (s : Sync) :
    s.answer = .scanning typePrefixes [] ∨
      ∃ missed, s.answer = .replied (.continuing s.masterID missed) ∧ s.client.replID ≠ [] ∧
        s.master.hub.backlog.since s.client.offset = some missed := by
  by_cases hid : s.client.replID = []
  · left
    simp [answer, Client.state, hid]
  · by_cases hmatch : s.client.replID ≠ ascii ['?'] ∧ s.client.replID = s.masterID
    · cases hsince : s.master.hub.backlog.since s.client.offset with
      | none =>
        left
        simp [answer, Client.state, hid, ite_false, hsince, ite_self]
      | some missed =>
        right
        refine ⟨missed, ?_, hid, rfl⟩
        simp only [answer, Client.state, hid, ite_false, hsince]
        exact ite_cond_eq_true _ _ (eq_true hmatch)
    · left
      simp only [answer, Client.state, hid, ite_false]
      exact ite_cond_eq_false _ _ (eq_false hmatch)

private theorem Inv.psync (h : s.Inv) : (s.step .psync).Inv := by
  simp only [step]
  split
  · refine h.withPhase ?_
    rcases s.answer_cases with he | ⟨missed, he, hid, hsince⟩
    · rw [he]
      exact ⟨[], rfl, rfl⟩
    · obtain ⟨n, hoff, hn, -⟩ := h.client hid
      rw [hoff, Backlog.Keeps.since h.ordered n] at hsince
      by_cases hstale : n < s.master.hub.backlog.base
      · simp [hstale] at hsince
      · rw [ite_cond_eq_false _ _ (eq_false hstale)] at hsince
        rw [he]
        refine ⟨hid, n, s.master.hub.log.length, hoff, hn, Nat.le_refl _, ?_⟩
        rw [stretch_length]
        exact (Option.some.inj hsince).symm
  · exact h

private theorem Inv.scan (h : s.Inv) : (s.step .scan).Inv := by
  simp only [step]
  split
  · next p types found hs =>
    have hphase := h.phase
    unfold PhaseInv at hphase
    rw [hs] at hphase
    obtain ⟨scanned, htypes, hfound⟩ := hphase
    refine h.withPhase ⟨scanned ++ [p], ?_, ?_⟩
    · rw [htypes, append_assoc]
      rfl
    · rw [foldl_append, ← hfound]
      rfl
  · next found hs =>
    have hphase := h.phase
    unfold PhaseInv at hphase
    rw [hs] at hphase
    obtain ⟨scanned, htypes, hfound⟩ := hphase
    refine h.withPhase ?_
    rw [append_nil] at htypes
    simp [PhaseInv, nil_append, gatherRDB, allUserKeys, htypes, hfound]
  · exact h

private theorem Inv.read (h : s.Inv) : (s.step .read).Inv := by
  simp only [step]
  split
  · next raw raws entries hs =>
    have hphase := h.phase
    unfold PhaseInv at hphase
    rw [hs] at hphase
    refine h.withPhase ?_
    have hsplit : readRaws s.master.db (raw :: raws) =
        readRaws s.master.db [raw] ++ readRaws s.master.db raws := by
      simp [readRaws, ← filterMap_append]
    simp only [PhaseInv, append_assoc, ← hsplit]
    exact hphase
  · exact h

private theorem Inv.announce (h : s.Inv) : (s.step .announce).Inv := by
  simp only [step]
  split
  · next entries hs =>
    have hphase := h.phase
    unfold PhaseInv at hphase
    rw [hs] at hphase
    have hentries : entries = gatherRDB s.master.db := by simpa [readRaws] using hphase
    refine h.withPhase ⟨s.master.hub.log.length, ?_, Nat.le_refl _, ?_⟩
    · have hnext := h.ordered.next_eq
      simp [Backlog.latest, hnext]
    · have hdb : contents s.master.hub.log = s.master.db := h.reproduces
      rw [take_length, hdb, hentries]
  · exact h

private theorem applyOp_next {log : List Op} (hnum : log.map Op.offset = List.range' 1 log.length)
    {n : Nat} {op : Op} (hop : log[n]? = some op) (hoff : c.offset = n)
    (hstore : c.store = contents (log.take n)) : (c.applyOp op true).1.offset = (n + 1 : Nat) ∧
      (c.applyOp op true).1.store = contents (log.take (n + 1)) := by
  obtain ⟨hn, hget⟩ := List.getElem?_eq_some_iff.mp hop
  have hoffset : op.offset = n + 1 := by
    have h : (log.map Op.offset)[n]? = some op.offset := by rw [getElem?_map, hop]; rfl
    rw [hnum, getElem?_range' hn] at h
    have := Option.some.inj h
    omega
  have hnext : contents (log.take (n + 1)) = op.write.apply (contents (log.take n)) := by
    rw [take_succ_eq_append_getElem hn, contents_append, hget]
    rfl
  have hlt : c.offset < (n : Int) + 1 := by omega
  refine ⟨?_, ?_⟩
  · unfold Client.applyOp Client.trackOffset
    cases op.del <;> simp [hoffset, hlt]
  · rw [hnext, ← hstore]
    unfold Client.applyOp Op.write Write.apply
    cases op.del <;> simp

private theorem applyOp_replID (c : Client) (op : Op) (ok : Bool) :
    (c.applyOp op ok).1.replID = c.replID := by
  unfold Client.applyOp
  split
  · split <;> simp
  · rfl

private theorem applyOps_stretch {log : List Op}
    (hnum : log.map Op.offset = List.range' 1 log.length) {m : Nat} (hm : m ≤ log.length)
    (ops : List Op) :
    ∀ (oks : List Bool) (c : Client) (n : Nat), n ≤ m → ops = stretch log n m →
      c.offset = n → c.store = contents (log.take n) →
      ∃ k : Nat, k ≤ m ∧ (Client.applyOps ops oks c).1.offset = k ∧
        (Client.applyOps ops oks c).1.store = contents (log.take k) := by
  induction ops with
  | nil =>
    intro oks c n hn _ hoff hstore
    exact ⟨n, hn, hoff, hstore⟩
  | cons op ops ih =>
    intro oks c n hn hops hoff hstore
    have hlt : n < m := by
      rcases Nat.lt_or_ge n m with hlt | hge
      · exact hlt
      · have : n = m := by omega
        subst this
        rw [stretch_self] at hops
        cases hops
    have hdrop : (log.take m).drop n = op :: ops := hops.symm
    have hop : log[n]? = some op := by
      have h := congrArg (fun l => l[0]?) hdrop
      simpa [getElem?_drop, getElem?_take, hlt] using h
    cases hok : oks.headD true with
    | false =>
      refine ⟨n, hn, ?_, ?_⟩ <;>
        simp only [Client.applyOps, hok, Client.applyOp, Bool.false_eq_true, ite_false, hoff, hstore]
    | true =>
      obtain ⟨hoff', hstore'⟩ := applyOp_next hnum hop hoff hstore
      have hgo : Client.applyOps (op :: ops) oks c =
          Client.applyOps ops oks.tail (c.applyOp op true).1 := by
        simp only [Client.applyOps, hok]
        unfold Client.applyOp
        cases op.del <;> rfl
      rw [hgo]
      refine ih oks.tail _ (n + 1) hlt ?_ hoff' hstore'
      rw [stretch, ← drop_drop, hdrop]
      rfl

private theorem applyRDB_exact (hoks : ∀ b ∈ dels ++ sets, b = true) (haddr : Addressable m)
    (hexact : ExactOver m c) : (c.applyRDB (marshalRDB (gatherRDB m)) dels sets).1.store = m := by
  have hdels : ∀ b ∈ dels, b = true := fun b hb => hoks b (mem_append_left _ hb)
  have hsets : ∀ b ∈ sets, b = true := fun b hb => hoks b (mem_append_right _ hb)
  rw [(applyRDB_gatherRDB haddr hsets).2]
  apply ExtTreeMap.ext_getElem?
  intro raw
  rw [getElem?_replay_gatherRDB]
  split
  · rfl
  · next hfirst =>
    have hraw := (hexact raw).resolve_left hfirst
    rw [getElem?_clearKeys hdels, ← hraw]
    simp

private theorem applyRDB_frame (c : Client) (rdb : Bytes) (dels sets : List Bool) :
    (c.applyRDB rdb dels sets).1.replID = c.replID ∧
      (c.applyRDB rdb dels sets).1.offset = c.offset := by
  unfold Client.applyRDB
  split
  · exact ⟨rfl, rfl⟩
  · exact Client.storeEntries_frame _ _

private theorem Inv.reply (h : s.Inv) (hc : s.Undisturbed (.reply dels sets)) :
    (s.step (.reply dels sets)).Inv := by
  cases hs : s.phase with
  | replied reply =>
    have hphase := h.phase
    unfold PhaseInv at hphase
    simp only [Undisturbed, AppliesFully, hs] at hphase hc
    have hdone : ∀ client : Client, ∀ ok : Bool,
        ({ s with client, phase := if ok then .streaming else .down } : Sync).ClientInv →
          ({ s with client, phase := if ok then .streaming else .down } : Sync).Inv := by
      intro client ok hclient
      refine ⟨h.reproduces, h.ordered, hclient, ?_⟩
      cases ok <;> trivial
    simp only [step, hs]
    refine hdone _ _ fun _ => ?_
    cases reply with
    | fullresync replID offset rdb =>
      obtain ⟨n, hoff, hn, hrdb⟩ := hphase
      obtain ⟨hoks, haddr, hexact⟩ := hc
      subst hoff
      refine ⟨n, ?_, hn, ?_⟩
      · exact (applyRDB_frame (s.client.setState replID n) rdb dels sets).2
      · simp only [Client.onReply, hrdb]
        exact applyRDB_exact hoks haddr hexact
    | continuing replID missed =>
      obtain ⟨hid, n, m, hoff, hnm, hm, hmissed⟩ := hphase
      obtain ⟨n', hoff', -, hstore⟩ := h.client hid
      have hn : n' = n := by omega
      subst hn
      obtain ⟨k, hk, hoffk, hstorek⟩ := applyOps_stretch h.ordered.numbered hm missed sets
        (s.client.setState replID s.client.offset) n' hnm hmissed hoff hstore
      exact ⟨k, hoffk, Nat.le_trans hk hm, hstorek⟩
  | _ =>
    have hstay : s.step (.reply dels sets) = s := by simp [step, hs]
    rw [hstay]
    exact h

private theorem Inv.frame (h : s.Inv) {i : Nat} {ok : Bool}
    (hc : s.Undisturbed (.frame i ok)) : (s.step (.frame i ok)).Inv := by
  simp only [step]
  split
  · next op hs hop =>
    have hoff : s.client.offset = i := hc hs
    refine ⟨h.reproduces, h.ordered, ?_, ?_⟩
    · intro hid
      rw [applyOp_replID] at hid
      obtain ⟨n, hoff', hn, hstore⟩ := h.client hid
      have hni : n = i := by omega
      subst hni
      cases ok with
      | false => exact ⟨n, hoff', hn, hstore⟩
      | true =>
        obtain ⟨hlt, -⟩ := List.getElem?_eq_some_iff.mp hop
        obtain ⟨hnext, hstate⟩ := applyOp_next h.ordered.numbered hop hoff' hstore
        exact ⟨n + 1, hnext, hlt, hstate⟩
    · simp only [PhaseInv]
      cases (s.client.applyOp op ok).2 <;> trivial
  · exact h

theorem Inv.step (h : s.Inv) {e : Event} (he : s.Undisturbed e) : (s.step e).Inv := by
  cases e with
  | call => exact h.call he
  | psync => exact h.psync
  | scan => exact h.scan
  | read => exact h.read
  | announce => exact h.announce
  | reply => exact h.reply he
  | frame => exact h.frame he
  | cut => exact h.withPhase trivial

end Sync

end Gedis.Replication
