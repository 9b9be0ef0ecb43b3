import Gedis.Core.Run
import Gedis.Replication.Hub

/-!
# A resumed replica link under concurrent publications

A publication appends to the ring and broadcasts later, so several publications can stand
between their two halves. A replica that resumes at an offset registers its channel, then
fetches the operations it missed, then streams from the channel. If broadcasts follow the
order of the appends, at most one of them is outstanding when the missed operations are
fetched, and the channel never overflows, then what the replica was sent together with its
channel always amounts to a state of the log.
-/

namespace Gedis.Replication

open Gedis.Core List

/-- The master's side of one resumption request. -/
inductive Session where
  | idle
  | registered (id offset : Nat)
  | streaming (id offset : Nat) (sent : List Op)
  | refused
  deriving DecidableEq, Repr

/-- The channel a session owns. -/
def Session.chan : Session → Option Nat
  | .registered id _ | .streaming id _ _ => some id
  | _ => none

/-- Operations waiting in a channel. -/
def Hub.buffered (hub : Hub) (id : Nat) : List Op := hub.chans[id]?.elim [] Chan.buf

/-- The hub, the publications between their two halves, and one resumption. -/
structure Link where
  hub : Hub
  /-- Appended and numbered, not yet broadcast. -/
  inflight : List Op
  session : Session
  /-- The replica's connection is open. -/
  connected : Bool

/-- The atomic steps of publications and of the resumed link. -/
inductive Label where
  | append (op : Op)
  | broadcast (i : Nat)
  | register (offset : Nat)
  | since
  | take
  | hangup
  deriving DecidableEq, Repr

namespace Link

/-- No publication and no session yet. -/
def start (maxOps : Int) : Link := ⟨newHub maxOps, [], .idle, true⟩

/-- One atomic step. A replica asks for an offset that the master has given out; a channel
that was closed when full leaves the connection open. -/
def step (s : Link) : Label → Link
  | .append op =>
    let (hub, op) := s.hub.append op
    { s with hub, inflight := s.inflight ++ [op] }
  | .broadcast i =>
    match s.inflight[i]? with
    | none => s
    | some op => { s with hub := s.hub.broadcast op, inflight := s.inflight.eraseIdx i }
  | .register offset =>
    if s.session = .idle ∧ offset ≤ s.hub.log.length then
      let (hub, id) := s.hub.subscribe
      { s with hub, session := .registered id offset }
    else s
  | .since =>
    match s.session with
    | .registered id offset =>
      match s.hub.backlog.since offset with
      | none => { s with hub := s.hub.unsubscribe id, session := .refused }
      | some missed => { s with session := .streaming id offset missed }
    | _ => s
  | .take =>
    match s.session with
    | .streaming id offset sent =>
      match s.hub.receive id with
      | none => s
      | some (op, hub) => { s with hub, session := .streaming id offset (sent ++ [op]) }
    | _ => s
  | .hangup => { s with connected := false }

/-- What the replica's store becomes from the log state at its offset once everything sent to
it and everything in its channel is applied. -/
def outcome (s : Link) (id offset : Nat) (sent : List Op) : OrdMap Bytes Bytes :=
  replay (contents (s.hub.log.take offset)) ((sent ++ s.hub.buffered id).map Op.write)

/-- While its connection is open, a streaming replica is headed for a state of the log, and for
the latest one when no publication is under way. -/
def Consistent (s : Link) : Prop :=
  ∀ id offset sent, s.session = .streaming id offset sent → s.connected →
    (∃ n ≤ s.hub.log.length, s.outcome id offset sent = contents (s.hub.log.take n)) ∧
      (s.inflight = [] → s.outcome id offset sent = contents s.hub.log)

/-- Broadcasts follow the order of the appends and find room in the session's channel; the
missed operations are fetched while at most one broadcast is outstanding. -/
def InOrder (s : Link) : Label → Prop
  | .broadcast i => i = 0 ∧ (s.session.chan.elim [] s.hub.buffered).length < subBufSize
  | .since => s.inflight.length ≤ 1
  | _ => True

instance (s : Link) (l : Label) : Decidable (s.InOrder l) := by
  cases l <;> unfold InOrder <;> infer_instance

/-- How much of the log was broadcast. -/
def done (s : Link) : Nat := s.hub.log.length - s.inflight.length

/-- What a session's channel holds. -/
def SessionInv (s : Link) : Prop :=
  match s.session with
  | .registered id offset =>
    offset ≤ s.hub.log.length ∧
      ∃ first ≤ s.done, s.hub.chans[id]? = some ⟨stretch s.hub.log first s.done, false⟩
  | .streaming id offset sent =>
    ∃ first n buf, first ≤ s.done ∧ first ≤ n ∧ offset ≤ n ∧ n ≤ s.hub.log.length ∧
      n ≤ s.done + 1 ∧ s.hub.chans[id]? = some ⟨buf, false⟩ ∧
      sent ++ buf = stretch s.hub.log offset n ++ stretch s.hub.log first s.done
  | _ => True

/-- The outstanding broadcasts are the end of the log. -/
structure Inv (s : Link) : Prop where
  ordered : s.hub.Ordered
  outstanding : s.inflight.length ≤ s.hub.log.length
  inflight_eq : s.inflight = s.hub.log.drop s.done
  session : s.SessionInv

theorem inv_start {maxOps : Int} : (start maxOps).Inv :=
  ⟨Hub.ordered_newHub, Nat.le_refl 0, rfl, trivial⟩

variable {s : Link}

private theorem Inv.append (h : s.Inv) (op : Op) : (s.step (.append op)).Inv := by
  obtain ⟨hord, hle, hinf, hsess⟩ := h
  have hdone : (s.step (.append op)).done = s.done := by
    simp only [step, done, Hub.append_log, Hub.append_op, length_append, length_singleton]
    omega
  have hd : s.done ≤ s.hub.log.length := Nat.sub_le _ _
  refine ⟨hord.append, ?_, ?_, ?_⟩
  · simp only [step, Hub.append_log, length_append, length_singleton]
    omega
  · rw [hdone]
    simp only [step, Hub.append_log, Hub.append_op]
    rw [drop_append_of_le_length hd, ← hinf]
  · unfold SessionInv at hsess ⊢
    have hsession : (s.step (.append op)).session = s.session := rfl
    have hchans : (s.step (.append op)).hub.chans = s.hub.chans := rfl
    have hlog : (s.step (.append op)).hub.log =
        s.hub.log ++ [{ op with offset := s.hub.backlog.next + 1 }] := Hub.append_log
    rw [hsession, hdone, hlog]
    simp only [hchans, length_append, length_singleton]
    split at hsess
    · obtain ⟨ho, first, hf, hch⟩ := hsess
      refine ⟨by omega, first, hf, ?_⟩
      rw [stretch_append_of_le hd, hch]
    · obtain ⟨first, n, buf, hf, hfn, hon, hn, hnd, hch, hseq⟩ := hsess
      refine ⟨first, n, buf, hf, hfn, hon, by omega, hnd, hch, ?_⟩
      rw [stretch_append_of_le hn, stretch_append_of_le hd, hseq]
    · trivial

private theorem broadcast_chan {hub : Hub} {id : Nat} {buf : List Op}
    (h : hub.chans[id]? = some ⟨buf, false⟩) (hroom : buf.length < subBufSize) (op : Op) :
    (hub.broadcast op).chans[id]? = some ⟨buf ++ [op], false⟩ := by
  simp [Hub.broadcast, Std.ExtTreeMap.getElem?_map, h, Chan.send, hroom]

private theorem Inv.broadcast (h : s.Inv)
    (hroom : (s.session.chan.elim [] s.hub.buffered).length < subBufSize) :
    (s.step (.broadcast 0)).Inv := by
  cases hinflight : s.inflight with
  | nil =>
    have hstay : s.step (.broadcast 0) = s := by simp [step, hinflight]
    rw [hstay]
    exact h
  | cons op rest =>
    obtain ⟨hord, hle, hinf, hsess⟩ := h
    have hnext : s.step (.broadcast 0) =
        { s with hub := s.hub.broadcast op, inflight := rest } := by simp [step, hinflight]
    rw [hinflight] at hle hinf
    simp only [length_cons] at hle
    have hdone : ({ s with hub := s.hub.broadcast op, inflight := rest } : Link).done =
        s.done + 1 := by
      simp only [done, Hub.broadcast_log, hinflight, length_cons]
      omega
    rw [hnext]
    refine ⟨hord, ?_, ?_, ?_⟩
    · simp only [Hub.broadcast_log]
      omega
    · rw [hdone, Hub.broadcast_log, ← drop_drop, ← hinf]
      rfl
    · unfold SessionInv at hsess ⊢
      rw [hdone]
      simp only [Hub.broadcast_log]
      split at hsess
      · next id offset hs =>
        obtain ⟨ho, first, hf, hch⟩ := hsess
        simp only [hs, Session.chan, Option.elim_some, Hub.buffered, hch] at hroom
        refine ⟨ho, first, by omega, ?_⟩
        rw [broadcast_chan hch hroom, stretch_succ hf hinf.symm]
      · next id offset sent hs =>
        obtain ⟨first, n, buf, hf, hfn, hon, hn, hnd, hch, hseq⟩ := hsess
        simp only [hs, Session.chan, Option.elim_some, Hub.buffered, hch] at hroom
        refine ⟨first, n, buf ++ [op], by omega, hfn, hon, hn, by omega,
          broadcast_chan hch hroom op, ?_⟩
        rw [stretch_succ hf hinf.symm, ← append_assoc, hseq, append_assoc]
      · trivial

private theorem Inv.register (h : s.Inv) (offset : Nat) : (s.step (.register offset)).Inv := by
  by_cases hok : s.session = .idle ∧ offset ≤ s.hub.log.length
  · have hnext : s.step (.register offset) =
        { s with hub := s.hub.subscribe.1, session := .registered s.hub.subscribe.2 offset } := by
      simp [step, hok]
    rw [hnext]
    refine ⟨h.ordered, h.outstanding, h.inflight_eq, hok.2, s.done, Nat.le_refl _, ?_⟩
    have hfresh : stretch s.hub.log s.done s.done = [] := stretch_self
    have hdone : ({ s with
        hub := s.hub.subscribe.1
        session := .registered s.hub.subscribe.2 offset } : Link).done = s.done := rfl
    rw [hdone]
    simp [Hub.subscribe]
  · have hstay : s.step (.register offset) = s := by simp [step, hok]
    rw [hstay]
    exact h

private theorem Inv.since (h : s.Inv) (hone : s.inflight.length ≤ 1) : (s.step .since).Inv := by
  obtain ⟨hord, hle, hinf, hsess⟩ := h
  cases hs : s.session with
  | registered id offset =>
    have hsince := Backlog.Keeps.since hord offset
    unfold SessionInv at hsess
    rw [hs] at hsess
    obtain ⟨ho, first, hf, hch⟩ := hsess
    simp only [step, hs, hsince]
    by_cases hbase : offset < s.hub.backlog.base
    · -- the offset slid out of the ring
      simp only [hbase, ite_true]
      have hlog : (s.hub.unsubscribe id).log = s.hub.log := by
        simp [Hub.unsubscribe, hch]
      have hback : (s.hub.unsubscribe id).backlog = s.hub.backlog := by
        simp [Hub.unsubscribe, hch]
      refine ⟨?_, ?_, ?_, trivial⟩
      · rw [Hub.Ordered, hlog, hback]
        exact hord
      · simpa [hlog] using hle
      · simpa [done, hlog] using hinf
    · simp only [hbase, ite_false]
      refine ⟨hord, hle, hinf, ?_⟩
      have hd : s.done ≤ s.hub.log.length := Nat.sub_le _ _
      refine ⟨first, s.hub.log.length, _, hf, Nat.le_trans hf hd, ho, Nat.le_refl _, ?_, hch, ?_⟩
      · simp only [done]
        omega
      · rw [stretch_length]
        rfl
  | _ =>
    have hstay : s.step .since = s := by simp [step, hs]
    rw [hstay]
    exact ⟨hord, hle, hinf, hsess⟩

private theorem Inv.take (h : s.Inv) : (s.step .take).Inv := by
  cases hs : s.session with
  | streaming id offset sent =>
    have hstream := h.session
    unfold SessionInv at hstream
    rw [hs] at hstream
    obtain ⟨first, n, buf, hf, hfn, hon, hn, hnd, hch, hseq⟩ := hstream
    cases buf with
    | nil =>
      have hstay : s.step .take = s := by simp [step, hs, Hub.receive, hch]
      rw [hstay]
      exact h
    | cons op buf =>
      simp only [step, hs, Hub.receive, hch]
      refine ⟨h.ordered, h.outstanding, h.inflight_eq, first, n, buf, hf, hfn, hon, hn, hnd, ?_, ?_⟩
      · exact Std.ExtTreeMap.getElem?_insert_self
      · exact (append_assoc sent [op] buf).trans hseq
  | _ =>
    have hstay : s.step .take = s := by simp [step, hs]
    rw [hstay]
    exact h

theorem Inv.step (h : s.Inv) {l : Label} (hl : s.InOrder l) : (s.step l).Inv := by
  cases l with
  | append op => exact h.append op
  | broadcast =>
    obtain ⟨rfl, hroom⟩ := hl
    exact h.broadcast hroom
  | register offset => exact h.register offset
  | since => exact h.since hl
  | take => exact h.take
  | hangup => exact ⟨h.ordered, h.outstanding, h.inflight_eq, h.session⟩

theorem Inv.consistent (h : s.Inv) : s.Consistent := by
  intro id offset sent hs _
  have hsess := h.session
  unfold SessionInv at hsess
  rw [hs] at hsess
  obtain ⟨first, n, buf, hf, hfn, hon, hn, hnd, hch, hseq⟩ := hsess
  have hd : s.done ≤ s.hub.log.length := Nat.sub_le _ _
  have hstate : ∀ k, contents (s.hub.log.take k) = replay ∅ ((s.hub.log.map Op.write).take k) := by
    intro k
    rw [contents, map_take]
  -- catching up to `n`, then re-applying from `first` up to what was broadcast
  have hout : s.outcome id offset sent =
      replay (replay ∅ ((s.hub.log.map Op.write).take n))
        (stretch (s.hub.log.map Op.write) first s.done) := by
    simp only [outcome, Hub.buffered, hch, Option.elim_some, hseq, map_append, map_stretch,
      replay_append, hstate]
    rw [replay_stretch hon]
  rcases Nat.lt_or_ge s.done n with hlt | hge
  · have hn' : n = s.done + 1 := by omega
    subst hn'
    have hk : s.done < (s.hub.log.map Op.write).length := by
      rw [length_map]
      omega
    refine ⟨?_, ?_⟩
    · rcases replay_stretch_behind hf hk with hb | hb
      · exact ⟨s.done, hd, by rw [hout, hb, hstate]⟩
      · exact ⟨s.done + 1, hn, by rw [hout, hb, hstate]⟩
    · intro hempty
      have : s.done = s.hub.log.length := by simp [done, hempty]
      omega
  · have hagain := replay_stretch_again ∅ (s.hub.log.map Op.write) hfn hge
    refine ⟨⟨s.done, hd, by rw [hout, hagain, hstate]⟩, ?_⟩
    intro hempty
    have hall : s.done = s.hub.log.length := by simp [done, hempty]
    rw [hout, hagain, hall, ← hstate, take_length]

end Link

/-- In every interleaving of publications with one resumption that meets the ordering
condition, the replica is headed for a state of the log at every moment, and for the latest
one whenever no publication is under way. -/
theorem link_consistent (maxOps : Int) (labels : List Label)
    (h : Along Link.step Link.InOrder (Link.start maxOps) labels) :
    (run Link.step (Link.start maxOps) labels).Consistent :=
  Link.Inv.consistent (run_induction (fun _ _ h hl => h.step hl) Link.inv_start h)

/-- A replica resumes while one of two publications stands between its halves. -/
theorem link_consistent_resumed :
    let labels : List Label := [.append ⟨0, false, [107], [1]⟩, .broadcast 0,
      .register 0, .append ⟨0, false, [107], [2]⟩, .since, .broadcast 0, .take]
    Along Link.step Link.InOrder (Link.start 4096) labels ∧
      (run Link.step (Link.start 4096) labels).Consistent :=
  ⟨by decide, link_consistent 4096 _ (by decide)⟩

/-- Two publications to one key are broadcast against the order of their appends, and the
replica ends with the older value although no publication is under way. -/
theorem link_reordered :
    let s := run Link.step (Link.start 4096) [.register 0, .since,
      .append ⟨0, false, [107], [1]⟩, .append ⟨0, false, [107], [2]⟩, .broadcast 1, .broadcast 0]
    s.session = .streaming 1 0 [] ∧ s.connected = true ∧ s.inflight = [] ∧
      (s.outcome 1 0 [])[([107] : Bytes)]? = some [1] ∧
      (contents s.hub.log)[([107] : Bytes)]? = some [2] ∧ ¬ s.Consistent := by
  refine ⟨by decide, by decide, by decide, by decide, by decide, ?_⟩
  intro h
  exact absurd ((h 1 0 [] (by decide) (by decide)).2 (by decide)) (by decide)

end Gedis.Replication
