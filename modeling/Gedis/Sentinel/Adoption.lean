import Gedis.Core.Run
import Gedis.Sentinel.Registry

/-!
# Following announced masters

A sentinel hears two kinds of messages about a master: announcements of its address, which carry an
epoch, and requests for votes. An announcement is compared with the epoch of the votes and does not
raise it, so what an older announcement can do depends on the votes in between.
-/

namespace Gedis.Sentinel

open Gedis.Core Registry

/-- What a sentinel announces about a master. -/
structure Hello where
  runID : Bytes
  master : Bytes
  masterIP : Bytes
  masterPort : Int64
  masterEpoch : UInt64
  deriving DecidableEq, Repr

/-- The announced address. -/
def Hello.addr (h : Hello) : Bytes := joinHostPort h.masterIP (formatInt h.masterPort)

/-- Take note of an announcement. One without a name or a host is ignored. -/
def Registry.receiveHello (r : Registry) (h : Hello) : Registry :=
  if h.master ≠ [] ∧ h.masterIP ≠ [] then r.adoptMaster h.master h.addr h.masterEpoch h.runID else r

/-- A message to a sentinel. -/
inductive Heard where
  | hello (h : Hello)
  | vote (master : Bytes) (epoch : UInt64) (runID : Bytes)
  deriving DecidableEq, Repr

/-- The registry after a message. -/
def hear (r : Registry) : Heard → Registry
  | .hello h => r.receiveHello h
  | .vote master epoch runID => (r.handleVote master epoch runID).1

/-- The current address of a master. -/
def Registry.current (r : Registry) (name : Bytes) : Bytes := (r.state name).current

variable {r : Registry} {name : Bytes}

theorem current_update {other : Bytes} {st : MasterState} :
    (r.update name st).current other = if other = name then st.current else r.current other := by
  by_cases h : other = name
  · subst h
    simp [update, current]
  · simp [update, current, h]

/-- The announcement is not behind the votes: its epoch is later than theirs, or it comes from the
sentinel that was voted for in the same epoch. -/
def InTime (r : Registry) (h : Hello) : Prop :=
  (r.ballot h.master).currentEpoch < h.masterEpoch ∨
    (r.ballot h.master).currentEpoch = h.masterEpoch ∧ (r.ballot h.master).votedRunID = h.runID

instance (h : Hello) : Decidable (InTime r h) := inferInstanceAs (Decidable (_ ∨ _ ∧ _))

/-- What following an announcement does to the current address; an address that is current anyway
stays. -/
theorem current_adoptMaster {addr : Bytes} {epoch : UInt64} {runID other : Bytes} :
    (r.adoptMaster name addr epoch runID).current other =
      if other = name ∧ name ∈ r.names ∧ ((r.ballot name).currentEpoch < epoch ∨
          (r.ballot name).currentEpoch = epoch ∧ (r.ballot name).votedRunID = runID) then addr
      else r.current other := by
  simp only [adoptMaster, ballot]
  by_cases hname : other = name
  · subst hname
    by_cases hknown : other ∈ r.names
    · by_cases hlt : epoch < (r.state other).currentEpoch
      · have hnot : ¬ (r.state other).currentEpoch < epoch := UInt64.lt_asymm hlt
        have hne : (r.state other).currentEpoch ≠ epoch := (UInt64.ne_of_lt hlt).symm
        simp [hknown, hlt, hnot, hne]
      · by_cases hgt : (r.state other).currentEpoch < epoch
        · have hne : epoch ≠ (r.state other).currentEpoch := (UInt64.ne_of_lt hgt).symm
          by_cases hsame : addr = (r.state other).current
          · simp [hknown, hgt, hlt, hne, hsame, current]
          · simp [hknown, hgt, hlt, hne, hsame, current_update]
        · have heq : epoch = (r.state other).currentEpoch :=
            UInt64.le_antisymm (UInt64.not_lt.mp hgt) (UInt64.not_lt.mp hlt)
          by_cases hvote : (r.state other).votedRunID = runID
          · by_cases hsame : addr = (r.state other).current
            · simp [hknown, heq, hvote, hsame, current]
            · simp [hknown, heq, hvote, hsame, current_update]
          · simp [hknown, heq, hvote]
    · simp [hknown]
  · split_ifs <;> simp_all [current_update]

/-- An announcement is followed when it is complete, about a known master and in time. -/
theorem current_receiveHello {h : Hello} :
    (r.receiveHello h).current h.master =
      if h.master ≠ [] ∧ h.masterIP ≠ [] ∧ h.master ∈ r.names ∧ InTime r h then h.addr
      else r.current h.master := by
  rw [receiveHello]
  by_cases hfull : h.master ≠ [] ∧ h.masterIP ≠ []
  · rw [if_pos hfull, current_adoptMaster]
    simp [true_and, InTime, hfull.1, hfull.2, ne_eq, not_false_eq_true]
  · rw [if_neg hfull, if_neg]
    exact fun hall => hfull ⟨hall.1, hall.2.1⟩

/-- The epoch that the votes about a master have reached. -/
def raise (name : Bytes) (epoch : UInt64) : Heard → UInt64
  | .hello _ => epoch
  | .vote master cand _ => if master = name ∧ epoch < cand then cand else epoch

/-- Announcements leave the epoch alone, requests for votes raise it. -/
theorem currentEpoch_hear (hname : name ∈ r.names) {e : Heard} :
    ((hear r e).ballot name).currentEpoch = raise name (r.ballot name).currentEpoch e := by
  cases e with
  | hello =>
    rw [hear, receiveHello]
    split <;> simp [raise]
  | vote master cand runID =>
    rw [hear, raise]
    rcases handleVote_cases master cand runID with ⟨hsame, -, hold⟩ | hgrant
    · rw [hsame, if_neg]
      rintro ⟨rfl, hlt⟩
      rcases hold hname with hgt | ⟨rfl, -⟩
      · exact UInt64.lt_asymm hlt hgt
      · exact UInt64.lt_irrefl _ hlt
    · obtain ⟨-, -, hnew, -, hballot⟩ := hgrant
      rw [hballot]
      by_cases heq : master = name
      · subst heq
        rcases hnew with hlt | ⟨rfl, -⟩
        · simp [hlt]
        · simp
      · simp [heq, Ne.symm heq]

theorem names_hear {e : Heard} : (hear r e).names = r.names := by
  cases e with
  | hello =>
    rw [hear, receiveHello]
    split <;> simp
  | vote master cand runID =>
    rcases handleVote_cases master cand runID with ⟨hsame, -⟩ | hgrant
    · rw [hear, hsame]
    · exact hgrant.2.2.2.1

theorem names_run {events : List Heard} : (run hear r events).names = r.names := by
  induction events generalizing r with
  | nil => rfl
  | cons e events ih => rw [run_cons, ih, names_hear]

/-- After a sequence of messages the epoch is the greatest of the requests for votes. -/
theorem currentEpoch_run (hname : name ∈ r.names) {events : List Heard} :
    ((run hear r events).ballot name).currentEpoch =
      events.foldl (raise name) (r.ballot name).currentEpoch := by
  induction events generalizing r with
  | nil => rfl
  | cons e events ih =>
    rw [run_cons, ih (by rwa [names_hear]), currentEpoch_hear hname, List.foldl_cons]

/-- After the messages in `seen`, among which an announcement of the master's address was followed,
an announcement with a smaller epoch arrives. -/
def Overtaken (r : Registry) (name : Bytes) (events seen : List Heard) (late : Hello) : Prop :=
  ∃ before h between after,
    events = before ++ .hello h :: between ++ .hello late :: after ∧
      seen = before ++ .hello h :: between ∧ h.master = name ∧ late.master = name ∧
        (run hear r (before ++ [.hello h])).current name ≠ (run hear r before).current name ∧
          late.masterEpoch < h.masterEpoch

/-- No overtaken announcement changes the current address. -/
def FollowsNewest (r : Registry) (name : Bytes) (events : List Heard) : Prop :=
  ∀ seen late, Overtaken r name events seen late →
    (run hear r (seen ++ [.hello late])).current name = (run hear r seen).current name

/-- An announcement changes nothing: it has no host, the votes have reached a later epoch, they have
reached its epoch for another candidate, or its address is current anyway. -/
def Futile (r : Registry) (name : Bytes) (seen : List Heard) (late : Hello) : Prop :=
  let epoch := seen.foldl (raise name) (r.ballot name).currentEpoch
  late.masterIP = [] ∨ late.masterEpoch < epoch ∨
    late.masterEpoch = epoch ∧ ((run hear r seen).ballot name).votedRunID ≠ late.runID ∨
      late.addr = (run hear r seen).current name

/-- Only a known master with a name has its address changed. -/
theorem known_of_changed {h : Hello} (hne : (r.receiveHello h).current h.master ≠ r.current h.master) :
    h.master ≠ [] ∧ h.master ∈ r.names := by
  rw [current_receiveHello] at hne
  split at hne
  · next hall => exact ⟨hall.1, hall.2.2.1⟩
  · exact absurd rfl hne

/-- For a known master, an announcement leaves the address exactly when it is futile. -/
theorem unchanged_iff (hname : name ≠ []) (hknown : name ∈ r.names) {seen : List Heard}
    {late : Hello} (hlate : late.master = name) :
    (run hear r (seen ++ [.hello late])).current name = (run hear r seen).current name ↔
      Futile r name seen late := by
  subst hlate
  have hknown' : late.master ∈ (run hear r seen).names := by rwa [names_run]
  rw [run_concat, hear, current_receiveHello, Futile, ← currentEpoch_run hknown]
  by_cases hip : late.masterIP = []
  · simp [hip]
  · by_cases htime : InTime (run hear r seen) late
    · rw [if_pos ⟨hname, hip, hknown', htime⟩]
      refine ⟨fun h => .inr (.inr (.inr h)), ?_⟩
      rintro (h | h | ⟨h, hvote⟩ | h)
      · exact absurd h hip
      · rcases htime with hlt | ⟨heq, -⟩
        · exact absurd hlt (UInt64.lt_asymm h)
        · rw [heq] at h
          exact absurd h (UInt64.lt_irrefl _)
      · rcases htime with hlt | ⟨-, hvoted⟩
        · rw [h] at hlt
          exact absurd hlt (UInt64.lt_irrefl _)
        · exact absurd hvoted hvote
      · exact h
    · rw [if_neg fun hall => htime hall.2.2.2]
      refine iff_of_true rfl (.inr ?_)
      rw [InTime, not_or, not_and] at htime
      by_cases heq : late.masterEpoch = ((run hear r seen).ballot late.master).currentEpoch
      · exact .inr (.inl ⟨heq, htime.2 heq.symm⟩)
      · exact .inl (UInt64.lt_of_le_of_ne (UInt64.not_lt.mp htime.1) heq)

/-- The newest announcement that was followed stands exactly when every overtaken one is futile,
where the epoch that decides is the greatest one of the votes. -/
theorem followsNewest_iff (r : Registry) (name : Bytes) (events : List Heard) :
    FollowsNewest r name events ↔
      ∀ seen late, Overtaken r name events seen late → Futile r name seen late := by
  have hpoint : ∀ seen late, Overtaken r name events seen late →
      ((run hear r (seen ++ [.hello late])).current name = (run hear r seen).current name ↔
        Futile r name seen late) := by
    rintro seen late ⟨before, h, between, after, -, -, hmaster, hlate, hadopted, -⟩
    subst hmaster
    rw [run_concat] at hadopted
    obtain ⟨hname, hknown⟩ := known_of_changed hadopted
    rw [names_run] at hknown
    exact unchanged_iff hname hknown hlate
  exact forall₂_congr fun seen late => forall_congr' fun h => hpoint seen late h

/-- A sentinel that monitors one master. -/
def watched : Registry := newRegistry [⟨[97], ascii ['h', ':', '1'], [], 1⟩]

/-- The announcement of an address in an epoch by sentinel `s`. -/
def announced (port : Int64) (epoch : UInt64) : Hello := ⟨[115], [97], [104], port, epoch⟩

/-- After the announcement of epoch two was followed, the one of epoch one is followed as well. -/
theorem older_hello_followed :
    ¬ FollowsNewest watched [97] [.hello (announced 2 2), .hello (announced 3 1)] := by
  intro h
  have hstands := h [.hello (announced 2 2)] (announced 3 1)
    ⟨[], announced 2 2, [], [], rfl, rfl, rfl, rfl, by decide, by decide⟩
  revert hstands
  decide

end Gedis.Sentinel
