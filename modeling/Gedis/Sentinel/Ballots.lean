import Gedis.Sentinel.Network

/-!
# Votes on record and on the way

A vote that was granted stands in the voter's registry until the voter follows a later epoch, so
nobody votes for two candidates in one epoch. What messages and tasks say about votes is an
invariant; the steps that deal with other things keep it for one common reason.
-/

namespace Gedis.Sentinel

open Gedis.Core Net Registry

variable {n : Nat} {t t' : Task n}

/-- What a task asks votes for. -/
def Task.candidacy : Task n → Option Candidacy
  | .voting c _ => some c
  | .asking c _ _ => some c
  | .checking c _ _ => some c
  | .leading c _ => some c
  | _ => none

/-- The round of requests under way. -/
def Task.round : Task n → Option (Candidacy × Poll n)
  | .asking c _ p => some (c, p)
  | _ => none

/-- The master whose name was looked up for the task. -/
def Task.about : Task n → Option Bytes
  | .started master _ _ => some master
  | t => t.candidacy.map (·.master)

def Msg.query : Msg n → Query n
  | .ask q => q
  | .matched q _ _ => q
  | .refused q _ _ => q
  | .reply q _ _ _ => q

namespace Net

/-- A sentinel's election state for a master. -/
def ballot (s : Net n) (x : Fin n) (m : Bytes) : Ballot := (s.node x).reg.ballot m

def names (s : Net n) (x : Fin n) : List Bytes := (s.node x).reg.names

def task (s : Net n) (x : Fin n) : Task n := (s.node x).task

theorem node_setNode {s : Net n} {x : Fin n} {nd : Node n} {y : Fin n} :
    (s.setNode x nd).node y = if y = x then nd else s.node y := Function.update_apply ..

theorem ballot_setNode {s : Net n} {x : Fin n} {nd : Node n} {y : Fin n} {m : Bytes} :
    (s.setNode x nd).ballot y m = if y = x then nd.reg.ballot m else s.ballot y m := by
  rw [ballot, node_setNode]
  split <;> rfl

/-- A sentinel that knows the same masters as before. -/
theorem names_setNode {s : Net n} {x : Fin n} {nd : Node n} (h : nd.reg.names = s.names x) :
    (s.setNode x nd).names = s.names := by
  ext1 y
  rw [names, node_setNode]
  split
  · next heq => rw [h, heq]
  · rfl

theorem task_setNode (s : Net n) (x : Fin n) (nd : Node n) (y : Fin n) :
    (s.setNode x nd).task y = if y = x then nd.task else s.task y := by
  rw [task, node_setNode]
  split <;> rfl

theorem serial_setNode {s : Net n} {x : Fin n} {nd : Node n} {y : Fin n} :
    ((s.setNode x nd).node y).serial = if y = x then nd.serial else (s.node y).serial := by
  rw [node_setNode]
  split <;> rfl

@[simp] theorem task_setReg {s : Net n} {x : Fin n} {reg : Registry} (y : Fin n) :
    (s.setReg x reg).task y = s.task y := by
  rw [setReg, task_setNode]
  split
  · next heq => rw [heq]; rfl
  · rfl

@[simp] theorem serial_setReg {s : Net n} {x : Fin n} {reg : Registry} {y : Fin n} :
    ((s.setReg x reg).node y).serial = (s.node y).serial := by
  rw [setReg, serial_setNode]
  split
  · next heq => rw [heq]
  · rfl

end Net

/-- The votes that were granted agree with what the sentinels have on record. -/
structure Ledger (ballot : Fin n → Bytes → Ballot)
    (granted : List (Vote (Fin n) (Bytes × UInt64) Bytes)) : Prop where
  synced : ∀ x m, (ballot x m).votedEpoch = (ballot x m).currentEpoch
  named : ∀ x m, (ballot x m).currentEpoch ≠ 0 → (ballot x m).votedRunID ≠ []
  backed : ∀ x m, (ballot x m).votedRunID ≠ [] →
    ⟨x, (m, (ballot x m).currentEpoch), (ballot x m).votedRunID⟩ ∈ granted
  chosen : ∀ x e c, ⟨x, e, c⟩ ∈ granted → c ≠ []
  bound : ∀ x m e c, ⟨x, (m, e), c⟩ ∈ granted → e ≤ (ballot x m).currentEpoch ∧
    (e = (ballot x m).currentEpoch → (ballot x m).votedRunID = c)
  one : OneEach granted

/-- Epochs only grow, and a sentinel that has voted keeps some vote on record. -/
def Advances (ballot ballot' : Fin n → Bytes → Ballot) : Prop :=
  ∀ x m, (ballot x m).currentEpoch ≤ (ballot' x m).currentEpoch ∧
    ((ballot x m).votedRunID ≠ [] → (ballot' x m).votedRunID ≠ [])

/-- The ballots after one sentinel has voted. -/
def Votes (ballot ballot' : Fin n → Bytes → Ballot) (x : Fin n) (m : Bytes) (e : UInt64)
    (c : Bytes) : Prop :=
  ∀ y k, ballot' y k = if y = x ∧ k = m then ⟨e, e, c⟩ else ballot y k

section
variable {ballot ballot' : Fin n → Bytes → Ballot}
  {granted : List (Vote (Fin n) (Bytes × UInt64) Bytes)} {x : Fin n} {m c : Bytes} {e : UInt64}

theorem Votes.self (h : Votes ballot ballot' x m e c) : ballot' x m = ⟨e, e, c⟩ := by
  rw [h, if_pos ⟨rfl, rfl⟩]

theorem Votes.advances (h : Votes ballot ballot' x m e c) (hc : c ≠ [])
    (hle : (ballot x m).currentEpoch ≤ e) : Advances ballot ballot' := by
  intro y k
  rw [h]
  split
  · next heq =>
    obtain ⟨rfl, rfl⟩ := heq
    exact ⟨hle, fun _ => hc⟩
  · exact ⟨UInt64.le_refl _, id⟩

/-- A vote in a later epoch, or the first or the same vote in the current one. -/
def MayVote (b : Ballot) (e : UInt64) (c : Bytes) : Prop :=
  b.currentEpoch < e ∨ b.currentEpoch = e ∧
    (b.votedEpoch = e → b.votedRunID ≠ [] → b.votedRunID = c)

theorem MayVote.le {b : Ballot} (h : MayVote b e c) : b.currentEpoch ≤ e := by
  rcases h with hlt | ⟨heq, -⟩
  · exact UInt64.le_of_lt hlt
  · exact heq ▸ UInt64.le_refl _

/-- An earlier vote of the voter in that epoch is the same one. -/
theorem Ledger.agrees (h : Ledger ballot granted) (hmay : MayVote (ballot x m) e c)
    {c' : Bytes} (hold : ⟨x, (m, e), c'⟩ ∈ granted) : c' = c := by
  obtain ⟨hle, hsame⟩ := h.bound x m e c' hold
  rcases hmay with hlt | ⟨heq, hvoted⟩
  · exact absurd hlt (UInt64.not_lt.mpr hle)
  · have hchoice : (ballot x m).votedRunID = c' := hsame heq.symm
    have hsome : (ballot x m).votedRunID ≠ [] := hchoice ▸ h.chosen x (m, e) c' hold
    rw [← hchoice]
    exact hvoted (by rw [h.synced, heq]) hsome

/-- The ledger stays sound when a vote is granted. -/
theorem Ledger.grant (h : Ledger ballot granted) (hvote : Votes ballot ballot' x m e c)
    (hmay : MayVote (ballot x m) e c) (hc : c ≠ []) :
    Ledger ballot' (⟨x, (m, e), c⟩ :: granted) where
  synced y k := by
    rw [hvote]
    split
    · rfl
    · exact h.synced y k
  named y k := by
    rw [hvote]
    split
    · exact fun _ => hc
    · exact h.named y k
  backed y k := by
    rw [hvote]
    split
    · next heq =>
      obtain ⟨rfl, rfl⟩ := heq
      exact fun _ => List.mem_cons_self ..
    · exact fun hsome => List.mem_cons_of_mem _ (h.backed y k hsome)
  chosen y f d hmem := by
    rcases List.mem_cons.mp hmem with heq | hold
    · cases heq
      exact hc
    · exact h.chosen y f d hold
  bound y k f d hmem := by
    rcases List.mem_cons.mp hmem with heq | hold
    · cases heq
      rw [hvote.self]
      exact ⟨UInt64.le_refl _, fun _ => rfl⟩
    · rw [hvote]
      split
      · next heq =>
        obtain ⟨rfl, rfl⟩ := heq
        refine ⟨UInt64.le_trans (h.bound y k f d hold).1 hmay.le, ?_⟩
        rintro rfl
        exact (h.agrees hmay hold).symm
      · exact h.bound y k f d hold
  one := h.one.cons fun _ hold => h.agrees hmay hold

end

/-- A round counts every peer once, and only peers that have voted for the candidate. -/
structure Counts (granted : List (Vote (Fin n) (Bytes × UInt64) Bytes)) (runID : Bytes)
    (c : Candidacy) (p : Poll n) : Prop where
  waiting : p.waiting.Nodup
  voters : p.voters.Nodup
  disjoint : ∀ v ∈ p.voters, v ∉ p.waiting
  granted : ∀ v ∈ p.voters, ⟨v, (c.master, c.cand), runID⟩ ∈ granted

/-- What a message tells about votes. -/
def Tells (runID : Fin n → Bytes) (s : Net n) : Msg n → Prop
  | .ask _ => True
  | .matched q name _ => name = q.master ∧ name ∈ s.names q.dst
  | .refused q name _ =>
    (name = q.master ∧ name ∈ s.names q.dst) ∧ q.epoch ≤ (s.ballot q.dst q.master).currentEpoch ∧
      (s.ballot q.dst q.master).votedRunID ≠ []
  | .reply q _ leader _ =>
    leader = runID q.src → ∃ e, q.epoch ≤ e ∧ ⟨q.dst, (q.master, e), leader⟩ ∈ s.granted

structure Mail (runID : Fin n → Bytes) (s : Net n) : Prop where
  asked : ∀ msg ∈ s.sent, .ask msg.query ∈ s.sent
  tells : ∀ msg ∈ s.sent, Tells runID s msg

/-- What requests and votes say about the candidate. -/
structure Rounds (runID : Fin n → Bytes) (s : Net n) : Prop where
  known : ∀ x m, (s.task x).about = some m → m ∈ s.names x
  asked_le : ∀ q, .ask q ∈ s.sent → q.epoch ≤ (s.ballot q.src q.master).currentEpoch
  asked_cand : ∀ q c, .ask q ∈ s.sent → (s.task q.src).candidacy = some c →
    c.master = q.master → q.epoch ≤ c.cand
  serial : ∀ q, .ask q ∈ s.sent → q.serial < (s.node q.src).serial
  current : ∀ q c p, .ask q ∈ s.sent → (s.task q.src).round = some (c, p) →
    p.serial = q.serial → q.master = c.master ∧ q.epoch = c.cand
  granted_le : ∀ v m e x, ⟨v, (m, e), runID x⟩ ∈ s.granted → e ≤ (s.ballot x m).currentEpoch
  granted_cand : ∀ v m e x c, ⟨v, (m, e), runID x⟩ ∈ s.granted →
    (s.task x).candidacy = some c → c.master = m → e ≤ c.cand
  counts : ∀ x c p, (s.task x).round = some (c, p) → Counts s.granted (runID x) c p

/-- All of it, and every elected candidate has the votes of a majority. -/
structure Safe (runID : Fin n → Bytes) (s : Net n) : Prop where
  ledger : Ledger s.ballot s.granted
  mail : Mail runID s
  rounds : Rounds runID s
  elected : ∀ m e x, (m, e, x) ∈ s.elected → Carried s.granted (m, e) (runID x)

variable {runID : Fin n → Bytes} {s s' : Net n}

/-- The task is unchanged, or it has no round under way and no other candidacy than before. -/
def Calms (names : List Bytes) (t t' : Task n) : Prop :=
  t' = t ∨ t'.round = none ∧ (t'.candidacy = none ∨ t'.candidacy = t.candidacy) ∧
    ∀ m, t'.about = some m → t.about = some m ∨ m ∈ names

/-- A step that neither sends messages between sentinels nor changes votes. -/
structure Quiet (s s' : Net n) : Prop where
  sent : s'.sent = s.sent
  granted : s'.granted = s.granted
  elected : s'.elected = s.elected
  names : s'.names = s.names
  ballot : s'.ballot = s.ballot
  serial : ∀ x, (s'.node x).serial = (s.node x).serial
  task : ∀ x, Calms (s.names x) (s.task x) (s'.task x)

theorem Calms.candidacy {names : List Bytes} (h : Calms names t t') {c : Candidacy}
    (hc : t'.candidacy = some c) : t.candidacy = some c := by
  rcases h with rfl | ⟨-, hnone | hsame, -⟩
  · exact hc
  · rw [hnone] at hc
    cases hc
  · rw [← hsame, hc]

theorem Calms.round {names : List Bytes} (h : Calms names t t') {x : Candidacy × Poll n}
    (hx : t'.round = some x) : t.round = some x := by
  rcases h with rfl | ⟨hnone, -⟩
  · exact hx
  · rw [hnone] at hx
    cases hx

theorem Calms.about {names : List Bytes} (h : Calms names t t') {m : Bytes} (hm : t'.about = some m)
    : t.about = some m ∨ m ∈ names := by
  rcases h with rfl | ⟨-, -, habout⟩
  · exact .inl hm
  · exact habout m hm

theorem Advances.refl {ballot : Fin n → Bytes → Ballot} : Advances ballot ballot :=
  fun _ _ => ⟨UInt64.le_refl _, id⟩

/-- What was said stays true when epochs advance and votes are granted. -/
theorem Tells.mono (hnames : s'.names = s.names) (hadv : Advances s.ballot s'.ballot)
    (hsub : s.granted ⊆ s'.granted) {msg : Msg n} (h : Tells runID s msg) :
    Tells runID s' msg := by
  cases msg with
  | ask => trivial
  | matched =>
    rw [Tells, hnames]
    exact h
  | refused q =>
    obtain ⟨hknown, hle, hsome⟩ := h
    obtain ⟨hepoch, hvoted⟩ := hadv q.dst q.master
    exact ⟨by rwa [hnames], UInt64.le_trans hle hepoch, hvoted hsome⟩
  | reply =>
    intro hleader
    obtain ⟨e, hle, hmem⟩ := h hleader
    exact ⟨e, hle, hsub hmem⟩

theorem Mail.quiet (h : Mail runID s) (hq : Quiet s s') : Mail runID s' where
  asked := by
    rw [hq.sent]
    exact h.asked
  tells msg hmsg := by
    rw [hq.sent] at hmsg
    refine (h.tells msg hmsg).mono hq.names ?_ (by rw [hq.granted]; exact List.Subset.refl _)
    rw [hq.ballot]
    exact .refl

theorem Rounds.quiet (h : Rounds runID s) (hq : Quiet s s') : Rounds runID s' where
  known x m hm := by
    rw [hq.names]
    exact ((hq.task x).about hm).elim (h.known x m) id
  asked_le := by
    rw [hq.sent, hq.ballot]
    exact h.asked_le
  asked_cand q c hask hc := by
    rw [hq.sent] at hask
    exact h.asked_cand q c hask ((hq.task _).candidacy hc)
  serial q hask := by
    rw [hq.sent] at hask
    rw [hq.serial]
    exact h.serial q hask
  current q c p hask hround := by
    rw [hq.sent] at hask
    exact h.current q c p hask ((hq.task _).round hround)
  granted_le := by
    rw [hq.granted, hq.ballot]
    exact h.granted_le
  granted_cand v m e x c hgranted hc := by
    rw [hq.granted] at hgranted
    exact h.granted_cand v m e x c hgranted ((hq.task _).candidacy hc)
  counts x c p hround := by
    rw [hq.granted]
    exact h.counts x c p ((hq.task _).round hround)

theorem Safe.quiet (h : Safe runID s) (hq : Quiet s s') : Safe runID s' where
  ledger := by
    rw [hq.ballot, hq.granted]
    exact h.ledger
  mail := h.mail.quiet hq
  rounds := h.rounds.quiet hq
  elected := by
    rw [hq.elected, hq.granted]
    exact h.elected

theorem Quiet.refl : Quiet s s :=
  ⟨rfl, rfl, rfl, rfl, rfl, fun _ => rfl, fun _ => .inl rfl⟩

section
variable {x : Fin n} {names : List Bytes} {t t' : Task n}

/-- A task that was given up, or that has no candidacy any more. -/
theorem Calms.quit (hround : t'.round = none) (habout : t'.about = none)
    (hcand : t'.candidacy = none) : Calms names t t' := by
  refine .inr ⟨hround, .inl hcand, fun m hm => ?_⟩
  rw [habout] at hm
  cases hm

theorem Task.about_of_candidacy {c : Candidacy} (h : t.candidacy = some c) :
    t.about = some c.master := by
  cases t <;> simp_all [Task.about, Task.candidacy]

/-- A task that goes on with its candidacy. -/
theorem Calms.goOn {c : Candidacy} (hc : t.candidacy = some c) (hc' : t'.candidacy = some c)
    (hround : t'.round = none) : Calms names t t' := by
  refine .inr ⟨hround, .inr (hc'.trans hc.symm), fun m hm => .inl ?_⟩
  rw [Task.about_of_candidacy hc, ← Task.about_of_candidacy hc', hm]

theorem Quiet.setNode {nd : Node n} (hnames : nd.reg.names = s.names x)
    (hballot : ∀ m, nd.reg.ballot m = s.ballot x m) (hserial : nd.serial = (s.node x).serial)
    (htask : Calms (s.names x) (s.task x) nd.task) : Quiet s (s.setNode x nd) where
  sent := rfl
  granted := rfl
  elected := rfl
  names := names_setNode hnames
  ballot := by
    ext y m : 2
    rw [ballot_setNode]
    split
    · next heq => rw [hballot, heq]
    · rfl
  serial y := by
    rw [serial_setNode]
    split
    · next heq => rw [hserial, heq]
    · rfl
  task y := by
    rw [task_setNode]
    split
    · next heq => exact heq ▸ htask
    · exact .inl rfl

theorem Quiet.setTask (htask : Calms (s.names x) (s.task x) t') : Quiet s (s.setTask x t') :=
  .setNode rfl (fun _ => rfl) rfl htask

theorem Quiet.setReg {reg : Registry} (hnames : reg.names = s.names x)
    (hballot : ∀ m, reg.ballot m = s.ballot x m) : Quiet s (s.setReg x reg) :=
  .setNode hnames hballot rfl (.inl rfl)

theorem Quiet.idle : Quiet s (s.setTask x .idle) := .setTask (.quit rfl rfl rfl)

/-- A registry with another current master, and the end of the task. -/
theorem Quiet.follow {reg : Registry} (hnames : reg.names = s.names x)
    (hballot : ∀ m, reg.ballot m = s.ballot x m) :
    Quiet s (s.setNode x { s.node x with reg, task := .idle }) :=
  .setNode hnames hballot rfl (.quit rfl rfl rfl)

/-- Commands, servers and clocks are no part of elections. -/
theorem Quiet.servers (h : Quiet s s') {commands : List Command} {isMaster : Bytes → Bool}
    {accepted : List Acceptance} {now : Nat} :
    Quiet s { s' with commands, isMaster, accepted, now } :=
  ⟨h.sent, h.granted, h.elected, h.names, h.ballot, h.serial, h.task⟩

theorem quiet_begin {master : Bytes} : Quiet s (s.begin x master) := by
  rw [begin]
  split
  · next haddr =>
    refine .setTask (.inr ⟨rfl, .inl rfl, fun m hm => .inr ?_⟩)
    cases hm
    exact mem_names_of_getMasterAddr haddr
  · exact .refl

theorem quiet_tallyFirst {timeout : Nat} {c : Candidacy} {downs : Nat}
    (hc : (s.task x).candidacy = some c) : Quiet s (s.tallyFirst timeout x c downs) := by
  rw [tallyFirst]
  split
  · exact .idle
  · split
    · exact .setTask (.goOn hc rfl rfl)
    · exact .setTask (.goOn hc rfl rfl)

theorem quiet_readRole {reachable : Bool} : Quiet s (s.readRole x reachable) := by
  rw [readRole]
  split
  · next htask => exact .setTask (.goOn (by rw [task, htask]; rfl) rfl rfl)
  · next htask =>
    split
    · exact .setTask (.goOn (by rw [task, htask]; rfl) rfl rfl)
    · split
      · exact .follow names_observeMaster ballot_observeMaster
      · exact .setTask (.goOn (by rw [task, htask]; rfl) rfl rfl)
  · exact .refl

theorem quiet_select {timeout : Nat} {infos : List SlaveInfo} :
    Quiet s (s.select timeout x infos) := by
  rw [select]
  split
  · dsimp only
    split
    · exact .idle
    · split
      · exact .idle
      · split
        · exact .idle
        · exact .setTask (.quit rfl rfl rfl)
  · exact .refl

theorem quiet_confirm {reachable : Bool} : Quiet s (s.confirm x reachable) := by
  rw [confirm]
  split
  · split
    · exact .follow names_observeMaster ballot_observeMaster
    · exact (Quiet.setTask (.quit rfl rfl rfl)).servers
  · exact .refl

theorem quiet_finish {ok : Bool} : Quiet s (s.finish x ok) := by
  rw [finish]
  split
  · dsimp only
    split
    · exact .idle
    · split
      · exact .refl
      · split
        · exact .follow names_switchTo ballot_switchTo
        · exact (Quiet.setTask (.quit rfl rfl rfl)).servers
  · exact .refl

theorem quiet_settle : Quiet s (s.settle x) := by
  rw [settle]
  split
  · exact .follow names_switchTo ballot_switchTo
  · exact .refl

theorem quiet_retry : Quiet s (s.retry x) := by
  rw [retry]
  split
  · exact Quiet.refl.servers
  · exact .refl

theorem quiet_accept {c : Command} : Quiet s (s.accept c) := by
  rw [accept]
  split
  · exact Quiet.refl.servers
  · exact .refl

end

end Gedis.Sentinel
