import Gedis.Sentinel.Ballots

/-!
# One leader per epoch

An answer that names the candidate stands for a vote in the epoch of the request or in a later one,
and while a round is under way the candidate has no votes of later epochs. This needs that a peer
finds the master that was meant, which it looks for by address, and that the epoch does not wrap
around.
-/

namespace Gedis.Sentinel

open Gedis.Core List Net

variable {n : Nat} {runID : Fin n → Bytes} {s : Net n} {c : Candidacy} {p : Poll n} {x : Fin n}
  {y : Fin n} {q : Query n} {down : Bool} {name : Bytes}

/-- A peer's message about a request that was made. -/
theorem Safe.send (h : Safe runID s) {msg : Msg n} (hask : .ask msg.query ∈ s.sent)
    (hnew : ∀ q, msg ≠ .ask q) (htells : Tells runID s msg) :
    Safe runID { s with sent := msg :: s.sent } := by
  have hold : ∀ q, .ask q ∈ msg :: s.sent → .ask q ∈ s.sent := fun q hq =>
    (mem_cons.mp hq).resolve_left fun heq => hnew q heq.symm
  refine ⟨h.ledger, ⟨?_, ?_⟩, ?_, h.elected⟩
  · intro m hm
    rcases mem_cons.mp hm with rfl | hm
    · exact mem_cons_of_mem _ hask
    · exact mem_cons_of_mem _ (h.mail.asked m hm)
  · intro m hm
    have hm' : Tells runID s m := by
      rcases mem_cons.mp hm with rfl | hm
      · exact htells
      · exact h.mail.tells m hm
    exact hm'.mono rfl .refl (List.Subset.refl _)
  · exact { h.rounds with
      asked_le := fun q hq => h.rounds.asked_le q (hold q hq)
      asked_cand := fun q c hq => h.rounds.asked_cand q c (hold q hq)
      serial := fun q hq => h.rounds.serial q (hold q hq)
      current := fun q c p hq => h.rounds.current q c p (hold q hq) }

theorem Counts.mono {granted granted' : List (Vote (Fin n) (Bytes × UInt64) Bytes)} {id : Bytes}
    (h : Counts granted id c p) (hsub : granted ⊆ granted') : Counts granted' id c p :=
  { h with granted := fun v hv => hsub (h.granted v hv) }

/-- A sentinel votes for a candidate that has the epoch itself. -/
theorem Safe.grant (h : Safe runID s) (hinj : Function.Injective runID) {m : Bytes} {e : UInt64}
    {reg : Registry} (hnames : reg.names = s.names y)
    (hvotes : Votes s.ballot (s.setReg y reg).ballot y m e (runID x))
    (hmay : MayVote (s.ballot y m) e (runID x)) (hne : runID x ≠ [])
    (hle : e ≤ ((s.setReg y reg).ballot x m).currentEpoch)
    (hcand : ∀ c, (s.task x).candidacy = some c → c.master = m → e ≤ c.cand) :
    Safe runID { s.setReg y reg with granted := ⟨y, (m, e), runID x⟩ :: s.granted } := by
  have hadv : Advances s.ballot (s.setReg y reg).ballot := hvotes.advances hne hmay.le
  have hsub : s.granted ⊆ ⟨y, (m, e), runID x⟩ :: s.granted := subset_cons_self ..
  have hname : (s.setReg y reg).names = s.names := names_setNode hnames
  have htask : ∀ z, (s.setReg y reg).task z = s.task z := task_setReg
  refine ⟨h.ledger.grant hvotes hmay hne, ⟨h.mail.asked, ?_⟩, ?_, ?_⟩
  · intro msg hmsg
    apply Tells.mono _ _ _ (h.mail.tells msg hmsg)
    · exact hname
    · exact hadv
    · exact hsub
  · refine {
      known := fun z k hk => ?_
      asked_le := fun q hq => UInt64.le_trans (h.rounds.asked_le q hq) (hadv _ _).1
      asked_cand := fun q c hq hc => h.rounds.asked_cand q c hq (htask _ ▸ hc)
      serial := fun q hq => serial_setReg.symm ▸ h.rounds.serial q hq
      current := fun q c p hq hc => h.rounds.current q c p hq (htask _ ▸ hc)
      granted_le := fun v k f z hmem => ?_
      granted_cand := fun v k f z c hmem hc hk => ?_
      counts := fun z c p hc => (h.rounds.counts z c p (htask _ ▸ hc)).mono hsub }
    · exact hname ▸ h.rounds.known z k (htask _ ▸ hk)
    · rcases mem_cons.mp hmem with heq | hold
      · injection heq with _ hepoch hid
        obtain ⟨rfl, rfl⟩ := Prod.mk.inj hepoch
        obtain rfl := hinj hid
        exact hle
      · exact UInt64.le_trans (h.rounds.granted_le v k f z hold) (hadv _ _).1
    · rcases mem_cons.mp hmem with heq | hold
      · injection heq with _ hepoch hid
        obtain ⟨rfl, rfl⟩ := Prod.mk.inj hepoch
        obtain rfl := hinj hid
        exact hcand c (htask _ ▸ hc) hk
      · exact h.rounds.granted_cand v k f z c hold (htask _ ▸ hc) hk
  · exact fun k f z hz => (h.elected k f z hz).mono hsub

/-- The answer of a registry to a request for a vote, under a sound ledger. -/
theorem Safe.handleVote (h : Safe runID s) {m : Bytes} (hknown : m ∈ s.names y) {e : UInt64}
    {id : Bytes} : (((s.node y).reg.handleVote m e id).1 = (s.node y).reg ∧
        ((s.node y).reg.handleVote m e id).2.1 = false ∧
        e ≤ (s.ballot y m).currentEpoch ∧ (s.ballot y m).votedRunID ≠ []) ∨
      (((s.node y).reg.handleVote m e id).2.1 = true ∧
        ((s.node y).reg.handleVote m e id).1.names = s.names y ∧
        Votes s.ballot (s.setReg y ((s.node y).reg.handleVote m e id).1).ballot y m e id ∧
        MayVote (s.ballot y m) e id) := by
  rcases (s.node y).reg.handleVote_cases m e id with
    ⟨hsame, hfalse, hwhy⟩ | ⟨htrue, -, hmay, hnames, hballot⟩
  · left
    refine ⟨hsame, hfalse, ?_⟩
    rcases hwhy hknown with hlt | ⟨heq, -, hsome, -⟩
    · refine ⟨UInt64.le_of_lt hlt, h.ledger.named y m ?_⟩
      intro hzero
      have hlt' : e < 0 := hzero ▸ hlt
      exact absurd hlt' UInt64.not_lt_zero
    · exact ⟨heq ▸ UInt64.le_refl _, hsome⟩
  · right
    refine ⟨htrue, hnames, fun z k => ?_, hmay⟩
    rw [setReg, ballot_setNode]
    by_cases hz : z = y
    · subst hz
      rw [hballot]
      simp [ballot]
    · simp [hz]

/-- A sentinel goes on to another task with the registry it has, and sends requests. -/
theorem Safe.setNode (h : Safe runID s) {serial : Nat} {t : Task n} (asks : List (Query n))
    (hserial : (s.node x).serial ≤ serial) (hasks : ∀ q ∈ asks, q.src = x ∧ q.serial < serial ∧
      q.epoch ≤ (s.ballot x q.master).currentEpoch) (hknown : ∀ m, t.about = some m → m ∈ s.names x)
    (hcand : ∀ c, t.candidacy = some c → (∀ q, q ∈ asks ∨ .ask q ∈ s.sent → q.src = x → c.master =
      q.master → q.epoch ≤ c.cand) ∧ ∀ v m e, ⟨v, (m, e), runID x⟩ ∈ s.granted → c.master = m → e ≤
      c.cand) (hround : ∀ c p, t.round = some (c, p) → Counts s.granted (runID x) c p ∧ ∀ q, q ∈
      asks ∨ .ask q ∈ s.sent → q.src = x → p.serial = q.serial → q.master = c.master ∧ q.epoch =
      c.cand) :
    Safe runID { s.setNode x ⟨(s.node x).reg, serial, t⟩ with sent := asks.map .ask ++ s.sent } := by
  have hballot : (s.setNode x ⟨(s.node x).reg, serial, t⟩).ballot = s.ballot := by
    ext z k : 2
    rw [ballot_setNode]
    split
    · next heq => rw [heq]; rfl
    · rfl
  have hnames : (s.setNode x ⟨(s.node x).reg, serial, t⟩).names = s.names := names_setNode rfl
  have htask := task_setNode s x ⟨(s.node x).reg, serial, t⟩
  have hsent : ∀ q, Msg.ask q ∈ asks.map .ask ++ s.sent → q ∈ asks ∨ .ask q ∈ s.sent := by
    simp
  refine ⟨hballot ▸ h.ledger, ⟨fun msg hmsg => ?_, fun msg hmsg => ?_⟩, {
      known := fun z k hk => ?_
      asked_le := fun q hq => ?_
      asked_cand := fun q c hq hc => ?_
      serial := fun q hq => ?_
      current := fun q c p hq hp => ?_
      granted_le := hballot ▸ h.rounds.granted_le
      granted_cand := fun v k e z c hmem hc => ?_
      counts := fun z c p hp => ?_ }, h.elected⟩
  · rcases mem_append.mp hmsg with hnew | hold
    · obtain ⟨q, -, rfl⟩ := mem_map.mp hnew
      exact hmsg
    · exact mem_append_right _ (h.mail.asked msg hold)
  · rcases mem_append.mp hmsg with hnew | hold
    · obtain ⟨q, -, rfl⟩ := mem_map.mp hnew
      trivial
    · exact Tells.mono hnames (hballot ▸ .refl) (List.Subset.refl _) (h.mail.tells msg hold)
  · replace hk := htask z ▸ hk
    refine (congrFun hnames z).symm ▸ ?_
    split at hk
    · next heq => exact heq ▸ hknown k hk
    · exact h.rounds.known z k hk
  · refine (congrFun₂ hballot _ _).symm ▸ ?_
    rcases hsent q hq with hnew | hold
    · obtain ⟨hsrc, -, hle⟩ := hasks q hnew
      exact hsrc.symm ▸ hle
    · exact h.rounds.asked_le q hold
  · replace hc := htask q.src ▸ hc
    split at hc
    · next heq => exact (hcand c hc).1 q (hsent q hq) heq
    · next hne =>
      exact h.rounds.asked_cand q c ((hsent q hq).resolve_left fun hnew => hne (hasks q hnew).1) hc
  · rw [serial_setNode]
    rcases hsent q hq with hnew | hold
    · obtain ⟨hsrc, hlt, -⟩ := hasks q hnew
      rw [if_pos hsrc]
      exact hlt
    · have hlt := h.rounds.serial q hold
      split
      · next heq => exact lt_of_lt_of_le (heq ▸ hlt) hserial
      · exact hlt
  · replace hp := htask q.src ▸ hp
    split at hp
    · next heq => exact (hround c p hp).2 q (hsent q hq) heq
    · next hne =>
      exact h.rounds.current q c p ((hsent q hq).resolve_left fun hnew => hne (hasks q hnew).1) hp
  · replace hc := htask z ▸ hc
    split at hc
    · next heq => exact (hcand c hc).2 v k e (heq ▸ hmem)
    · exact h.rounds.granted_cand v k e z c hmem hc
  · replace hp := htask z ▸ hp
    split at hp
    · next heq => exact heq ▸ (hround c p hp).1
    · exact h.rounds.counts z c p hp

/-- A sentinel with a round under way: a new one, for which it asks some peers, or the one that
it has begun, with the requests sent before. -/
theorem Safe.setRound (h : Safe runID s) (second : Bool) (p : Poll n) {serial : Nat}
    (ys : List (Fin n)) (hc : (s.task x).candidacy = some c)
    (hle : ∀ y ∈ ys, p.serial < serial ∧ c.cand ≤ (s.ballot x c.master).currentEpoch)
    (hserial : (s.node x).serial ≤ serial) (hsame : ∀ q, .ask q ∈ s.sent → q.src = x → p.serial =
      q.serial → q.master = c.master ∧ q.epoch = c.cand) (hcounts : Counts s.granted (runID x) c p)
    : Safe runID { s.setNode x ⟨(s.node x).reg, serial, .asking c second p⟩ with
      sent := ys.map (fun y => .ask ⟨x, y, p.serial, c.master, c.host, c.port, c.cand⟩) ++
        s.sent } := by
  have hasks : ∀ q ∈ ys.map fun y => (⟨x, y, p.serial, c.master, c.host, c.port, c.cand⟩ : Query n),
      (q.src = x ∧ q.serial < serial ∧ q.epoch ≤ (s.ballot x q.master).currentEpoch) ∧
        q.master = c.master ∧ q.epoch = c.cand := by
    intro q hq
    obtain ⟨y, hy, rfl⟩ := mem_map.mp hq
    exact ⟨⟨rfl, hle y hy⟩, rfl, rfl⟩
  have hsafe := h.setNode (ys.map fun y => ⟨x, y, p.serial, c.master, c.host, c.port, c.cand⟩)
    hserial (fun q hq => (hasks q hq).1) (t := .asking c second p) ?_ ?_ ?_
  · rw [map_map] at hsafe
    exact hsafe
  · rintro m ⟨⟩
    exact h.rounds.known x c.master (Task.about_of_candidacy hc)
  · rintro d ⟨⟩
    refine ⟨fun q hq hsrc hm => ?_, fun v m e hmem => h.rounds.granted_cand v m e x c hmem hc⟩
    rcases hq with hnew | hold
    · exact (hasks q hnew).2.2 ▸ UInt64.le_refl _
    · exact h.rounds.asked_cand q c hold (hsrc ▸ hc) hm
  · rintro d r ⟨⟩
    refine ⟨hcounts, fun q hq hsrc hs => ?_⟩
    rcases hq with hnew | hold
    · exact (hasks q hnew).2
    · exact hsame q hold hsrc hs

theorem nodup_peers : (peers x).Nodup := (nodup_finRange n).filter _

theorem not_mem_peers : x ∉ peers x := by
  simp [peers]

theorem length_peers : 1 + (peers x).length = n := by
  have herase : peers x = (finRange n).erase x := by
    rw [(nodup_finRange n).erase_eq_filter]
    refine filter_congr fun y _ => ?_
    by_cases hy : y = x <;> simp [hy]
  have hpos : 0 < n := Nat.zero_lt_of_lt x.isLt
  rw [herase, length_erase_of_mem (mem_finRange x), length_finRange]
  omega

section

variable (h : Safe runID s)
include h

/-- A sentinel votes for itself, unless it has followed a later epoch, and asks its peers. -/
theorem Safe.selfVote (hinj : Function.Injective runID) (hne : ∀ x, runID x ≠ []) :
    Safe runID (s.selfVote runID x) := by
  rw [Net.selfVote]
  split
  · next c second htask =>
    have hc : (s.task x).candidacy = some c := by
      rw [Net.task, htask]
      rfl
    have hknown := h.rounds.known x c.master (Task.about_of_candidacy hc)
    dsimp only
    rcases h.handleVote hknown with
      ⟨hreg, hfalse, hle, -⟩ | ⟨htrue, hnames, hvotes, hmay⟩
    · rw [hreg, hfalse]
      refine h.setRound second _ (peers x) hc (fun _ _ => ⟨Nat.lt_succ_self _, hle⟩) (Nat.le_succ _) ?_ ?_
      · intro q hq hsrc hserial
        subst hsrc
        exact absurd hserial (ne_of_gt (h.rounds.serial q hq))
      · exact ⟨nodup_peers, nodup_nil, fun v hv => absurd hv not_mem_nil,
          fun v hv => absurd hv not_mem_nil⟩
    · rw [htrue]
      have hself : c.cand ≤ ((s.setReg x ((s.node x).reg.handleVote c.master c.cand
          (runID x)).1).ballot x c.master).currentEpoch := by
        rw [hvotes.self]
        exact UInt64.le_refl _
      have hgrant := h.grant hinj hnames hvotes hmay (hne x) hself fun d hd _ => by
        rw [hc] at hd
        cases hd
        exact UInt64.le_refl _
      have hround := hgrant.setRound second ⟨(s.node x).serial, peers x, 0, [x]⟩ (peers x) ((congrArg _ (Net.task_setReg x)).trans hc)
        (fun _ _ => ⟨Nat.lt_succ_self _, hself⟩)
        (Nat.le_succ_of_le (Nat.le_of_eq Net.serial_setReg)) ?_ ?_
      · simp only [Net.setReg, Net.setNode, Function.update_idem, Function.update_self] at hround
        exact hround
      · intro q hq hsrc hserial
        subst hsrc
        exact absurd hserial (ne_of_gt (h.rounds.serial q hq))
      · refine ⟨nodup_peers, nodup_singleton x, fun v hv => ?_, fun v hv => ?_⟩
        · rw [mem_singleton.mp hv]
          exact not_mem_peers
        · rw [mem_singleton.mp hv]
          exact mem_cons_self ..
  · exact h

/-- A round that was begun goes on with what it has counted so far. -/
theorem Safe.setPoll {second : Bool} {p' : Poll n} (htask : (s.node x).task = .asking c second p)
    (hserial : p'.serial = p.serial) (hcounts : Counts s.granted (runID x) c p') :
    Safe runID (s.setTask x (.asking c second p')) := by
  have hround : (s.task x).round = some (c, p) := by
    rw [task, htask]
    rfl
  refine h.setRound second p' [] ?_ (fun _ hy => absurd hy not_mem_nil) (le_refl _) ?_
    hcounts
  · rw [task, htask]
    rfl
  · rintro q hq rfl hs
    exact h.rounds.current q c p hq hround (hserial ▸ hs)

theorem Safe.fail : Safe runID (s.fail x y) := by
  rw [Net.fail]
  split
  · next c second p htask =>
    have hcounts : Counts s.granted (runID x) c p :=
      h.rounds.counts x c p (by rw [task, htask]; rfl)
    exact h.setPoll htask rfl {
      waiting := hcounts.waiting.erase y
      voters := hcounts.voters
      disjoint := fun v hv hmem => hcounts.disjoint v hv (mem_of_mem_erase hmem)
      granted := hcounts.granted }
  · exact h

/-- An answer of the round under way that names the candidate stands for a vote in its epoch: the
vote on record may be of a later epoch, but the candidate has no votes of later epochs yet. -/
theorem Safe.granted_of_reply {epoch : UInt64} (hreply : .reply q down (runID q.src) epoch ∈ s.sent)
    (hround : (s.task q.src).round = some (c, p)) (hcand : (s.task q.src).candidacy = some c)
    (hserial : p.serial = q.serial) : ⟨q.dst, (c.master, c.cand), runID q.src⟩ ∈ s.granted := by
  have hask := h.mail.asked _ hreply
  obtain ⟨hmaster, hepoch⟩ := h.rounds.current q c p hask hround hserial
  obtain ⟨e, hle, hgranted⟩ := h.mail.tells _ hreply rfl
  have hge : e ≤ c.cand := h.rounds.granted_cand q.dst q.master e q.src c hgranted hcand
    hmaster.symm
  have heq : e = c.cand := UInt64.le_antisymm hge (hepoch ▸ hle)
  rw [← hmaster, ← heq]
  exact hgranted

theorem Safe.receive {leader : Bytes} {epoch : UInt64} :
    Safe runID (s.receive runID q down leader epoch) := by
  rw [Net.receive]
  split
  · next c second p htask =>
    split
    · next hcond =>
      obtain ⟨hreply, hserial, hwaiting⟩ := hcond
      have hround : (s.task q.src).round = some (c, p) := by
        rw [task, htask]
        rfl
      have hcounts := h.rounds.counts q.src c p hround
      refine h.setPoll htask rfl ⟨hcounts.waiting.erase q.dst, ?_, ?_, ?_⟩
      · dsimp only
        split
        · exact nodup_cons.mpr ⟨fun hmem => hcounts.disjoint _ hmem hwaiting, hcounts.voters⟩
        · exact hcounts.voters
      · intro v hv hmem
        dsimp only at hv
        split at hv
        · rcases mem_cons.mp hv with rfl | hold
          · exact hcounts.waiting.not_mem_erase hmem
          · exact hcounts.disjoint v hold (mem_of_mem_erase hmem)
        · exact hcounts.disjoint v hv (mem_of_mem_erase hmem)
      · intro v hv
        dsimp only at hv
        split at hv
        · next hleader =>
          rcases mem_cons.mp hv with rfl | hold
          · exact h.granted_of_reply (hleader ▸ hreply) hround (by rw [task, htask]; rfl) hserial
          · exact hcounts.granted v hold
        · exact hcounts.granted v hv
    · exact h
  · exact h

theorem Safe.tallySecond {second : Bool} (htask : (s.node x).task = .asking c second p) :
    Safe runID (s.tallySecond x c p) := by
  rw [Net.tallySecond]
  split
  · exact h.quiet .idle
  · split
    · exact h.quiet .idle
    · next hmajority =>
      have hcounts : Counts s.granted (runID x) c p :=
        h.rounds.counts x c p (by rw [task, htask]; rfl)
      have hcarried : Carried s.granted (c.master, c.cand) (runID x) := by
        refine carried_of_nodup hcounts.voters ?_ hcounts.granted
        rw [length_peers] at hmajority
        rw [Fintype.card_fin]
        omega
      have hquiet : Safe runID (s.setTask x (.leading c p.downs)) :=
        h.quiet (.setTask (.goOn (by rw [task, htask]; rfl) rfl rfl))
      refine ⟨hquiet.ledger, ⟨hquiet.mail.asked, ?_⟩, ?_, ?_⟩
      · intro msg hmsg
        exact (hquiet.mail.tells msg hmsg).mono rfl .refl (List.Subset.refl _)
      · exact { hquiet.rounds with }
      · intro m e z hz
        rcases mem_cons.mp hz with heq | hold
        · cases heq
          exact hcarried
        · exact h.elected m e z hold

theorem Safe.tally {timeout : Nat} : Safe runID (s.tally timeout x) := by
  rw [Net.tally]
  split
  · next c second p htask =>
    split
    · split
      · exact h.tallySecond htask
      · exact h.quiet (quiet_tallyFirst (by rw [task, htask]; rfl))
    · exact h
  · exact h

/-- A candidacy for the epoch after the current one, which no request and no vote has reached. -/
theorem Safe.setCandidacy (hknown : c.master ∈ s.names x)
    (hlt : (s.ballot x c.master).currentEpoch < c.cand) :
    Safe runID (s.setTask x (.voting c false)) := by
  have hcand : ∀ e, e ≤ (s.ballot x c.master).currentEpoch → e ≤ c.cand := fun e hle =>
    UInt64.le_of_lt (UInt64.lt_of_le_of_lt hle hlt)
  refine h.setNode [] (le_refl _)
    (fun q hq => absurd hq not_mem_nil) ?_ ?_ (fun d r hr => by cases hr)
  · rintro m ⟨⟩
    exact hknown
  · rintro d ⟨⟩
    refine ⟨fun q hq hsrc hm => ?_, fun v m e hmem hm => ?_⟩
    · have hle := h.rounds.asked_le q (hq.resolve_left not_mem_nil)
      rw [hsrc, ← hm] at hle
      exact hcand _ hle
    · subst hm
      exact hcand _ (h.rounds.granted_le v c.master e x hmem)

end

/-- The master of a task that is about to read the epoch. -/
def Task.begun : Task n → Option Bytes
  | .started master _ _ => some master
  | _ => none

/-- A request is answered for the master that was meant, and a candidacy is not begun in the
greatest epoch. -/
def Meant (s : Net n) : Action n → Prop
  | .resolve q name =>
    .ask q ∈ s.sent → (s.node q.dst).reg.getMasterAddr name = some (q.host, q.port) →
      name = [] ∨ name = q.master
  | .readEpoch x =>
    (s.task x).begun.map (fun m => (s.ballot x m).currentEpoch) ≠ some 18446744073709551615
  | _ => True

instance (s : Net n) : (a : Action n) → Decidable (Meant s a)
  | .resolve _ _ => inferInstanceAs (Decidable (_ → _ → _ ∨ _))
  | .readEpoch _ => inferInstanceAs (Decidable (_ ≠ _))
  | .record .. | .adopt .. | .begin .. | .selfVote .. | .vote .. | .report .. | .receive ..
  | .fail .. | .tally .. | .readRole .. | .select .. | .confirm .. | .retry .. | .finish ..
  | .settle .. | .accept .. | .lose .. | .tick .. => .isTrue trivial

theorem Safe.readEpoch (h : Safe runID s) (hmeant : Meant s (.readEpoch x)) :
    Safe runID (s.readEpoch x) := by
  rw [Net.readEpoch]
  split
  · next master host port htask =>
    have hknown : master ∈ (s.node x).reg.names :=
      h.rounds.known x master (by rw [task, htask]; rfl)
    have hmax : (s.ballot x master).currentEpoch ≠ 18446744073709551615 := by
      intro heq
      apply hmeant
      rw [task, htask, Task.begun, Option.map_some, heq]
    have hepoch : (((s.node x).reg.votedFor master).map (·.2)).getD 0 =
        (s.ballot x master).currentEpoch := by
      rw [Registry.votedFor, if_pos hknown]
      rfl
    refine h.setCandidacy hknown ?_
    rw [hepoch]
    generalize (s.ballot x master).currentEpoch = e at hmax
    rw [UInt64.lt_iff_toNat_lt, UInt64.toNat_add]
    have hlt := UInt64.toNat_lt e
    have hne : e.toNat ≠ 18446744073709551615 := fun heq => hmax (UInt64.toNat_inj.mp heq)
    have hone : (1 : UInt64).toNat = 1 := rfl
    omega
  · exact h

theorem Safe.resolve (h : Safe runID s) (hmeant : Meant s (.resolve q name)) :
    Safe runID (s.resolve q name) := by
  rw [Net.resolve]
  split
  · next hcond =>
    obtain ⟨hask, hname, haddr⟩ := hcond
    refine h.send hask (fun _ => nofun) ⟨(hmeant hask haddr).resolve_left hname, ?_⟩
    exact Registry.mem_names_of_getMasterAddr haddr
  · exact h

theorem Safe.vote (h : Safe runID s) (hinj : Function.Injective runID) (hne : ∀ x, runID x ≠ []) :
    Safe runID (s.vote runID q name down) := by
  rw [Net.vote]
  split
  · next hmatched =>
    have hask := h.mail.asked _ hmatched
    obtain ⟨rfl, hknown⟩ := h.mail.tells _ hmatched
    dsimp only
    rcases h.handleVote hknown with
      ⟨-, hfalse, hle, hsome⟩ | ⟨htrue, hnames, hvotes, hmay⟩
    · rw [hfalse]
      exact h.send hask (fun _ => nofun) ⟨⟨rfl, hknown⟩, hle, hsome⟩
    · rw [htrue]
      have hadv := hvotes.advances (hne q.src) hmay.le
      have hgrant := h.grant hinj hnames hvotes hmay (hne q.src)
        (UInt64.le_trans (h.rounds.asked_le q hask) (hadv q.src q.master).1)
        fun c hc => h.rounds.asked_cand q c hask hc
      refine hgrant.send hask (fun _ => nofun) fun _ => ?_
      exact ⟨q.epoch, UInt64.le_refl _, mem_cons_self ..⟩
  · exact h

theorem Safe.report (h : Safe runID s) : Safe runID (s.report q name down) := by
  rw [Net.report]
  split
  · next hrefused =>
    have hask := h.mail.asked _ hrefused
    obtain ⟨⟨rfl, hknown⟩, hle, hsome⟩ := h.mail.tells _ hrefused
    have hvoted : (s.node q.dst).reg.votedFor q.master =
        some ((s.ballot q.dst q.master).votedRunID, (s.ballot q.dst q.master).currentEpoch) :=
      if_pos hknown
    rw [hvoted]
    dsimp only
    rw [if_pos hsome]
    refine h.send hask (fun _ => nofun) fun _ => ?_
    exact ⟨_, hle, h.ledger.backed q.dst q.master hsome⟩
  · exact h

theorem safe_start {specs : Fin n → List NodeSpec} {isMaster : Bytes → Bool} :
    Safe runID (start (fun x => newRegistry (specs x)) isMaster) where
  ledger := {
    synced := fun _ _ => rfl
    named := fun _ _ h => absurd rfl h
    backed := fun _ _ h => absurd rfl h
    chosen := fun _ _ _ h => absurd h not_mem_nil
    bound := fun _ _ _ _ h => absurd h not_mem_nil
    one := oneEach_nil }
  mail := ⟨fun _ h => absurd h not_mem_nil, fun _ h => absurd h not_mem_nil⟩
  rounds := {
    known := fun _ _ h => nomatch h
    asked_le := fun _ h => absurd h not_mem_nil
    asked_cand := fun _ _ h => absurd h not_mem_nil
    serial := fun _ h => absurd h not_mem_nil
    current := fun _ _ _ h => absurd h not_mem_nil
    granted_le := fun _ _ _ _ h => absurd h not_mem_nil
    granted_cand := fun _ _ _ _ _ h => absurd h not_mem_nil
    counts := fun _ _ _ h => nomatch h }
  elected := fun _ _ _ h => absurd h not_mem_nil

/-- Every step keeps the invariant when requests are answered for the master that was meant. -/
theorem Safe.step (h : Safe runID s) (hinj : Function.Injective runID) (hne : ∀ x, runID x ≠ [])
    {timeout : Nat} {a : Action n} (hmeant : Meant s a) :
    Safe runID (step runID timeout s a) := by
  cases a with
  | record =>
    exact h.quiet (.setReg Registry.names_recordProbe Registry.ballot_recordProbe)
  | adopt =>
    exact h.quiet (.setReg Registry.names_adoptMaster Registry.ballot_adoptMaster)
  | begin => exact h.quiet quiet_begin
  | readEpoch => exact h.readEpoch hmeant
  | selfVote => exact h.selfVote hinj hne
  | resolve => exact h.resolve hmeant
  | vote => exact h.vote hinj hne
  | report => exact h.report
  | receive => exact h.receive
  | fail => exact h.fail
  | tally => exact h.tally
  | readRole => exact h.quiet quiet_readRole
  | select => exact h.quiet quiet_select
  | confirm => exact h.quiet quiet_confirm
  | retry => exact h.quiet quiet_retry
  | finish => exact h.quiet quiet_finish
  | settle => exact h.quiet quiet_settle
  | accept => exact h.quiet quiet_accept
  | lose c | tick d => exact h.quiet Quiet.refl.servers

/-- In every run in which requests are answered for the master that was meant and no epoch wraps
around, at most one sentinel is ever elected for a master in an epoch. -/
theorem one_leader_per_epoch (hinj : Function.Injective runID) (hne : ∀ x, runID x ≠ [])
    (timeout : Nat) (specs : Fin n → List NodeSpec) (isMaster : Bytes → Bool)
    (actions : List (Action n))
    (h : Along (step runID timeout) Meant (start (fun x => newRegistry (specs x)) isMaster) actions)
    {m : Bytes} {e : UInt64} {x y : Fin n}
    (hx : (m, e, x) ∈
      (run (step runID timeout) (start (fun x => newRegistry (specs x)) isMaster) actions).elected)
    (hy : (m, e, y) ∈
      (run (step runID timeout) (start (fun x => newRegistry (specs x)) isMaster) actions).elected) :
    x = y := by
  have hsafe : Safe runID _ := run_induction (fun s a hs ha => hs.step hinj hne ha) safe_start h
  have hcarried := hsafe.elected m e x hx
  have hcarried' := hsafe.elected m e y hy
  exact hinj (hcarried.unique hsafe.ledger.one hcarried')

/-- Two masters, with a replica each. -/
def twoMasters (addr addr' : Bytes) : List NodeSpec :=
  [⟨ascii ['a'], addr, [ascii ['h', ':', '3']], 1⟩, ⟨ascii ['b'], addr', [ascii ['h', ':', '4']], 1⟩]

/-- Two rounds of a sentinel for the master `a` at `h:1`. In the first round nobody answers; in the
second the last sentinel votes, for the master it has found. -/
def campaign (x other : Fin 3) (found : Bytes) : List (Action 3) :=
  let q : Query 3 := ⟨x, 2, 1, ascii ['a'], ascii ['h'], 1, 1⟩
  [.record x (ascii ['h', ':', '1']) false, .begin x (ascii ['a']), .readEpoch x, .selfVote x,
    .fail x other, .fail x 2, .tally x, .readRole x true, .readRole x true, .selfVote x,
    .resolve q found, .vote q found false, .receive q false (threeIds x) 1, .fail x other, .tally x]

/-- A sentinel is elected, and it is the only one. -/
theorem one_leader_elected :
    (ascii ['a'], 1, 0) ∈ (run (step threeIds 0) (start (fun _ => newRegistry (twoMasters
      (ascii ['h', ':', '1']) (ascii ['h', ':', '2']))) fun _ => false)
      (campaign 0 1 (ascii ['a']))).elected ∧
    ∀ y, (ascii ['a'], 1, y) ∈ (run (step threeIds 0) (start (fun _ => newRegistry (twoMasters
      (ascii ['h', ':', '1']) (ascii ['h', ':', '2']))) fun _ => false)
      (campaign 0 1 (ascii ['a']))).elected → 0 = y := by
  have helected : (ascii ['a'], 1, 0) ∈ (run (step threeIds 0) (start (fun _ => newRegistry
      (twoMasters (ascii ['h', ':', '1']) (ascii ['h', ':', '2']))) fun _ => false)
      (campaign 0 1 (ascii ['a']))).elected := by decide +kernel
  refine ⟨helected, fun y hy => ?_⟩
  exact one_leader_per_epoch (by decide) (by decide) 0 _ _ _ (by decide +kernel) helected hy

/-- Two masters are configured with one address. A peer answers the second request for the other
master, and two sentinels are elected for one master in one epoch. -/
theorem two_leaders_elected :
    (ascii ['a'], 1, 0) ∈ (run (step threeIds 0) (start (fun _ => newRegistry (twoMasters
      (ascii ['h', ':', '1']) (ascii ['h', ':', '1']))) fun _ => false)
      (campaign 0 1 (ascii ['a']) ++ campaign 1 0 (ascii ['b']))).elected ∧
    (ascii ['a'], 1, 1) ∈ (run (step threeIds 0) (start (fun _ => newRegistry (twoMasters
      (ascii ['h', ':', '1']) (ascii ['h', ':', '1']))) fun _ => false)
      (campaign 0 1 (ascii ['a']) ++ campaign 1 0 (ascii ['b']))).elected := by
  decide +kernel

end Gedis.Sentinel
