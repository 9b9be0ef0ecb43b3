import Gedis.Sentinel.Ballots

/-!
# One promotion per failure

An elected sentinel promotes a replica when it has found no replica promoted before. Leaders of
successive epochs can both find none and promote different replicas. When a sentinel that looks for
a promoted replica is alone in doing so, and sees every replica promoted within the failover
timeout, the replicas promoted within the timeout are one.
-/

namespace Gedis.Sentinel

open Gedis.Core List Net

variable {n : Nat} {x : Fin n} {nd : Node n} {c : Candidacy} {m name : Bytes} {p : Poll n}
  {runID : Fin n → Bytes} {q : Query n} {down reachable : Bool}

/-- The master for which a sentinel is between its look for promoted replicas and the end of its own
promotion. -/
def Task.opens : Task n → Option Bytes
  | .voting c true => some c.master
  | .asking c true _ => some c.master
  | .checking c _ _ => some c.master
  | .leading c _ => some c.master
  | .chosen master _ => some master
  | .promoting master _ _ => some master
  | _ => none

namespace Net

variable (s : Net n)

/-- The replicas that have become masters within the timeout. -/
def recent (timeout : Nat) (m : Bytes) : List Bytes :=
  (s.accepted.filter fun a => a.master = m ∧ s.now < a.time + timeout).map (·.addr)

/-- The replicas to which a command to become a master is on its way. -/
def ordered (m : Bytes) : List Bytes :=
  (s.commands.filter fun c => c.master = m ∧ c.promote).map (·.addr)

/-- The replicas that a sentinel asks for their role. -/
def examined (x : Fin n) (m : Bytes) : List Bytes :=
  match (s.node x).reg.getMasterAddr m with
  | none => []
  | some (host, port) =>
    ((s.node x).reg.slaves m).filter (· ≠ joinHostPort host (formatInt port))

/-- Two different replicas have become masters within the timeout. -/
def Split (timeout : Nat) (m : Bytes) : Prop :=
  ∃ a ∈ s.recent timeout m, ∃ b ∈ s.recent timeout m, a ≠ b

end Net

/-- What a task has seen of the promoted replicas and of the commands on their way. -/
def Sees (ordered recent : Bytes → List Bytes) : Task n → Prop
  | .checking c cur rest =>
    ordered c.master = [] ∧ ∀ addr ∈ recent c.master, addr ∈ rest ∧ addr ≠ cur
  | .voting c second => second = true → ordered c.master = [] ∧ recent c.master = []
  | .asking c second _ => second = true → ordered c.master = [] ∧ recent c.master = []
  | .leading c _ => ordered c.master = [] ∧ recent c.master = []
  | .chosen master _ => ordered master = [] ∧ recent master = []
  | .promoting master target _ => ∀ addr ∈ ordered master ++ recent master, addr = target
  | _ => True

/-- One replica per master, and one sentinel at a time that may promote another one. -/
structure Single (timeout : Nat) (s : Net n) : Prop where
  agree : ∀ m, ∃ t, ∀ addr ∈ s.ordered m ++ s.recent timeout m, addr = t
  sees : ∀ x, Sees s.ordered (s.recent timeout) (s.task x)
  alone : ∀ x y m, (s.task x).opens = some m → (s.task y).opens = some m → x = y

variable {timeout : Nat} {s s' : Net n}

theorem single_start {regs : Fin n → Registry} {isMaster : Bytes → Bool} :
    Single timeout (start regs isMaster) where
  agree _ := ⟨[], fun _ h => absurd h not_mem_nil⟩
  sees _ := trivial
  alone _ _ _ h := nomatch h

section

variable (h : Single timeout s)
include h

theorem Single.not_split : ¬ s.Split timeout m := by
  rintro ⟨a, ha, b, hb, hne⟩
  obtain ⟨t, ht⟩ := h.agree m
  apply hne
  rw [ht a (mem_append_right _ ha), ht b (mem_append_right _ hb)]

/-- A sentinel goes on to a phase that fits what it has seen. It opens no other master, unless
nobody else has that master open. -/
theorem Single.setNode (hsees : Sees s.ordered (s.recent timeout) nd.task) (hopens : ∀ m,
      nd.task.opens = some m → (s.task x).opens = some m ∨ ∀ y, y ≠ x → (s.task y).opens ≠ some m) :
    Single timeout (s.setNode x nd) where
  agree := h.agree
  sees y := by
    rw [task_setNode]
    split
    · exact hsees
    · exact h.sees y
  alone y z m hy hz := by
    rw [task_setNode] at hy hz
    -- Two sentinels have the master open; the one that has moved is alone or had it open before.
    split at hy <;> split at hz
    case isTrue.isTrue hyx hzx => rw [hyx, hzx]
    case isTrue.isFalse hyx hzx =>
      rcases hopens m hy with hold | hnone
      · exact hyx.trans (h.alone x z m hold hz)
      · exact absurd hz (hnone z hzx)
    case isFalse.isTrue hyx hzx =>
      rcases hopens m hz with hold | hnone
      · exact (h.alone y x m hy hold).trans hzx.symm
      · exact absurd hy (hnone y hyx)
    case isFalse.isFalse => exact h.alone y z m hy hz

/-- Messages and votes are no part of promotions. -/
theorem Single.mail {sent : List (Msg n)} {granted : List (Vote (Fin n) (Bytes × UInt64) Bytes)}
    {elected : List (Bytes × UInt64 × Fin n)} : Single timeout { s with sent, granted, elected } :=
  ⟨h.agree, h.sees, h.alone⟩

theorem Single.setReg {reg : Registry} : Single timeout (s.setReg x reg) :=
  h.setNode (h.sees x) fun _ hm => .inl hm

/-- A sentinel gives up, or it has not begun to look for promoted replicas. -/
theorem Single.close (hsees : Sees s.ordered (s.recent timeout) nd.task)
    (hclosed : nd.task.opens = none) : Single timeout (s.setNode x nd) := by
  refine h.setNode hsees fun m hm => ?_
  rw [hclosed] at hm
  cases hm

theorem Single.idle : Single timeout (s.setTask x .idle) :=
  h.close trivial rfl

/-- A sentinel goes on with the master that it has open. -/
theorem Single.goOn {t : Task n} (htask : (s.node x).task = t)
    (hsees : Sees s.ordered (s.recent timeout) t → Sees s.ordered (s.recent timeout) nd.task)
    (hopens : nd.task.opens = t.opens) : Single timeout (s.setNode x nd) := by
  refine h.setNode (hsees (htask ▸ h.sees x)) fun m hm => .inl ?_
  rw [task, htask, ← hopens]
  exact hm

theorem Single.begin {master : Bytes} : Single timeout (s.begin x master) := by
  rw [Net.begin]
  split
  · exact h.close trivial rfl
  · exact h

theorem Single.readEpoch : Single timeout (s.readEpoch x) := by
  rw [Net.readEpoch]
  split
  · exact h.close (fun hsecond => nomatch hsecond) rfl
  · exact h

end

theorem opens_asking {second : Bool} :
    (Task.asking c second p).opens = (Task.voting (n := n) c second).opens := by
  cases second <;> rfl

section

variable (h : Single timeout s)
include h

theorem Single.selfVote : Single timeout (s.selfVote runID x) := by
  rw [Net.selfVote]
  split
  · next c second htask => exact (h.goOn htask id opens_asking).mail
  · exact h

theorem Single.resolve : Single timeout (s.resolve q name) := by
  rw [Net.resolve]
  split
  · exact h.mail
  · exact h

theorem Single.vote : Single timeout (s.vote runID q name down) := by
  rw [Net.vote]
  split
  · dsimp only
    split
    · exact h.setReg.mail
    · exact h.mail
  · exact h

theorem Single.report : Single timeout (s.report q name down) := by
  rw [Net.report]
  split
  · split
    · split
      · exact h.mail
      · exact h.mail
    · exact h.mail
  · exact h

theorem Single.setPoll {second : Bool} {p' : Poll n} (htask : (s.node x).task = .asking c second p)
    : Single timeout (s.setTask x (.asking c second p')) :=
  h.goOn htask id (opens_asking.trans opens_asking.symm)

theorem Single.receive {leader : Bytes} {epoch : UInt64} :
    Single timeout (s.receive runID q down leader epoch) := by
  rw [Net.receive]
  split
  · next htask =>
    split
    · exact h.setPoll htask
    · exact h
  · exact h

theorem Single.fail {x y : Fin n} : Single timeout (s.fail x y) := by
  rw [Net.fail]
  split
  · next htask => exact h.setPoll htask
  · exact h

end

/-- The master and the replica that a sentinel asks next for its role. -/
def Task.asksNext : Task n → Option (Bytes × Bytes)
  | .checking c _ (slave :: _) => some (c.master, slave)
  | _ => none

/-- Nobody else may promote for a master, no command is on its way, and a sentinel will ask all
replicas promoted within the timeout. -/
def Alone (timeout : Nat) (s : Net n) (x : Fin n) (m : Bytes) : Prop :=
  (∀ y, y ≠ x → (s.task y).opens ≠ some m) ∧ s.ordered m = [] ∧
    ∀ addr ∈ s.recent timeout m, addr ∈ s.examined x m

/-- A sentinel that begins to look for promoted replicas is alone in that, and a replica promoted
within the timeout answers that it is a master. -/
def Exclusive (timeout : Nat) (s : Net n) : Action n → Prop
  | .tally x =>
    ∀ m ∈ ((s.tally timeout x).task x).opens, (s.task x).opens = some m ∨ Alone timeout s x m
  | .readRole x reachable =>
    ∀ p ∈ (s.task x).asksNext, p.2 ∈ s.recent timeout p.1 → reachable = true ∧ s.isMaster p.2 = true
  | _ => True

instance (timeout : Nat) (s : Net n) (x : Fin n) (m : Bytes) : Decidable (Alone timeout s x m) :=
  inferInstanceAs (Decidable ((∀ _, _) ∧ _ ∧ ∀ _ ∈ _, _))

instance (timeout : Nat) (s : Net n) : (a : Action n) → Decidable (Exclusive timeout s a)
  | .tally _ => inferInstanceAs (Decidable (∀ m ∈ _, _ ∨ Alone ..))
  | .readRole _ _ => inferInstanceAs (Decidable (∀ p ∈ _, _ → _ ∧ _))
  | .record .. | .adopt .. | .begin .. | .readEpoch .. | .selfVote .. | .resolve .. | .vote ..
  | .report .. | .receive .. | .fail .. | .select .. | .confirm .. | .retry .. | .finish ..
  | .settle .. | .accept .. | .lose .. | .tick .. => .isTrue trivial

section

variable (h : Single timeout s)
include h

theorem Single.tallyFirst
    (hcond : ∀ m ∈ ((s.tallyFirst timeout x c p.downs).task x).opens, Alone timeout s x m) :
    Single timeout (s.tallyFirst timeout x c p.downs) := by
  rw [Net.tallyFirst] at hcond ⊢
  split at hcond
  · next hstop =>
    rw [if_pos hstop]
    exact h.idle
  · next hstop =>
    rw [if_neg hstop]
    split at hcond
    · next haddr =>
      obtain ⟨halone, hordered, hexamined⟩ := hcond c.master (by
        rw [setTask, task_setNode, if_pos rfl]
        rfl)
      rw [examined, haddr] at hexamined
      have hnone : s.recent timeout c.master = [] :=
        eq_nil_iff_forall_not_mem.mpr fun addr hmem => not_mem_nil (hexamined addr hmem)
      refine h.setNode (fun _ => ⟨hordered, hnone⟩) fun m hm => ?_
      cases hm
      exact .inr halone
    · next host port haddr =>
      obtain ⟨halone, hordered, hexamined⟩ := hcond c.master (by
        rw [setTask, task_setNode, if_pos rfl]
        rfl)
      rw [examined, haddr] at hexamined
      refine h.setNode ⟨hordered, fun addr hmem => ?_⟩ fun m hm => ?_
      · have hmem' := mem_filter.mp (hexamined addr hmem)
        exact ⟨hmem'.1, of_decide_eq_true hmem'.2⟩
      · cases hm
        exact .inr halone

theorem Single.tallySecond (htask : (s.node x).task = .asking c true p) :
    Single timeout (s.tallySecond x c p) := by
  rw [Net.tallySecond]
  split
  · exact h.idle
  · split
    · exact h.idle
    · apply Single.mail
      exact h.goOn htask (fun hsees => hsees rfl) rfl

theorem Single.tally (hcond : Exclusive timeout s (.tally x)) :
    Single timeout (s.tally timeout x) := by
  rw [Exclusive] at hcond
  rw [Net.tally] at hcond ⊢
  split at hcond
  · next c second p htask =>
    split at hcond
    · next hwaiting =>
      rw [if_pos hwaiting]
      cases second with
      | true => exact h.tallySecond htask
      | false =>
        refine h.tallyFirst fun m hm => (hcond m hm).resolve_left ?_
        rw [task, htask]
        rintro ⟨⟩
    · next hwaiting =>
      rw [if_neg hwaiting]
      exact h
  · exact h

theorem Single.readRole (hcond : Exclusive timeout s (.readRole x reachable)) :
    Single timeout (s.readRole x reachable) := by
  rw [Net.readRole]
  split
  · next c cur htask =>
    refine h.goOn htask ?_ rfl
    rintro ⟨hordered, hrecent⟩ -
    refine ⟨hordered, eq_nil_iff_forall_not_mem.mpr fun addr hmem => ?_⟩
    exact absurd (hrecent addr hmem).1 not_mem_nil
  · next c cur slave rest htask =>
    -- A replica that is passed over is the current master or was not promoted lately.
    have hskip : slave ∉ s.recent timeout c.master →
        Single timeout (s.setTask x (.checking c cur rest)) := by
      intro hnot
      refine h.goOn htask ?_ rfl
      rintro ⟨hordered, hrecent⟩
      refine ⟨hordered, fun addr hmem => ⟨?_, (hrecent addr hmem).2⟩⟩
      rcases mem_cons.mp (hrecent addr hmem).1 with rfl | hrest
      · exact absurd hmem hnot
      · exact hrest
    split
    · next hcur =>
      refine hskip fun hmem => ?_
      have hsees := h.sees x
      rw [task, htask] at hsees
      exact (hsees.2 slave hmem).2 hcur
    · split
      · exact h.close trivial rfl
      · next hrole =>
        refine hskip fun hmem => hrole ?_
        obtain ⟨hreach, hmaster⟩ := hcond (c.master, slave) (by
          rw [task, htask]
          rfl) hmem
        rw [hreach, hmaster]
        rfl
  · exact h

theorem Single.select {infos : List SlaveInfo} : Single timeout (s.select timeout x infos) := by
  rw [Net.select]
  split
  · next htask =>
    dsimp only
    split
    · exact h.idle
    · split
      · exact h.idle
      · split
        · exact h.idle
        · exact h.goOn htask id rfl
  · exact h

end

theorem mem_recent {addr : Bytes} : addr ∈ s.recent timeout m ↔
    ∃ a ∈ s.accepted, (a.master = m ∧ s.now < a.time + timeout) ∧ a.addr = addr := by
  simp [recent, and_assoc]

theorem mem_ordered {addr : Bytes} : addr ∈ s.ordered m ↔
    ∃ c ∈ s.commands, (c.master = m ∧ c.promote = true) ∧ c.addr = addr := by
  simp [ordered, and_assoc]

section
variable {ordered recent ordered' recent' : Bytes → List Bytes} {t : Task n}

/-- What a task has seen stays true when nothing is added but promotions that were on their way. -/
theorem Sees.of_subset (hordered : ∀ m, ordered' m ⊆ ordered m)
    (hrecent : ∀ m, ordered m = [] → recent' m ⊆ recent m)
    (hall : ∀ m, ordered' m ++ recent' m ⊆ ordered m ++ recent m) (h : Sees ordered recent t) :
    Sees ordered' recent' t := by
  have hclear : ∀ m, ordered m = [] ∧ recent m = [] → ordered' m = [] ∧ recent' m = [] := by
    rintro m ⟨ho, hr⟩
    exact ⟨subset_nil.mp (ho ▸ hordered m), subset_nil.mp (hr ▸ hrecent m ho)⟩
  cases t with
  | checking c =>
    exact ⟨subset_nil.mp (h.1 ▸ hordered c.master),
      fun addr hmem => h.2 addr (hrecent c.master h.1 hmem)⟩
  | voting c second | asking c second p => exact fun hsecond => hclear _ (h hsecond)
  | leading => exact hclear _ h
  | chosen => exact hclear _ h
  | promoting master => exact fun addr hmem => h addr (hall master hmem)
  | idle => trivial
  | started => trivial
  | demoting => trivial

/-- Only the master that a task has open matters for it. -/
theorem Sees.congr (hordered : ∀ m, t.opens = some m → ordered' m = ordered m)
    (h : Sees ordered recent t) : Sees ordered' recent t := by
  cases t with
  | checking c =>
    rw [Sees, hordered c.master rfl]
    exact h
  | voting c second | asking c second p =>
    rintro rfl
    rw [hordered c.master rfl]
    exact h rfl
  | leading c =>
    rw [Sees, hordered c.master rfl]
    exact h
  | chosen master target | promoting master target old =>
    rw [Sees, hordered master rfl]
    exact h
  | idle => trivial
  | started => trivial
  | demoting => trivial

end

section

variable (h : Single timeout s)
include h

theorem Single.of_subset (htask : s'.task = s.task) (hordered : ∀ m, s'.ordered m ⊆ s.ordered m)
    (hrecent : ∀ m, s.ordered m = [] → s'.recent timeout m ⊆ s.recent timeout m)
    (hall : ∀ m, s'.ordered m ++ s'.recent timeout m ⊆ s.ordered m ++ s.recent timeout m) :
    Single timeout s' where
  agree m := by
    obtain ⟨t, ht⟩ := h.agree m
    exact ⟨t, fun addr hmem => ht addr (hall m hmem)⟩
  sees x := by
    rw [htask]
    exact (h.sees x).of_subset hordered hrecent hall
  alone := htask ▸ h.alone

/-- Fewer commands on their way, and fewer promotions within the timeout. -/
theorem Single.shrink (htask : s'.task = s.task) (hordered : ∀ m, s'.ordered m ⊆ s.ordered m)
    (hrecent : ∀ m, s'.recent timeout m ⊆ s.recent timeout m) : Single timeout s' :=
  h.of_subset htask hordered (fun m _ => hrecent m) fun m =>
    append_subset.mpr ⟨List.Subset.trans (hordered m) (subset_append_left ..),
      List.Subset.trans (hrecent m) (subset_append_right ..)⟩

theorem Single.lose {c : Command} : Single timeout (s.lose c) := by
  refine h.shrink rfl (fun m addr hmem => ?_) fun m => List.Subset.refl _
  obtain ⟨d, hd, hrest⟩ := mem_ordered.mp hmem
  exact mem_ordered.mpr ⟨d, mem_of_mem_erase hd, hrest⟩

theorem Single.tick {d : Nat} : Single timeout { s with now := s.now + d } := by
  refine h.shrink rfl (fun m => List.Subset.refl _) fun m addr hmem => ?_
  obtain ⟨a, ha, ⟨hm, hlt⟩, haddr⟩ := mem_recent.mp hmem
  exact mem_recent.mpr ⟨a, ha, ⟨hm, by dsimp only at hlt; omega⟩, haddr⟩

/-- A replica becomes a master on a command that was on its way. -/
theorem Single.accept {c : Command} : Single timeout (s.accept c) := by
  rw [Net.accept]
  split
  · next hmem =>
    have hordered : ∀ m addr, addr ∈ (s.accept c).ordered m → addr ∈ s.ordered m := by
      intro m addr haddr
      rw [Net.accept, if_pos hmem] at haddr
      obtain ⟨d, hd, hrest⟩ := mem_ordered.mp haddr
      exact mem_ordered.mpr ⟨d, mem_of_mem_erase hd, hrest⟩
    -- A replica that counts as promoted now did so before, or the command was for it.
    have hrecent : ∀ m addr, addr ∈ (s.accept c).recent timeout m →
        addr ∈ s.recent timeout m ∨ addr ∈ s.ordered m := by
      intro m addr haddr
      rw [Net.accept, if_pos hmem] at haddr
      obtain ⟨a, ha, ⟨hm, hlt⟩, rfl⟩ := mem_recent.mp haddr
      split at ha
      · next hpromote =>
        rcases mem_cons.mp ha with rfl | hold
        · exact .inr (mem_ordered.mpr ⟨c, hmem, ⟨hm, hpromote⟩, rfl⟩)
        · exact .inl (mem_recent.mpr ⟨a, hold, ⟨hm, hlt⟩, rfl⟩)
      · exact .inl (mem_recent.mpr ⟨a, ha, ⟨hm, hlt⟩, rfl⟩)
    rw [Net.accept, if_pos hmem] at hordered hrecent
    refine h.of_subset rfl hordered (fun m hnil addr haddr => ?_) fun m addr haddr => ?_
    · refine (hrecent m addr haddr).resolve_right ?_
      rw [hnil]
      exact not_mem_nil
    · rcases mem_append.mp haddr with ho | hr
      · exact mem_append_left _ (hordered m addr ho)
      · rcases hrecent m addr hr with hr | ho
        · exact mem_append_right _ hr
        · exact mem_append_left _ ho
  · exact h

/-- The sentinel that has a master open sends a command to the replica it promotes. -/
theorem Single.order {master target old : Bytes} (hopens : (s.task x).opens = some master)
    (hsame : ∀ addr ∈ s.ordered master ++ s.recent timeout master, addr = target) :
    Single timeout { s.setTask x (.promoting master target old) with
      commands := ⟨master, target, true⟩ :: s.commands } := by
  have htask : ∀ y, (s.setTask x (.promoting master target old)).task y =
      if y = x then .promoting master target old else s.task y := fun y => task_setNode ..
  generalize hs' : { s.setTask x (.promoting master target old) with
      commands := ⟨master, target, true⟩ :: s.commands } = s'
  have htask' : ∀ y, s'.task y = if y = x then .promoting master target old else s.task y :=
    hs' ▸ htask
  have hrecent : s'.recent timeout = s.recent timeout := hs' ▸ rfl
  have hordered : ∀ m, s'.ordered m = if m = master then target :: s.ordered m else s.ordered m := by
    intro m
    rw [← hs']
    by_cases hm : m = master
    · subst hm
      simp [ordered]
    · simp [ordered, hm, Ne.symm hm]
  have hall : ∀ addr ∈ s'.ordered master ++ s'.recent timeout master, addr = target := by
    intro addr hmem
    rw [hordered, if_pos rfl, hrecent] at hmem
    rcases mem_cons.mp hmem with rfl | hold
    · rfl
    · exact hsame addr hold
  refine ⟨fun m => ?_, fun y => ?_, fun y z m hy hz => ?_⟩
  · by_cases hm : m = master
    · subst hm
      exact ⟨target, hall⟩
    · rw [hordered, if_neg hm, hrecent]
      exact h.agree m
  · rw [htask']
    split
    · exact hall
    · next hy =>
      rw [hrecent]
      refine (h.sees y).congr fun m hm => ?_
      rw [hordered, if_neg]
      rintro rfl
      exact hy (h.alone y x m hm hopens)
  · have hold : ∀ w, (s'.task w).opens = some m → (s.task w).opens = some m := by
      intro w hw
      rw [htask'] at hw
      split at hw
      · next heq =>
        cases hw
        exact heq ▸ hopens
      · exact hw
    exact h.alone y z m (hold y hy) (hold z hz)

theorem Single.confirm : Single timeout (s.confirm x reachable) := by
  rw [Net.confirm]
  split
  · next master target htask =>
    split
    · exact h.close trivial rfl
    · have hsees := h.sees x
      rw [task, htask] at hsees
      refine h.order (by rw [task, htask]; rfl) fun addr hmem => ?_
      rw [hsees.1, hsees.2] at hmem
      exact absurd hmem not_mem_nil
  · exact h

theorem Single.retry : Single timeout (s.retry x) := by
  rw [Net.retry]
  split
  · next master target old htask =>
    have hsees := h.sees x
    rw [task, htask] at hsees
    have hsame : s.setTask x (.promoting master target old) = s := by
      rw [← htask, Net.setTask, Net.setNode, Function.update_eq_self]
    have horder : Single timeout { s.setTask x (.promoting master target old) with
        commands := ⟨master, target, true⟩ :: s.commands } :=
      h.order (by rw [task, htask]; rfl) hsees
    rw [hsame] at horder
    exact horder
  · exact h

theorem Single.finish {ok : Bool} : Single timeout (s.finish x ok) := by
  rw [Net.finish]
  split
  · dsimp only
    split
    · exact h.idle
    · split
      · exact h
      · split
        · exact h.close trivial rfl
        · next master target old _ _ _ _ =>
          have hclosed : Single timeout (s.setTask x (.demoting master target)) :=
            h.close trivial rfl
          -- The command to the old master promotes nobody.
          refine hclosed.shrink rfl (fun m addr hmem => ?_) fun m => List.Subset.refl _
          obtain ⟨d, hd, ⟨hm, hpromote⟩, haddr⟩ := mem_ordered.mp hmem
          rcases mem_cons.mp hd with rfl | hold
          · cases hpromote
          · exact mem_ordered.mpr ⟨d, hold, ⟨hm, hpromote⟩, haddr⟩
  · exact h

theorem Single.settle : Single timeout (s.settle x) := by
  rw [Net.settle]
  split
  · exact h.close trivial rfl
  · exact h

theorem Single.step {a : Action n} (hcond : Exclusive timeout s a) :
    Single timeout (step runID timeout s a) := by
  cases a with
  | record => exact h.setReg
  | adopt => exact h.setReg
  | begin => exact h.begin
  | readEpoch => exact h.readEpoch
  | selfVote => exact h.selfVote
  | resolve => exact h.resolve
  | vote => exact h.vote
  | report => exact h.report
  | receive => exact h.receive
  | fail => exact h.fail
  | tally => exact h.tally hcond
  | readRole => exact h.readRole hcond
  | select => exact h.select
  | confirm => exact h.confirm
  | retry => exact h.retry
  | finish => exact h.finish
  | settle => exact h.settle
  | accept => exact h.accept
  | lose => exact h.lose
  | tick => exact h.tick

end

/-- In every run in which a sentinel that looks for promoted replicas is alone in doing so and sees
those promoted within the timeout, two different replicas are never promoted within the timeout. -/
theorem one_promotion_per_timeout (runID : Fin n → Bytes) (timeout : Nat)
    (regs : Fin n → Registry) (isMaster : Bytes → Bool) (actions : List (Action n))
    (h : Along (step runID timeout) (Exclusive timeout) (start regs isMaster) actions) (m : Bytes) :
    ¬ (run (step runID timeout) (start regs isMaster) actions).Split timeout m := by
  have hsingle : Single timeout (run (step runID timeout) (start regs isMaster) actions) :=
    run_induction (fun s a hs ha => hs.step ha) single_start h
  exact hsingle.not_split

/-- A master with two replicas. -/
def oneMaster : List NodeSpec :=
  [⟨ascii ['a'], ascii ['h', ':', '1'], [ascii ['h', ':', '3'], ascii ['h', ':', '4']], 1⟩]

/-- Two rounds of a sentinel for an epoch. In the second round the peers of the list vote. -/
def elect (x : Fin 3) (epoch : UInt64) (voters others : List (Fin 3)) : List (Action 3) :=
  let master := ascii ['a']
  let query := fun y => (⟨x, y, 1, master, ascii ['h'], 1, epoch⟩ : Query 3)
  [.record x (ascii ['h', ':', '1']) false, .begin x master, .readEpoch x, .selfVote x] ++
    (voters ++ others).map (.fail x) ++
    [.tally x, .readRole x true, .readRole x true, .readRole x true, .selfVote x] ++
    voters.flatMap (fun y => [.resolve (query y) master, .vote (query y) master false,
      .receive (query y) false (threeIds x) epoch]) ++
    others.map (.fail x) ++ [.tally x]

/-- The leader promotes the replica that it takes for the most advanced one. -/
def promote (x : Fin 3) (addr : Bytes) : List (Action 3) :=
  [.select x [⟨addr, 100, 7, [], []⟩], .confirm x true, .accept ⟨ascii ['a'], addr, true⟩]

/-- One leader promotes a replica, while no other sentinel looks for promoted replicas. -/
theorem one_promotion_by_leader :
    ascii ['h', ':', '3'] ∈ (run (step threeIds 30000)
      (start (fun _ => newRegistry oneMaster) fun _ => false)
      (elect 0 1 [1, 2] [] ++ promote 0 (ascii ['h', ':', '3']))).recent 30000 (ascii ['a']) ∧
    ¬ (run (step threeIds 30000) (start (fun _ => newRegistry oneMaster) fun _ => false)
      (elect 0 1 [1, 2] [] ++ promote 0 (ascii ['h', ':', '3']))).Split 30000 (ascii ['a']) :=
  ⟨by decide +kernel, one_promotion_per_timeout threeIds 30000 _ _ _ (by decide +kernel) _⟩

/-- The leader of the second epoch looks for promoted replicas before the leader of the first one
has promoted any, and promotes another one. -/
theorem two_promotions_by_leaders :
    (run (step threeIds 30000) (start (fun _ => newRegistry oneMaster) fun _ => false)
      (elect 0 1 [1, 2] [] ++ elect 1 2 [2] [0] ++ promote 0 (ascii ['h', ':', '3']) ++
        promote 1 (ascii ['h', ':', '4']))).Split 30000 (ascii ['a']) := by
  refine ⟨ascii ['h', ':', '3'], ?_, ascii ['h', ':', '4'], ?_, ?_⟩
  · decide +kernel
  · decide +kernel
  · decide

end Gedis.Sentinel
