import Gedis.Sentinel.Registry

/-!
# The replica that is selected

Records of replicas with different addresses are strictly ordered. The first eligible one of the
sorted candidates is therefore better than all the others, whatever the order in which they are
configured.
-/

namespace Gedis.Sentinel

open Gedis.Core List

/-- Priority ascending, offset descending, run ID ascending, address ascending. -/
def slaveCmp : SlaveInfo → SlaveInfo → Ordering :=
  compareLex (compareOn (·.priority)) <| compareLex (fun a b => compare b.offset a.offset) <|
    compareLex (compareOn (·.runID)) (compareOn (·.addr))

instance : Std.TransCmp slaveCmp :=
  haveI : Std.TransCmp fun a b : SlaveInfo => compare b.offset a.offset :=
    inferInstanceAs (Std.TransCmp fun a b : SlaveInfo => compareOn SlaveInfo.offset b a)
  inferInstanceAs (Std.TransCmp (compareLex _ (compareLex _ (compareLex _ _))))

variable {r : Registry} {name addr : Bytes} {infos : List SlaveInfo} {a b : SlaveInfo}

theorem slaveBefore_iff : slaveBefore a b = true ↔ slaveCmp a b = .lt := by
  simp only [slaveBefore, slaveCmp, compareLex, compareOn, Ordering.then_eq_lt, Std.compare_eq_lt,
    Std.compare_eq_iff_eq, @eq_comm _ b.offset]
  split_ifs <;> simp_all

theorem slaveCmp_of_not (hne : a.addr ≠ b.addr) (h : slaveCmp b a ≠ .lt) : slaveCmp a b = .lt := by
  have hswap : slaveCmp a b = (slaveCmp b a).swap := Std.OrientedCmp.eq_swap
  rw [hswap]
  cases he : slaveCmp b a with
  | lt => exact absurd he h
  | gt => rfl
  | eq =>
    simp only [slaveCmp, compareLex, compareOn, Ordering.then_eq_eq, Std.compare_eq_iff_eq] at he
    exact absurd he.2.2.2.symm hne

instance : Std.Total fun a b : SlaveInfo => slaveBefore b a = false where
  total a b := by
    simp only [← Bool.not_eq_true, slaveBefore_iff, ← not_and_or]
    exact fun h => Std.OrientedCmp.not_lt_of_lt h.1 h.2

instance : IsTrans SlaveInfo fun a b => slaveBefore b a = false where
  trans a b c hab hbc := by
    simp only [← Bool.not_eq_true, slaveBefore_iff, ← Ordering.isGE_iff_ne_lt] at *
    exact Std.TransCmp.isGE_trans hbc hab

/-- The last record of an address, or the defaults. -/
def infoOf (infos : List SlaveInfo) (addr : Bytes) : SlaveInfo :=
  (infos.reverse.find? (·.addr = addr)).getD (unknownSlave addr)

theorem addr_infoOf : (infoOf infos addr).addr = addr := by
  rw [infoOf]
  cases h : infos.reverse.find? (·.addr = addr) with
  | none => rfl
  | some => simpa using find?_some h

/-- A configured replica that is not down and whose state is online or unknown. -/
def Registry.Eligible (r : Registry) (name : Bytes) (infos : List SlaveInfo) (addr : Bytes) : Prop :=
  addr ∈ r.slaves name ∧ r.isDown addr = false ∧
    ((infoOf infos addr).state = [] ∨ (infoOf infos addr).state = ascii "online".toList)

namespace Registry

/-- The test of the loop over the sorted candidates. -/
def accepts (r : Registry) (c : SlaveInfo) : Bool :=
  !r.isDown c.addr && (c.state = [] ∨ c.state = ascii "online".toList)

/-- The candidates that pass the test are the records of the eligible replicas. -/
theorem candidate_iff :
    (a ∈ sortSlaves ((r.slaves name).map (infoOf infos)) ∧ r.accepts a = true) ↔
      a = infoOf infos a.addr ∧ r.Eligible name infos a.addr := by
  rw [sortSlaves, (perm_insertionSort _ _).mem_iff, mem_map, accepts, Bool.and_eq_true,
    Bool.not_eq_true', decide_eq_true_eq]
  constructor
  · rintro ⟨⟨addr, hmem, rfl⟩, htest⟩
    rw [addr_infoOf] at htest ⊢
    exact ⟨rfl, hmem, htest⟩
  · rintro ⟨ha, hmem, hdown, hstate⟩
    exact ⟨⟨_, hmem, ha.symm⟩, hdown, by rwa [← ha] at hstate⟩

theorem candidate_of_eligible (h : r.Eligible name infos addr) :
    infoOf infos addr ∈ sortSlaves ((r.slaves name).map (infoOf infos)) ∧
      r.accepts (infoOf infos addr) = true :=
  candidate_iff.mpr (by rw [addr_infoOf]; exact ⟨rfl, h⟩)

theorem selectSlave_eq : r.selectSlave name infos =
    ((sortSlaves ((r.slaves name).map (infoOf infos))).find? r.accepts).map (·.addr) := rfl

theorem selectSlave_eq_none_iff :
    r.selectSlave name infos = none ↔ ∀ addr, ¬ r.Eligible name infos addr := by
  rw [selectSlave_eq, Option.map_eq_none_iff, find?_eq_none]
  constructor
  · intro h addr hel
    obtain ⟨hmem, htest⟩ := candidate_of_eligible hel
    exact h _ hmem htest
  · exact fun h c hc htest => h _ (candidate_iff.mp ⟨hc, htest⟩).2

/-- A replica that is selected is eligible and better than every other eligible one. -/
theorem best_of_selectSlave (h : r.selectSlave name infos = some addr) :
    r.Eligible name infos addr ∧ ∀ other, r.Eligible name infos other → other ≠ addr →
      slaveCmp (infoOf infos addr) (infoOf infos other) = .lt := by
  obtain ⟨c, hfind, rfl⟩ := Option.map_eq_some_iff.mp (selectSlave_eq ▸ h)
  obtain ⟨hinfo, hel⟩ := candidate_iff.mp ⟨mem_of_find?_eq_some hfind, find?_some hfind⟩
  refine ⟨hel, fun other ho hne => ?_⟩
  obtain ⟨-, before, after, hsorted, hbefore⟩ := find?_eq_some_iff_append.mp hfind
  have hpairs : (before ++ c :: after).Pairwise fun a b => slaveBefore b a = false :=
    hsorted ▸ pairwise_insertionSort _ _
  obtain ⟨hmem, htest⟩ := candidate_of_eligible ho
  rw [← hinfo]
  refine slaveCmp_of_not (by rwa [addr_infoOf, ne_comm]) fun hlt => ?_
  -- the other one passes the test too, so it stands after the one that was found
  rcases mem_append.mp (hsorted ▸ hmem) with hin | hin
  · simpa [htest] using hbefore _ hin
  · rcases mem_cons.mp hin with heq | hin
    · exact hne (by rw [← heq, addr_infoOf])
    · have := rel_of_pairwise_cons (pairwise_append.mp hpairs).2.1 hin
      simp [slaveBefore_iff.mpr hlt] at this

/-- For every registry, name, list of records and set of down addresses: what is selected is the best
eligible replica, nothing is selected if and only if the name is unknown or no replica is eligible,
and the order in which the replicas are configured does not matter. -/
theorem selectSlave_optimal (r : Registry) (name : Bytes) (infos : List SlaveInfo) :
    (∀ addr, r.selectSlave name infos = some addr → r.Eligible name infos addr ∧
      ∀ other, r.Eligible name infos other → other ≠ addr →
        slaveCmp (infoOf infos addr) (infoOf infos other) = .lt) ∧
    (r.selectSlave name infos = none ↔ name ∉ r.names ∨ ∀ addr, ¬ r.Eligible name infos addr) ∧
    ∀ r' : Registry, (r'.slaves name).Perm (r.slaves name) → r'.isDown = r.isDown →
      r'.selectSlave name infos = r.selectSlave name infos := by
  refine ⟨fun addr => best_of_selectSlave, ?_, fun r' hslaves hdown => ?_⟩
  · rw [selectSlave_eq_none_iff, or_iff_right_of_imp]
    exact fun hname addr h => by simp [Eligible, slaves, hname] at h
  · have helig : ∀ addr, r'.Eligible name infos addr ↔ r.Eligible name infos addr := fun addr => by
      rw [Eligible, hslaves.mem_iff, hdown, Eligible]
    cases h : r.selectSlave name infos with
    | none => simpa only [selectSlave_eq_none_iff, helig] using h
    | some addr =>
      obtain ⟨hel, hbest⟩ := best_of_selectSlave h
      cases h' : r'.selectSlave name infos with
      | none => exact absurd ((helig addr).mpr hel) (selectSlave_eq_none_iff.mp h' addr)
      | some addr' =>
        obtain ⟨hel', hbest'⟩ := best_of_selectSlave h'
        by_contra hne
        have hne : addr' ≠ addr := fun he => hne (congrArg some he)
        exact Std.OrientedCmp.not_lt_of_lt (hbest addr' ((helig _).mp hel') hne)
          (hbest' addr ((helig _).mpr hel) hne.symm)

end Registry

end Gedis.Sentinel
