import Gedis.Commands.ZRanges
import Gedis.Datastruct.Payloads

/-!
# The order of a sorted set

Sorting the enumeration of a sorted set gives the one list of its members that increases by score
and then by name, whatever the enumeration was. Scores that are not numbers are excluded.
-/

namespace Gedis.Commands.ZRanges

open Gedis.Core Datastruct List

/-- Members by score and then by name. -/
def memberCmp : Member → Member → Ordering :=
  compareLex (compareOn fun p => floatRank p.2) (compareOn Prod.fst)

instance : Std.TransCmp memberCmp :=
  inferInstanceAs (Std.TransCmp (compareLex (compareOn _) (compareOn _)))

/-- Every score is a number. -/
def Numeric (members : List Member) : Prop := ∀ p ∈ members, isNaN p.2 = false

/-- The members of a sorted set, sorted from the order in which the map is enumerated. -/
def sortedZSet (order : List Nat) (z : Scores) : List Member := sortZSetPairs (arrange order z.toList)

theorem pairLess_iff {p q : Member} (hp : isNaN p.2 = false) (hq : isNaN q.2 = false) :
    pairLess p q = true ↔ memberCmp p q = .lt := by
  unfold pairLess floatLt floatEq memberCmp compareLex compareOn
  rcases lt_trichotomy (floatRank p.2) (floatRank q.2) with h | h | h
  · simp [hp, hq, h, compare_lt_iff_lt.mpr h]
  · simp [hp, hq, h]
  · simp [hp, hq, h.not_gt, h.ne', compare_gt_iff_gt.mpr h]

/-- Members with different names are in order one way or the other. -/
theorem memberCmp_gt {p q : Member} (hne : p.1 ≠ q.1) (h : memberCmp p q ≠ .lt) :
    memberCmp q p = .lt := by
  have hswap : memberCmp q p = (memberCmp p q).swap := Std.OrientedCmp.eq_swap
  rw [hswap]
  cases he : memberCmp p q with
  | lt => exact absurd he h
  | gt => rfl
  | eq =>
    have hname : compare p.1 q.1 = .eq := by
      have := (Ordering.then_eq_eq ..).mp he
      exact this.2
    exact absurd (Std.LawfulEqOrd.eq_of_compare hname) hne

private theorem pairwise_siftPair {p : Member} {sorted : List Member} (hp : isNaN p.2 = false)
    (hnum : Numeric sorted) (hnew : ∀ q ∈ sorted, p.1 ≠ q.1)
    (h : sorted.Pairwise fun q r => memberCmp r q = .lt) :
    (siftPair p sorted).Pairwise fun q r => memberCmp r q = .lt := by
  induction sorted with
  | nil => exact pairwise_singleton ..
  | cons q qs ih =>
    obtain ⟨hq, hqs⟩ := pairwise_cons.mp h
    obtain ⟨hnq, hnum⟩ := forall_mem_cons.mp hnum
    obtain ⟨hne, hnew⟩ := forall_mem_cons.mp hnew
    rw [siftPair]
    split
    · next hless =>
      refine pairwise_cons.mpr ⟨fun r hr => ?_, ih hnum hnew hqs⟩
      rcases mem_cons.mp (siftPair_perm.mem_iff.mp hr) with rfl | hr
      · exact (pairLess_iff hp hnq).mp hless
      · exact hq r hr
    · next hless =>
      have hlt := memberCmp_gt hne (mt (pairLess_iff hp hnq).mpr hless)
      refine pairwise_cons.mpr ⟨fun r hr => ?_, h⟩
      rcases mem_cons.mp hr with rfl | hr
      · exact hlt
      · exact Std.TransCmp.lt_trans (hq r hr) hlt

theorem sortedZSet_perm (order : List Nat) (z : Scores) : (sortedZSet order z).Perm z.toList :=
  sortZSetPairs_perm.trans (arrange_perm order _)

/-- The members increase strictly. -/
theorem pairwise_sortedZSet {order : List Nat} {z : Scores} (hnum : Numeric z.toList) :
    (sortedZSet order z).Pairwise fun p q => memberCmp p q = .lt := by
  have hperm := arrange_perm order z.toList
  have hdistinct : (arrange order z.toList).Pairwise fun p q => q.1 ≠ p.1 := by
    refine hperm.symm.pairwise ?_ fun h => h.symm
    exact (Std.ExtTreeMap.distinct_keys_toList).imp fun h he => h (by simp [he])
  have hfold : ∀ xs acc : List Member, Numeric (xs ++ acc) →
      xs.Pairwise (fun p q => q.1 ≠ p.1) → (∀ p ∈ xs, ∀ q ∈ acc, p.1 ≠ q.1) →
      acc.Pairwise (fun q r => memberCmp r q = .lt) →
      (xs.foldl (fun sorted p => siftPair p sorted) acc).Pairwise
        fun q r => memberCmp r q = .lt := by
    intro xs
    induction xs with
    | nil => exact fun _ _ _ _ h => h
    | cons p xs ih =>
      intro acc hn hd hacc h
      obtain ⟨hp, hd⟩ := pairwise_cons.mp hd
      obtain ⟨hpacc, hacc⟩ := forall_mem_cons.mp hacc
      have hsub : ∀ q, q ∈ siftPair p acc ↔ q = p ∨ q ∈ acc := fun q => by
        rw [siftPair_perm.mem_iff, mem_cons]
      refine ih _ ?_ hd ?_ (pairwise_siftPair (hn p (by simp)) (fun q hq => hn q (by simp [hq]))
        hpacc h)
      · intro q hq
        apply hn
        rw [mem_append, hsub] at hq
        rw [cons_append, mem_cons, mem_append]
        tauto
      · intro q hq r hr
        rcases (hsub r).mp hr with rfl | hr
        · exact hp q hq
        · exact hacc q hq r hr
  rw [sortedZSet, sortZSetPairs, pairwise_reverse]
  refine hfold _ [] ?_ hdistinct (fun _ _ _ h => by cases h) List.Pairwise.nil
  intro p hp
  rw [append_nil, hperm.mem_iff] at hp
  exact hnum p hp

end Gedis.Commands.ZRanges
