import Gedis.Core.Bytes
import Gedis.Core.OrdMap

/-!
# Ordered scans of byte-keyed maps

An ordered iterator that seeks to a byte string and runs while the keys start with it
visits exactly the keys that start with it: those keys are consecutive in the order.
-/

namespace Gedis.Core

open List

variable {p : Bytes} {ks : List Bytes}

/-- Seek to the first key not below `p`, then list keys while they start with `p`. -/
def scanKeys {β : Type} (m : OrdMap Bytes β) (p : Bytes) : List Bytes :=
  (m.keys.dropWhile fun k => compare k p == .lt).takeWhile fun k => p.isPrefixOf k

private theorem compare_ne_lt_of_isPrefixOf {k : Bytes} (h : p <+: k) : compare k p ≠ .lt := by
  obtain ⟨t, rfl⟩ := h
  induction p with
  | nil => cases t <;> simp
  | cons b p ih =>
    simpa [List.compare_eq_compareLex, List.compareLex_cons_cons] using ih

private theorem isPrefixOf_of_between {b c : Bytes} (hpb : compare b p ≠ .lt)
    (hbc : compare b c = .lt) (hpc : p <+: c) : p <+: b := by
  induction p generalizing b c with
  | nil => exact List.nil_prefix
  | cons x p ih =>
    obtain ⟨t, rfl⟩ := hpc
    cases b with
    | nil => simp at hpb
    | cons y =>
      simp only [List.cons_append, List.compare_eq_compareLex, List.compareLex_cons_cons, ne_eq,
        Ordering.then_eq_lt] at hpb hbc ih
      rcases hbc with hlt | ⟨heq, hlt⟩
      · exact absurd (.inl hlt) hpb
      · have hxy : y = x := Std.LawfulEqOrd.eq_of_compare heq
        subst hxy
        refine List.cons_prefix_cons.mpr ⟨rfl, ih ?_ hlt (List.prefix_append p t)⟩
        exact fun h => hpb (.inr ⟨heq, h⟩)

private theorem mem_takeWhile_of_sorted (hs : ks.Pairwise fun a b => compare a b = .lt)
    (hge : ∀ k ∈ ks, compare k p ≠ .lt) (k : Bytes) :
    k ∈ ks.takeWhile (fun k => p.isPrefixOf k) ↔ k ∈ ks ∧ p <+: k := by
  induction ks with
  | nil => simp
  | cons a ks ih =>
    obtain ⟨ha, hs⟩ := pairwise_cons.mp hs
    have ih := ih hs fun k hk => hge k (mem_cons_of_mem _ hk)
    by_cases hp : p <+: a
    · rw [takeWhile_cons_of_pos ( isPrefixOf_iff_prefix.mpr hp), mem_cons,
        mem_cons, ih]
      constructor
      · rintro (rfl | ⟨hk, hpk⟩)
        · exact ⟨.inl rfl, hp⟩
        · exact ⟨.inr hk, hpk⟩
      · rintro ⟨rfl | hk, hpk⟩
        · exact .inl rfl
        · exact .inr ⟨hk, hpk⟩
    · rw [takeWhile_cons_of_neg (by rwa [ isPrefixOf_iff_prefix])]
      refine iff_of_false not_mem_nil ?_
      rintro ⟨hk, hpk⟩
      rcases mem_cons.mp hk with rfl | hk
      · exact hp hpk
      · exact hp (isPrefixOf_of_between (hge a (mem_cons_self ..)) (ha k hk) hpk)

private theorem mem_scan_of_sorted (hs : ks.Pairwise fun a b => compare a b = .lt) (k : Bytes) :
    k ∈ (ks.dropWhile fun k => compare k p == .lt).takeWhile (fun k => p.isPrefixOf k) ↔
      k ∈ ks ∧ p <+: k := by
  induction ks with
  | nil => simp
  | cons a ks ih =>
    obtain ⟨ha, hs'⟩ := pairwise_cons.mp hs
    by_cases hlt : compare a p = .lt
    · rw [dropWhile_cons_of_pos (by simpa using hlt), ih hs', mem_cons]
      constructor
      · exact fun h => ⟨.inr h.1, h.2⟩
      · rintro ⟨rfl | hk, hp⟩
        · exact absurd hlt (compare_ne_lt_of_isPrefixOf hp)
        · exact ⟨hk, hp⟩
    · rw [dropWhile_cons_of_neg (by simpa using hlt)]
      refine mem_takeWhile_of_sorted hs ?_ k
      intro c hc hcp
      rcases mem_cons.mp hc with rfl | hc
      · exact hlt hcp
      · exact hlt (Std.TransCmp.lt_trans (ha c hc) hcp)

/-- A scan visits exactly the keys that start with the given string. -/
theorem mem_scanKeys {β : Type} {m : OrdMap Bytes β} {k : Bytes} :
    k ∈ scanKeys m p ↔ k ∈ m ∧ p <+: k := by
  rw [scanKeys, mem_scan_of_sorted Std.ExtTreeMap.ordered_keys, Std.ExtTreeMap.mem_keys]

private theorem scanKeys_ordered {β : Type} (m : OrdMap Bytes β) (p : Bytes) :
    (scanKeys m p).Pairwise fun a b => compare a b = .lt :=
  Std.ExtTreeMap.ordered_keys.sublist ((takeWhile_sublist _).trans (dropWhile_sublist _))

/-- A scan depends only on which keys with the given start are present. -/
theorem scanKeys_congr {β : Type} {m m' : OrdMap Bytes β} (h : ∀ k, p <+: k → (k ∈ m ↔ k ∈ m')) :
    scanKeys m p = scanKeys m' p := by
  have hnodup : ∀ m : OrdMap Bytes β, (scanKeys m p).Nodup := fun m =>
    (scanKeys_ordered m p).imp fun {a b} hlt heq => by
      rw [heq, Std.ReflOrd.compare_self] at hlt
      cases hlt
  refine List.Perm.eq_of_pairwise ?_ (scanKeys_ordered m p) (scanKeys_ordered m' p) ?_
  · intro a b _ _ hab hba
    rw [Std.OrientedOrd.eq_swap, hba] at hab
    cases hab
  · rw [perm_ext_iff_of_nodup (hnodup m) (hnodup m')]
    intro k
    rw [mem_scanKeys, mem_scanKeys]
    exact and_congr_left (h k)

end Gedis.Core
