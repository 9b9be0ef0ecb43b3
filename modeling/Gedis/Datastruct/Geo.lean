import Gedis.Core.BitMaps

/-!
# The bits of a geohash

Latitude and longitude are interleaved bit by bit in rounds of shifts and masks. Each round respects
the disjunction of words, so the rounds do to a word what they do to its single bits.
-/

namespace Gedis.Datastruct

open Gedis.Core

variable {x y : BitVec 32} {v : BitVec 64} {j n : Nat}

def interleaveMasks : List (BitVec 64) :=
  [0x5555555555555555, 0x3333333333333333, 0x0F0F0F0F0F0F0F0F, 0x00FF00FF00FF00FF,
    0x0000FFFF0000FFFF]

def interleaveShifts : List Nat := [1, 2, 4, 8, 16]

/-- The rounds of the first loop, from the last entry of the tables to the first. -/
def spread (x : BitVec 64) : BitVec 64 :=
  (interleaveShifts.zip interleaveMasks).reverse.foldl (fun x r => (x ||| x <<< r.1) &&& r.2) x

def interleave64 (xlo ylo : BitVec 32) : BitVec 64 :=
  spread (xlo.setWidth 64) ||| spread (ylo.setWidth 64) <<< 1

def deinterleaveMasks : List (BitVec 64) := interleaveMasks ++ [0x00000000FFFFFFFF]

def deinterleaveShifts : List Nat := 0 :: interleaveShifts

/-- The rounds of the second loop. -/
def gather (x : BitVec 64) : BitVec 64 :=
  (deinterleaveShifts.zip deinterleaveMasks).foldl (fun x r => (x ||| x >>> r.1) &&& r.2) x

def deinterleave64 (v : BitVec 64) : BitVec 64 := gather v ||| gather (v >>> 1) <<< 32

/-- The value of a natural number as a double, which has 53 significant digits: the nearest one, and
of two the even one. -/
def float64 (n : Nat) : Nat :=
  let unit := 2 ^ (n.log2 - 52)
  let up := unit < 2 * (n % unit) ∨ unit = 2 * (n % unit) ∧ n / unit % 2 = 1
  (n / unit + if up then 1 else 0) * unit

theorem getLsbD_spread (hj : j < 64) : (spread (x.setWidth 64)).getLsbD j =
    (decide (j % 2 = 0) && x.getLsbD (j / 2)) := by
  have hjoins : Joins fun x : BitVec 32 => spread (x.setWidth 64) :=
    .comp (.foldl (fun r => ⟨by simp, fun x y => by ext; simp; grind⟩) _)
      ⟨by simp, fun _ _ => BitVec.setWidth_or⟩
  have hbit : ∀ i < 32, ∀ j < 64,
      (spread ((BitVec.twoPow 32 i).setWidth 64)).getLsbD j = decide (j = 2 * i) := by
    decide +kernel
  rw [Bool.eq_iff_iff, hjoins.getLsbD_iff, Bool.and_eq_true, decide_eq_true_eq]
  constructor
  · rintro ⟨i, hi, hx, hij⟩
    rw [hbit i hi j hj, decide_eq_true_eq] at hij
    subst hij
    grind
  · rintro ⟨heven, hx⟩
    exact ⟨j / 2, by omega, hx, by rw [hbit _ (by omega) j hj]; grind⟩

theorem getLsbD_gather (hj : j < 64) :
    (gather v).getLsbD j = (decide (j < 32) && v.getLsbD (2 * j)) := by
  have hjoins : Joins gather := .foldl (fun r => ⟨by simp, fun x y => by ext; simp; grind⟩) _
  have hbit : ∀ i < 64, ∀ j < 64, (gather (.twoPow 64 i)).getLsbD j = decide (i = 2 * j) := by
    decide +kernel
  rw [Bool.eq_iff_iff, hjoins.getLsbD_iff, Bool.and_eq_true, decide_eq_true_eq]
  constructor
  · rintro ⟨i, hi, hv, hij⟩
    rw [hbit i hi j hj, decide_eq_true_eq] at hij
    subst hij
    grind
  · rintro ⟨hlow, hv⟩
    exact ⟨2 * j, by omega, hv, by rw [hbit _ (by omega) j hj]; grind⟩

theorem getLsbD_interleave64 (hj : j < 64) : (interleave64 x y).getLsbD j =
    if j % 2 = 0 then x.getLsbD (j / 2) else y.getLsbD (j / 2) := by
  rw [interleave64, BitVec.getLsbD_or, BitVec.getLsbD_shiftLeft, getLsbD_spread hj,
    getLsbD_spread (by omega)]
  grind

theorem getLsbD_deinterleave64 (hj : j < 64) : (deinterleave64 v).getLsbD j =
    if j < 32 then v.getLsbD (2 * j) else v.getLsbD (2 * (j - 32) + 1) := by
  rw [deinterleave64, BitVec.getLsbD_or, BitVec.getLsbD_shiftLeft, getLsbD_gather hj,
    getLsbD_gather (by omega), BitVec.getLsbD_ushiftRight]
  grind

theorem float64_of_lt (h : n < 2 ^ 53) : float64 n = n := by
  rcases eq_or_ne n 0 with rfl | h0
  · rfl
  · have hlog : n.log2 - 52 = 0 := by
      have := (Nat.log2_lt h0).mpr h
      omega
    simp [float64, hlog, Nat.mod_one]

/-- Interleaving puts the bits of the first word in the even places and those of the second in the
odd ones, both functions invert each other, and words of 26 bits give a score that a double holds
exactly. -/
theorem interleave64_exact :
    (∀ x y i, i < 32 → (interleave64 x y).getLsbD (2 * i) = x.getLsbD i ∧
      (interleave64 x y).getLsbD (2 * i + 1) = y.getLsbD i) ∧
    (∀ x y, (deinterleave64 (interleave64 x y)).toNat = x.toNat + 2 ^ 32 * y.toNat) ∧
    (∀ v, interleave64 ((deinterleave64 v).setWidth 32) ((deinterleave64 v >>> 32).setWidth 32) = v) ∧
    ∀ x y, x.toNat < 2 ^ 26 → y.toNat < 2 ^ 26 → (interleave64 x y).toNat < 2 ^ 52 ∧
      float64 (interleave64 x y).toNat = (interleave64 x y).toNat := by
  refine ⟨fun x y i hi => ?_, fun x y => ?_, fun v => BitVec.eq_of_getLsbD_eq fun j hj => ?_,
    fun x y hx hy => ?_⟩
  · rw [getLsbD_interleave64 (by omega), getLsbD_interleave64 (by omega)]
    grind
  · have happ : deinterleave64 (interleave64 x y) = y ++ x := BitVec.eq_of_getLsbD_eq fun j hj => by
      rw [getLsbD_deinterleave64 hj, BitVec.getLsbD_append]
      grind [getLsbD_interleave64]
    rw [happ, BitVec.toNat_append, ← Nat.shiftLeft_add_eq_or_of_lt x.isLt, Nat.shiftLeft_eq,
      add_comm, mul_comm]
  · rw [getLsbD_interleave64 hj, BitVec.getLsbD_setWidth, BitVec.getLsbD_setWidth,
      BitVec.getLsbD_ushiftRight, getLsbD_deinterleave64 (by omega), getLsbD_deinterleave64 (by omega)]
    have hlow : j / 2 < 32 := by omega
    grind
  · have hlt : (interleave64 x y).toNat < 2 ^ 52 := Nat.lt_pow_two_of_testBit _ fun j hj => by
      have hhigh : ∀ w : BitVec 32, w.toNat < 2 ^ 26 → w.getLsbD (j / 2) = false := fun w hw =>
        Nat.testBit_lt_two_pow (hw.trans_le (Nat.pow_le_pow_right Nat.two_pos (by omega)))
      rw [BitVec.testBit_toNat]
      by_cases h64 : j < 64
      · rw [getLsbD_interleave64 h64, hhigh x hx, hhigh y hy, ite_self]
      · exact BitVec.getLsbD_of_ge _ _ (by omega)
    exact ⟨hlt, float64_of_lt (hlt.trans (by decide))⟩

end Gedis.Datastruct
