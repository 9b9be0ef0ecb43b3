import Gedis.Core.Bytes

/-!
# Panics and letter case

Code that can panic returns an `Except Panic`. Texts are compared up to letter case in two ways:
by mapping to upper case, and by simple case folding. Both work on UTF-8 text, where a few letters
beyond ASCII have an ASCII counterpart. Every other letter beyond ASCII keeps its bytes, which is
exact as long as one side of a comparison is ASCII.
-/

namespace Gedis.Core

variable {b : UInt8} {s : Bytes}

/-- Run-time panics. -/
inductive Panic where
  | nilDereference
  | sliceBounds
  | makeSlice
  /-- A random number was to be drawn from an empty range. -/
  | emptyRange
  deriving DecidableEq, Repr

/-- The result of code that can panic. -/
abbrev Go (α : Type) := Except Panic α

/-- An ASCII letter in upper case, every other byte as it is. -/
def upperByte (b : UInt8) : UInt8 := if 97 ≤ b ∧ b ≤ 122 then b - 32 else b

/-- An ASCII letter in lower case, every other byte as it is. -/
def lowerByte (b : UInt8) : UInt8 := if 65 ≤ b ∧ b ≤ 90 then b + 32 else b

/-- Upper case. The long s and the dotless i have ASCII capitals. -/
def toUpper : Bytes → Bytes
  | [] => []
  | 0xC5 :: 0xBF :: bs => 83 :: toUpper bs
  | 0xC4 :: 0xB1 :: bs => 73 :: toUpper bs
  | b :: bs => upperByte b :: toUpper bs

/-- Lower case. The dotted capital I and the kelvin sign have ASCII small letters. -/
def toLower : Bytes → Bytes
  | [] => []
  | 0xC4 :: 0xB0 :: bs => 105 :: toLower bs
  | 0xE2 :: 0x84 :: 0xAA :: bs => 107 :: toLower bs
  | b :: bs => lowerByte b :: toLower bs

/-- The representative of a text under simple case folding. The long s folds with `S` and the
kelvin sign with `K`; the dotless i folds with itself only. -/
def foldCase : Bytes → Bytes
  | [] => []
  | 0xC5 :: 0xBF :: bs => 83 :: foldCase bs
  | 0xE2 :: 0x84 :: 0xAA :: bs => 75 :: foldCase bs
  | b :: bs => upperByte b :: foldCase bs

/-- Equality under simple case folding. -/
def equalFold (s t : Bytes) : Bool := foldCase s == foldCase t

/-- All bytes are below 128. -/
def Ascii (s : Bytes) : Prop := ∀ b ∈ s, b < 128

@[simp] theorem ascii_cons : Ascii (b :: s) ↔ b < 128 ∧ Ascii s := by
  simp [Ascii]

theorem upperByte_lt : upperByte b < 128 ↔ b < 128 := by
  simp only [upperByte]
  split
  case isTrue h =>
    have hle : (32 : UInt8) ≤ b := UInt8.le_trans (by decide) h.1
    have hsub := UInt8.toNat_sub_of_le b 32 hle
    have htop := UInt8.le_iff_toNat_le.mp h.2
    rw [UInt8.lt_iff_toNat_lt, UInt8.lt_iff_toNat_lt]
    simp only [UInt8.reduceToNat] at htop ⊢
    omega
  case isFalse => rfl

theorem toUpper_cons (h : b < 128) : toUpper (b :: s) = upperByte b :: toUpper s := by
  rw [toUpper]
  · rintro _ rfl; simp at h
  · rintro _ rfl; simp at h

theorem foldCase_cons (h : b < 128) : foldCase (b :: s) = upperByte b :: foldCase s := by
  rw [foldCase]
  · rintro _ rfl; simp at h
  · rintro _ rfl; simp at h

/-- An ASCII word without the letter `I` is reached by folding whenever it is reached by mapping
to upper case. -/
theorem foldCase_of_toUpper (hu : Ascii (toUpper s)) (hi : ∀ b ∈ toUpper s, ¬ b = 73) :
    foldCase s = toUpper s := by
  fun_induction toUpper s with
  | case1 => rfl
  | case2 bs ih =>
    simp only [foldCase, ascii_cons, List.forall_mem_cons] at hu hi ⊢
    rw [ih hu.2 hi.2]
  | case3 bs ih => exact absurd rfl (hi 73 (by simp))
  | case4 b bs _ _ ih =>
    have hb : b < 128 := upperByte_lt.mp (ascii_cons.mp hu).1
    rw [foldCase_cons hb, ih (ascii_cons.mp hu).2 (List.forall_mem_cons.mp hi).2]

/-- An ASCII word without the letter `K` is reached by mapping to upper case whenever it is
reached by folding. -/
theorem toUpper_of_foldCase (hf : Ascii (foldCase s)) (hk : ∀ b ∈ foldCase s, ¬ b = 75) :
    toUpper s = foldCase s := by
  fun_induction foldCase s with
  | case1 => rfl
  | case2 bs ih =>
    simp only [toUpper, ascii_cons, List.forall_mem_cons] at hf hk ⊢
    rw [ih hf.2 hk.2]
  | case3 bs ih => exact absurd rfl (hk 75 (by simp))
  | case4 b bs _ _ ih =>
    have hb : b < 128 := upperByte_lt.mp (ascii_cons.mp hf).1
    rw [toUpper_cons hb, ih (ascii_cons.mp hf).2 (List.forall_mem_cons.mp hk).2]

end Gedis.Core
