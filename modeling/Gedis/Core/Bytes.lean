import Mathlib.Tactic.Common
import Mathlib.Tactic.Ring

/-!
# Byte strings and their integer encodings

Byte strings are lists of octets. Two integer encodings are used throughout: fixed
width big-endian numbers and the little-endian base-128 variable-length numbers with
a 64-bit range check. Both decoders invert their encoders, the second in front of any
further input, which also gives length-prefixed strings. Numbers that users see are in
decimal.
-/

namespace Gedis.Core

open List

variable {n : Nat}

/-- Byte strings. -/
abbrev Bytes := List UInt8

instance : LawfulBEq Bytes := inferInstance

/-- The bytes of an ASCII text. -/
def ascii (text : List Char) : Bytes := text.map fun c => UInt8.ofNat c.toNat

/-- A property of bytes, checked value by value. -/
theorem forall_byte {P : UInt8 → Prop} (h : ∀ k : Fin 256, P (UInt8.ofNat k.val)) (b : UInt8) :
    P b := by
  have hb := h ⟨b.toNat, b.toNat_lt⟩
  rwa [UInt8.ofNat_toNat] at hb

/-- The lowest `width` base-256 digits of a number, most significant first. -/
def beBytes : Nat → Nat → Bytes
  | 0, _ => []
  | width + 1, n => beBytes width (n / 256) ++ [UInt8.ofNat n]

/-- The number whose base-256 digits are given, most significant first. -/
def beNat (bs : Bytes) : Nat := bs.foldl (fun acc b => acc * 256 + b.toNat) 0

@[simp] theorem length_beBytes {width : Nat} : (beBytes width n).length = width := by
  induction width generalizing n with
  | zero => rfl
  | succ width ih => simp [beBytes, ih]

theorem beNat_beBytes {width : Nat} (n : Nat) : beNat (beBytes width n) = n % 256 ^ width := by
  induction width generalizing n with
  | zero => simp [beBytes, beNat, Nat.mod_one]
  | succ width ih =>
    have h := ih (n / 256)
    simp only [beNat] at h ⊢
    simp only [beBytes, foldl_append, foldl_cons, foldl_nil, h, UInt8.toNat_ofNat']
    have hsplit : 256 ^ (width + 1) = 256 * 256 ^ width := by rw [pow_succ, mul_comm]
    rw [hsplit, Nat.mod_mul]
    ring

/-- The base-128 digits of a number, least significant first; every digit but the last
carries the continuation bit. At most `fuel + 1` digits are written. -/
def uvarintDigits : Nat → Nat → Bytes
  | 0, n => [UInt8.ofNat n]
  | fuel + 1, n =>
    if n < 128 then [UInt8.ofNat n]
    else UInt8.ofNat (n % 128 + 128) :: uvarintDigits fuel (n / 128)

/-- The encoding of the 64-bit truncation of a number. -/
def appendUvarint (n : Nat) : Bytes := uvarintDigits 9 (n % 2 ^ 64)

/-- Read digits from position `i` on with `acc` already collected. A tenth digit above one
or an eleventh digit overflows. -/
def uvarintFrom (i acc : Nat) : Bytes → Option (Nat × Nat)
  | [] => none
  | b :: bs =>
    if i = 10 then none
    else if b.toNat < 128 then
      if i = 9 ∧ 1 < b.toNat then none else some (acc + b.toNat * 2 ^ (7 * i), i + 1)
    else uvarintFrom (i + 1) (acc + b.toNat % 128 * 2 ^ (7 * i)) bs

/-- The number at the front of the input and how many bytes it takes; `none` when the
input is truncated or the number exceeds 64 bits. -/
def uvarint (bs : Bytes) : Option (Nat × Nat) := uvarintFrom 0 0 bs

private theorem uvarintFrom_last {i acc : Nat} (rest : Bytes) (hi : i ≤ 9) (hn : n < 128)
    (h9 : i = 9 → n ≤ 1) :
    uvarintFrom i acc (UInt8.ofNat n :: rest) = some (acc + n * 2 ^ (7 * i), i + 1) := by
  have hb : (UInt8.ofNat n).toNat = n := by simp [UInt8.toNat_ofNat']; omega
  simp only [uvarintFrom, hb, hn, ite_true]
  rw [ite_cond_eq_false _ _ (by simp; omega), ite_cond_eq_false _ _ (by simp; omega)]

private theorem uvarintFrom_digits (fuel : Nat) :
    ∀ (i acc n : Nat) (rest : Bytes), i + fuel = 9 → n < 2 ^ (7 * fuel + 1) →
      uvarintFrom i acc (uvarintDigits fuel n ++ rest) =
        some (acc + n * 2 ^ (7 * i), i + (uvarintDigits fuel n).length) := by
  induction fuel with
  | zero =>
    intro i acc n rest hi hn
    simpa [uvarintDigits] using
      uvarintFrom_last rest (by omega) (by omega : n < 128) (fun _ => by omega)
  | succ fuel ih =>
    intro i acc n rest hi hn
    by_cases hs : n < 128
    · simpa [uvarintDigits, hs] using uvarintFrom_last rest (by omega) hs (fun h => by omega)
    · have hb : (UInt8.ofNat (n % 128 + 128)).toNat = n % 128 + 128 := by
        simp [UInt8.toNat_ofNat']; omega
      have hq : n / 128 < 2 ^ (7 * fuel + 1) := by
        rw [show 7 * (fuel + 1) + 1 = 7 + (7 * fuel + 1) by omega, pow_add] at hn
        omega
      have hdigit : (n % 128 + 128) % 128 = n % 128 := by omega
      have hpow : 2 ^ (7 * (i + 1)) = 128 * 2 ^ (7 * i) := by
        rw [show 7 * (i + 1) = 7 + 7 * i by omega, pow_add]
        norm_num
      have hval : acc + n % 128 * 2 ^ (7 * i) + n / 128 * 2 ^ (7 * (i + 1)) =
          acc + n * 2 ^ (7 * i) := by
        have hn' : n = n % 128 + 128 * (n / 128) := by omega
        conv_rhs => rw [hn']
        ring
      simp only [uvarintDigits, hs, ite_false, cons_append, uvarintFrom, hb, hdigit]
      rw [ite_cond_eq_false _ _ (by simp; omega), ite_cond_eq_false _ _ (by simp),
        ih (i + 1) _ _ rest (by omega) hq]
      simp only [length_cons]
      congr 2
      omega

/-- A 64-bit number is read back in front of any further input. -/
theorem uvarint_appendUvarint (hn : n < 2 ^ 64) (rest : Bytes) :
    uvarint (appendUvarint n ++ rest) = some (n, (appendUvarint n).length) := by
  have h := uvarintFrom_digits 9 0 0 n rest (by omega) (by simpa using hn)
  simpa only [uvarint, appendUvarint, Nat.mod_eq_of_lt hn, Nat.zero_add, Nat.mul_zero, pow_zero,
    mul_one] using h

private theorem uvarintFrom_bounds {i acc adv : Nat} {bs : Bytes} (hi : i ≤ 10)
    (hacc : acc < 2 ^ (7 * i)) (h : uvarintFrom i acc bs = some (n, adv)) :
    i < adv ∧ adv ≤ i + bs.length ∧ adv ≤ 10 ∧ n < 2 ^ 64 ∧ (2 ^ 63 ≤ n → adv = 10) := by
  induction bs generalizing i acc with
  | nil => cases h
  | cons b bs ih =>
    rw [uvarintFrom] at h
    split at h
    · cases h
    · next hten =>
      have hpow : 2 ^ (7 * (i + 1)) = 128 * 2 ^ (7 * i) := by
        rw [show 7 * (i + 1) = 7 + 7 * i by omega, pow_add]
        norm_num
      have hdigits : ∀ d < 128, acc + d * 2 ^ (7 * i) < 2 ^ (7 * (i + 1)) := by
        intro d hd
        have hle : (d + 1) * 2 ^ (7 * i) ≤ 128 * 2 ^ (7 * i) := Nat.mul_le_mul_right _ hd
        rw [Nat.succ_mul] at hle
        omega
      split at h
      · next hlast =>
        split at h
        · cases h
        · next hsmall =>
          cases h
          have hval : acc + b.toNat * 2 ^ (7 * i) < 2 ^ (7 * (i + 1)) := hdigits b.toNat hlast
          refine ⟨by omega, by simp, by omega, ?_, ?_⟩
          · by_cases hnine : i = 9
            · subst hnine
              omega
            · exact Nat.lt_of_lt_of_le hval (Nat.pow_le_pow_right (by omega) (by omega))
          · intro hbig
            by_contra hne
            have hle : 2 ^ (7 * (i + 1)) ≤ 2 ^ 63 := Nat.pow_le_pow_right (by omega) (by omega)
            omega
      · have hdigit : b.toNat % 128 < 128 := Nat.mod_lt _ (by omega)
        have hacc' : acc + b.toNat % 128 * 2 ^ (7 * i) < 2 ^ (7 * (i + 1)) := hdigits _ hdigit
        obtain ⟨hlt, hle, hrest⟩ := ih (by omega) hacc' h
        exact ⟨by omega, by rw [length_cons]; omega, hrest⟩

/-- A number that was read takes one to ten bytes of the input and has at most 64 bits; one of 64
bits takes ten bytes. -/
theorem uvarint_bounds {bs : Bytes} {adv : Nat} (h : uvarint bs = some (n, adv)) :
    0 < adv ∧ adv ≤ bs.length ∧ adv ≤ 10 ∧ n < 2 ^ 64 ∧ (2 ^ 63 ≤ n → adv = 10) := by
  have hb := uvarintFrom_bounds (by omega) (by norm_num) h
  rwa [zero_add] at hb

/-- A string behind its length. -/
def prefixed (bs : Bytes) : Bytes := appendUvarint bs.length ++ bs

/-- Split a length-prefixed string off the input. -/
def splitPrefixed (bs : Bytes) : Option (Bytes × Bytes) :=
  match uvarint bs with
  | none => none
  | some (n, adv) =>
    if (bs.drop adv).length < n then none
    else some ((bs.drop adv).take n, (bs.drop adv).drop n)

/-- An addressable string is split off unchanged. -/
theorem splitPrefixed_prefixed {bs : Bytes} (h : bs.length < 2 ^ 64) {rest : Bytes} :
    splitPrefixed (prefixed bs ++ rest) = some (bs, rest) := by
  simp [splitPrefixed, prefixed, uvarint_appendUvarint h]

/-- The value of a run of decimal digits behind those already read. -/
def parseDigits (acc : Nat) : Bytes → Option Nat
  | [] => some acc
  | b :: bs =>
    if 48 ≤ b.toNat ∧ b.toNat ≤ 57 then parseDigits (acc * 10 + (b.toNat - 48)) bs else none

/-- A 64-bit number in decimal with an optional sign. -/
def parseInt (bs : Bytes) : Option Int64 :=
  let (negative, digits) : Bool × Bytes :=
    match bs with
    | 43 :: digits => (false, digits)
    | 45 :: digits => (true, digits)
    | digits => (false, digits)
  if digits = [] then none
  else
    match parseDigits 0 digits with
    | none => none
    | some n =>
      if negative then (if 2 ^ 63 < n then none else some (Int64.ofInt (-n)))
      else if 2 ^ 63 ≤ n then none
      else some (Int64.ofInt n)

/-- A number without a sign, in decimal, of at most so many bits. -/
def parseUint (bits : Nat) (bs : Bytes) : Option UInt64 :=
  if bs = [] then none
  else
    match parseDigits 0 bs with
    | none => none
    | some n => if 2 ^ bits ≤ n then none else some (UInt64.ofNat n)

/-- The decimal text of a 64-bit number. -/
def formatInt (n : Int64) : Bytes :=
  let digits := ascii (Nat.toDigits 10 n.toInt.natAbs)
  if n < 0 then 45 :: digits else digits

private theorem parseDigits_append (acc : Nat) (xs ys : Bytes) :
    parseDigits acc (xs ++ ys) = (parseDigits acc xs).bind fun n => parseDigits n ys := by
  induction xs generalizing acc with
  | nil => rfl
  | cons b bs ih =>
    simp only [cons_append, parseDigits]
    split
    · exact ih _
    · rfl

private theorem digitChar_digit :
    ∀ d < 10, (UInt8.ofNat (Nat.digitChar d).toNat).toNat = 48 + d := by
  decide

theorem parseDigits_toDigits (n : Nat) : parseDigits 0 (ascii (Nat.toDigits 10 n)) = some n := by
  induction n using Nat.strongRecOn with
  | _ n ih =>
    rw [Nat.toDigits_eq_if (by omega)]
    split
    case isTrue h =>
      have hd := digitChar_digit n h
      simp only [ascii, map_cons, map_nil, parseDigits, hd]
      rw [if_pos (by omega)]
      congr 1
      omega
    case isFalse h =>
      have hd := digitChar_digit (n % 10) (Nat.mod_lt _ (by omega))
      have hq : parseDigits 0 (ascii (Nat.toDigits 10 (n / 10))) = some (n / 10) :=
        ih (n / 10) (by omega)
      simp only [ascii] at hq
      simp only [ascii, map_append, parseDigits_append, hq, Option.bind_some, map_cons,
        map_nil, parseDigits, hd]
      rw [if_pos (by omega)]
      congr 1
      omega

/-- The digits of a number are decimal digits. -/
theorem mem_digits {b : UInt8} (h : b ∈ ascii (Nat.toDigits 10 n)) :
    48 ≤ b.toNat ∧ b.toNat ≤ 57 := by
  induction n using Nat.strongRecOn with
  | _ n ih =>
    rw [Nat.toDigits_eq_if (by omega)] at h
    split at h
    case isTrue hn =>
      have hd := digitChar_digit n hn
      simp only [ascii, map_cons, map_nil, mem_singleton] at h
      subst h
      omega
    case isFalse hn =>
      have hd := digitChar_digit (n % 10) (Nat.mod_lt _ (by omega))
      simp only [ascii, map_append, map_cons, map_nil, mem_append,
        mem_singleton] at h
      rcases h with h | rfl
      · exact ih (n / 10) (by omega) h
      · omega

theorem digits_ne_nil : ascii (Nat.toDigits 10 n) ≠ [] := by
  rw [Nat.toDigits_eq_if (by omega)]
  split <;> simp [ascii]

/-- The text of a number holds digits and a minus sign only. -/
theorem mem_formatInt {n : Int64} {b : UInt8} (h : b ∈ formatInt n) :
    b = 45 ∨ 48 ≤ b.toNat ∧ b.toNat ≤ 57 := by
  simp only [formatInt] at h
  split at h
  · rcases mem_cons.mp h with h | h
    · exact .inl h
    · exact .inr (mem_digits h)
  · exact .inr (mem_digits h)

theorem parseInt_digits {bs : Bytes} (hne : bs ≠ []) (hb : ∀ b ∈ bs, 48 ≤ b.toNat ∧ b.toNat ≤ 57)
    (hp : parseDigits 0 bs = some n) (hn : n < 2 ^ 63) : parseInt bs = some (Int64.ofInt n) := by
  obtain ⟨b, rest, rfl⟩ := exists_cons_of_ne_nil hne
  have hhead := hb b (by simp)
  have h43 : b ≠ 43 := by rintro rfl; simp at hhead
  have h45 : b ≠ 45 := by rintro rfl; simp at hhead
  simpa [parseInt, h43, h45, hp] using hn

theorem parseInt_formatInt {n : Int64} : parseInt (formatInt n) = some n := by
  have hlow := Int64.le_toInt n
  have hhigh := Int64.toInt_lt n
  have hp := parseDigits_toDigits n.toInt.natAbs
  simp only [formatInt]
  split
  case isTrue h =>
    have hneg : n.toInt < 0 := by simpa using Int64.lt_iff_toInt_lt.mp h
    have hval : -(n.toInt.natAbs : Int) = n.toInt := by omega
    simp only [parseInt, digits_ne_nil, ite_false, hp, ite_true, hval, Int64.ofInt_toInt]
    rw [if_neg (by omega)]
  case isFalse h =>
    have hpos : 0 ≤ n.toInt := by simpa using Int64.le_iff_toInt_le.mp (Int64.not_lt.mp h)
    have hval : (n.toInt.natAbs : Int) = n.toInt := by omega
    rw [parseInt_digits digits_ne_nil (fun b hb => mem_digits hb) hp (by omega), hval,
      Int64.ofInt_toInt]

example : parseInt (formatInt (-9223372036854775808)) = some (-9223372036854775808) := by decide

end Gedis.Core
