import Gedis.Core.Runtime

/-!
# Slices with 64-bit bounds

Lengths, offsets and counts are 64-bit integers, and the sum of two of them can wrap around. A slice
expression with bounds out of order is a panic, and so is a slice that is made with a negative size
or with one beyond what the run-time system allocates.
-/

namespace Gedis.Core

open List

variable {α : Type} {xs : List α} {lo : Int64}

/-- The length of a list as a 64-bit integer. -/
def len64 (xs : List α) : Int64 := Int64.ofNat xs.length

/-- The elements from position `lo` up to position `hi`. -/
def sliceList (xs : List α) (lo hi : Int64) : Go (List α) :=
  if 0 ≤ lo.toInt ∧ lo.toInt ≤ hi.toInt ∧ hi.toInt ≤ xs.length then
    .ok ((xs.drop lo.toInt.toNat).take (hi.toInt - lo.toInt).toNat)
  else .error .sliceBounds

/-- A slice of zero bytes. -/
def makeBytes (maxAlloc : Nat) (n : Int64) : Go Bytes :=
  if n < 0 ∨ (maxAlloc : Int) < n.toInt then .error .makeSlice
  else .ok (List.replicate n.toInt.toNat 0)

/-- Room for a number of elements of a width. -/
def makeCap (maxAlloc width : Nat) (n : Int64) : Go Unit :=
  if n < 0 ∨ (maxAlloc : Int) < n.toInt * width then .error .makeSlice else .ok ()

/-- Overwrite the front of one list by another, as far as it reaches. -/
def copyInto (dst src : List α) : List α := src.take dst.length ++ dst.drop src.length

theorem toInt_len64 (h : xs.length < 2 ^ 63) : (len64 xs).toInt = xs.length :=
  Int64.toInt_ofNat_of_lt h

/-- The sum of two integers that are not negative is exact, or it wraps around to a negative one. -/
theorem toInt_add_cases {a b : Int64} (ha : 0 ≤ a.toInt) (hb : 0 ≤ b.toInt) :
    (a.toInt + b.toInt < 2 ^ 63 ∧ (a + b).toInt = a.toInt + b.toInt) ∨
      (2 ^ 63 ≤ a.toInt + b.toInt ∧ (a + b).toInt = a.toInt + b.toInt - 2 ^ 64) := by
  have hlt := a.toInt_lt
  have hlt' := b.toInt_lt
  rw [Int64.toInt_add, Int.bmod_def]
  split <;> omega

theorem toInt_add_of_lt {a b : Int64} (ha : 0 ≤ a.toInt) (hb : 0 ≤ b.toInt)
    (h : a.toInt + b.toInt < 2 ^ 63) : (a + b).toInt = a.toInt + b.toInt := by
  rcases toInt_add_cases ha hb with ⟨-, hsum⟩ | ⟨hge, -⟩
  · exact hsum
  · omega

theorem sliceList_eq {hi : Int64} (h0 : 0 ≤ lo.toInt) (hle : lo.toInt ≤ hi.toInt)
    (hlen : hi.toInt ≤ xs.length) :
    sliceList xs lo hi = .ok ((xs.drop lo.toInt.toNat).take (hi.toInt - lo.toInt).toNat) :=
  if_pos ⟨h0, hle, hlen⟩

theorem sliceList_of_lt {hi : Int64} (h : hi.toInt < lo.toInt) :
    sliceList xs lo hi = .error .sliceBounds :=
  if_neg (by omega)

/-- Everything from a position on. -/
theorem sliceList_toEnd (hlen : xs.length < 2 ^ 63) (h0 : 0 ≤ lo.toInt) :
    sliceList xs lo (len64 xs) =
      if lo.toInt ≤ xs.length then .ok (xs.drop lo.toInt.toNat) else .error .sliceBounds := by
  have hlast := toInt_len64 hlen
  split
  · next hle =>
    rw [sliceList_eq h0 (by omega) (by omega), take_of_length_le]
    rw [length_drop]
    omega
  · exact sliceList_of_lt (by omega)

/-- A number of elements behind an offset, with the end computed as a sum and cut at the end of the
list. -/
theorem sliceList_window {off n : Int64} (hlen : xs.length < 2 ^ 63) (h0 : 0 ≤ off.toInt)
    (hn : 0 ≤ n.toInt) (hoff : off.toInt < xs.length) :
    sliceList xs off (if len64 xs < off + n then len64 xs else off + n) =
      if off.toInt + n.toInt < 2 ^ 63 then .ok ((xs.drop off.toInt.toNat).take n.toInt.toNat)
      else .error .sliceBounds := by
  have hlast := toInt_len64 hlen
  have hlt : len64 xs < off + n ↔ (len64 xs).toInt < (off + n).toInt := Int64.lt_iff_toInt_lt
  rcases toInt_add_cases h0 hn with ⟨hfits, hsum⟩ | ⟨hwrap, hsum⟩
  · rw [if_pos hfits]
    split
    · next h =>
      rw [hlt] at h
      rw [sliceList_toEnd hlen h0, if_pos (by omega), take_of_length_le]
      rw [length_drop]
      omega
    · next h =>
      rw [hlt] at h
      have hcount : (off + n).toInt - off.toInt = n.toInt := by omega
      rw [sliceList_eq h0 (by omega) (by omega), hcount]
  · have hlow := n.toInt_lt
    have hnot : ¬ len64 xs < off + n := by
      rw [hlt]
      omega
    rw [if_neg hnot, if_neg (by omega)]
    exact sliceList_of_lt (by omega)

theorem length_copyInto {dst src : List α} : (copyInto dst src).length = dst.length := by
  simp only [copyInto, length_append, length_take, length_drop]
  omega

theorem getElem?_copyInto {dst src : List α} {p : Nat} :
    (copyInto dst src)[p]? = if p < dst.length ∧ p < src.length then src[p]? else dst[p]? := by
  rw [copyInto, getElem?_append, length_take]
  by_cases h : p < dst.length ∧ p < src.length
  · rw [if_pos (by omega), if_pos h, getElem?_take_of_lt h.1]
  · rw [if_neg (by omega), if_neg h, getElem?_drop]
    by_cases hp : p < src.length
    · rw [getElem?_eq_none (by omega), getElem?_eq_none (by omega)]
    · by_cases hd : src.length ≤ dst.length
      · congr 1
        omega
      · rw [getElem?_eq_none (by omega), getElem?_eq_none (by omega)]

end Gedis.Core
