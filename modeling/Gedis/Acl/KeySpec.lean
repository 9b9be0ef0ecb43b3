import Gedis.Acl.Commands

/-!
# The keys that access control looks at

The key specification of a command says at which positions of its arguments the keys stand: in a
range, or wherever a function of the arguments finds them. The lemmas below say which words the
specifications of the command table pick.
-/

namespace Gedis.Acl

open Gedis.Core List

/-- Positions from `i` on in steps, up to and including the last one. -/
def upTo (step last : Nat) : Nat → Nat → List Nat
  | 0, _ => []
  | fuel + 1, i => if i ≤ last then i :: upTo step last fuel (i + step) else []

/-- The positions of a specification without a function of its own. -/
def KeySpec.range (spec : KeySpec) (len : Nat) : List Nat :=
  let step := if spec.step ≤ 0 then 1 else spec.step.toNat
  let last := if spec.last < 0 ∨ len ≤ spec.last then (len : Int) - 1 else spec.last
  if len ≤ spec.first then [] else upTo step last.toNat len spec.first.toNat

/-- The position after the first argument from `i` on that reads as one of the names and is not
the last one. -/
def optionTarget (names : List Bytes) : Nat → List Bytes → List Nat
  | i, a :: b :: rest =>
    if names.any (equalFold a) then [i + 1] else optionTarget names (i + 1) (b :: rest)
  | _, _ => []

/-- `numkeys` at one position, that many keys from another one on. The sum of the two is taken in
64 bits; when it wraps around, the list that is made is larger than memory. -/
def numkeysPositions (numPos keyPos : Nat) (args : List Bytes) : Go (List Nat) :=
  match args[numPos]?.bind parseInt with
  | none => .ok []
  | some n =>
    if n ≤ 0 ∨ (args.length : Int) < (Int64.ofNat keyPos + n).toInt then .ok []
    else if (args.length : Int) < keyPos + n.toInt then .error .makeSlice
    else .ok (List.range' keyPos n.toInt.toNat)

/-- The positions that a function of the arguments finds. -/
def Custom.positions (args : List Bytes) : Custom → Go (List Nat)
  | .sortStoreKey => .ok (0 :: optionTarget [ascii "STORE".toList] 1 (args.drop 1))
  | .evalKeys =>
    match args.head?.bind parseInt with
    | none => .ok []
    | some n =>
      if n ≤ 0 ∨ (args.length : Int) - 1 < n.toInt then .ok []
      else .ok (List.range' 1 n.toInt.toNat)
  | .numkeysKeys numPos keyPos => numkeysPositions numPos keyPos args
  | .zStoreKeys => do
    let idx ← numkeysPositions 1 2 args
    pure (0 :: idx)
  | .dstSrc => .ok (if args.length < 2 then [] else [0, 1])
  | .allButLast => .ok (if args.length < 2 then [] else List.range (args.length - 1))
  | .geoRadiusKeys =>
    .ok (if args = [] then []
      else 0 :: optionTarget [ascii "STORE".toList, ascii "STOREDIST".toList] 1 (args.drop 1))
  | .xreadKeys =>
    match args.findIdx? (equalFold · (ascii "STREAMS".toList)) with
    | none => .ok []
    | some si =>
      let rest := args.length - si - 1
      .ok (if args.length ≤ si + 1 ∨ rest % 2 ≠ 0 then [] else List.range' (si + 1) (rest / 2))
  | .subKeyAt1 =>
    match args with
    | sub :: _ :: _ => .ok (if equalFold sub (ascii "HELP".toList) then [] else [1])
    | _ => .ok []

/-- The words at the positions of a specification. -/
def KeySpec.extract (spec : KeySpec) (args : List Bytes) : Go (List Bytes) :=
  if spec.first < 0 then .ok []
  else
    match spec.custom with
    | some f => do
      let idx ← f.positions args
      pure (idx.filterMap (args[·]?))
    | none => .ok ((spec.range args.length).filterMap (args[·]?))

/-- The keys that access control checks for a command. -/
def extractKeys (cmd : Cmd) (args : List Bytes) : Go (List Bytes) := cmd.keys.extract args

theorem filterMap_range' {α : Type} {xs : List α} {s n : Nat} :
    (List.range' s n).filterMap (xs[·]?) = (xs.drop s).take n := by
  induction n generalizing s with
  | zero => simp
  | succ n ih =>
    rw [range'_succ, filterMap_cons, ih]
    cases h : xs[s]? with
    | none =>
      have hlen := getElem?_eq_none_iff.mp h
      simp [drop_eq_nil_of_le hlen, drop_eq_nil_of_le (Nat.le_succ_of_le hlen)]
    | some =>
      obtain ⟨hlt, hx⟩ := List.getElem?_eq_some_iff.mp h
      rw [drop_eq_getElem_cons hlt, take_succ_cons, hx]

theorem upTo_one {last fuel : Nat} (i : Nat) (h : last + 1 ≤ i + fuel) :
    upTo 1 last fuel i = List.range' i (last + 1 - i) := by
  induction fuel generalizing i with
  | zero => simp [upTo, show last + 1 - i = 0 by omega]
  | succ fuel ih =>
    unfold upTo
    by_cases hi : i ≤ last
    · rw [if_pos hi, ih (i + 1) (by omega), show last + 1 - i = last + 1 - (i + 1) + 1 by omega,
        range'_succ]
    · rw [if_neg hi, show last + 1 - i = 0 by omega]
      rfl

theorem upTo_two {α : Type} (xs : List α) (hpos : 0 < xs.length) (fuel i : Nat)
    (h : xs.length ≤ i + fuel) :
    (upTo 2 (xs.length - 1) fuel i).filterMap (xs[·]?) = evens (xs.drop i) := by
  induction fuel generalizing i with
  | zero => simp [upTo, drop_eq_nil_of_le (show xs.length ≤ i by omega), evens]
  | succ fuel ih =>
    unfold upTo
    by_cases hlt : i < xs.length
    · rw [if_pos (by omega), filterMap_cons, getElem?_eq_getElem hlt, ih _ (by omega),
        drop_eq_getElem_cons hlt]
      have htail : xs.drop (i + 2) = (xs.drop (i + 1)).drop 1 := by
        rw [drop_drop]
      rw [htail]
      cases xs.drop (i + 1) with
      | nil => rfl
      | cons => rfl
    · rw [drop_eq_nil_of_le (by omega), if_neg (by omega)]
      rfl

variable {spec : KeySpec} (hcustom : spec.custom = none) (hfirst : 0 ≤ spec.first)
  (args : List Bytes)

include hcustom hfirst in
/-- A range to the end. -/
theorem extract_toEnd (hstep : spec.step ≤ 0) (hlast : spec.last < 0) :
    spec.extract args = .ok (args.drop spec.first.toNat) := by
  simp only [KeySpec.extract, hcustom, not_lt.mpr hfirst, ite_false, KeySpec.range, hstep, ite_true,
    hlast, true_or]
  by_cases hlen : (args.length : Int) ≤ spec.first
  · rw [if_pos hlen, drop_eq_nil_of_le (by omega)]
    rfl
  · rw [if_neg hlen, upTo_one _ (by omega), filterMap_range', take_of_length_le]
    rw [length_drop]
    omega

include hcustom hfirst in
/-- A range to a fixed position. -/
theorem extract_upTo (hstep : spec.step ≤ 0) (hlast : spec.first ≤ spec.last) :
    spec.extract args =
      .ok ((args.drop spec.first.toNat).take (spec.last.toNat + 1 - spec.first.toNat)) := by
  simp only [KeySpec.extract, hcustom, not_lt.mpr hfirst, ite_false, KeySpec.range, hstep, ite_true,
    not_lt.mpr (hfirst.trans hlast), false_or]
  by_cases hlen : (args.length : Int) ≤ spec.first
  · rw [if_pos hlen, drop_eq_nil_of_le (by omega)]
    simp
  · rw [if_neg hlen]
    by_cases hend : (args.length : Int) ≤ spec.last
    · rw [upTo_one _ (by omega), filterMap_range',
        take_of_length_le (by rw [length_drop]; omega),
        take_of_length_le (by rw [length_drop]; omega)]
    · rw [if_neg hend, upTo_one _ (by omega), filterMap_range']

/-- Keys and values alternate. -/
theorem extract_evens {args : List Bytes} :
    ({ first := 0, last := -1, step := 2 } : KeySpec).extract args = .ok (evens args) := by
  cases args with
  | nil => rfl
  | cons a rest =>
    have h := upTo_two (a :: rest) (by simp) (a :: rest).length 0 (by simp)
    simp only [KeySpec.extract, KeySpec.range, length_cons]
    rw [if_neg (by decide), if_neg (by omega)]
    simpa using h

theorem extract_custom {f : Custom} {args : List Bytes} (idx : List Nat)
    (h : f.positions args = .ok idx) :
    ({ first := 0, custom := some f } : KeySpec).extract args = .ok (idx.filterMap (args[·]?)) := by
  simp only [KeySpec.extract, h]
  rfl

/-- The word after the first argument that reads as one of the names and is not the last one. -/
def wordAfter (names : List Bytes) : List Bytes → Option Bytes
  | a :: b :: rest => if names.any (equalFold a) then some b else wordAfter names (b :: rest)
  | _ => none

theorem optionTarget_words (names before rest : List Bytes) :
    (optionTarget names before.length rest).filterMap ((before ++ rest)[·]?) =
      (wordAfter names rest).toList := by
  induction rest generalizing before with
  | nil => rfl
  | cons a rest ih =>
    cases rest with
    | nil => rfl
    | cons =>
      simp only [optionTarget, wordAfter]
      split
      · simp
      · have h := ih (before ++ [a])
        simpa using h

theorem toInt_add_le {keyPos : Nat} (hkey : keyPos < 2 ^ 63) {n : Int64} (hn : 0 < n) :
    (Int64.ofNat keyPos + n).toInt ≤ keyPos + n.toInt := by
  have hpos : 0 < n.toInt := Int64.lt_iff_toInt_lt.mp hn
  have hofNat : (Int64.ofNat keyPos).toInt = keyPos := Int64.toInt_ofNat_of_lt hkey
  have hlt := (Int64.ofNat keyPos + n).toInt_lt
  by_cases h : (keyPos : Int) + n.toInt < 2 ^ 63
  · rw [Int64.toInt_add, Int.bmod_eq_of_le] <;> omega
  · omega

/-- The keys of a `numkeys` form that has them all. -/
theorem numkeysPositions_of_le {numPos keyPos : Nat} (hkey : keyPos < 2 ^ 63) {args : List Bytes}
    {n : Int64} (hn : args[numPos]?.bind parseInt = some n) (hpos : 0 < n)
    (hle : keyPos + n.toInt ≤ args.length) :
    (Custom.numkeysKeys numPos keyPos).positions args = .ok (List.range' keyPos n.toInt.toNat) := by
  have hsum := toInt_add_le hkey hpos
  simp only [Custom.positions, numkeysPositions, hn]
  rw [if_neg, if_neg (by omega)]
  rw [not_or, Int64.not_le]
  exact ⟨hpos, by omega⟩

theorem extract_numkeysKeys (numPos keyPos : Nat) (hkey : keyPos < 2 ^ 63) {args : List Bytes}
    {n : Int64} (hn : args[numPos]?.bind parseInt = some n) (hpos : 0 < n)
    (hle : keyPos + n.toInt ≤ args.length) :
    ({ first := 0, custom := some (.numkeysKeys numPos keyPos) } : KeySpec).extract args =
      .ok ((args.drop keyPos).take n.toInt.toNat) := by
  rw [extract_custom _ (numkeysPositions_of_le hkey hn hpos hle), filterMap_range']

/-- A `numkeys` form that names more keys than there are finds none, or panics. -/
theorem numkeysPositions_of_lt {numPos : Nat} (keyPos : Nat) {args : List Bytes}
    {n : Int64} (hn : args[numPos]?.bind parseInt = some n) (hlt : args.length < keyPos + n.toInt) :
    (Custom.numkeysKeys numPos keyPos).positions args = .ok [] ∨
      (Custom.numkeysKeys numPos keyPos).positions args = .error .makeSlice := by
  simp only [Custom.positions, numkeysPositions, hn]
  split
  · exact .inl rfl
  · exact .inr rfl

/-- The keys of a stream form: the first half of what follows the first `STREAMS`. -/
theorem positions_xreadKeys {before rest : List Bytes} {word : Bytes}
    (hbefore : ∀ w ∈ before, equalFold w (ascii "STREAMS".toList) = false)
    (hword : equalFold word (ascii "STREAMS".toList) = true) :
    Custom.xreadKeys.positions (before ++ word :: rest) =
      .ok (if rest = [] ∨ rest.length % 2 ≠ 0 then []
        else List.range' (before.length + 1) (rest.length / 2)) := by
  have hfind : (before ++ word :: rest).findIdx? (equalFold · (ascii "STREAMS".toList)) =
      some before.length := by
    rw [findIdx?_append, findIdx?_eq_none_iff.mpr hbefore, findIdx?_cons, hword]
    simp
  have hlen : (before ++ word :: rest).length - before.length - 1 = rest.length := by
    simp
  simp only [Custom.positions, hfind, hlen]
  congr 2
  simp only [length_append, length_cons, eq_iff_iff]
  rw [← length_eq_zero_iff]
  constructor <;> rintro (h | h) <;> first | exact .inr h | exact .inl (by omega)

end Gedis.Acl
