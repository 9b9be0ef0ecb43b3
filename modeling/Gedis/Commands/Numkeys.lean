import Gedis.Commands.Scans
import Gedis.Core.Slices

/-!
# Reading a number of keys

Some commands state how many keys follow. Their handlers make room for that many keys and cut them
out of the arguments, with an end that is computed in 64 bits. The operations on sorted sets compare
the end with the number of arguments, the other commands compare the number with what is left.
-/

namespace Gedis.Commands.Numkeys

open Gedis.Core Protocol List

variable {args rest : List Arg} {n : Int64} {numPos : Nat} {allowExtra : Bool} {name : String}

/-- Reading arguments can panic, or end with a reply. -/
abbrev Parse (α : Type) := Go (Except Reply α)

def Parse.reject {α : Type} (text : String) : Parse α := .ok (.error (.error text))

def Parse.bind {α β : Type} (x : Parse α) (f : α → Parse β) : Parse β :=
  match x with
  | .error p => .error p
  | .ok (.error r) => .ok (.error r)
  | .ok (.ok a) => f a

def wrongNumber (name : String) : String := "ERR wrong number of arguments for '" ++ name ++ "' command"

/-- The strings of a part of the arguments. -/
def keyArgs : List Arg → Except Reply (List Bytes)
  | [] => .ok []
  | none :: _ => .error (.error "ERR invalid key")
  | some key :: rest => (keyArgs rest).map (key :: ·)

/-- The size of a string header. -/
def stringWidth : Nat := 16

/-- The size of a float. -/
def floatWidth : Nat := 8

/-- Room for a number of keys, and the keys from a position on. -/
def takeKeys (maxAlloc : Nat) (args : List Arg) (lo n : Int64) : Go (Except Reply (List Bytes)) := do
  makeCap maxAlloc stringWidth n
  let part ← sliceList args lo (lo + n)
  .ok (keyArgs part)

inductive Aggregate where
  | sum | min | max
  deriving DecidableEq, Repr

structure ZSetOpSpec where
  keys : List Bytes
  weights : Option (List UInt64) := none
  agg : Aggregate := .sum
  withScores : Bool := false
  deriving DecidableEq, Repr

/-- The bits of the number one. -/
def oneScore : UInt64 := 0x3FF0000000000000

section
variable (maxAlloc : Nat) (parseScore : Bytes → Option UInt64)

def weightArgs : List Arg → Except Reply (List UInt64)
  | [] => .ok []
  | none :: _ => .error (.error "ERR invalid weight")
  | some text :: rest =>
    match parseScore text with
    | none => .error (.error "ERR weight value is not a float")
    | some w => (weightArgs rest).map (w :: ·)

/-- Room for the weights, and the weights behind position `i`. -/
def takeWeights (args : List Arg) (i num : Int64) : Go (Except Reply (List UInt64)) := do
  makeCap maxAlloc floatWidth num
  let part ← sliceList args (i + 1) (i + 1 + num)
  .ok (weightArgs parseScore part)

def aggregateOf (text : Bytes) : Option Aggregate :=
  if toUpper text = ascii "SUM".toList then some .sum
  else if toUpper text = ascii "MIN".toList then some .min
  else if toUpper text = ascii "MAX".toList then some .max
  else none

/-- The options from position `i` on, the first `skip` of which belong to an option before them. -/
def zsetOptions (args : List Arg) (num : Int64) (allowExtra : Bool) :
    Nat → Nat → ZSetOpSpec → List Arg → Parse ZSetOpSpec
  | _, _, spec, [] => .ok (.ok spec)
  | i, skip + 1, spec, _ :: rest => zsetOptions args num allowExtra (i + 1) skip spec rest
  | _, 0, _, none :: _ => .reject errSyntax
  | i, 0, spec, some opt :: rest =>
    if toUpper opt = ascii "WEIGHTS".toList then
      if ¬ allowExtra then .reject errSyntax
      else if len64 args < Int64.ofNat i + 1 + num then .reject errSyntax
      else
        Parse.bind (takeWeights maxAlloc parseScore args (Int64.ofNat i) num) fun weights =>
          zsetOptions args num allowExtra (i + 1) num.toInt.toNat { spec with weights } rest
    else if toUpper opt = ascii "AGGREGATE".toList then
      if ¬ allowExtra then .reject errSyntax
      else
        match rest.head? with
        | none | some none => .reject errSyntax
        | some (some text) =>
          match aggregateOf text with
          | none => .reject errSyntax
          | some agg => zsetOptions args num allowExtra (i + 1) 1 { spec with agg } rest
    else if toUpper opt = ascii "WITHSCORES".toList then
      if ¬ allowExtra then .reject errSyntax
      else zsetOptions args num allowExtra (i + 1) 0 { spec with withScores := true } rest
    else .reject errSyntax

/-- Without weights every key has the weight one. -/
def defaultWeights (spec : ZSetOpSpec) : Parse ZSetOpSpec :=
  match spec.weights with
  | some _ => .ok (.ok spec)
  | none => (makeCap maxAlloc floatWidth (len64 spec.keys)).map fun _ =>
    .ok { spec with weights := some (List.replicate spec.keys.length oneScore) }

/-- The number of keys at the front, and the keys. -/
def zsetKeys (args : List Arg) (name : String) : Parse (Int64 × List Bytes) :=
  match args with
  | [] => .reject (wrongNumber name)
  | none :: _ => .reject "ERR invalid numkeys"
  | some text :: _ =>
    match parseInt text with
    | none => .reject ("ERR at least 1 input key is needed for '" ++ name ++ "' command")
    | some num =>
      if num < 1 then .reject ("ERR at least 1 input key is needed for '" ++ name ++ "' command")
      else if len64 args < 1 + num then .reject (wrongNumber name)
      else Parse.bind (takeKeys maxAlloc args 1 num) fun keys => .ok (.ok (num, keys))

/-- `numkeys key ... [WEIGHTS weight ...] [AGGREGATE SUM|MIN|MAX] [WITHSCORES]`. -/
def parseZSetOp (args : List Arg) (name : String) (allowExtra : Bool) : Parse ZSetOpSpec :=
  (zsetKeys maxAlloc args name).bind fun (num, keys) =>
    let i := 1 + num.toInt.toNat
    (zsetOptions maxAlloc parseScore args num allowExtra i 0 { keys } (args.drop i)).bind
      (defaultWeights maxAlloc)

/-- The same behind a destination. -/
def storeZSetOp (args : List Arg) (name : String) (allowExtra : Bool) : Parse ZSetOpSpec :=
  match args with
  | [] | [_] => .reject (wrongNumber name)
  | none :: _ => .reject "ERR invalid destination"
  | some _ :: rest => parseZSetOp maxAlloc parseScore rest name allowExtra

/-- The limit of `ZINTERCARD`, if any. -/
def zintercardLimit : List Arg → Except Reply (Option Int64)
  | [] => .ok none
  | [where_, limit] =>
    if ¬ where_.any (equalFold · (ascii "LIMIT".toList)) then .error (.error errSyntax)
    else
      match limit.bind parseInt with
      | none => .error (.error errRange)
      | some n => if n < 0 then .error (.error errRange) else .ok (some n)
  | _ => .error (.error errSyntax)

/-- `ZINTERCARD numkeys key ... [LIMIT limit]`. -/
def zintercard (args : List Arg) : Parse (List Bytes × Option Int64) :=
  (zsetKeys maxAlloc args "zintercard").bind fun (num, keys) =>
    (sliceList args (1 + num) (len64 args)).map fun rest => (zintercardLimit rest).map (keys, ·)

/-- The number of keys at a position, the keys behind it, and the arguments behind those. -/
def countedKeys (keyPos : Nat) (bad : String) (args : List Arg) (num : Arg) :
    Parse (List Bytes × List Arg) :=
  match num with
  | none => .reject errRange
  | some text =>
    match parseInt text with
    | none => .reject bad
    | some n =>
      if n ≤ 0 ∨ (args.length : Int) - keyPos < n.toInt then .reject bad
      else
        Parse.bind (takeKeys maxAlloc args (Int64.ofNat keyPos) n) fun keys =>
          (sliceList args (Int64.ofNat keyPos + n) (len64 args)).map fun rest => .ok (keys, rest)

/-- The limit of `SINTERCARD`, zero without one. -/
def sintercardLimit : List Arg → Except Reply Int64
  | [] => .ok 0
  | [opt, limit] =>
    if ¬ opt.any (equalFold · (ascii "LIMIT".toList)) then .error (.error errSyntax)
    else
      match limit.bind parseInt with
      | none => .error (.error errRange)
      | some n => if n < 0 then .error (.error "ERR LIMIT can't be negative") else .ok n
  | _ => .error (.error errSyntax)

/-- `SINTERCARD numkeys key ... [LIMIT limit]`. -/
def sintercard (args : List Arg) : Parse (List Bytes × Int64) :=
  match args with
  | [] | [_] => .reject (wrongNumber "sintercard")
  | num :: _ =>
    (countedKeys maxAlloc 1 (wrongNumber "sintercard") args num).bind fun (keys, rest) =>
      .ok ((sintercardLimit rest).map (keys, ·))

/-- How one of the commands that pop from the first key with elements reads what follows the keys:
its words for the two ends, how it compares `COUNT`, and its error for a wrong count. -/
structure PopWords where
  front : String
  back : String
  isCount : Bytes → Bool
  badCount : String

/-- The end to pop from and the number of elements. -/
def popTail (words : PopWords) : List Arg → Except Reply (Bool × Int64)
  | some dir :: rest =>
    if toUpper dir ≠ ascii words.front.toList ∧ toUpper dir ≠ ascii words.back.toList then
      .error (.error errSyntax)
    else
      match rest with
      | [] => .ok (decide (toUpper dir = ascii words.back.toList), 1)
      | [opt, count] =>
        if ¬ opt.any words.isCount then .error (.error errSyntax)
        else
          match count with
          | none => .error (.error errRange)
          | some text =>
            match parseInt text with
            | none => .error (.error words.badCount)
            | some n =>
              if n < 1 then .error (.error words.badCount)
              else .ok (decide (toUpper dir = ascii words.back.toList), n)
      | _ => .error (.error errSyntax)
  | _ => .error (.error errSyntax)

structure PopSpec where
  keys : List Bytes
  back : Bool
  count : Int64
  deriving DecidableEq, Repr

/-- The keys and what follows them. -/
def popKeys (words : PopWords) (keyPos : Nat) (args : List Arg) (num : Arg) : Parse PopSpec :=
  (countedKeys maxAlloc keyPos errRange args num).bind fun (keys, rest) =>
    .ok ((popTail words rest).map fun (back, count) => ⟨keys, back, count⟩)

def lmpopWords : PopWords :=
  ⟨"LEFT", "RIGHT", fun opt => toUpper opt = ascii "COUNT".toList, "ERR count should be greater than 0"⟩

def bmpopWords : PopWords := { lmpopWords with badCount := errRange }

def zmpopWords : PopWords :=
  ⟨"MIN", "MAX", (equalFold · (ascii "COUNT".toList)), "ERR value is out of range, must be positive"⟩

/-- `numkeys key ... end [COUNT count]`. -/
def mpop (words : PopWords) (name : String) (args : List Arg) : Parse PopSpec :=
  match args with
  | num :: _ :: _ :: _ => popKeys maxAlloc words 1 args num
  | _ => .reject (wrongNumber name)

/-- `LMPOP numkeys key ... LEFT|RIGHT [COUNT count]`. -/
def lmpop : List Arg → Parse PopSpec := mpop maxAlloc lmpopWords "lmpop"

/-- `ZMPOP numkeys key ... MIN|MAX [COUNT count]`. -/
def zmpop : List Arg → Parse PopSpec := mpop maxAlloc zmpopWords "zmpop"

/-- `timeout numkeys key ... end [COUNT count]`. -/
def blockingPop (parseTimeout : Bytes → Option Int64) (words : PopWords) (name : String)
    (args : List Arg) : Parse (PopSpec × Int64) :=
  match args with
  | timeout :: num :: _ :: _ :: _ =>
    match timeout.bind parseTimeout with
    | none => .reject "ERR timeout is not a float or out of range"
    | some timeout =>
      (popKeys maxAlloc words 2 args num).bind fun spec => .ok (.ok (spec, timeout))
  | _ => .reject (wrongNumber name)

/-- `BLMPOP timeout numkeys key ... LEFT|RIGHT [COUNT count]`. -/
def bmpop (parseTimeout : Bytes → Option Int64) : List Arg → Parse (PopSpec × Int64) :=
  blockingPop maxAlloc parseTimeout bmpopWords "bmpop"

/-- `BZMPOP timeout numkeys key ... MIN|MAX [COUNT count]`. -/
def bzmpop (parseTimeout : Bytes → Option Int64) : List Arg → Parse (PopSpec × Int64) :=
  blockingPop maxAlloc parseTimeout zmpopWords "bzmpop"

end

/-- Reading does not panic, and what it accepts has a property. -/
def Parse.Yields {α : Type} (x : Parse α) (P : α → Prop) : Prop :=
  ∃ r, x = .ok r ∧ ∀ a, r = .ok a → P a

section Yields

variable {α β : Type} {P : α → Prop} {Q : β → Prop}

theorem yields_reject {text : String} : (Parse.reject text).Yields P := ⟨_, rfl, nofun⟩

theorem yields_ok {a : α} (h : P a) : Parse.Yields (.ok (.ok a)) P :=
  ⟨_, rfl, fun _ ha => Except.ok.inj ha ▸ h⟩

theorem not_yields_error {p : Panic} : ¬ Parse.Yields (.error p : Parse α) P := fun ⟨_, h, _⟩ => nomatch h

theorem Parse.Yields.bind {x : Parse α} {f : α → Parse β} (hx : x.Yields P)
    (hf : ∀ a, P a → (f a).Yields Q) : (x.bind f).Yields Q := by
  obtain ⟨r, rfl, hr⟩ := hx
  cases r with
  | error => exact ⟨_, rfl, nofun⟩
  | ok a => exact hf a (hr a rfl)

theorem Parse.Yields.mono {P' : α → Prop} {x : Parse α} (hx : x.Yields P) (h : ∀ a, P a → P' a) :
    x.Yields P' :=
  hx.imp fun _ hr => ⟨hr.1, fun a ha => h a (hr.2 a ha)⟩

/-- What follows an accepted value can only be accepted or refused. -/
theorem yields_map {r : Except Reply α} {f : α → β} (h : ∀ a, Q (f a)) :
    Parse.Yields (.ok (r.map f)) Q := by
  refine ⟨_, rfl, fun b hb => ?_⟩
  cases r with
  | error => cases hb
  | ok a => exact Except.ok.inj hb ▸ h a

end Yields

/-- The elements that follow the number at a position, if there are that many. -/
def following {α : Type} (xs : List α) (numPos : Nat) (n : Int64) : Option (List α) :=
  if 1 ≤ n.toInt ∧ numPos + 1 + n.toInt ≤ xs.length then
    some ((xs.drop (numPos + 1)).take n.toInt.toNat)
  else none

theorem keyArgs_ok {keys : List Bytes} (h : keyArgs args = .ok keys) : args = keys.map some := by
  induction args generalizing keys with
  | nil =>
    cases h
    rfl
  | cons a args ih =>
    cases a with
    | none => cases h
    | some =>
      rw [keyArgs] at h
      cases hrest : keyArgs args with
      | error =>
        rw [hrest] at h
        cases h
      | ok =>
        rw [hrest] at h
        cases h
        rw [map_cons, ih hrest]

/-- The arguments fit in memory, each behind a header of the size of a string at least. -/
def Held (maxAlloc : Nat) (args : List Arg) : Prop :=
  stringWidth * args.length ≤ maxAlloc ∧ maxAlloc < 2 ^ 63

theorem Held.length_lt {maxAlloc : Nat} (h : Held maxAlloc args) : args.length < 2 ^ 59 := by
  have hle := h.1
  have hlt := h.2
  simp only [stringWidth] at hle
  omega

section

variable {maxAlloc : Nat} {args : List Arg} (hmem : Held maxAlloc args)
include hmem

theorem makeCap_of_le {width : Nat} (hwidth : width ≤ stringWidth) (h0 : 0 ≤ n.toInt)
    (hn : n.toInt ≤ args.length) : makeCap maxAlloc width n = .ok () := by
  have hprod : n.toInt * width ≤ stringWidth * args.length := by
    rw [Int.mul_comm]
    exact Int.mul_le_mul (by omega) hn h0 (by omega)
  have hle := hmem.1
  rw [makeCap, if_neg]
  rw [Int64.lt_iff_toInt_lt, Int64.toInt_zero]
  omega

/-- Keys that are all there are taken. -/
theorem takeKeys_of_le {lo : Int64} (h0 : 0 ≤ lo.toInt) (hn : 0 ≤ n.toInt)
    (hle : lo.toInt + n.toInt ≤ args.length) : takeKeys maxAlloc args lo n =
      .ok (keyArgs ((args.drop lo.toInt.toNat).take n.toInt.toNat)) := by
  have hlen := hmem.length_lt
  have hsum : (lo + n).toInt = lo.toInt + n.toInt := toInt_add_of_lt h0 hn (by omega)
  have hcount : (lo + n).toInt - lo.toInt = n.toInt := by omega
  rw [takeKeys, makeCap_of_le hmem (le_refl _) hn (by omega),
    sliceList_eq h0 (by omega) (by omega), hcount]
  rfl

theorem takeKeys_yields {lo : Int64} (hlo : lo.toInt = numPos + 1) (hn : 1 ≤ n.toInt)
    (hle : numPos + 1 + n.toInt ≤ args.length) :
    Parse.Yields (takeKeys maxAlloc args lo n) fun keys =>
      following args numPos n = some (keys.map some) := by
  rw [takeKeys_of_le hmem (by omega) (by omega) (by omega)]
  refine ⟨_, rfl, fun keys h => ?_⟩
  have hstart : lo.toInt.toNat = numPos + 1 := by omega
  rw [hstart] at h
  rw [following, if_pos ⟨hn, hle⟩, keyArgs_ok h]

theorem takeWeights_of_le {parseScore : Bytes → Option UInt64} {i num : Int64} (h0 : 0 ≤ i.toInt)
    (hn : 0 ≤ num.toInt) (hle : i.toInt + 1 + num.toInt ≤ args.length) :
    takeWeights maxAlloc parseScore args i num =
      .ok (weightArgs parseScore ((args.drop (i.toInt.toNat + 1)).take num.toInt.toNat)) := by
  have hlen := hmem.length_lt
  have hone : (1 : Int64).toInt = 1 := rfl
  have hnext : (i + 1).toInt = i.toInt + 1 := toInt_add_of_lt h0 (by omega) (by omega)
  have hsum : (i + 1 + num).toInt = i.toInt + 1 + num.toInt := by
    rw [toInt_add_of_lt (by omega) hn (by omega), hnext]
  have hcount : (i + 1 + num).toInt - (i + 1).toInt = num.toInt := by omega
  have hstart : (i + 1).toInt.toNat = i.toInt.toNat + 1 := by omega
  rw [takeWeights, makeCap_of_le hmem (by decide) hn (by omega),
    sliceList_eq (by omega) (by omega) (by omega), hcount, hstart]
  rfl

/-- The options keep the keys. -/
theorem zsetOptions_yields {parseScore : Bytes → Option UInt64} {num : Int64} (hnum : 0 ≤ num.toInt)
    (hle : num.toInt ≤ args.length) (i skip : Nat) (hi : i + rest.length = args.length)
    (spec : ZSetOpSpec) :
    (zsetOptions maxAlloc parseScore args num allowExtra i skip spec rest).Yields
      (·.keys = spec.keys) := by
  have hlen := hmem.length_lt
  induction rest generalizing i skip spec with
  | nil => cases skip <;> exact yields_ok rfl
  | cons a rest ih =>
    rw [length_cons] at hi
    have hnext : ∀ skip spec', spec'.keys = spec.keys →
        (zsetOptions maxAlloc parseScore args num allowExtra (i + 1) skip spec' rest).Yields
          (·.keys = spec.keys) := fun skip spec' hkeys =>
      (ih (i + 1) skip (by omega) spec').mono fun _ h => h.trans hkeys
    cases skip with
    | succ skip => exact hnext skip spec rfl
    | zero =>
      cases a with
      | none => exact yields_reject
      | some opt =>
        rw [zsetOptions]
        split_ifs with hw hextra hshort ha hextra hs hextra
        · exact yields_reject
        · -- the weights are there, as the end of their part was compared without wrapping around
          have hiInt : (Int64.ofNat i).toInt = i := Int64.toInt_ofNat_of_lt (by omega)
          have hone : (1 : Int64).toInt = 1 := rfl
          have hstart : (Int64.ofNat i + 1).toInt = i + 1 := by
            rw [toInt_add_of_lt (by omega) (by omega) (by omega)]
            omega
          have hend : (Int64.ofNat i + 1 + num).toInt = i + 1 + num.toInt := by
            rw [toInt_add_of_lt (by omega) hnum (by omega), hstart]
          rw [Int64.lt_iff_toInt_lt, toInt_len64 (by omega)] at hshort
          rw [takeWeights_of_le hmem (by omega) hnum (by omega)]
          have hweights : Parse.Yields (.ok (weightArgs parseScore
              ((args.drop ((Int64.ofNat i).toInt.toNat + 1)).take num.toInt.toNat)) : Parse _)
              fun _ => True := ⟨_, rfl, fun _ _ => trivial⟩
          exact hweights.bind fun ws _ => hnext _ _ rfl
        · exact yields_reject
        · split
          · exact yields_reject
          · exact yields_reject
          · split
            · exact yields_reject
            · exact hnext _ _ rfl
        · exact yields_reject
        · exact hnext _ _ rfl
        · exact yields_reject
        · exact yields_reject

theorem defaultWeights_yields {spec : ZSetOpSpec} (h : spec.keys.length ≤ args.length) :
    (defaultWeights maxAlloc spec).Yields (·.keys = spec.keys) := by
  rw [defaultWeights]
  split
  · exact yields_ok rfl
  · have hlen := hmem.length_lt
    have hkeys : (len64 spec.keys).toInt = spec.keys.length := toInt_len64 (by omega)
    rw [makeCap_of_le hmem (by decide) (by omega) (by omega)]
    exact yields_ok rfl

/-- The keys of the number at the front are taken exactly when one more than the number fits in 64
bits. -/
theorem zsetKeys_cases {text : Bytes} (hargs : args = some text :: rest)
    (hn : parseInt text = some n) :
    (1 + n.toInt < 2 ^ 63 ∧ (zsetKeys maxAlloc args name).Yields fun p =>
        p.1 = n ∧ following args 0 n = some (p.2.map some)) ∨
      (2 ^ 63 ≤ 1 + n.toInt ∧ zsetKeys maxAlloc args name = .error .makeSlice) := by
  have hlen := hmem.length_lt
  have hone : (1 : Int64).toInt = 1 := rfl
  have hunfold : zsetKeys maxAlloc args name =
      if n < 1 then .reject ("ERR at least 1 input key is needed for '" ++ name ++ "' command")
      else if len64 args < 1 + n then .reject (wrongNumber name)
      else Parse.bind (takeKeys maxAlloc args 1 n) fun keys => .ok (.ok (n, keys)) := by
    rw [hargs, zsetKeys, hn]
  by_cases hfew : n < 1
  · refine .inl ⟨?_, ?_⟩
    · have := n.toInt_lt
      rw [Int64.lt_iff_toInt_lt] at hfew
      omega
    · rw [hunfold, if_pos hfew]
      exact yields_reject
  · rw [hunfold, if_neg hfew]
    rw [Int64.lt_iff_toInt_lt] at hfew
    rcases toInt_add_cases (a := 1) (b := n) (by decide) (by omega) with ⟨hfits, hsum⟩ | ⟨hwrap, hsum⟩
    · refine .inl ⟨by omega, ?_⟩
      split
      · exact yields_reject
      · next hshort =>
        rw [Int64.lt_iff_toInt_lt, toInt_len64 (by omega)] at hshort
        exact (takeKeys_yields hmem rfl (by omega) (by omega)).bind fun keys h => yields_ok ⟨rfl, h⟩
    · refine .inr ⟨by omega, ?_⟩
      have hmax := hmem.2
      have hnot : ¬ len64 args < 1 + n := by
        rw [Int64.lt_iff_toInt_lt, toInt_len64 (by omega)]
        have := n.toInt_lt
        omega
      have hroom : makeCap maxAlloc stringWidth n = .error .makeSlice := by
        rw [makeCap, if_pos]
        simp only [stringWidth]
        omega
      rw [if_neg hnot, takeKeys, hroom]
      rfl

/-- A number that is compared with what is left is never too large. -/
theorem countedKeys_yields {text : Bytes} (hn : parseInt text = some n) (hpos : numPos ≤ 1)
    {bad : String} : (countedKeys maxAlloc (numPos + 1) bad args (some text)).Yields fun p =>
      following args numPos n = some (p.1.map some) := by
  have hlen := hmem.length_lt
  have hkey : (Int64.ofNat (numPos + 1)).toInt = numPos + 1 :=
    Int64.toInt_ofNat_of_lt (by omega)
  rw [countedKeys, hn]
  dsimp only
  split
  · exact yields_reject
  · next hroom =>
    rw [not_or, Int64.not_le, Int64.lt_iff_toInt_lt, Int64.toInt_zero] at hroom
    have hsum : (Int64.ofNat (numPos + 1) + n).toInt = numPos + 1 + n.toInt := by
      rw [toInt_add_of_lt (by omega) (by omega) (by omega), hkey]
    refine (takeKeys_yields hmem hkey (by omega) (by omega)).bind fun keys h => ?_
    rw [sliceList_toEnd (by omega) (by omega), if_pos (by omega)]
    exact yields_ok h

end

theorem following_cons {α : Type} {a : α} {xs : List α} {n : Int64} :
    following (a :: xs) (numPos + 1) n = following xs numPos n := by
  simp only [following, length_cons, drop_succ_cons]
  congr 1
  simp only [eq_iff_iff, and_congr_right_iff]
  omega

theorem length_of_following {α : Type} {xs ys : List α} (h : following xs numPos n = some ys) :
    1 ≤ n.toInt ∧ ys.length = n.toInt.toNat ∧ numPos + 1 + n.toInt ≤ xs.length := by
  unfold following at h
  split at h
  · next hn =>
    cases h
    rw [length_take, length_drop]
    omega
  · cases h

section

variable {maxAlloc : Nat} {args : List Arg} (hmem : Held maxAlloc args) {text : Bytes} {n : Int64}
  (hn : parseInt text = some n)

include hmem hn

theorem parseZSetOp_cases {parseScore : Bytes → Option UInt64}
    (hargs : args.head? = some (some text)) :
    (1 + n.toInt < 2 ^ 63 ∧ (parseZSetOp maxAlloc parseScore args name allowExtra).Yields fun spec =>
        following args 0 n = some (spec.keys.map some)) ∨
      (2 ^ 63 ≤ 1 + n.toInt ∧
        parseZSetOp maxAlloc parseScore args name allowExtra = .error .makeSlice) := by
  obtain ⟨rest, hrest⟩ := head?_eq_some_iff.mp hargs
  rcases zsetKeys_cases hmem hrest hn with ⟨hfits, hkeys⟩ | ⟨hwrap, hpanic⟩
  · refine .inl ⟨hfits, hkeys.bind ?_⟩
    rintro ⟨num, keys⟩ ⟨hnum, hfollow⟩
    dsimp only at hnum hfollow ⊢
    subst hnum
    have hlen := length_of_following hfollow
    rw [length_map] at hlen
    refine (zsetOptions_yields hmem (by omega) (by omega) _ 0 ?_ { keys }).bind ?_
    · rw [length_drop]
      omega
    · intro spec hspec
      refine (defaultWeights_yields hmem ?_).mono fun spec' hspec' => ?_
      · rw [hspec]
        dsimp only
        omega
      · rw [hspec', hspec]
        exact hfollow
  · refine .inr ⟨hwrap, ?_⟩
    rw [parseZSetOp, hpanic]
    rfl

theorem handler_zset_iff {parseScore : Bytes → Option UInt64}
    (hargs : args.head? = some (some text)) :
    ((parseZSetOp maxAlloc parseScore args name allowExtra).bind (.ok <| .ok ·.keys)).Yields
        (fun keys => following args 0 n = some (keys.map some)) ↔ 1 + n.toInt < 2 ^ 63 := by
  rcases parseZSetOp_cases hmem hn hargs with
    ⟨hfits, hyields⟩ | ⟨hwrap, hpanic⟩
  · exact iff_of_true (hyields.bind fun spec h => yields_ok h) hfits
  · rw [hpanic]
    exact iff_of_false not_yields_error (by omega)

theorem handler_store_iff {parseScore : Bytes → Option UInt64} (hargs : args[1]? = some (some text))
    : ((storeZSetOp maxAlloc parseScore args name allowExtra).bind (.ok <| .ok ·.keys)).Yields
        (fun keys => following args 1 n = some (keys.map some)) ↔
      args.head? = some none ∨ 1 + n.toInt < 2 ^ 63 := by
  match args, hmem, hargs with
  | none :: _ :: _, _, _ => exact iff_of_true yields_reject (.inl rfl)
  | some dst :: num :: rest, hmem, hargs =>
    have hmem' : Held maxAlloc (num :: rest) :=
      ⟨(Nat.mul_le_mul_left _ (Nat.le_succ _)).trans hmem.1, hmem.2⟩
    simp only [following_cons, head?_cons, Option.some.injEq, reduceCtorEq, false_or]
    exact handler_zset_iff hmem' hn hargs

theorem handler_zintercard_iff (hargs : args.head? = some (some text)) :
    ((zintercard maxAlloc args).bind (.ok <| .ok ·.1)).Yields
        (fun keys => following args 0 n = some (keys.map some)) ↔ 1 + n.toInt < 2 ^ 63 := by
  obtain ⟨rest, hrest⟩ := head?_eq_some_iff.mp hargs
  have hlen := hmem.length_lt
  rcases zsetKeys_cases hmem hrest hn with ⟨hfits, hkeys⟩ | ⟨hwrap, hpanic⟩
  · refine iff_of_true ?_ hfits
    have hlimit : (zintercard maxAlloc args).Yields fun p =>
        following args 0 n = some (p.1.map some) := by
      refine hkeys.bind ?_
      rintro ⟨num, keys⟩ ⟨hnum, hfollow⟩
      dsimp only at hnum hfollow ⊢
      subst hnum
      have hcount := length_of_following hfollow
      have hone : (1 : Int64).toInt = 1 := rfl
      have hsum : (1 + num).toInt = 1 + num.toInt := toInt_add_of_lt (by omega) (by omega) (by omega)
      rw [sliceList_toEnd (by omega) (by omega), if_pos (by omega)]
      exact yields_map fun _ => hfollow
    exact hlimit.bind fun _ h => yields_ok h
  · rw [zintercard, hpanic]
    exact iff_of_false not_yields_error (by omega)

theorem sintercard_yields (hargs : args.head? = some (some text)) :
    (sintercard maxAlloc args).Yields fun p => following args 0 n = some (p.1.map some) := by
  match args, hmem, hargs with
  | [_], _, _ => exact yields_reject
  | some num :: a :: rest, hmem, rfl =>
    exact (countedKeys_yields hmem hn (by decide)).bind fun _ h => yields_map fun _ => h

theorem popKeys_yields {words : PopWords} (hpos : numPos ≤ 1) :
    (popKeys maxAlloc words (numPos + 1) args (some text)).Yields fun spec =>
      following args numPos n = some (spec.keys.map some) :=
  (countedKeys_yields hmem hn hpos).bind fun _ h => yields_map fun _ => h

theorem mpop_yields {words : PopWords} (hargs : args.head? = some (some text)) :
    (mpop maxAlloc words name args).Yields fun spec =>
      following args 0 n = some (spec.keys.map some) := by
  match args, hmem, hargs with
  | [_], _, _ | [_, _], _, _ => exact yields_reject
  | some num :: a :: b :: rest, hmem, rfl => exact popKeys_yields hmem hn (by decide)

theorem blockingPop_yields {parseTimeout : Bytes → Option Int64} {words : PopWords}
    (hargs : args[1]? = some (some text)) :
    (blockingPop maxAlloc parseTimeout words name args).Yields fun p =>
      following args 1 n = some (p.1.keys.map some) := by
  match args, hmem, hargs with
  | [_, _], _, _ | [_, _, _], _, _ => exact yields_reject
  | timeout :: some num :: a :: b :: rest, hmem, rfl =>
    rw [blockingPop]
    split
    · exact yields_reject
    · exact (popKeys_yields hmem hn (by decide)).bind fun _ h => yields_ok h

end

end Gedis.Commands.Numkeys
