import Gedis.Commands.ScanCover
import Gedis.Core.Slices

/-!
# Ranges of strings

`GETRANGE` cuts a piece out of a string, with negative bounds counted from its end. `SETRANGE` writes
a value over a string at an offset and pads the string with zero bytes where it is too short. Both
compute in 64 bits. The sum of the offset and the length of the value is the only one that can wrap
around.
-/

namespace Gedis.Commands

open Gedis.Core Datastruct Protocol Storage List

/-- The bytes between two bounds, both included. -/
def sliceString (payload : Bytes) (start stop : Int64) : Go Bytes :=
  let n := len64 payload
  let start := if start < 0 then start + n else start
  let stop := if stop < 0 then stop + n else stop
  let start := if start < 0 then 0 else start
  let stop := if n ≤ stop then n - 1 else stop
  if stop < start ∨ n ≤ start then .ok [] else sliceList payload start (stop + 1)

/-- `GETRANGE key start end`. -/
def getrange : List Arg → Handler (Go Reply)
  | [none, _, _] => pure (.ok (.error "ERR invalid key"))
  | [some key, some start, some stop] =>
    match parseInt start, parseInt stop with
    | some start, some stop => do
      match ← readKind .string key with
      | .error f => pure (.ok f.reply)
      | .ok none => pure (.ok (.bulk []))
      | .ok (some e) => pure ((sliceString e.payload start stop).map .bulk)
    | _, _ => pure (.ok (.error errRange))
  | [_, _, _] => pure (.ok (.error errRange))
  | _ => pure (.ok (.error "ERR wrong number of arguments for 'getrange' command"))

/-- Write a value over a string at an offset. -/
def overwrite (maxAlloc : Nat) (base : Bytes) (offset : Int64) (value : Bytes) : Go Bytes := do
  let stop := offset + len64 value
  let newLen := if len64 base < stop then stop else len64 base
  let zeros ← makeBytes maxAlloc newLen
  let out := copyInto zeros base
  let rest ← sliceList out offset (len64 out)
  pure (out.take offset.toInt.toNat ++ copyInto rest value)

/-- `SETRANGE key offset value`. -/
def setrange (maxAlloc : Nat) : List Arg → Handler (Go Reply)
  | [none, _, _] => pure (.ok (.error "ERR invalid key"))
  | [some _, none, _] => pure (.ok (.error errRange))
  | [some key, some offset, value] =>
    match parseInt offset with
    | none => pure (.ok (.error "ERR offset is out of range"))
    | some offset =>
      if offset < 0 then pure (.ok (.error "ERR offset is out of range"))
      else
        match value with
        | none => pure (.ok (.error "ERR invalid value"))
        | some value => do
          match ← readKind .string key with
          | .error f => pure (.ok f.reply)
          | .ok old =>
            match overwrite maxAlloc (old.elim [] Entry.payload) offset value with
            | .error p => pure (.error p)
            | .ok out => do
              match ← writeKind .string key (oldExpiry old) out with
              | .oom => pure (.ok Failure.oom.reply)
              | .ok => pure (.ok (.int (len64 out)))
  | _ => pure (.ok (.error "ERR wrong number of arguments for 'setrange' command"))

/-- The position that a bound stands for: negative bounds count from the end. -/
def position (bound : Int) (b : Bytes) : Int := if bound < 0 then bound + b.length else bound

/-- The bytes at the positions between two bounds. -/
def between (b : Bytes) (start stop : Int) : Bytes :=
  (b.zipIdx.filter fun x => position start b ≤ x.2 ∧ x.2 ≤ position stop b).map Prod.fst

/-- A string padded with zero bytes, with a value written at an offset. -/
def written (b : Bytes) (off : Nat) (value : Bytes) : Bytes :=
  (List.range (max b.length (off + value.length))).map fun p =>
    if off ≤ p ∧ p < off + value.length then value.getD (p - off) 0 else b.getD p 0

theorem length_written {b : Bytes} {off : Nat} {value : Bytes} :
    (written b off value).length = max b.length (off + value.length) := by
  rw [written, length_map, length_range]

private theorem filter_zipIdx (b : Bytes) (i : Nat) (lo hi : Int) :
    ((b.zipIdx i).filter fun x => lo ≤ x.2 ∧ x.2 ≤ hi).map Prod.fst =
      (b.drop (lo - i).toNat).take (hi + 1 - max lo i).toNat := by
  induction b generalizing i with
  | nil => simp
  | cons x b ih =>
    rw [zipIdx_cons, filter_cons]
    by_cases hlo : lo ≤ i
    · by_cases hhi : (i : Int) ≤ hi
      · rw [if_pos (by simp [hlo, hhi]), map_cons, ih]
        have hcount : (hi + 1 - max lo i).toNat = (hi + 1 - max lo (i + 1 : Nat)).toNat + 1 := by omega
        rw [show (lo - i).toNat = 0 by omega, show (lo - (i + 1 : Nat)).toNat = 0 by omega, hcount]
        rfl
      · rw [if_neg (by simp [hhi]), ih, show (hi + 1 - max lo i).toNat = 0 by omega,
          show (hi + 1 - max lo (i + 1 : Nat)).toNat = 0 by omega]
        rfl
    · have hskip : (lo - i).toNat = (lo - (i + 1 : Nat)).toNat + 1 := by omega
      rw [if_neg (by simp [hlo]), ih, hskip, drop_succ_cons, show max lo (i : Int) = lo by omega,
        show max lo ((i + 1 : Nat) : Int) = lo by omega]

/-- The bytes between two bounds are one piece of the string. -/
theorem between_eq {b : Bytes} {start stop : Int} :
    between b start stop = (b.drop (position start b).toNat).take
      (position stop b + 1 - max (position start b) 0).toNat := by
  have h := filter_zipIdx b 0 (position start b) (position stop b)
  rwa [Int.natCast_zero, Int.sub_zero] at h

/-- The bounds of `GETRANGE` never leave the string. -/
theorem sliceString_eq {b : Bytes} (hb : b.length < 2 ^ 63) {start stop : Int64} :
    sliceString b start stop = .ok (between b start.toInt stop.toInt) := by
  have hn := toInt_len64 hb
  have hshift (x : Int64) :
      (if x < 0 then x + len64 b else x).toInt = position x.toInt b := by
    have hlow := x.le_toInt
    rw [position]
    by_cases hx : x < 0
    · have hneg : x.toInt < 0 := Int64.lt_iff_toInt_lt.mp hx
      rw [if_pos hx, Int64.toInt_add, Int.bmod_eq_of_le] <;> omega
    · have hpos : ¬ x.toInt < 0 := fun h => hx (Int64.lt_iff_toInt_lt.mpr h)
      rw [if_neg hx, if_neg hpos]
  rw [sliceString, between_eq]
  generalize hs : (if start < 0 then start + len64 b else start) = s
  generalize he : (if stop < 0 then stop + len64 b else stop) = e
  have hs' := hshift start
  have he' := hshift stop
  rw [hs] at hs'
  rw [he] at he'
  rw [← hs', ← he']
  have hfirst : (if s < 0 then 0 else s).toInt = max s.toInt 0 := by
    split
    · next h => rw [Int64.lt_iff_toInt_lt] at h; simp at h ⊢; omega
    · next h => rw [Int64.lt_iff_toInt_lt] at h; simp at h ⊢; omega
  have hlast : (if len64 b ≤ e then len64 b - 1 else e).toInt = min e.toInt (b.length - 1) := by
    split
    · next h =>
      rw [Int64.le_iff_toInt_le] at h
      rw [Int64.toInt_sub, Int.bmod_eq_of_le] <;> simp <;> omega
    · next h =>
      rw [Int64.le_iff_toInt_le] at h
      omega
  generalize hfi : (if s < 0 then (0 : Int64) else s) = fi at hfirst ⊢
  generalize hla : (if len64 b ≤ e then len64 b - 1 else e) = la at hlast ⊢
  by_cases hempty : la < fi ∨ len64 b ≤ fi
  · rw [if_pos hempty]
    rw [Int64.lt_iff_toInt_lt, Int64.le_iff_toInt_le] at hempty
    congr 1
    symm
    by_cases hbeyond : (b.length : Int) ≤ max s.toInt 0
    · rw [drop_eq_nil_of_le (by omega), take_nil]
    · rw [show (e.toInt + 1 - max s.toInt 0).toNat = 0 by omega, take_zero]
  · rw [if_neg hempty]
    rw [Int64.lt_iff_toInt_lt] at hempty
    have hone : (1 : Int64).toInt = 1 := rfl
    have hstop : (la + 1).toInt = la.toInt + 1 := by
      rw [toInt_add_of_lt (by omega) (by omega) (by omega), hone]
    rw [sliceList_eq (by omega) (by omega) (by omega), hstop, hfirst]
    congr 1
    rw [show (max s.toInt 0).toNat = s.toInt.toNat by omega]
    by_cases hcut : e.toInt ≤ b.length - 1
    · rw [show la.toInt + 1 - max s.toInt 0 = e.toInt + 1 - max s.toInt 0 by omega]
    · rw [take_of_length_le (by rw [length_drop]; omega),
        take_of_length_le (by rw [length_drop]; omega)]

section
variable {maxAlloc : Nat} {b value : Bytes} {off : Int64}

private theorem toInt_newLen (hb : b.length < 2 ^ 63) (hvalue : value.length < 2 ^ 63)
    (hoff : 0 ≤ off.toInt) (hfits : off.toInt + value.length < 2 ^ 63) :
    (if len64 b < off + len64 value then off + len64 value else len64 b).toInt =
      max (b.length : Int) (off.toInt + value.length) := by
  have hn := toInt_len64 hb
  have hv := toInt_len64 hvalue
  have hsum := toInt_add_of_lt (b := len64 value) hoff (by omega) (by omega)
  split
  · next h => rw [Int64.lt_iff_toInt_lt] at h; omega
  · next h => rw [Int64.lt_iff_toInt_lt] at h; omega

private theorem copies_eq (b value : Bytes) (off : Nat) :
    let out := copyInto (replicate (max b.length (off + value.length)) 0) b
    out.take off ++ copyInto (out.drop off) value = written b off value := by
  intro out
  have hlen : out.length = max b.length (off + value.length) := by
    rw [length_copyInto, length_replicate]
  apply ext_getElem?
  intro p
  rw [getElem?_append, length_take, getElem?_copyInto, length_drop, written,
    getElem?_map]
  by_cases hp : p < max b.length (off + value.length)
  · rw [getElem?_range hp, Option.map_some]
    have hout : out[p]? = some (b.getD p 0) := by
      rw [getElem?_copyInto, length_replicate, getElem?_replicate, getD]
      by_cases hpb : p < b.length
      · rw [if_pos ⟨hp, hpb⟩, getElem?_eq_getElem hpb]
        rfl
      · rw [if_neg (by omega), if_pos hp, getElem?_eq_none (by omega)]
        rfl
    by_cases hbefore : p < off
    · rw [if_pos (by omega), getElem?_take_of_lt hbefore, hout, if_neg (by omega)]
    · rw [if_neg (by omega), show p - min off out.length = p - off by omega]
      by_cases hin : p < off + value.length
      · have hv : p - off < value.length := by omega
        rw [if_pos (by omega), if_pos (by omega), getD, getElem?_eq_getElem hv]
        rfl
      · rw [if_neg (by omega), if_neg (by omega), getElem?_drop,
          show off + (p - off) = p by omega, hout]
  · rw [if_neg (by omega), if_neg (by omega), getElem?_eq_none (by rw [length_drop]; omega),
      getElem?_eq_none (by rw [length_range]; omega)]
    rfl

/-- An offset whose sum with the length of the value does not wrap around, and a string that can be
allocated. -/
theorem overwrite_eq (hb : b.length < 2 ^ 63) (hvalue : value.length < 2 ^ 63) (hoff : 0 ≤ off.toInt)
    (hfits : off.toInt + value.length < 2 ^ 63)
    (halloc : max (b.length : Int) (off.toInt + value.length) ≤ maxAlloc) :
    overwrite maxAlloc b off value = .ok (written b off.toInt.toNat value) := by
  have hnew := toInt_newLen hb hvalue hoff hfits
  rw [overwrite]
  generalize (if len64 b < off + len64 value then off + len64 value else len64 b) = newLen at hnew ⊢
  have hmake : makeBytes maxAlloc newLen =
      .ok (replicate (max b.length (off.toInt.toNat + value.length)) 0) := by
    rw [makeBytes, if_neg, show newLen.toInt.toNat = max b.length (off.toInt.toNat + value.length) by
      omega]
    rw [Int64.lt_iff_toInt_lt]
    simp only [Int64.toInt_zero]
    omega
  rw [hmake]
  have hcopies := copies_eq b value off.toInt.toNat
  generalize hout : copyInto (replicate (max b.length (off.toInt.toNat + value.length)) 0) b = out
    at hcopies
  have hlen : out.length = max b.length (off.toInt.toNat + value.length) := by
    rw [← hout, length_copyInto, length_replicate]
  have hrest : sliceList out off (len64 out) = .ok (out.drop off.toInt.toNat) := by
    rw [sliceList_toEnd (by omega) hoff, if_pos (by omega)]
  simp only [bind, Except.bind, hout, hrest]
  exact congrArg Except.ok hcopies

/-- A string that cannot be allocated. -/
theorem overwrite_of_lt (hb : b.length < 2 ^ 63) (hvalue : value.length < 2 ^ 63)
    (hoff : 0 ≤ off.toInt) (hfits : off.toInt + value.length < 2 ^ 63)
    (halloc : maxAlloc < max (b.length : Int) (off.toInt + value.length)) :
    overwrite maxAlloc b off value = .error .makeSlice := by
  have hnew := toInt_newLen hb hvalue hoff hfits
  rw [overwrite]
  generalize (if len64 b < off + len64 value then off + len64 value else len64 b) = newLen at hnew ⊢
  have hmake : makeBytes maxAlloc newLen = .error .makeSlice := if_pos (.inr (by omega))
  rw [hmake]
  rfl

/-- Once the sum wraps around, the new string is no longer than the old one and the offset lies
behind its end. -/
theorem overwrite_of_wrapped (hmem : b.length + value.length < 2 ^ 63) (hoff : 0 ≤ off.toInt)
    (hwrap : 2 ^ 63 ≤ off.toInt + value.length) : ∃ p, overwrite maxAlloc b off value = .error p := by
  have hn := toInt_len64 (show b.length < 2 ^ 63 by omega)
  have hv := toInt_len64 (show value.length < 2 ^ 63 by omega)
  have hsum : (off + len64 value).toInt < 0 := by
    have hlt := off.toInt_lt
    rcases toInt_add_cases (b := len64 value) hoff (by omega) with ⟨hlt, -⟩ | ⟨-, hsum⟩ <;> omega
  have hnot : ¬ len64 b < off + len64 value := by
    rw [Int64.lt_iff_toInt_lt]
    omega
  rw [overwrite, if_neg hnot, makeBytes]
  split
  · exact ⟨_, rfl⟩
  · have hlen : (copyInto (replicate b.length 0) b).length = b.length := by
      rw [length_copyInto, length_replicate]
    simp only [hn, Int.toNat_natCast, bind, Except.bind]
    rw [sliceList_toEnd (by omega) hoff, if_neg (by omega)]
    exact ⟨_, rfl⟩

/-- The string is rewritten as long as the sum does not wrap around and the result can be
allocated. -/
theorem overwrite_cases (maxAlloc : Nat) (hmem : b.length + value.length < 2 ^ 63)
    (hoff : 0 ≤ off.toInt) :
    (off.toInt + value.length < 2 ^ 63 ∧ max (b.length : Int) (off.toInt + value.length) ≤ maxAlloc ∧
        overwrite maxAlloc b off value = .ok (written b off.toInt.toNat value)) ∨
      (¬ (off.toInt + value.length < 2 ^ 63 ∧
          max (b.length : Int) (off.toInt + value.length) ≤ maxAlloc) ∧
        ∃ p, overwrite maxAlloc b off value = .error p) := by
  have hb : b.length < 2 ^ 63 := by omega
  have hvalue : value.length < 2 ^ 63 := by omega
  by_cases hfits : off.toInt + value.length < 2 ^ 63
  · by_cases halloc : max (b.length : Int) (off.toInt + value.length) ≤ maxAlloc
    · exact .inl ⟨hfits, halloc, overwrite_eq hb hvalue hoff hfits halloc⟩
    · exact .inr ⟨fun h => halloc h.2, _, overwrite_of_lt hb hvalue hoff hfits (by omega)⟩
  · exact .inr ⟨fun h => hfits h.1, overwrite_of_wrapped hmem hoff (by omega)⟩

end

/-- A user key holds a string that has not expired. -/
def HoldsString (w : World) (key : Bytes) (e : Entry) : Prop :=
  e.typ = typeString ∧ LiveEntry w.store.db (w.clock 0) (rawKey .s key) e

/-- The store once a command has read a string. -/
def World.afterRead (w : World) (key : Bytes) : World :=
  ((readKind .string key).exec World.answer w).1

theorem exec_readKind_string {w : World} {key : Bytes} {e : Entry} (h : HoldsString w key e) :
    (w.afterRead key).store.db = w.store.db ∧
      (readKind .string key).exec World.answer w = (w.afterRead key, .ok (some e)) := by
  have hmem : rawKey .s key ∈ w.store.db := by
    obtain ⟨v, hv, -⟩ := h.2
    exact (Std.ExtTreeMap.getElem?_eq_some_iff.mp hv).1
  have hfirst : typePrefixes.find? (fun p => decide (rawKey p key ∈ w.store.db)) = some .s :=
    find?_cons_of_pos (by simpa using hmem)
  obtain ⟨w', hdb, hexec⟩ := exec_lookupFrom_live hfirst h.2
  have hread : (readKind .string key).exec World.answer w = (w', .ok (some e)) := by
    rw [readKind, Prog.exec_bind, lookupRaw, hexec]
    simp only [h.1, Kind.tag, ite_true]
    rfl
  rw [World.afterRead, hread]
  exact ⟨hdb, rfl⟩

/-- `SETRANGE` reports an error and leaves the record alone, or it stores the padded string with the
value written into it, under the deadline that the key had, and replies its length. -/
def SetrangeRefines (key : Bytes) (e : Entry) (off : Nat) (value : Bytes)
    (before after : OrdMap Bytes Bytes) (r : Go Reply) : Prop :=
  (∃ text, r = .ok (.error text) ∧ after[rawKey .s key]? = before[rawKey .s key]?) ∨
    ∃ n : Int64, r = .ok (.int n) ∧ n.toInt = max (e.payload.length : Int) (off + value.length) ∧
      after[rawKey .s key]? = some (encode typeString e.expiry (written e.payload off value))

/-- A write that is refused does not evict the record that it was to replace. -/
def SparedIfRefused (s : Pebble) (raw value : Bytes) : Prop :=
  (s.makeRoom raw value).2 = .oom → (s.makeRoom raw value).1.db[raw]? = s.db[raw]?

/-- The end of the written range does not wrap around, the new string can be allocated, and the old
one is not lost to a write that is refused. -/
structure RangeFits (maxAlloc : Nat) (w : World) (key : Bytes) (e : Entry) (off : Int64)
    (value : Bytes) : Prop where
  sum : off.toInt + value.length < 2 ^ 63
  alloc : max (e.payload.length : Int) (off.toInt + value.length) ≤ maxAlloc
  spared : SparedIfRefused (w.afterRead key).store (rawKey .s key)
    (encode typeString e.expiry (written e.payload off.toInt.toNat value))

section
variable {w : World} {key : Bytes} {e : Entry}

theorem exec_getrange (h : HoldsString w key e) {start stop : Bytes} {s t : Int64}
    (hs : parseInt start = some s) (ht : parseInt stop = some t) :
    ((getrange [some key, some start, some stop]).exec World.answer w).2 =
      (sliceString e.payload s t).map .bulk := by
  obtain ⟨-, hread⟩ := exec_readKind_string h
  simp only [getrange, hs, ht]
  rw [Prog.exec_bind, hread]
  rfl

/-- `SETRANGE` reads the string, rewrites it and stores the result. -/
theorem exec_setrange {maxAlloc : Nat} (h : HoldsString w key e) {offset value : Bytes} {off : Int64}
    (hoffset : parseInt offset = some off) (hoff : 0 ≤ off.toInt) :
    (setrange maxAlloc [some key, some offset, some value]).exec World.answer w =
      match overwrite maxAlloc e.payload off value with
      | .error p => (w.afterRead key, .error p)
      | .ok out =>
        let r := (w.afterRead key).answer (.set (rawKey .s key) (encode typeString e.expiry out))
        (r.1, .ok (match r.2 with
          | .oom => Failure.oom.reply
          | .ok => .int (len64 out))) := by
  obtain ⟨-, hread⟩ := exec_readKind_string h
  have hnot : ¬ off < 0 := by
    rw [Int64.lt_iff_toInt_lt]
    simpa using hoff
  simp only [setrange, hoffset, if_neg hnot]
  rw [Prog.exec_bind, hread]
  dsimp only [Option.elim]
  cases overwrite maxAlloc e.payload off value with
  | error => rfl
  | ok out =>
    dsimp only
    rw [Prog.exec_bind]
    generalize hset : (writeKind .string key (oldExpiry (some e)) out).exec World.answer
      (w.afterRead key) = r
    have hr : (w.afterRead key).answer (.set (rawKey .s key) (encode typeString e.expiry out)) = r :=
      hset
    rw [hr]
    rcases r with ⟨w', _ | _⟩ <;> rfl

/-- `GETRANGE` returns the bytes between the bounds and `SETRANGE` refines a write into a padded
string exactly when the end of the written range fits in 64 bits, the result can be allocated and a
refused write does not evict the string. -/
theorem stringRanges_refine_iff (maxAlloc : Nat) (h : HoldsString w key e) {value : Bytes}
    (hmem : e.payload.length + value.length < 2 ^ 63) {start stop offset : Bytes} {s t off : Int64}
    (hs : parseInt start = some s) (ht : parseInt stop = some t) (hoffset : parseInt offset = some off)
    (hoff : 0 ≤ off.toInt) :
    (((getrange [some key, some start, some stop]).exec World.answer w).2 =
          .ok (.bulk (between e.payload s.toInt t.toInt)) ∧
        SetrangeRefines key e off.toInt.toNat value w.store.db
          ((setrange maxAlloc [some key, some offset, some value]).exec World.answer w).1.store.db
          ((setrange maxAlloc [some key, some offset, some value]).exec World.answer w).2) ↔
      RangeFits maxAlloc w key e off value := by
  have hget : ((getrange [some key, some start, some stop]).exec World.answer w).2 =
      .ok (.bulk (between e.payload s.toInt t.toInt)) := by
    rw [exec_getrange h hs ht, sliceString_eq (by omega)]
    rfl
  obtain ⟨hdb, -⟩ := exec_readKind_string h
  rw [exec_setrange h hoffset hoff]
  rcases overwrite_cases maxAlloc hmem hoff with
    ⟨hfits, halloc, hover⟩ | ⟨hnot, p, hover⟩
  · rw [hover]
    dsimp only [World.answer, Pebble.answer]
    have hlength : (len64 (written e.payload off.toInt.toNat value)).toInt =
        max (e.payload.length : Int) (off.toInt.toNat + value.length) := by
      rw [toInt_len64 (by rw [length_written]; omega), length_written]
      omega
    rcases (w.afterRead key).store.set_cases (rawKey .s key)
      (encode typeString e.expiry (written e.payload off.toInt.toNat value)) with
      ⟨hoom, hset⟩ | ⟨hok, hset⟩
    · rw [hset, ← hdb]
      constructor
      · rintro ⟨-, ⟨text, -, hsame⟩ | ⟨n, hn, -⟩⟩
        · exact ⟨hfits, halloc, fun _ => hsame⟩
        · cases hn
      · intro hfit
        exact ⟨hget, .inl ⟨_, rfl, hfit.spared hoom⟩⟩
    · rw [hset]
      refine ⟨fun _ => ⟨hfits, halloc, fun hoom => ?_⟩, fun _ => ⟨hget, .inr ⟨_, rfl, hlength, ?_⟩⟩⟩
      · rw [hok] at hoom
        cases hoom
      · exact OrdMap.getElem?_insert.trans (if_pos rfl)
  · rw [hover]
    refine ⟨fun hrefines => ?_, fun hfit => absurd ⟨hfit.sum, hfit.alloc⟩ hnot⟩
    rcases hrefines.2 with ⟨text, hr, -⟩ | ⟨n, hr, -⟩ <;> cases hr

end

/-- A store in which the key `k` holds the string `ab`. -/
def stringStore : World :=
  ⟨{ emptyStore with
      db := (∅ : OrdMap Bytes Bytes).insert (rawKey .s [107]) (encode typeString 0 [97, 98]) },
    fun _ => 1⟩

theorem holdsString_stringStore : HoldsString stringStore [107] ⟨typeString, 0, [97, 98]⟩ :=
  ⟨rfl, encode typeString 0 [97, 98], OrdMap.getElem?_insert.trans (if_pos rfl),
    decode_encode .., rfl⟩

/-- `SETRANGE k 4 x`, and `GETRANGE k -1 5`. -/
theorem stringRanges_refine_padded :
    RangeFits (2 ^ 47) stringStore [107] ⟨typeString, 0, [97, 98]⟩ 4 [120] ∧
      SetrangeRefines [107] ⟨typeString, 0, [97, 98]⟩ 4 [120] stringStore.store.db
        ((setrange (2 ^ 47) [some [107], some [52], some [120]]).exec World.answer
          stringStore).1.store.db
        ((setrange (2 ^ 47) [some [107], some [52], some [120]]).exec World.answer stringStore).2 := by
  have hfits : RangeFits (2 ^ 47) stringStore [107] ⟨typeString, 0, [97, 98]⟩ 4 [120] :=
    ⟨by decide, by decide, fun h => absurd h (by decide +kernel)⟩
  have hstart : parseInt [45, 49] = some (-1) := by decide
  have hstop : parseInt [53] = some 5 := by decide
  have hoffset : parseInt [52] = some 4 := by decide
  exact ⟨hfits, ((stringRanges_refine_iff (2 ^ 47) holdsString_stringStore (by decide) hstart hstop
    hoffset (by decide)).mpr hfits).2⟩

/-- The greatest offset. -/
def farOffset : Bytes := ascii "9223372036854775807".toList

/-- `SETRANGE k 9223372036854775807 x` panics. -/
theorem setrange_wraps :
    ¬ SetrangeRefines [107] ⟨typeString, 0, [97, 98]⟩ 9223372036854775807 [120] stringStore.store.db
      ((setrange (2 ^ 47) [some [107], some farOffset, some [120]]).exec World.answer
        stringStore).1.store.db
      ((setrange (2 ^ 47) [some [107], some farOffset, some [120]]).exec World.answer
        stringStore).2 := by
  have hpanic : ((setrange (2 ^ 47) [some [107], some farOffset, some [120]]).exec World.answer
      stringStore).2 = .error .sliceBounds := by decide +kernel
  rintro (⟨text, h, -⟩ | ⟨n, h, -⟩) <;> cases h

end Gedis.Commands
