import Gedis.Protocol.Decode

/-!
# Decoding inverts encoding

Every well-formed value is read back from its encoding in front of any further input. Lines, sized
bodies and counts are read back first; values follow by induction on their structure, with the
length of the encoding as a bound on the depth.
-/

namespace Gedis.Protocol

open Gedis.Core List

variable {n : Nat} {b body rest s : Bytes} {typ : UInt8} {vs : List Value}

/-- The text does not end the line it stands on. -/
def OneLine (s : Bytes) : Prop := ∀ b ∈ s, ¬ b = 10

instance (s : Bytes) : Decidable (OneLine s) := List.decidableBAll (¬ · = 10) s

/-- A body whose buffer can be allocated. -/
def BodyFits (limit : Nat) (b : Bytes) : Prop := b.length + 2 ≤ limit

mutual

/-- Values that the protocol can carry, with slices below the allocation limit. Only bulk strings
and arrays have a nil form on the wire. -/
def Value.WellFormed (limit : Nat) : Value → Prop
  | .simpleString s => OneLine s
  | .error s => OneLine s
  | .integer _ => True
  | .bulkString none => True
  | .bulkString (some b) => BodyFits limit b
  | .array none => True
  | .array (some vs) => vs.length * valueWidth ≤ limit ∧ AllWellFormed limit vs
  | .null => True
  | .boolean _ => True
  | .double _ => True
  | .bigNumber s => OneLine s
  | .bulkError none => False
  | .bulkError (some b) => BodyFits limit b
  | .verbatim _ none => False
  | .verbatim fmt (some b) => (∀ c ∈ fmt, ¬ c = 58) ∧ BodyFits limit (fmt ++ 58 :: b)
  | .map ps => ps.length * pairWidth ≤ limit ∧ PairsWellFormed limit ps
  | .set none => False
  | .set (some vs) => vs.length * valueWidth ≤ limit ∧ AllWellFormed limit vs
  | .attribute ps => ps.length * pairWidth ≤ limit ∧ PairsWellFormed limit ps
  | .push none => False
  | .push (some vs) => vs.length * valueWidth ≤ limit ∧ AllWellFormed limit vs
  | .hello => False

/-- All elements are well formed. -/
def AllWellFormed (limit : Nat) : List Value → Prop
  | [] => True
  | v :: vs => v.WellFormed limit ∧ AllWellFormed limit vs

/-- All keys and values are well formed. -/
def PairsWellFormed (limit : Nat) : List (Value × Value) → Prop
  | [] => True
  | (k, v) :: ps => k.WellFormed limit ∧ v.WellFormed limit ∧ PairsWellFormed limit ps

end

theorem line_append {rest : Bytes} : line typ s ++ rest = typ :: (s ++ (crlf ++ rest)) := by
  simp [line]

theorem length_line : (line typ s).length = s.length + 3 := by
  simp [line, crlf]

theorem sized_append {b rest : Bytes} : sized typ (some b) ++ rest =
      typ :: (size b.length ++ (crlf ++ (b ++ (crlf ++ rest)))) := by
  simp [sized, line]

private theorem splitLine_append (h : OneLine s) (rest : Bytes) :
    splitLine (s ++ 10 :: rest) = some (s ++ [10], rest) := by
  induction s with
  | nil => simp [splitLine]
  | cons b s ih =>
    have hb : ¬ b = 10 := h b (by simp)
    have hs : OneLine s := fun c hc => h c (by simp [hc])
    simp [splitLine, hb, ih hs]

/-- A line is read up to its end. -/
theorem readLine_append (h : OneLine s) {rest : Bytes} :
    readLine (s ++ (crlf ++ rest)) = .ok (s, rest) := by
  have hline : OneLine (s ++ [13]) := by
    intro b hb
    rcases mem_append.mp hb with hb | hb
    · exact h b hb
    · simp only [mem_singleton] at hb
      rw [hb]
      decide
  have hsplit := splitLine_append hline rest
  simp only [append_assoc, singleton_append] at hsplit
  simp [readLine, crlf, hsplit]

theorem oneLine_formatInt {n : Int64} : OneLine (formatInt n) := by
  intro b hb hlf
  subst hlf
  rcases mem_formatInt hb with h | h
  · exact absurd h (by decide)
  · exact absurd h (by decide)

/-- An integer is read back from its line. -/
theorem readInt_append (n : Int64) {rest : Bytes} :
    readInt (formatInt n ++ (crlf ++ rest)) = .ok (n, rest) := by
  simp [readInt, readLine_append oneLine_formatInt, parseInt_formatInt, bind, Except.bind]

section
variable {limit : Nat}

private theorem toNat_ofNat (h : n < 2 ^ 63) : (Int64.ofNat n).toInt.toNat = n := by
  rw [Int64.toInt_ofNat_of_lt h]
  exact Int.toNat_natCast _

private theorem ofNat_nonneg (h : n < 2 ^ 63) : ¬ Int64.ofNat n < 0 := by
  intro hlt
  have hneg := Int64.lt_iff_toInt_lt.mp hlt
  rw [Int64.toInt_ofNat_of_lt h, Int64.toInt_zero] at hneg
  omega

/-- A slice within the limit is allocated. -/
theorem makeSlice_ofNat {width : Nat} (hn : n < 2 ^ 63) (h : n * width ≤ limit) :
    makeSlice limit width (Int64.ofNat n) = .ok () := by
  have hcond : ¬ (Int64.ofNat n < 0 ∨ limit < (Int64.ofNat n).toInt.toNat * width) := by
    rintro (hneg | hbig)
    · exact ofNat_nonneg hn hneg
    · rw [toNat_ofNat hn] at hbig
      omega
  rw [makeSlice, if_neg hcond]

/-- A body is read up to the end of its line. -/
theorem readBody_append {missing : DecodeError} (hlimit : limit < 2 ^ 63) (h : BodyFits limit b)
    {rest : Bytes} :
    readBody limit missing (Int64.ofNat b.length) (b ++ (crlf ++ rest)) = .ok (b, rest) := by
  have hlen : b.length + 2 < 2 ^ 63 := lt_of_le_of_lt h hlimit
  have hsum : Int64.ofNat b.length + 2 = Int64.ofNat (b.length + 2) := (Int64.ofNat_add ..).symm
  have hmake : makeSlice limit 1 (Int64.ofNat b.length + 2) = .ok () := by
    rw [hsum]
    exact makeSlice_ofNat hlen (by rw [mul_one]; exact h)
  have hfull : readFull (b.length + 2) (b ++ (crlf ++ rest)) = .ok (b ++ crlf, rest) := by
    have hsplit : b ++ (crlf ++ rest) = (b ++ crlf) ++ rest := (append_assoc ..).symm
    have hbody : (b ++ crlf).length = b.length + 2 := by simp [crlf]
    rw [readFull, if_neg (by simp [crlf]), hsplit, ← hbody, take_left, drop_left]
  simp only [readBody, hmake, bind, Except.bind]
  rw [hsum, toNat_ofNat hlen, hfull, toNat_ofNat (by omega)]
  simp

private theorem length_checks (h : n < 2 ^ 63) :
    ¬ Int64.ofNat n = -1 ∧ ¬ Int64.ofNat n < -1 ∧ ¬ Int64.ofNat n < 0 := by
  have hpos := ofNat_nonneg h
  refine ⟨fun heq => hpos ?_, fun hlt => hpos ?_, hpos⟩
  · rw [heq]
    decide
  · exact Int64.lt_trans hlt (by decide)

private theorem lt_of_bodyFits (hlimit : limit < 2 ^ 63) (h : BodyFits limit b) :
    b.length < 2 ^ 63 := by
  have hle : b.length + 2 ≤ limit := h
  omega

/-- The nil length is read as minus one. -/
theorem readInt_nil {rest : Bytes} :
    readInt (ascii ['-', '1'] ++ (crlf ++ rest)) = .ok (-1, rest) :=
  readInt_append (-1)

theorem decodeBulk_nil {rest : Bytes} :
    decodeBulk limit (ascii ['-', '1'] ++ (crlf ++ rest)) = .ok (.bulkString none, rest) := by
  simp [decodeBulk, readInt_nil, bind, Except.bind]

/-- A bulk string is read back. -/
theorem decodeBulk_append (hlimit : limit < 2 ^ 63) (h : BodyFits limit b) {rest : Bytes} :
    decodeBulk limit (size b.length ++ (crlf ++ (b ++ (crlf ++ rest)))) =
      .ok (.bulkString (some b), rest) := by
  obtain ⟨hne, hlt, -⟩ := length_checks (lt_of_bodyFits hlimit h)
  simp [decodeBulk, size, readInt_append, hne, hlt, readBody_append hlimit h, bind, Except.bind]

/-- A sized body is read back. -/
theorem decodeSized_append (hlimit : limit < 2 ^ 63) (h : BodyFits limit b) {rest : Bytes} :
    decodeSized limit (size b.length ++ (crlf ++ (b ++ (crlf ++ rest)))) = .ok (b, rest) := by
  obtain ⟨-, -, hpos⟩ := length_checks (lt_of_bodyFits hlimit h)
  simp [decodeSized, size, readInt_append, hpos, readBody_append hlimit h, bind, Except.bind]

private theorem cutColon_append {fmt : Bytes} (h : ∀ c ∈ fmt, ¬ c = 58) (b : Bytes) :
    cutColon (fmt ++ 58 :: b) = some (fmt, b) := by
  induction fmt with
  | nil => simp [cutColon]
  | cons c fmt ih =>
    have hc : ¬ c = 58 := h c (by simp)
    simp [cutColon, hc, ih fun c hc => h c (by simp [hc])]

/-- A verbatim string is cut at its first colon, which stands behind the format. -/
theorem decodeVerbatim_append {fmt : Bytes} (hlimit : limit < 2 ^ 63) (hfmt : ∀ c ∈ fmt, ¬ c = 58)
    (h : BodyFits limit (fmt ++ 58 :: b)) {rest : Bytes} : decodeVerbatim limit
        (size (fmt ++ 58 :: b).length ++ (crlf ++ ((fmt ++ 58 :: b) ++ (crlf ++ rest)))) =
      .ok (.verbatim fmt (some b), rest) := by
  rw [decodeVerbatim, decodeSized_append hlimit h]
  simp [bind, Except.bind, cutColon_append hfmt]

variable {next : Step Value}

theorem decodeArray_nil {rest : Bytes} :
    decodeArray limit next (ascii ['-', '1'] ++ (crlf ++ rest)) = .ok (.array none, rest) := by
  simp [decodeArray, readInt_nil, bind, Except.bind]

section

variable (hlimit : limit < 2 ^ 63)
include hlimit

private theorem lt_of_countFits {width : Nat} (hw : 0 < width) (h : n * width ≤ limit) :
    n < 2 ^ 63 := by
  have hle : n ≤ n * width := Nat.le_mul_of_pos_right n hw
  omega

/-- An array is read back when its elements are. -/
theorem decodeArray_append (h : vs.length * valueWidth ≤ limit)
    (helems : decodeElems next vs.length (body ++ rest) = .ok (vs, rest)) :
    decodeArray limit next (size vs.length ++ (crlf ++ (body ++ rest))) =
      .ok (.array (some vs), rest) := by
  have hlen := lt_of_countFits hlimit (by decide) h
  obtain ⟨hne, hlt, -⟩ := length_checks hlen
  simp only [decodeArray, size, readInt_append, if_neg hne, if_neg hlt, makeSlice_ofNat hlen h,
    toNat_ofNat hlen, helems, bind, Except.bind]

/-- The elements of a set or a push are read back when they are one by one. -/
theorem decodeN_append {invalid : Int64 → DecodeError} (h : vs.length * valueWidth ≤ limit)
    (helems : decodeElems next vs.length (body ++ rest) = .ok (vs, rest)) :
    decodeN limit next invalid (size vs.length ++ (crlf ++ (body ++ rest))) = .ok (vs, rest) := by
  have hlen := lt_of_countFits hlimit (by decide) h
  obtain ⟨-, -, hpos⟩ := length_checks hlen
  simp only [decodeN, size, readInt_append, if_neg hpos, makeSlice_ofNat hlen h, toNat_ofNat hlen,
    helems, bind, Except.bind]

/-- The pairs of a map or an attribute are read back when they are one by one. -/
theorem decodeMapAs_append {ps : List (Value × Value)} (h : ps.length * pairWidth ≤ limit)
    (hpairs : decodePairs next ps.length (body ++ rest) = .ok (ps, rest)) :
    decodeMapAs limit next (size ps.length ++ (crlf ++ (body ++ rest))) = .ok (ps, rest) := by
  have hlen := lt_of_countFits hlimit (by decide) h
  obtain ⟨-, -, hpos⟩ := length_checks hlen
  simp only [decodeMapAs, size, readInt_append, if_neg hpos, makeSlice_ofNat hlen h,
    toNat_ofNat hlen, hpairs, bind, Except.bind]

end

end

section
variable (fl : FloatText) {limit : Nat}

/-- What stands behind a type byte is decoded by that type. -/
theorem decodeWithin_cons (h : isTypeByte typ = true) {depth : Nat} {r : Bytes} :
    decodeWithin fl limit (depth + 1) (typ :: r) =
      decodeTyped fl limit (decodeWithin fl limit depth) typ r := by
  simp [decodeWithin, h]

theorem parseFloat_formatDouble {f : Double} : fl.parseFloat (fl.formatDouble f) = some f := by
  cases f with
  | inf => exact fl.parse_inf
  | negInf => exact fl.parse_negInf
  | nan => exact fl.parse_nan
  | finite bits => exact fl.parse_format bits

theorem oneLine_formatDouble {f : Double} : OneLine (fl.formatDouble f) := by
  cases f with
  | finite bits => exact fl.format_line bits
  | _ =>
    simp only [FloatText.formatDouble]
    decide

theorem bytes_pos (v : Value) : 0 < (v.bytes fl).length := by
  cases v with
  | bulkString bulk | bulkError bulk => cases bulk <;> simp [Value.bytes, sized, line]
  | array elems | set elems | push elems => cases elems <;> simp [Value.bytes, elemsBytes, line]
  | _ => simp [Value.bytes, sized, line]

mutual

/-- A well-formed value is read back by a decoder that may nest as deep as the encoding is long. -/
theorem decodeWithin_bytes (hlimit : limit < 2 ^ 63) (v : Value) (h : v.WellFormed limit)
    (depth : Nat) (rest : Bytes) (hd : (v.bytes fl).length ≤ depth) :
    decodeWithin fl limit depth (v.bytes fl ++ rest) = .ok (v, rest) := by
  obtain ⟨depth, rfl⟩ : ∃ n, depth = n + 1 :=
    ⟨depth - 1, by have := bytes_pos fl v; omega⟩
  match v with
  | .simpleString s | .error s =>
    rw [Value.bytes, line_append, decodeWithin_cons fl (by decide)]
    simp [decodeTyped, readLine_append h, bind, Except.bind]
  | .integer i =>
    rw [Value.bytes, line_append, decodeWithin_cons fl (by decide)]
    simp [decodeTyped, readInt_append, bind, Except.bind]
  | .bulkString none =>
    rw [Value.bytes, sized, line_append]
    exact decodeBulk_nil
  | .bulkString (some b) =>
    rw [Value.bytes, sized_append]
    exact decodeBulk_append hlimit h
  | .array none =>
    rw [Value.bytes, elemsBytes, line_append]
    exact decodeArray_nil
  | .array (some vs) =>
    rw [Value.bytes, elemsBytes, append_assoc, line_append]
    simp only [Value.bytes, elemsBytes, length_append, length_line] at hd
    exact decodeArray_append hlimit h.1 (decodeElems_bytes hlimit vs h.2 depth rest (by omega))
  | .null =>
    rw [Value.bytes, line_append]
    rfl
  | .boolean b =>
    rw [Value.bytes, line_append]
    cases b <;> rfl
  | .double f =>
    rw [Value.bytes, line_append, decodeWithin_cons fl (by decide)]
    simp [decodeTyped, readLine_append (oneLine_formatDouble fl), parseFloat_formatDouble, bind, Except.bind]
  | .bigNumber s =>
    rw [Value.bytes, line_append, decodeWithin_cons fl (by decide)]
    simp [decodeTyped, readLine_append h, bind, Except.bind]
  | .bulkError (some b) =>
    rw [Value.bytes, sized_append, decodeWithin_cons fl (by decide)]
    simp [decodeTyped, decodeSized_append hlimit h, bind, Except.bind]
  | .verbatim fmt (some b) =>
    rw [Value.bytes, sized_append]
    exact decodeVerbatim_append hlimit h.1 h.2
  | .map ps | .attribute ps =>
    rw [Value.bytes, append_assoc, line_append, decodeWithin_cons fl (by decide)]
    simp only [Value.bytes, length_append, length_line] at hd
    have hps := decodePairs_bytes hlimit ps h.2 depth rest (by omega)
    simp [decodeTyped, decodeMapAs_append hlimit h.1 hps, bind, Except.bind]
  | .set (some vs) | .push (some vs) =>
    rw [Value.bytes, elemsBytes, append_assoc, line_append, decodeWithin_cons fl (by decide)]
    simp only [Value.bytes, elemsBytes, length_append, length_line] at hd
    have hvs := decodeElems_bytes hlimit vs h.2 depth rest (by omega)
    simp [decodeTyped, decodeN_append hlimit h.1 hvs, bind, Except.bind]

/-- Well-formed elements are read back one by one. -/
theorem decodeElems_bytes (hlimit : limit < 2 ^ 63) (vs : List Value) (h : AllWellFormed limit vs)
    (depth : Nat) (rest : Bytes) (hd : (listBytes fl vs).length ≤ depth) :
    decodeElems (decodeWithin fl limit depth) vs.length (listBytes fl vs ++ rest) =
      .ok (vs, rest) := by
  cases vs with
  | nil => rfl
  | cons v vs =>
    simp only [AllWellFormed] at h
    simp only [listBytes, length_append] at hd
    have hv := decodeWithin_bytes hlimit v h.1 depth (listBytes fl vs ++ rest) (by omega)
    have hvs := decodeElems_bytes hlimit vs h.2 depth rest (by omega)
    simp only [listBytes, length_cons, append_assoc, decodeElems, hv, hvs, bind,
      Except.bind]

/-- Well-formed pairs are read back one by one. -/
theorem decodePairs_bytes (hlimit : limit < 2 ^ 63) (ps : List (Value × Value))
    (h : PairsWellFormed limit ps) (depth : Nat) (rest : Bytes)
    (hd : (pairsBytes fl ps).length ≤ depth) :
    decodePairs (decodeWithin fl limit depth) ps.length (pairsBytes fl ps ++ rest) =
      .ok (ps, rest) := by
  match ps with
  | [] => rfl
  | (k, v) :: ps =>
    simp only [PairsWellFormed] at h
    simp only [pairsBytes, length_append] at hd
    have hk := decodeWithin_bytes hlimit k h.1 depth
      (v.bytes fl ++ (pairsBytes fl ps ++ rest)) (by omega)
    have hv := decodeWithin_bytes hlimit v h.2.1 depth (pairsBytes fl ps ++ rest) (by omega)
    have hps := decodePairs_bytes hlimit ps h.2.2 depth rest (by omega)
    simp only [pairsBytes, length_cons, append_assoc, decodePairs, hk, hv, hps, bind,
      Except.bind]

end

/-- A well-formed value is read back from its encoding, and exactly what follows is left. -/
theorem decode_append (hlimit : limit < 2 ^ 63) (v : Value) (h : v.WellFormed limit)
    (rest : Bytes) : decode fl limit (v.append fl [] ++ rest) = .ok (v, rest) := by
  rw [Value.append, nil_append]
  exact decodeWithin_bytes fl hlimit v h _ rest (by rw [length_append]; omega)

end

/-- Numbers written as the decimal text of their bit pattern, which meets the laws. -/
def bitText : FloatText where
  formatFloat bits := formatInt bits.toInt64
  parseFloat s :=
    if s = ascii ['i', 'n', 'f'] then some .inf
    else if s = ascii ['-', 'i', 'n', 'f'] then some .negInf
    else if s = ascii ['n', 'a', 'n'] then some .nan
    else (parseInt s).map fun n => .finite n.toUInt64
  parse_format bits := by
    have hword : ∀ w : Bytes, parseInt w = none → formatInt bits.toInt64 ≠ w := by
      rintro w hw rfl
      simp [parseInt_formatInt] at hw
    rw [if_neg (hword _ (by decide)), if_neg (hword _ (by decide)),
      if_neg (hword _ (by decide)), parseInt_formatInt]
    rfl
  parse_inf := rfl
  parse_negInf := rfl
  parse_nan := rfl
  format_line bits := oneLine_formatInt

/-- A nested value with a line break inside a bulk string, in front of further input. -/
theorem decode_append_nested :
    (arrayOf [bulkOf [13, 10], .bulkString none, .set (some []), .double .nan,
        .map [(.simpleString [107], .integer (-5))]]).WellFormed 4096 ∧
      decode bitText 4096 ((arrayOf [bulkOf [13, 10], .bulkString none, .set (some []),
          .double .nan, .map [(.simpleString [107], .integer (-5))]]).append bitText [] ++ [43]) =
        .ok (arrayOf [bulkOf [13, 10], .bulkString none, .set (some []), .double .nan,
          .map [(.simpleString [107], .integer (-5))]], [43]) := by
  have h : (arrayOf [bulkOf [13, 10], .bulkString none, .set (some []), .double .nan,
      .map [(.simpleString [107], .integer (-5))]]).WellFormed 4096 := by
    simp [arrayOf, bulkOf, Value.WellFormed, AllWellFormed, PairsWellFormed, BodyFits, OneLine,
      valueWidth, pairWidth]
  exact ⟨h, decode_append bitText (by decide) _ h [43]⟩

end Gedis.Protocol
