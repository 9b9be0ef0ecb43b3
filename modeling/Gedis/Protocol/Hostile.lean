import Gedis.Protocol.RoundTrip

/-!
# Decoding hostile input

Which streams make the decoder crash instead of returning a value or an error. The wire format is
stated as a relation between a stream and what is left of it behind one value, without regard to
memory. A stream overruns the decoder where a header that it comes to announces more than can be
allocated, or where values nest deeper than the stack allows. These are exactly the streams on
which the decoder crashes.
-/

namespace Gedis.Protocol

open Gedis.Core List

variable {n : Int64} {b rest r r' : Bytes} {typ : UInt8}

/-- Decoding ends with a value or an error of its own. -/
def Answers {α : Type} : Except Stop α → Prop
  | .ok _ => True
  | .error (.failed _) => True
  | .error _ => False

@[simp] theorem answers_ok {α : Type} {a : α} : Answers (.ok a) := trivial

@[simp] theorem answers_failed {α : Type} {e : DecodeError} :
    Answers (.error (.failed e) : Except Stop α) := trivial

@[simp] theorem not_answers_panicked {α : Type} {p : Panic} :
    ¬ Answers (.error (.panicked p) : Except Stop α) := id

@[simp] theorem not_answers_tooDeep {α : Type} : ¬ Answers (.error .tooDeep : Except Stop α) := id

theorem Answers.bind {α β : Type} {x : Except Stop α} {f : α → Except Stop β} (hx : Answers x)
    (hf : ∀ a, Answers (f a)) : Answers (x >>= f) := by
  match x with
  | .ok a => exact hf a
  | .error (.failed _) => trivial

instance {α : Type} : DecidablePred (Answers (α := α))
  | .ok _ => isTrue trivial
  | .error (.failed _) => isTrue trivial
  | .error (.panicked _) => isFalse id
  | .error .tooDeep => isFalse id

/-- The types whose body stands behind its length. -/
def isSizedByte (typ : UInt8) : Bool := typ ∈ [36, 33, 61]

/-- How many values an announced count stands for: one for each element, two for each pair, and
none for the types without elements. -/
def perCount (typ : UInt8) : Nat :=
  if typ ∈ [42, 126, 62] then 1 else if typ ∈ [37, 124] then 2 else 0

/-- The room in memory for each unit of an announced count. -/
def countWidth (typ : UInt8) : Nat := if typ ∈ [37, 124] then pairWidth else valueWidth

mutual

/-- One whole value stands at the front of the stream, in front of the rest. -/
inductive Frame (fl : FloatText) : Bytes → Bytes → Prop where
  | text {typ : UInt8} {s r rest : Bytes} (htyp : typ ∈ [43, 45, 40])
      (hline : readLine r = .ok (s, rest)) : Frame fl (typ :: r) rest
  | integer {n : Int64} {r rest : Bytes} (hint : readInt r = .ok (n, rest)) :
      Frame fl (58 :: r) rest
  | null {r rest : Bytes} (hend : expectCRLF r = .ok ((), rest)) : Frame fl (95 :: r) rest
  | boolean {b : UInt8} {r rest : Bytes} (hb : b ∈ [116, 102])
      (hend : expectCRLF r = .ok ((), rest)) : Frame fl (35 :: b :: r) rest
  | double {s r rest : Bytes} {f : Double} (hline : readLine r = .ok (s, rest))
      (hparse : fl.parseFloat s = some f) : Frame fl (44 :: r) rest
  | nil {typ : UInt8} {r rest : Bytes} (htyp : typ ∈ [36, 42])
      (hint : readInt r = .ok (-1, rest)) : Frame fl (typ :: r) rest
  | body {typ : UInt8} {n : Int64} {r b rest : Bytes} (htyp : isSizedByte typ = true)
      (hint : readInt r = .ok (n, b ++ (crlf ++ rest))) (hlen : n.toInt = b.length)
      (hcolon : typ = 61 → (58 : UInt8) ∈ b) : Frame fl (typ :: r) rest
  | nested {typ : UInt8} {n : Int64} {r r' rest : Bytes} (htyp : 0 < perCount typ)
      (hint : readInt r = .ok (n, r')) (hn : 0 ≤ n)
      (helems : Frames fl (n.toInt.toNat * perCount typ) r' rest) : Frame fl (typ :: r) rest
  | inline {b : UInt8} {s r rest : Bytes} (hb : isTypeByte b = false)
      (hline : readLine (b :: r) = .ok (s, rest)) : Frame fl (b :: r) rest

/-- A number of whole values, one after the other. -/
inductive Frames (fl : FloatText) : Nat → Bytes → Bytes → Prop where
  | nil {r : Bytes} : Frames fl 0 r r
  | cons {k : Nat} {r r' rest : Bytes} (head : Frame fl r r') (tail : Frames fl k r' rest) :
      Frames fl (k + 1) r rest

end

/-- A header to which the decoder comes announces more than the allocation limit, or a value is
nested deeper than the stack. -/
inductive Overruns (fl : FloatText) (limit : Nat) : Nat → Bytes → Prop where
  | deep {r : Bytes} : Overruns fl limit 0 r
  | body {stack : Nat} {typ : UInt8} {n : Int64} {r r' : Bytes} (htyp : isSizedByte typ = true)
      (hint : readInt r = .ok (n, r')) (hn : 0 ≤ n) (hbig : limit < n.toInt.toNat + 2) :
      Overruns fl limit (stack + 1) (typ :: r)
  | count {stack : Nat} {typ : UInt8} {n : Int64} {r r' : Bytes} (htyp : 0 < perCount typ)
      (hint : readInt r = .ok (n, r')) (hn : 0 ≤ n)
      (hbig : limit < n.toInt.toNat * countWidth typ) : Overruns fl limit (stack + 1) (typ :: r)
  | inside {stack k : Nat} {typ : UInt8} {n : Int64} {r r' r'' : Bytes} (htyp : 0 < perCount typ)
      (hint : readInt r = .ok (n, r')) (hn : 0 ≤ n) (hk : k < n.toInt.toNat * perCount typ)
      (hbefore : Frames fl k r' r'') (hover : Overruns fl limit stack r'') :
      Overruns fl limit (stack + 1) (typ :: r)

/-- What an outcome says: a value and the rest are as described, and a crash has its reason. -/
def Ends {α : Type} (reason : Prop) (frame : α → Bytes → Prop) : Except Stop (α × Bytes) → Prop
  | .ok (a, rest) => frame a rest
  | .error (.failed _) => True
  | .error _ => reason

section
variable {α β : Type} {reason : Prop} {frame : α → Bytes → Prop} {frame' : β → Bytes → Prop}

variable {x : Except Stop (α × Bytes)}

theorem Ends.of_not_answers (h : Ends reason frame x) (hx : ¬ Answers x) : reason := by
  match x with
  | .ok _ => exact absurd answers_ok hx
  | .error (.failed _) => exact absurd answers_failed hx
  | .error (.panicked _) => exact h
  | .error .tooDeep => exact h

/-- A step that does not crash, followed by another one. -/
theorem ends_bind {f : α × Bytes → Except Stop (β × Bytes)}
    (hx : Answers x) (hf : ∀ a rest, x = .ok (a, rest) → Ends reason frame' (f (a, rest))) :
    Ends reason frame' (x >>= f) := by
  match x with
  | .ok (a, rest) => exact hf a rest rfl
  | .error (.failed _) => trivial
  | .error (.panicked _) => exact absurd hx not_answers_panicked
  | .error .tooDeep => exact absurd hx not_answers_tooDeep

/-- A nested step whose outcome is known, followed by another one. -/
theorem Ends.bind {reason' : Prop}
    {f : α × Bytes → Except Stop (β × Bytes)} (hx : Ends reason frame x) (ho : reason → reason')
    (hf : ∀ a rest, frame a rest → Ends reason' frame' (f (a, rest))) :
    Ends reason' frame' (x >>= f) := by
  match x with
  | .ok (a, rest) => exact hf a rest hx
  | .error (.failed _) => trivial
  | .error (.panicked _) => exact ho hx
  | .error .tooDeep => exact ho hx

theorem Ends.mono {reason' : Prop} {frame' : α → Bytes → Prop}
    (hx : Ends reason frame x) (ho : reason → reason')
    (hf : ∀ a rest, frame a rest → frame' a rest) : Ends reason' frame' x := by
  match x with
  | .ok (a, rest) => exact hf a rest hx
  | .error (.failed _) => trivial
  | .error (.panicked _) => exact ho hx
  | .error .tooDeep => exact ho hx

/-- An allocation in front of a step. -/
theorem ends_makeSlice {limit width : Nat} {f : Except Stop (β × Bytes)} (hn : 0 ≤ n)
    (hbig : limit < n.toInt.toNat * width → reason) (hf : Ends reason frame' f) :
    Ends reason frame' (makeSlice limit width n >>= fun _ => f) := by
  have hpos : ¬ n < 0 := Int64.not_lt.mpr hn
  by_cases hsize : limit < n.toInt.toNat * width
  · rw [makeSlice, if_pos (.inr hsize)]
    exact hbig hsize
  · rw [makeSlice, if_neg (not_or_intro hpos hsize)]
    exact hf

end

theorem readLine_answers {r : Bytes} : Answers (readLine r) := by
  simp only [readLine]
  split
  · trivial
  · split <;> trivial

theorem readInt_answers {r : Bytes} : Answers (readInt r) := by
  simp only [readInt]
  refine readLine_answers.bind fun x => ?_
  split <;> trivial

theorem expectCRLF_answers {r : Bytes} : Answers (expectCRLF r) := by
  simp only [expectCRLF]
  split
  · split <;> trivial
  · trivial

/-- The buffer for a body and its line end is allocated exactly when it is within the limit. The
64-bit sum may wrap; it is then negative and refused as well. -/
theorem makeSlice_body {limit : Nat} (hlimit : limit < 2 ^ 63) (hn : 0 ≤ n) :
    makeSlice limit 1 (n + 2) =
      if n.toInt.toNat + 2 ≤ limit then .ok () else .error (.panicked .makeSlice) := by
  have hpos : 0 ≤ n.toInt := by simpa using Int64.le_iff_toInt_le.mp hn
  have hlt := Int64.toInt_lt n
  have hsum : (n + 2).toInt = (n.toInt + 2).bmod (2 ^ 64) := by
    rw [Int64.toInt_add]
    rfl
  have hneg : n + 2 < 0 ↔ (n + 2).toInt < 0 := by simp [Int64.lt_iff_toInt_lt]
  simp only [makeSlice, hneg, hsum]
  by_cases hwrap : n.toInt + 2 < 2 ^ 63
  · rw [Int.bmod_eq_of_le (by omega) (by omega)]
    split <;> split <;> first | rfl | omega
  · have hbmod : (n.toInt + 2).bmod (2 ^ 64) = n.toInt + 2 - 2 ^ 64 := by
      rw [Int.bmod_def]
      omega
    rw [if_pos (by omega), if_neg (by omega)]

theorem toNat_add_two {limit : Nat} (hlimit : limit < 2 ^ 63) (hn : 0 ≤ n)
    (h : n.toInt.toNat + 2 ≤ limit) : (n + 2).toInt.toNat = n.toInt.toNat + 2 := by
  have hpos : 0 ≤ n.toInt := by simpa using Int64.le_iff_toInt_le.mp hn
  have hsum : (n + 2).toInt = n.toInt + 2 := by
    rw [Int64.toInt_add]
    exact Int.bmod_eq_of_le (by simp; omega) (by simp; omega)
  omega

section
variable {fl : FloatText} {limit stack : Nat} {next : Step Value}

theorem ends_readBody {missing : DecodeError} (hlimit : limit < 2 ^ 63) (hn : 0 ≤ n) {r : Bytes} :
    Ends (limit < n.toInt.toNat + 2) (fun b rest => r = b ++ (crlf ++ rest) ∧ n.toInt = b.length)
      (readBody limit missing n r) := by
  have hpos : 0 ≤ n.toInt := by simpa using Int64.le_iff_toInt_le.mp hn
  simp only [readBody, makeSlice_body hlimit hn]
  split
  case isTrue hfit =>
    simp only [bind, Except.bind, toNat_add_two hlimit hn hfit, readFull]
    split
    case h_1 herr =>
      split at herr
      · cases herr
        trivial
      · cases herr
    case h_2 x hx =>
      split at hx
      case isTrue => cases hx
      case isFalse hlen =>
        cases hx
        split
        case isTrue => trivial
        case isFalse hend =>
          have hcut : (r.take (n.toInt.toNat + 2)).take n.toInt.toNat ++
              (r.take (n.toInt.toNat + 2)).drop n.toInt.toNat = r.take (n.toInt.toNat + 2) :=
            take_append_drop ..
          rw [not_not.mp hend] at hcut
          refine ⟨?_, ?_⟩
          · rw [← append_assoc, hcut, take_append_drop]
          · simp only [length_take]
            omega
  case isFalse hbig => exact Nat.lt_of_not_le hbig

/-- Elements are whole values, and a crash is that of one of them. -/
theorem ends_decodeElems
    (hnext : ∀ r, Ends (Overruns fl limit stack r) (fun _ rest => Frame fl r rest) (next r)) :
    ∀ (n : Nat) (r : Bytes),
      Ends (∃ k < n, ∃ r', Frames fl k r r' ∧ Overruns fl limit stack r')
        (fun _ rest => Frames fl n r rest) (decodeElems next n r) := by
  intro n
  induction n with
  | zero => exact fun r => .nil
  | succ n ih =>
    intro r
    refine (hnext r).bind (fun hover => ⟨0, Nat.succ_pos n, r, .nil, hover⟩) ?_
    intro v r' hframe
    refine (ih r').bind ?_ fun vs rest hframes => .cons hframe hframes
    rintro ⟨k, hk, r'', hframes, hover⟩
    exact ⟨k + 1, Nat.succ_lt_succ hk, r'', .cons hframe hframes, hover⟩

/-- Neighbours put together. -/
def pairUp : List Value → List (Value × Value)
  | k :: v :: vs => (k, v) :: pairUp vs
  | _ => []

/-- Pairs are read as twice as many elements. -/
theorem decodePairs_eq {next : Step Value} {n : Nat} {r : Bytes} :
    decodePairs next n r = decodeElems next (n * 2) r >>= fun x => .ok (pairUp x.1, x.2) := by
  induction n generalizing r with
  | zero => rfl
  | succ n ih =>
    rw [decodePairs, Nat.succ_mul, decodeElems]
    cases next r with
    | error => rfl
    | ok key =>
      simp only [bind, Except.bind, decodeElems]
      cases next key.2 with
      | error => rfl
      | ok val =>
        simp only [ih, bind, Except.bind]
        cases decodeElems next (n * 2) val.2 <;> rfl

private theorem mem_of_cutColon {fmt : Bytes} (h : cutColon b = some (fmt, rest)) :
    (58 : UInt8) ∈ b := by
  induction b generalizing fmt rest with
  | nil => cases h
  | cons c b ih =>
    rw [cutColon] at h
    split at h
    case isTrue hc => rw [hc]; exact mem_cons_self ..
    case isFalse =>
      split at h
      · cases h
      · next hcut => exact mem_cons_of_mem _ (ih hcut)

private theorem exists_cutColon (h : (58 : UInt8) ∈ b) : ∃ x, cutColon b = some x := by
  induction b with
  | nil => cases h
  | cons c b ih =>
    by_cases hc : c = 58
    · exact ⟨([], b), by simp [cutColon, hc]⟩
    · have hb : (58 : UInt8) ∈ b := (mem_cons.mp h).resolve_left fun he => hc he.symm
      obtain ⟨x, hx⟩ := ih hb
      exact ⟨(c :: x.1, x.2), by simp [cutColon, hc, hx]⟩

variable (fl stack) in
private theorem ends_sizedBody (missing : DecodeError) (hlimit : limit < 2 ^ 63)
    (htyp : isSizedByte typ = true) (hint : readInt r = .ok (n, r')) (hn : 0 ≤ n) :
    Ends (Overruns fl limit (stack + 1) (typ :: r))
      (fun b rest => readInt r = .ok (n, b ++ (crlf ++ rest)) ∧ n.toInt = b.length)
      (readBody limit missing n r') := by
  refine (ends_readBody hlimit hn).mono (fun hbig => .body htyp hint hn hbig) ?_
  rintro b rest ⟨htext, hlen⟩
  exact ⟨by rw [hint, htext], hlen⟩

private theorem ends_decodeSized (hlimit : limit < 2 ^ 63) (htyp : isSizedByte typ = true)
    (r : Bytes) : Ends (Overruns fl limit (stack + 1) (typ :: r))
      (fun b rest => ∃ n : Int64, readInt r = .ok (n, b ++ (crlf ++ rest)) ∧ n.toInt = b.length)
      (decodeSized limit r) := by
  refine ends_bind readInt_answers fun n r' hint => ?_
  dsimp only
  split
  case isTrue => trivial
  case isFalse hneg =>
    have hbody := ends_sizedBody fl stack .sizedMissingCRLF hlimit htyp hint (Int64.not_lt.mp hneg)
    exact hbody.mono id fun b rest hok => ⟨n, hok⟩

private theorem ends_counted {α : Type} {elems : Except Stop (α × Bytes)} (htyp : 0 < perCount typ)
    (hint : readInt r = .ok (n, r')) (hn : 0 ≤ n) (helems : Ends (∃ k < n.toInt.toNat * perCount
      typ, ∃ r'', Frames fl k r' r'' ∧ Overruns fl limit stack r'') (fun _ rest => Frames fl
      (n.toInt.toNat * perCount typ) r' rest) elems) :
    Ends (Overruns fl limit (stack + 1) (typ :: r)) (fun _ rest => Frame fl (typ :: r) rest)
      (makeSlice limit (countWidth typ) n >>= fun _ => elems) := by
  refine ends_makeSlice hn (fun hbig => .count htyp hint hn hbig) ?_
  refine helems.mono ?_ fun _ rest hframes => .nested htyp hint hn hframes
  rintro ⟨k, hk, r'', hbefore, hover⟩
  exact .inside htyp hint hn hk hbefore hover

private theorem ends_decodeN {invalid : Int64 → DecodeError}
    (hnext : ∀ r, Ends (Overruns fl limit stack r) (fun _ rest => Frame fl r rest) (next r))
    (hone : perCount typ = 1) (hwidth : countWidth typ = valueWidth) (r : Bytes) :
    Ends (Overruns fl limit (stack + 1) (typ :: r)) (fun _ rest => Frame fl (typ :: r) rest)
      (decodeN limit next invalid r) := by
  refine ends_bind readInt_answers fun n r' hint => ?_
  dsimp only
  split
  case isTrue => trivial
  case isFalse hneg =>
    rw [← hwidth]
    refine ends_counted (by omega) hint (Int64.not_lt.mp hneg) ?_
    rw [hone, mul_one]
    exact ends_decodeElems hnext n.toInt.toNat r'

private theorem ends_decodeMapAs
    (hnext : ∀ r, Ends (Overruns fl limit stack r) (fun _ rest => Frame fl r rest) (next r))
    (htwo : perCount typ = 2) (hwidth : countWidth typ = pairWidth) (r : Bytes) :
    Ends (Overruns fl limit (stack + 1) (typ :: r)) (fun _ rest => Frame fl (typ :: r) rest)
      (decodeMapAs limit next r) := by
  refine ends_bind readInt_answers fun n r' hint => ?_
  dsimp only
  split
  case isTrue => trivial
  case isFalse hneg =>
    rw [← hwidth]
    refine ends_counted (by omega) hint (Int64.not_lt.mp hneg) ?_
    rw [htwo, decodePairs_eq]
    exact (ends_decodeElems hnext _ r').bind id fun vs rest h => h

private theorem nonneg_of_checks (hnil : ¬ n = -1) (hlow : ¬ n < -1) : 0 ≤ n := by
  have hle : -1 ≤ n.toInt := Int64.le_iff_toInt_le.mp (Int64.not_lt.mp hlow)
  have hne : n.toInt ≠ -1 := fun h => hnil (Int64.toInt_inj.mp h)
  rw [Int64.le_iff_toInt_le, Int64.toInt_zero]
  omega

/-- The outcome behind a type byte, from that of the nested values. -/
theorem ends_decodeTyped (hlimit : limit < 2 ^ 63)
    (hnext : ∀ r, Ends (Overruns fl limit stack r) (fun _ rest => Frame fl r rest) (next r))
    {typ : UInt8} {r : Bytes} :
    Ends (Overruns fl limit (stack + 1) (typ :: r)) (fun _ rest => Frame fl (typ :: r) rest)
      (decodeTyped fl limit next typ r) := by
  unfold decodeTyped
  split
  · exact ends_bind readLine_answers fun s rest h => .text (by decide) h
  · exact ends_bind readLine_answers fun s rest h => .text (by decide) h
  · exact ends_bind readInt_answers fun n rest h => .integer h
  · rw [decodeBulk]
    refine ends_bind readInt_answers fun n r' hint => ?_
    dsimp only
    split
    case isTrue hnil => exact .nil (by decide) (hnil ▸ hint)
    case isFalse hnil =>
      split
      case isTrue => trivial
      case isFalse hlow =>
        have hn := nonneg_of_checks hnil hlow
        exact (ends_sizedBody fl stack _ hlimit (by decide) hint hn).bind id fun b rest h =>
          .body (by decide) h.1 h.2 fun h61 => absurd h61 (by decide)
  · rw [decodeArray]
    refine ends_bind readInt_answers fun n r' hint => ?_
    dsimp only
    split
    case isTrue hnil => exact .nil (by decide) (hnil ▸ hint)
    case isFalse hnil =>
      split
      case isTrue => trivial
      case isFalse hlow =>
        have hn := nonneg_of_checks hnil hlow
        have hwidth : valueWidth = countWidth 42 := by decide
        refine ends_counted (by decide) hint hn ?_
        have hone : perCount 42 = 1 := by decide
        rw [hone, mul_one]
        exact (ends_decodeElems hnext n.toInt.toNat r').bind id fun vs rest h => h
  · exact ends_bind expectCRLF_answers fun _ rest h => .null h
  · split
    · trivial
    · next b r =>
      refine ends_bind expectCRLF_answers fun _ rest h => ?_
      dsimp only
      split
      · exact .boolean (by decide) h
      · exact .boolean (by decide) h
      · trivial
  · refine ends_bind readLine_answers fun s rest h => ?_
    dsimp only
    split
    · trivial
    · next hparse => exact .double h hparse
  · exact ends_bind readLine_answers fun s rest h => .text (by decide) h
  · refine (ends_decodeSized hlimit (by decide) r).bind id fun b rest h => ?_
    obtain ⟨n, hint, hlen⟩ := h
    exact .body (by decide) hint hlen fun h61 => absurd h61 (by decide)
  · rw [decodeVerbatim]
    refine (ends_decodeSized hlimit (by decide) r).bind id fun b rest h => ?_
    obtain ⟨n, hint, hlen⟩ := h
    dsimp only
    split
    · trivial
    · next hcut => exact .body (by decide) hint hlen fun _ => mem_of_cutColon hcut
  · exact (ends_decodeMapAs hnext (by decide) (by decide) r).bind id fun ps rest h => h
  · exact (ends_decodeN hnext (by decide) (by decide) r).bind id fun vs rest h => h
  · exact (ends_decodeMapAs hnext (by decide) (by decide) r).bind id fun ps rest h => h
  · exact (ends_decodeN hnext (by decide) (by decide) r).bind id fun vs rest h => h
  · trivial

/-- Behind a value the stream goes on, and a crash has its reason in the stream. -/
theorem ends_decodeWithin (hlimit : limit < 2 ^ 63) :
    ∀ (stack : Nat) (r : Bytes), Ends (Overruns fl limit stack r) (fun _ rest => Frame fl r rest)
      (decodeWithin fl limit stack r) := by
  intro stack
  induction stack with
  | zero => exact fun r => .deep
  | succ stack ih =>
    intro r
    cases r with
    | nil => trivial
    | cons =>
      simp only [decodeWithin]
      split
      case isTrue => exact ends_decodeTyped hlimit ih
      case isFalse hb =>
        exact ends_bind readLine_answers fun s rest h =>
          .inline (Bool.eq_false_iff.mpr hb) h

/-- The step reads a value that ends where the rest begins, or it crashes. -/
def Reaches {α : Type} (x : Except Stop (α × Bytes)) (rest : Bytes) : Prop :=
  (∃ a, x = .ok (a, rest)) ∨ ¬ Answers x

section
variable {α β : Type} {x : Except Stop (α × Bytes)}

theorem Reaches.bind {rest' : Bytes} {f : α × Bytes → Except Stop (β × Bytes)} (hx : Reaches x rest)
    (hf : ∀ a, Reaches (f (a, rest)) rest') : Reaches (x >>= f) rest' := by
  match x, hx with
  | _, .inl ⟨a, rfl⟩ => exact hf a
  | .ok _, .inr h => exact absurd answers_ok h
  | .error (.failed _), .inr h => exact absurd answers_failed h
  | .error (.panicked _), .inr h => exact .inr h
  | .error .tooDeep, .inr h => exact .inr h

/-- A crash behind a value that is read, or before it. -/
theorem Reaches.crash {f : α × Bytes → Except Stop (β × Bytes)} (hx : Reaches x rest)
    (hf : ∀ a, ¬ Answers (f (a, rest))) : ¬ Answers (x >>= f) := by
  match x, hx with
  | _, .inl ⟨a, rfl⟩ => exact hf a
  | .ok _, .inr h => exact absurd answers_ok h
  | .error (.failed _), .inr h => exact absurd answers_failed h
  | .error (.panicked _), .inr h => exact h
  | .error .tooDeep, .inr h => exact h

theorem not_answers_bind {f : α × Bytes → Except Stop (β × Bytes)} (hx : ¬ Answers x) :
    ¬ Answers (x >>= f) := by
  match x with
  | .ok _ => exact absurd answers_ok hx
  | .error (.failed _) => exact absurd answers_failed hx
  | .error (.panicked _) => exact hx
  | .error .tooDeep => exact hx

end

private theorem byte_of_perCount (h : 0 < perCount typ) :
    typ = 42 ∨ typ = 126 ∨ typ = 62 ∨ typ = 37 ∨ typ = 124 := by
  rw [perCount] at h
  split at h
  case isTrue hmem =>
    simp only [mem_cons, not_mem_nil, or_false] at hmem
    tauto
  case isFalse =>
    split at h
    case isTrue hmem =>
      simp only [mem_cons, not_mem_nil, or_false] at hmem
      tauto
    case isFalse => exact absurd h (by decide)

private theorem isTypeByte_of_perCount (h : 0 < perCount typ) : isTypeByte typ = true := by
  rcases byte_of_perCount h with rfl | rfl | rfl | rfl | rfl <;> rfl

private theorem isTypeByte_of_sized (h : isSizedByte typ = true) : isTypeByte typ = true := by
  simp only [isSizedByte, mem_cons, not_mem_nil, or_false, decide_eq_true_eq] at h
  rcases h with rfl | rfl | rfl <;> rfl

private theorem ok_bind {α β : Type} (a : α) (f : α → Except Stop β) : (.ok a >>= f) = f a := rfl

variable (fl limit next) in
/-- Behind the header of a nested value the slice is allocated and the elements are read. -/
theorem decodeTyped_nested (htyp : 0 < perCount typ) (hint : readInt r = .ok (n, r')) (hn : 0 ≤ n) :
    ∃ build : List Value → Value, decodeTyped fl limit next typ r =
      makeSlice limit (countWidth typ) n >>= fun _ =>
        decodeElems next (n.toInt.toNat * perCount typ) r' >>= fun x => .ok (build x.1, x.2) := by
  have hneg : ¬ n < 0 := Int64.not_lt.mpr hn
  have hlow : ¬ n < -1 := fun h => hneg (Int64.lt_trans h (by decide))
  have hnil : ¬ n = -1 := by
    rintro rfl
    exact absurd hn (by decide)
  rcases byte_of_perCount htyp with rfl | rfl | rfl | rfl | rfl
  · refine ⟨fun vs => .array (some vs), ?_⟩
    have hone : perCount 42 = 1 := by decide
    rw [hone, mul_one]
    simp only [decodeTyped, decodeArray, hint, bind, Except.bind, if_neg hnil, if_neg hlow]
    rfl
  · refine ⟨fun vs => .set (some vs), ?_⟩
    have hone : perCount 126 = 1 := by decide
    rw [hone, mul_one]
    simp only [decodeTyped, decodeN, hint, ok_bind, if_neg hneg, bind_assoc]
    rfl
  · refine ⟨fun vs => .push (some vs), ?_⟩
    have hone : perCount 62 = 1 := by decide
    rw [hone, mul_one]
    simp only [decodeTyped, decodeN, hint, ok_bind, if_neg hneg, bind_assoc]
    rfl
  · refine ⟨fun vs => .map (pairUp vs), ?_⟩
    have htwo : perCount 37 = 2 := by decide
    simp only [decodeTyped, decodeMapAs, hint, ok_bind, if_neg hneg, decodePairs_eq, bind_assoc]
    rfl
  · refine ⟨fun vs => .attribute (pairUp vs), ?_⟩
    have htwo : perCount 124 = 2 := by decide
    simp only [decodeTyped, decodeMapAs, hint, ok_bind, if_neg hneg, decodePairs_eq, bind_assoc]
    rfl

variable (fl limit next) in
/-- Behind the header of a sized body the body is read. What is made of it depends on the body
only, and a verbatim string needs a colon. -/
theorem decodeTyped_body (htyp : isSizedByte typ = true) (hint : readInt r = .ok (n, r'))
    (hn : 0 ≤ n) : ∃ (missing : DecodeError) (build : Bytes → Except Stop Value),
      decodeTyped fl limit next typ r =
        (readBody limit missing n r' >>= fun x => build x.1 >>= fun v => .ok (v, x.2)) ∧
      ∀ b, (typ = 61 → (58 : UInt8) ∈ b) → ∃ v, build b = .ok v := by
  have hneg : ¬ n < 0 := Int64.not_lt.mpr hn
  have hlow : ¬ n < -1 := fun h => hneg (Int64.lt_trans h (by decide))
  have hnil : ¬ n = -1 := by
    rintro rfl
    exact absurd hn (by decide)
  simp only [isSizedByte, mem_cons, not_mem_nil, or_false, decide_eq_true_eq] at htyp
  rcases htyp with rfl | rfl | rfl
  · refine ⟨.bulkMissingCRLF, fun b => .ok (.bulkString (some b)), ?_, fun b _ => ⟨_, rfl⟩⟩
    simp [decodeTyped, decodeBulk, hint, ok_bind, if_neg hnil, if_neg hlow]
  · refine ⟨.sizedMissingCRLF, fun b => .ok (.bulkError (some b)), ?_, fun b _ => ⟨_, rfl⟩⟩
    simp [decodeTyped, decodeSized, hint, ok_bind, if_neg hneg]
  · refine ⟨.sizedMissingCRLF, fun b => (cutColon b).elim (.error (.failed .verbatimMissingFormat))
      fun x => .ok (.verbatim x.1 (some x.2)), ?_, fun b hb => ?_⟩
    · simp only [decodeTyped, decodeVerbatim, decodeSized, hint, ok_bind, if_neg hneg]
      congr 1
      funext x
      cases cutColon x.1 <;> rfl
    · obtain ⟨x, hx⟩ := exists_cutColon (hb rfl)
      exact ⟨.verbatim x.1 (some x.2), by simp [hx]⟩

private theorem readBody_reaches (missing : DecodeError) (hlimit : limit < 2 ^ 63)
    (hlen : n.toInt = b.length) : readBody limit missing n (b ++ (crlf ++ rest)) = .ok (b, rest) ∨
      ¬ Answers (readBody limit missing n (b ++ (crlf ++ rest))) := by
  by_cases hfit : BodyFits limit b
  · left
    have hlt : b.length < 2 ^ 63 := by
      have := Int64.toInt_lt n
      omega
    have hn : n = Int64.ofNat b.length := by
      rw [← Int64.toInt_inj, Int64.toInt_ofNat_of_lt hlt, hlen]
    rw [hn]
    exact readBody_append hlimit hfit
  · right
    have hn : 0 ≤ n := by
      rw [Int64.le_iff_toInt_le, Int64.toInt_zero]
      omega
    have hbig : ¬ n.toInt.toNat + 2 ≤ limit := by
      rw [hlen]
      exact hfit
    rw [readBody, makeSlice_body hlimit hn, if_neg hbig]
    exact not_answers_panicked

private theorem reaches_body (hlimit : limit < 2 ^ 63) (stack : Nat) (htyp : isSizedByte typ = true)
    (hint : readInt r = .ok (n, b ++ (crlf ++ rest))) (hlen : n.toInt = b.length)
    (hcolon : typ = 61 → (58 : UInt8) ∈ b) :
    Reaches (decodeWithin fl limit (stack + 1) (typ :: r)) rest := by
  have hn : 0 ≤ n := by
    rw [Int64.le_iff_toInt_le, Int64.toInt_zero]
    omega
  obtain ⟨missing, build, heq, hbuild⟩ := decodeTyped_body fl limit
    (decodeWithin fl limit stack) htyp hint hn
  obtain ⟨v, hv⟩ := hbuild b hcolon
  rw [decodeWithin_cons fl (isTypeByte_of_sized htyp), heq]
  rcases readBody_reaches missing hlimit hlen with hok | hcrash
  · exact .inl ⟨v, by rw [hok, ok_bind, hv, ok_bind]⟩
  · exact .inr (not_answers_bind hcrash)

private theorem reaches_nested (stack : Nat) (htyp : 0 < perCount typ)
    (hint : readInt r = .ok (n, r')) (hn : 0 ≤ n) (helems : Reaches (decodeElems (decodeWithin fl
      limit stack) (n.toInt.toNat * perCount typ) r') rest) :
    Reaches (decodeWithin fl limit (stack + 1) (typ :: r)) rest := by
  obtain ⟨build, heq⟩ := decodeTyped_nested fl limit (decodeWithin fl limit stack) htyp hint hn
  rw [decodeWithin_cons fl (isTypeByte_of_perCount htyp), heq, makeSlice]
  split
  · exact .inr not_answers_panicked
  · exact helems.bind fun vs => .inl ⟨build vs, rfl⟩

mutual

/-- A whole value is read to its end, unless the decoder crashes on it. -/
theorem Frame.reaches (hlimit : limit < 2 ^ 63) {r rest : Bytes} (h : Frame fl r rest) :
    ∀ stack, Reaches (decodeWithin fl limit stack r) rest := by
  intro stack
  cases stack with
  | zero => exact .inr not_answers_tooDeep
  | succ stack =>
    cases h with
    | @text typ s r rest htyp hline =>
      left
      simp only [mem_cons, not_mem_nil, or_false] at htyp
      rcases htyp with rfl | rfl | rfl
      · exact ⟨.simpleString s, by simp [decodeWithin_cons, isTypeByte, decodeTyped, hline, ok_bind]⟩
      · exact ⟨.error s, by simp [decodeWithin_cons, isTypeByte, decodeTyped, hline, ok_bind]⟩
      · exact ⟨.bigNumber s, by simp [decodeWithin_cons, isTypeByte, decodeTyped, hline, ok_bind]⟩
    | @integer n r rest hint =>
      exact .inl ⟨.integer n, by
        simp [decodeWithin_cons, isTypeByte, decodeTyped, hint, ok_bind]⟩
    | @null r rest hend =>
      exact .inl ⟨.null, by simp [decodeWithin_cons, isTypeByte, decodeTyped, hend, ok_bind]⟩
    | @boolean b r rest hb hend =>
      left
      simp only [mem_cons, not_mem_nil, or_false] at hb
      rcases hb with rfl | rfl
      · exact ⟨.boolean true, by
          simp [decodeWithin_cons, isTypeByte, decodeTyped, hend, ok_bind]⟩
      · exact ⟨.boolean false, by
          simp [decodeWithin_cons, isTypeByte, decodeTyped, hend, ok_bind]⟩
    | @double s r rest f hline hparse =>
      exact .inl ⟨.double f, by
        simp [decodeWithin_cons, isTypeByte, decodeTyped, hline, hparse, ok_bind]⟩
    | @nil typ r rest htyp hint =>
      left
      simp only [mem_cons, not_mem_nil, or_false] at htyp
      rcases htyp with rfl | rfl
      · exact ⟨.bulkString none, by
          simp [decodeWithin_cons, isTypeByte, decodeTyped, decodeBulk, hint, ok_bind]⟩
      · exact ⟨.array none, by
          simp [decodeWithin_cons, isTypeByte, decodeTyped, decodeArray, hint, ok_bind]⟩
    | @body typ n r b rest htyp hint hlen hcolon =>
      exact reaches_body hlimit stack htyp hint hlen hcolon
    | @nested typ n r r' rest htyp hint hn helems =>
      exact reaches_nested stack htyp hint hn (helems.reaches hlimit stack)
    | @inline b s r rest hb hline =>
      exact .inl ⟨arrayOf ((fields s).map bulkOf), by
        simp [decodeWithin, hb, decodeInline, hline, ok_bind]⟩

theorem Frames.reaches (hlimit : limit < 2 ^ 63) {n : Nat} {r rest : Bytes}
    (h : Frames fl n r rest) :
    ∀ stack, Reaches (decodeElems (decodeWithin fl limit stack) n r) rest := by
  intro stack
  cases h with
  | nil => exact .inl ⟨[], rfl⟩
  | cons head tail =>
    exact (head.reaches hlimit stack).bind fun v =>
      (tail.reaches hlimit stack).bind fun vs => .inl ⟨v :: vs, rfl⟩

end

private theorem not_answers_decodeElems {k n : Nat} (hlimit : limit < 2 ^ 63) (hk : k < n)
    (hbefore : Frames fl k r r') (hcrash : ¬ Answers (decodeWithin fl limit stack r')) :
    ¬ Answers (decodeElems (decodeWithin fl limit stack) n r) := by
  induction n generalizing k r with
  | zero => exact absurd hk (Nat.not_lt_zero k)
  | succ n ih =>
    rw [decodeElems]
    cases hbefore with
    | nil => exact not_answers_bind hcrash
    | cons head tail =>
      exact (head.reaches hlimit stack).crash fun v =>
        not_answers_bind (ih (Nat.lt_of_succ_lt_succ hk) tail)

/-- A stream that overruns the decoder makes it crash. -/
theorem Overruns.not_answers (hlimit : limit < 2 ^ 63) (h : Overruns fl limit stack r) :
    ¬ Answers (decodeWithin fl limit stack r) := by
  induction h with
  | deep => exact not_answers_tooDeep
  | @body stack typ n r r' htyp hint hn hbig =>
    obtain ⟨missing, build, heq, -⟩ := decodeTyped_body fl limit
      (decodeWithin fl limit stack) htyp hint hn
    rw [decodeWithin_cons fl (isTypeByte_of_sized htyp), heq, readBody,
      makeSlice_body hlimit hn, if_neg (by omega)]
    exact not_answers_panicked
  | @count stack typ n r r' htyp hint hn hbig =>
    obtain ⟨build, heq⟩ := decodeTyped_nested fl limit (decodeWithin fl limit stack) htyp hint hn
    rw [decodeWithin_cons fl (isTypeByte_of_perCount htyp), heq, makeSlice, if_pos (.inr hbig)]
    exact not_answers_panicked
  | @inside stack k typ n r r' r'' htyp hint hn hk hbefore hover ih =>
    obtain ⟨build, heq⟩ := decodeTyped_nested fl limit (decodeWithin fl limit stack) htyp hint hn
    rw [decodeWithin_cons fl (isTypeByte_of_perCount htyp), heq, makeSlice]
    split
    · exact not_answers_panicked
    · exact not_answers_bind (not_answers_decodeElems hlimit hk hbefore ih)

/-- For every allocation limit and every depth of the stack, decoding a stream returns a value or
an error if and only if no header that it comes to announces more than can be allocated and no
value is nested too deep. -/
theorem decode_answers_iff (hlimit : limit < 2 ^ 63) (stack : Nat) (r : Bytes) :
    Answers (decodeWithin fl limit stack r) ↔ ¬ Overruns fl limit stack r := by
  constructor
  · intro hans hover
    exact hover.not_answers hlimit hans
  · intro hnot
    by_contra hans
    exact hnot ((ends_decodeWithin hlimit stack r).of_not_answers hans)

end

/-- An array of one word, in a stream of its own. -/
def wordStream : Bytes :=
  ascii ['*', '1', '\r', '\n', '$', '1', '\r', '\n', 'a', '\r', '\n']

/-- The header of a bulk string with the greatest length that fits 64 bits. -/
def longHeader : Bytes :=
  ascii ['$', '9', '2', '2', '3', '3', '7', '2', '0', '3', '6', '8', '5', '4', '7', '7', '5', '8',
    '0', '7', '\r', '\n']

/-- An array of one word is answered on a stack of two, since its headers are within the limit. -/
theorem decode_answers_word :
    Answers (decodeWithin bitText 1048576 2 wordStream) ∧
      ¬ Overruns bitText 1048576 2 wordStream := by
  have hans : Answers (decodeWithin bitText 1048576 2 wordStream) := by decide
  exact ⟨hans, (decode_answers_iff (by decide) 2 wordStream).mp hans⟩

/-- The length wraps around when the line end is added, and the allocation panics. -/
theorem decode_length_panics :
    decode bitText (2 ^ 48) longHeader = .error (.panicked .makeSlice) ∧
      ¬ Answers (decode bitText (2 ^ 48) longHeader) := by
  have h : decode bitText (2 ^ 48) longHeader = .error (.panicked .makeSlice) := by rfl
  refine ⟨h, ?_⟩
  rw [h]
  exact not_answers_panicked

end Gedis.Protocol
