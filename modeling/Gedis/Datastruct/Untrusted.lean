import Gedis.Datastruct.Payloads

/-!
# Payloads from outside

A payload can be any bytes. Each decoder is fine on a payload exactly when no count or dimension that
it comes to asks for more room than a multiple of the payload, and no length of a member wraps
around when the length of its score is added. Streams and sketches are always fine.
-/

namespace Gedis.Datastruct

open Gedis.Core Meter List

variable {bound k width i maxAlloc d : Nat} {b rest raw r : Bytes}

theorem length_splitPrefixed {text : Bytes} (h : splitPrefixed b = some (text, rest)) :
    text.length + rest.length < b.length := by
  rw [splitPrefixed] at h
  split at h
  · cases h
  · next n adv hn =>
    have hadv := uvarint_bounds hn
    split at h
    · cases h
    · cases h
      simp only [length_take, length_drop] at *
      omega

/-- Reading a text never panics, and takes no more room than the input. -/
theorem readStr_spec (hb : b.length < 2 ^ 63) :
    (readStr b).Fine b.length ∧ (readStr b).result = .ok (splitPrefixed b) := by
  rw [readStr, splitPrefixed]
  cases hn : uvarint b with
  | none => exact ⟨fine_pure, rfl⟩
  | some x =>
    obtain ⟨n, adv⟩ := x
    have hadv := uvarint_bounds hn
    dsimp only
    by_cases hlen : (b.drop adv).length < n
    · rw [if_pos hlen, if_pos hlen]
      exact ⟨fine_pure, rfl⟩
    · rw [if_neg hlen, if_neg hlen]
      rw [length_drop] at hlen
      -- The input is the number, the text and the rest.
      have hparts : b = b.take adv ++ ((b.drop adv).take n ++ (b.drop adv).drop n) := by
        rw [take_append_drop, take_append_drop]
      have hfront : (b.take adv).length = adv := by
        rw [length_take]
        omega
      have htext : ((b.drop adv).take n).length = n := by
        rw [length_take, length_drop]
        omega
      have hslice : (slice adv (adv + asInt n) b : Decoder Bytes) = pure ((b.drop adv).take n) := by
        nth_rewrite 1 [hparts]
        exact slice_between _ _ _ (by rw [hfront]) (by rw [hfront, htext, asInt_of_lt (by omega)])
      have hrest : (slice (adv + asInt n) b.length b : Decoder Bytes) =
          pure ((b.drop adv).drop n) := by
        have hfront' : (b.take adv ++ (b.drop adv).take n).length = adv + n := by
          rw [length_append, hfront, htext]
        rw [asInt_of_lt (by omega)]
        nth_rewrite 2 [hparts]
        nth_rewrite 1 [hparts]
        rw [← append_assoc]
        exact slice_behind (by rw [hfront']; rfl) rfl
      rw [hslice, hrest]
      refine ⟨?_, ?_⟩
      · rw [pure_bind, fine_alloc_bind, pure_bind, htext]
        exact ⟨by omega, fine_pure⟩
      · rw [pure_bind, result_bind_ok result_alloc, pure_bind, result_pure]

section
variable {α : Type} {b : Bytes} {f : Option (Bytes × Bytes) → Decoder α}

theorem result_readStr_bind (hb : b.length < 2 ^ 63) :
    (readStr b >>= f).result = (f (splitPrefixed b)).result :=
  result_bind_ok (readStr_spec hb).2

theorem fine_readStr_bind (hb : b.length < 2 ^ 63) (hle : b.length ≤ bound) :
    (readStr b >>= f).Fine bound ↔ (f (splitPrefixed b)).Fine bound := by
  obtain ⟨hfine, hresult⟩ := readStr_spec hb
  rw [fine_bind, hresult]
  constructor
  · exact fun h => h.2 _ rfl
  · intro h
    refine ⟨hfine.mono hle, ?_⟩
    rintro _ ⟨⟩
    exact h

end

section
variable {σ : Type} {body : Nat → σ × Bytes → Decoder (σ × Bytes)} {s t : σ × Bytes}

/-- A body that takes input in every round comes round at most as often as there are bytes. -/
theorem loop_consumes (hbody : ∀ i u v, i + u.2.length ≤ s.2.length → (body i u).result = .ok v →
      v.2.length < u.2.length)
    (ht : (loop body 0 k s).result = .ok t) : k + t.2.length ≤ s.2.length := by
  have h := loop_invariant (fun i u => i + u.2.length ≤ s.2.length)
    (fun i u v hu hv => by have := hbody i u v hu hv; omega) (by omega) ht
  rwa [zero_add] at h

/-- A loop over input of bounded length whose body is fine on that input. -/
theorem fine_loop_of_consumes {n : Nat}
    (hbody : ∀ i u, i + u.2.length ≤ s.2.length → (body i u).Fine bound ∧
      ∀ v, (body i u).result = .ok v → v.2.length < u.2.length) :
    (loop body 0 n s).Fine bound := by
  refine fine_loop.mpr fun k _ u hu => ?_
  rw [zero_add]
  exact (hbody k u (loop_consumes (fun i u v hle => (hbody i u hle).2 v) hu)).1

end

theorem hashBody_spec {s : Fields × Bytes} (hs : s.2.length < 2 ^ 63) (hle : s.2.length ≤ bound)
    (hroom : 64 * (i + 1) ≤ bound) : (hashBody i s).Fine bound ∧
      ∀ t, (hashBody i s).result = .ok t → t.2.length < s.2.length := by
  rw [hashBody, readHashStr, fine_readStr_bind hs hle, result_readStr_bind hs]
  cases hf : splitPrefixed s.2 with
  | none => exact ⟨fine_fail, by rintro _ ⟨⟩⟩
  | some x =>
    have hlen := length_splitPrefixed hf
    dsimp only
    rw [readHashStr, fine_readStr_bind (by omega) (by omega), result_readStr_bind (by omega)]
    cases hv : splitPrefixed x.2 with
    | none => exact ⟨fine_fail, by rintro _ ⟨⟩⟩
    | some =>
      have hlen' := length_splitPrefixed hv
      refine ⟨fine_grow_bind.mpr ⟨hroom, fine_pure⟩, ?_⟩
      rintro _ ⟨⟩
      dsimp only
      omega

theorem listBody_spec {s : List Bytes × Bytes} (hs : s.2.length < 2 ^ 63) (hle : s.2.length ≤ bound) :
    (listBody i s).Fine bound ∧ ∀ t, (listBody i s).result = .ok t → t.2.length < s.2.length := by
  rw [listBody, readListStr, fine_readStr_bind hs hle, result_readStr_bind hs]
  cases he : splitPrefixed s.2 with
  | none => exact ⟨fine_fail, by rintro _ ⟨⟩⟩
  | some =>
    have hlen := length_splitPrefixed he
    refine ⟨fine_pure, ?_⟩
    rintro _ ⟨⟩
    dsimp only
    omega

theorem setBody_spec {s : Members × Bytes} (hs : s.2.length < 2 ^ 63) (hle : s.2.length ≤ bound)
    (hroom : 32 * (i + 1) ≤ bound) : (setBody i s).Fine bound ∧
      ∀ t, (setBody i s).result = .ok t → t.2.length < s.2.length := by
  rw [setBody, readSetStr, fine_readStr_bind hs hle, result_readStr_bind hs]
  cases hm : splitPrefixed s.2 with
  | none => exact ⟨fine_fail, by rintro _ ⟨⟩⟩
  | some =>
    have hlen := length_splitPrefixed hm
    refine ⟨fine_grow_bind.mpr ⟨hroom, fine_pure⟩, ?_⟩
    rintro _ ⟨⟩
    dsimp only
    omega

/-- The count behind the encoding tag. -/
def announced (raw : Bytes) : Option (Nat × Nat) := uvarint raw.tail

/-- The room of a slice for the announced number of elements is too large. -/
def SliceTooLarge (maxAlloc bound width : Nat) (raw : Bytes) : Prop :=
  ∃ n adv, announced raw = some (n, adv) ∧ (maxAlloc < n * width ∨ bound < n * width)

/-- The room of a map for the announced number of entries is too large and can be allocated. -/
def MapTooLarge (maxAlloc bound width : Nat) (raw : Bytes) : Prop :=
  ∃ n adv, announced raw = some (n, adv) ∧ n * width ≤ maxAlloc ∧ bound < n * width

/-- A condition on the number at the front of the input. -/
theorem exists_uvarint_iff {P : Nat → Nat → Prop} {x : Nat × Nat} (h : uvarint b = some x) :
    (∃ n adv, uvarint b = some (n, adv) ∧ P n adv) ↔ P x.1 x.2 := by
  constructor
  · rintro ⟨n, adv, h', hp⟩
    rw [h] at h'
    cases h'
    exact hp
  · exact fun hp => ⟨x.1, x.2, h, hp⟩

theorem not_exists_uvarint {P : Nat → Nat → Prop} (h : uvarint b = none) :
    ¬ ∃ n adv, uvarint b = some (n, adv) ∧ P n adv := by
  rintro ⟨n, adv, h', -⟩
  rw [h] at h'
  cases h'

theorem mapTooLarge_iff {enc : UInt8} {x : Nat × Nat} (h : uvarint rest = some x) :
    MapTooLarge maxAlloc bound width (enc :: rest) ↔
      x.1 * width ≤ maxAlloc ∧ bound < x.1 * width :=
  exists_uvarint_iff h

section
variable {maxAlloc factor : Nat} {raw rest : Bytes} {n adv : Nat}

/-- What is left behind the tag and the count is shorter than the payload. -/
theorem length_behind_count (enc : UInt8) (hn : uvarint rest = some (n, adv)) :
    (rest.drop adv).length + 2 ≤ (enc :: rest).length := by
  have hadv := uvarint_bounds hn
  rw [length_drop, length_cons]
  omega

/-- A loop behind the tag and the count of a payload. -/
theorem fine_items {σ : Type} (body : Nat → σ × Bytes → Decoder (σ × Bytes)) {enc : UInt8}
    (init : σ) (hraw : (enc :: rest).length < 2 ^ 63) (hfactor : 0 < factor)
    (hn : uvarint rest = some (n, adv))
    (hbody : ∀ i u, u.2.length < 2 ^ 63 → u.2.length ≤ factor * (enc :: rest).length →
      i + 1 ≤ (enc :: rest).length → (body i u).Fine (factor * (enc :: rest).length) ∧
        ∀ v, (body i u).result = .ok v → v.2.length < u.2.length) :
    (loop body 0 n (init, rest.drop adv)).Fine (factor * (enc :: rest).length) := by
  have hlen := length_behind_count enc hn
  refine fine_loop_of_consumes fun i u hu => ?_
  dsimp only at hu
  refine hbody i u (by omega) ?_ (by omega)
  exact Nat.le_trans (by omega) (Nat.le_mul_of_pos_left _ hfactor)

theorem fine_meterHash (hfactor : 64 ≤ factor) (hraw : raw.length < 2 ^ 63) :
    (meterHash maxAlloc raw).Fine (factor * raw.length) ↔
      ¬ MapTooLarge maxAlloc (factor * raw.length) 32 raw := by
  cases raw with
  | nil => exact iff_of_true fine_fail (not_exists_uvarint rfl)
  | cons enc rest =>
    rw [meterHash]
    cases hn : uvarint rest with
    | none => exact iff_of_true fine_fail (not_exists_uvarint hn)
    | some x =>
      have hloop := fine_items hashBody ∅ hraw (by omega) hn
        fun i u hu hle hi => hashBody_spec hu hle (Nat.mul_le_mul hfactor hi)
      rw [mapTooLarge_iff hn, not_and, not_lt, fine_makeMap_bind,
        and_iff_left (fine_bind.mpr ⟨hloop, fun _ _ => fine_pure⟩)]

theorem fine_decodeSet (hfactor : 32 ≤ factor) (hraw : raw.length < 2 ^ 63) :
    (decodeSet maxAlloc raw).Fine (factor * raw.length) ↔
      ¬ MapTooLarge maxAlloc (factor * raw.length) 16 raw := by
  cases raw with
  | nil => exact iff_of_true fine_fail (not_exists_uvarint rfl)
  | cons enc rest =>
    rw [decodeSet]
    cases hn : uvarint rest with
    | none => exact iff_of_true fine_fail (not_exists_uvarint hn)
    | some x =>
      have hloop := fine_items setBody ∅ hraw (by omega) hn
        fun i u hu hle hi => setBody_spec hu hle (Nat.mul_le_mul hfactor hi)
      rw [mapTooLarge_iff hn, not_and, not_lt, fine_makeMap_bind,
        and_iff_left (fine_bind.mpr ⟨hloop, fun _ _ => fine_pure⟩)]

theorem fine_decodeList (hfactor : 0 < factor) (hraw : raw.length < 2 ^ 63) :
    (decodeList maxAlloc raw).Fine (factor * raw.length) ↔
      ¬ SliceTooLarge maxAlloc (factor * raw.length) 16 raw := by
  cases raw with
  | nil => exact iff_of_true fine_fail (not_exists_uvarint rfl)
  | cons enc rest =>
    rw [decodeList]
    cases hn : uvarint rest with
    | none => exact iff_of_true fine_fail (not_exists_uvarint hn)
    | some x =>
      have hloop := fine_items listBody [] hraw hfactor hn fun i u hu hle _ => listBody_spec hu hle
      rw [fine_makeSlice_bind, and_iff_left (fine_bind.mpr ⟨hloop, fun _ _ => fine_pure⟩)]
      refine Iff.trans ?_ (exists_uvarint_iff hn).not.symm
      rw [not_or, not_lt, not_lt]

end

/-- A number of members with their scores at the front of the input, and what follows them. -/
inductive Scored : Nat → Bytes → Bytes → Prop where
  | nil {r : Bytes} : Scored 0 r r
  | cons {k mlen adv : Nat} {r rest : Bytes} (hlen : uvarint r = some (mlen, adv))
      (hfits : adv + mlen + 8 ≤ r.length) (htail : Scored k (r.drop (adv + mlen + 8)) rest) :
      Scored (k + 1) r rest

/-- The length of the next member wraps around when the length of its score is added. -/
def LengthWraps (r : Bytes) : Prop :=
  ∃ mlen adv, uvarint r = some (mlen, adv) ∧ 2 ^ 64 ≤ mlen + 8

section
variable {i mlen adv : Nat} {s : Scores × Bytes}

variable (bound) in
/-- A length that wraps around is noticed by nobody: the member is truncated, or cutting it out of
the input panics. -/
theorem zsetBody_wraps (h : LengthWraps s.2) :
    ¬ (zsetBody i s).Fine bound ∧ ∀ t, (zsetBody i s).result ≠ .ok t := by
  obtain ⟨mlen, adv, hlen, hwraps⟩ := h
  have hadv := uvarint_bounds hlen
  have hneg : asInt mlen < 0 := by
    rw [asInt, if_neg (by omega)]
    omega
  rw [zsetBody, hlen]
  refine ⟨fun hfine => ?_, fun t => ?_⟩
  · have hsum := (fine_addLength_bind.mp hfine).1
    omega
  · rw [result_bind_ok result_addLength]
    split
    · rintro ⟨⟩
    · rw [slice, if_neg (by omega), result_bind_error result_panic]
      rintro ⟨⟩

variable (bound) in
theorem zsetBody_truncated (hs : ¬ LengthWraps s.2)
    (h : ∀ mlen adv, uvarint s.2 = some (mlen, adv) → s.2.length < adv + mlen + 8) :
    (zsetBody i s).Fine bound ∧ ∀ t, (zsetBody i s).result ≠ .ok t := by
  rw [zsetBody]
  cases hlen : uvarint s.2 with
  | none => exact ⟨fine_fail, fun t h => by cases h⟩
  | some x =>
    obtain ⟨mlen, adv⟩ := x
    have hshort := h mlen adv hlen
    have hsum : mlen + 8 < 2 ^ 64 := by
      by_contra hbig
      exact hs ⟨mlen, adv, hlen, by omega⟩
    have hcut : (s.2.drop adv).length < (mlen + 8) % 2 ^ 64 := by
      rw [length_drop, Nat.mod_eq_of_lt hsum]
      omega
    refine ⟨?_, fun t => ?_⟩
    · rw [fine_addLength_bind, if_pos hcut]
      exact ⟨hsum, fine_fail⟩
    · rw [result_bind_ok result_addLength, if_pos hcut]
      rintro ⟨⟩

variable (bound i) in
/-- A member that is there is read with its score. -/
theorem zsetBody_reads (hs : s.2.length < 2 ^ 63) (hlen : uvarint s.2 = some (mlen, adv))
    (hfits : adv + mlen + 8 ≤ s.2.length) :
    (∃ z, (zsetBody i s).result = .ok (z, s.2.drop (adv + mlen + 8))) ∧
      (s.2.length ≤ bound → 48 * (i + 1) ≤ bound → (zsetBody i s).Fine bound) := by
  obtain ⟨z, r⟩ := s
  dsimp only at hs hlen hfits ⊢
  have hsum : mlen + 8 < 2 ^ 64 := by omega
  have hlong : ¬ (r.drop adv).length < (mlen + 8) % 2 ^ 64 := by
    rw [length_drop, Nat.mod_eq_of_lt hsum]
    omega
  -- The input is the length, the member, the score and the rest.
  obtain ⟨front, m, bits, rest, rfl, hfront, hm, hbits⟩ : ∃ front m bits rest,
      r = front ++ (m ++ (bits ++ rest)) ∧ front.length = adv ∧ m.length = mlen ∧
        bits.length = 8 := by
    refine ⟨r.take adv, (r.drop adv).take mlen, ((r.drop adv).drop mlen).take 8,
      ((r.drop adv).drop mlen).drop 8, ?_, ?_, ?_, ?_⟩
    · rw [take_append_drop, take_append_drop, take_append_drop]
    · rw [length_take]
      omega
    · rw [length_take, length_drop]
      omega
    · rw [length_take, length_drop, length_drop]
      omega
  have hdrop : (front ++ (m ++ (bits ++ rest))).drop (adv + mlen + 8) = rest := by
    have hsplit : front ++ (m ++ (bits ++ rest)) = (front ++ (m ++ bits)) ++ rest := by
      simp
    rw [hsplit, drop_left']
    simp only [length_append]
    omega
  have hcut : (slice adv (adv + asInt mlen) (front ++ (m ++ (bits ++ rest))) : Decoder Bytes) =
      pure m :=
    slice_between _ _ _ (by rw [hfront]) (by rw [hfront, hm, asInt_of_lt (by omega)])
  have hcut' : (slice (adv + asInt mlen) (front ++ (m ++ (bits ++ rest))).length
      (front ++ (m ++ (bits ++ rest))) : Decoder Bytes) = pure (bits ++ rest) := by
    rw [← append_assoc]
    refine slice_behind ?_ rfl
    rw [length_append, hfront, hm, asInt_of_lt (by omega)]
    rfl
  have hscore : (slice 0 8 (bits ++ rest) : Decoder Bytes) = pure bits :=
    slice_front (by rw [hbits]; rfl)
  have htail : (slice 8 (bits ++ rest).length (bits ++ rest) : Decoder Bytes) = pure rest :=
    slice_behind (by rw [hbits]; rfl) rfl
  rw [zsetBody]
  rw [hlen]
  dsimp only
  rw [hcut, hcut']
  refine ⟨⟨z.insert m (UInt64.ofNat (beNat bits)), ?_⟩, fun hle hroom => ?_⟩
  · rw [result_bind_ok result_addLength, if_neg hlong, pure_bind, result_bind_ok result_alloc,
      pure_bind, hscore, htail, pure_bind, pure_bind, result_bind_ok result_grow, result_pure,
      hdrop]
  · rw [fine_addLength_bind, if_neg hlong, pure_bind, fine_alloc_bind, pure_bind, hscore, htail,
      pure_bind, pure_bind, fine_grow_bind]
    exact ⟨hsum, by omega, hroom, fine_pure⟩

theorem zsetBody_result {t : Scores × Bytes} (hs : s.2.length < 2 ^ 63)
    (h : (zsetBody i s).result = .ok t) :
    ∃ mlen adv, uvarint s.2 = some (mlen, adv) ∧ adv + mlen + 8 ≤ s.2.length ∧
      t.2 = s.2.drop (adv + mlen + 8) := by
  by_cases hwraps : LengthWraps s.2
  · exact absurd h ((zsetBody_wraps 0 hwraps).2 t)
  · by_cases hshort : ∀ mlen adv, uvarint s.2 = some (mlen, adv) → s.2.length < adv + mlen + 8
    · exact absurd h ((zsetBody_truncated 0 hwraps hshort).2 t)
    · push Not at hshort
      obtain ⟨mlen, adv, hlen, hfits⟩ := hshort
      obtain ⟨⟨z, hz⟩, -⟩ := zsetBody_reads 0 i hs hlen hfits
      rw [hz] at h
      cases h
      exact ⟨mlen, adv, hlen, hfits, rfl⟩

theorem zsetBody_consumes {t : Scores × Bytes} (hs : s.2.length < 2 ^ 63)
    (h : (zsetBody i s).result = .ok t) : t.2.length < s.2.length := by
  obtain ⟨mlen, adv, -, hfits, ht⟩ := zsetBody_result hs h
  rw [ht, length_drop]
  omega

theorem fine_zsetBody (hs : s.2.length < 2 ^ 63) (hwraps : ¬ LengthWraps s.2)
    (hle : s.2.length ≤ bound) (hroom : 48 * (i + 1) ≤ bound) : (zsetBody i s).Fine bound := by
  by_cases hshort : ∀ mlen adv, uvarint s.2 = some (mlen, adv) → s.2.length < adv + mlen + 8
  · exact (zsetBody_truncated bound hwraps hshort).1
  · push Not at hshort
    obtain ⟨mlen, adv, hlen, hfits⟩ := hshort
    exact (zsetBody_reads bound i hs hlen hfits).2 hle hroom

end

theorem scored_of_loop {s t : Scores × Bytes} (hs : s.2.length < 2 ^ 63)
    (h : (loop zsetBody i k s).result = .ok t) : Scored k s.2 t.2 := by
  induction k generalizing i s with
  | zero =>
    cases h
    exact .nil
  | succ k ih =>
    obtain ⟨u, hu, ht⟩ := exists_of_result_bind h
    obtain ⟨mlen, adv, hlen, hfits, hrest⟩ := zsetBody_result hs hu
    have hshorter := zsetBody_consumes hs hu
    refine .cons hlen hfits ?_
    rw [← hrest]
    exact ih (by omega) ht

theorem loop_of_scored (h : Scored k r rest) (hr : r.length < 2 ^ 63) (i : Nat) (z : Scores) :
    ∃ z', (loop zsetBody i k (z, r)).result = .ok (z', rest) := by
  induction h generalizing i z with
  | nil => exact ⟨z, rfl⟩
  | @cons k mlen adv r rest hlen hfits htail ih =>
    obtain ⟨⟨z', hz⟩, -⟩ := zsetBody_reads 0 i (s := (z, r)) hr hlen hfits
    obtain ⟨z'', hz'⟩ := ih (by rw [length_drop]; omega) (i + 1) z'
    exact ⟨z'', by rw [loop_succ, result_bind_ok hz, hz']⟩

/-- A member whose length wraps around stands behind whole members. -/
def MemberWraps (raw : Bytes) : Prop :=
  ∃ n adv, announced raw = some (n, adv) ∧
    ∃ k < n, ∃ r, Scored k (raw.tail.drop adv) r ∧ LengthWraps r

theorem fine_decodeZSet {factor : Nat} (hfactor : 48 ≤ factor) (hraw : raw.length < 2 ^ 63) :
    (decodeZSet maxAlloc raw).Fine (factor * raw.length) ↔
      ¬ MapTooLarge maxAlloc (factor * raw.length) 24 raw ∧ ¬ MemberWraps raw := by
  cases raw with
  | nil => exact iff_of_true fine_fail ⟨not_exists_uvarint rfl, not_exists_uvarint rfl⟩
  | cons enc rest =>
    rw [decodeZSet]
    cases hn : uvarint rest with
    | none => exact iff_of_true fine_fail ⟨not_exists_uvarint hn, not_exists_uvarint hn⟩
    | some x =>
      have hlen := length_behind_count enc hn
      rw [mapTooLarge_iff hn, not_and, not_lt, fine_makeMap_bind, fine_bind,
        and_iff_left fun _ _ => fine_pure]
      refine and_congr_right fun _ => fine_loop.trans ⟨?_, ?_⟩
      · intro hfine hwrap
        obtain ⟨k, hk, r, hscored, hwraps⟩ := (exists_uvarint_iff hn).mp hwrap
        obtain ⟨z, hz⟩ := loop_of_scored hscored (by
          rw [tail_cons]
          omega) 0 ∅
        exact (zsetBody_wraps _ hwraps).1 (hfine k hk (z, r) hz)
      · intro hnot k hk t ht
        have hscored := scored_of_loop (by dsimp only; omega) ht
        have hused := loop_consumes (fun i u v hu => zsetBody_consumes (by dsimp only at hu; omega)) ht
        dsimp only at hused
        refine fine_zsetBody (by omega) (fun hwraps => hnot ?_) ?_ ?_
        · exact ⟨x.1, x.2, hn, k, hk, t.2, hscored, hwraps⟩
        · exact Nat.le_trans (by omega) (Nat.le_mul_of_pos_left _ (by omega : 0 < factor))
        · exact Nat.mul_le_mul hfactor (by omega)

/-- A number of components at the front of the input, and what follows them. -/
inductive Components : Nat → Bytes → Bytes → Prop where
  | nil {r : Bytes} : Components 0 r r
  | cons {k v adv : Nat} {r rest : Bytes} (hv : uvarint r = some (v, adv))
      (htail : Components k (r.drop adv) rest) : Components (k + 1) r rest

/-- The dimension of the next vector, which agrees with that of the vectors before it. -/
def NextDim (dim : Int) (r : Bytes) (d adv : Nat) : Prop :=
  uvarint r = some (d, adv) ∧ (dim < 0 ∨ asInt d = dim)

/-- The components, the name and the attributes of a vector at the front of the input, and what
follows them. -/
def VectorAt (d : Nat) (r rest : Bytes) : Prop :=
  ∃ r₁ r₂ name attr, Components d r r₁ ∧ splitPrefixed r₁ = some (name, r₂) ∧
    splitPrefixed r₂ = some (attr, rest)

/-- A number of vectors of one dimension at the front of the input, behind vectors of a dimension. -/
inductive Vectored : Int → Nat → Bytes → Int → Bytes → Prop where
  | nil {dim : Int} {r : Bytes} : Vectored dim 0 r dim r
  | cons {dim dim' : Int} {k d adv : Nat} {r r' rest : Bytes} (hdim : NextDim dim r d adv)
      (hvec : VectorAt d (r.drop adv) r') (htail : Vectored (asInt d) k r' dim' rest) :
      Vectored dim (k + 1) r dim' rest

theorem components_iff {vec : List UInt64} :
    (∃ vec', (loop vecBody i k (vec, r)).result = .ok (vec', rest)) ↔ Components k r rest := by
  induction k generalizing i vec r with
  | zero =>
    constructor
    · rintro ⟨vec', h⟩
      cases h
      exact .nil
    · intro h
      cases h
      exact ⟨vec, rfl⟩
  | succ k ih =>
    cases hv : uvarint r with
    | none =>
      constructor
      · rintro ⟨vec', h⟩
        rw [loop_succ, vecBody] at h
        rw [hv, result_bind_error result_fail] at h
        cases h
      · rintro ⟨⟩
        next hv' _ =>
        rw [hv] at hv'
        cases hv'
    | some x =>
      have hstep : loop vecBody i (k + 1) (vec, r) =
          loop vecBody (i + 1) k (vec ++ [UInt64.ofNat x.1], r.drop x.2) := by
        rw [loop_succ, vecBody]
        rw [hv]
        exact pure_bind ..
      rw [hstep, ih]
      constructor
      · exact fun h => .cons hv h
      · rintro ⟨⟩
        next hv' htail =>
        rw [hv] at hv'
        cases hv'
        exact htail

theorem length_components (h : Components k r rest) : k + rest.length ≤ r.length := by
  induction h with
  | nil => omega
  | cons hv htail ih =>
    have hadv := uvarint_bounds hv
    rw [length_drop] at ih
    omega

theorem fine_vecBody {d : Nat} {s : List UInt64 × Bytes} : (loop vecBody 0 d s).Fine bound := by
  refine fine_loop.mpr fun k _ t _ => ?_
  rw [vecBody]
  split
  · exact fine_fail
  · exact fine_pure

theorem fine_readVEntry (hb : b.length < 2 ^ 63) (hle : b.length ≤ bound) :
    (readVEntry d b).Fine bound := by
  refine fine_bind.mpr ⟨fine_vecBody, fun v hv => ?_⟩
  have hlen := length_components (components_iff.mp ⟨v.1, hv⟩)
  rw [fine_readStr_bind (by omega) (by omega)]
  split
  · exact fine_fail
  · next name rest hname =>
    have hlen' := length_splitPrefixed hname
    rw [fine_readStr_bind (by omega) (by omega)]
    split
    · exact fine_fail
    · exact fine_pure

theorem readVEntry_iff (hb : b.length < 2 ^ 63) :
    (∃ e, (readVEntry d b).result = .ok (e, rest)) ↔ VectorAt d b rest := by
  constructor
  · rintro ⟨e, h⟩
    obtain ⟨v, hv, h⟩ := exists_of_result_bind h
    have hvec := components_iff.mp ⟨v.1, hv⟩
    have hlen := length_components hvec
    rw [result_readStr_bind (by omega)] at h
    split at h
    · cases h
    · next name r₂ hname =>
      have hlen' := length_splitPrefixed hname
      rw [result_readStr_bind (by omega)] at h
      split at h
      · cases h
      · next attr r₃ hattr =>
        cases h
        exact ⟨v.2, r₂, name, attr, hvec, hname, hattr⟩
  · rintro ⟨r₁, r₂, name, attr, hvec, hname, hattr⟩
    obtain ⟨vec, hv⟩ := components_iff.mpr hvec
    have hlen := length_components hvec
    have hlen' := length_splitPrefixed hname
    refine ⟨(name, ⟨vec, attr⟩), ?_⟩
    rw [readVEntry, result_bind_ok hv, result_readStr_bind (by dsimp only; omega), hname]
    rw [result_readStr_bind (by omega), hattr, result_pure]

theorem length_vectorAt (h : VectorAt d b rest) : rest.length < b.length := by
  obtain ⟨r₁, r₂, name, attr, hvec, hname, hattr⟩ := h
  have h₁ := length_components hvec
  have h₂ := length_splitPrefixed hname
  have h₃ := length_splitPrefixed hattr
  omega

section
variable {maxAlloc i d adv : Nat} {dim : Int} {m : Vectors} {r : Bytes}

theorem vectorBody_eq (h : NextDim dim r d adv) :
    vectorBody maxAlloc i ((dim, m), r) = (do
      .makeSlice maxAlloc 8 d
      let (e, rest) ← readVEntry d (r.drop adv)
      .grow 56 i
      pure ((asInt d, m.insert e.1 e.2), rest)) := by
  obtain ⟨hd, hdim⟩ := h
  have hnew : (if dim < 0 then asInt d else dim) = asInt d := by
    split
    · rfl
    · next hneg => exact (hdim.resolve_left hneg).symm
  rw [vectorBody]
  rw [hd]
  simp [hnew]

variable (maxAlloc i m) in
theorem vectorBody_fails (h : ∀ d adv, ¬ NextDim dim r d adv) :
    ∃ e, vectorBody maxAlloc i ((dim, m), r) = .fail e := by
  rw [vectorBody]
  cases hd : uvarint r with
  | none => exact ⟨_, rfl⟩
  | some x =>
    have hne : asInt x.1 ≠ if dim < 0 then asInt x.1 else dim := by
      intro heq
      refine h x.1 x.2 ⟨hd, ?_⟩
      split at heq
      · next hneg => exact .inl hneg
      · exact .inr heq
    dsimp only
    rw [if_pos hne]
    exact ⟨_, rfl⟩

theorem fine_vectorBody (hr : r.length < 2 ^ 63) (hle : r.length ≤ bound)
    (hroom : 112 * (i + 1) ≤ bound) :
    (vectorBody maxAlloc i ((dim, m), r)).Fine bound ↔
      ∀ d adv, NextDim dim r d adv → d * 8 ≤ maxAlloc ∧ d * 8 ≤ bound := by
  by_cases h : ∀ d adv, ¬ NextDim dim r d adv
  · obtain ⟨e, he⟩ := vectorBody_fails maxAlloc i m h
    rw [he]
    exact iff_of_true fine_fail fun d adv hd => absurd hd (h d adv)
  · push Not at h
    obtain ⟨d, adv, hd⟩ := h
    have hdrop : (r.drop adv).length ≤ r.length := by
      rw [length_drop]
      omega
    have hrest : (readVEntry d (r.drop adv) >>= fun x => (do
        .grow 56 i
        pure ((asInt d, m.insert x.1.1 x.1.2), x.2) : Decoder VState)).Fine bound :=
      fine_bind.mpr ⟨fine_readVEntry (by omega) (by omega),
        fun _ _ => fine_grow_bind.mpr ⟨hroom, fine_pure⟩⟩
    rw [vectorBody_eq hd, fine_makeSlice_bind, and_iff_left hrest]
    constructor
    · intro hfits d' adv' hd'
      have heq := hd.1.symm.trans hd'.1
      cases heq
      exact hfits
    · exact fun hall => hall d adv hd

theorem vectorBody_result {t : VState} (hr : r.length < 2 ^ 63)
    (h : (vectorBody maxAlloc i ((dim, m), r)).result = .ok t) :
    ∃ d adv, NextDim dim r d adv ∧ VectorAt d (r.drop adv) t.2 ∧ t.1.1 = asInt d := by
  by_cases hnone : ∀ d adv, ¬ NextDim dim r d adv
  · obtain ⟨e, he⟩ := vectorBody_fails maxAlloc i m hnone
    rw [he] at h
    cases h
  · push Not at hnone
    obtain ⟨d, adv, hd⟩ := hnone
    rw [vectorBody_eq hd] at h
    obtain ⟨_, -, h⟩ := exists_of_result_bind h
    obtain ⟨⟨e, rest⟩, hread, h⟩ := exists_of_result_bind h
    cases h
    refine ⟨d, adv, hd, (readVEntry_iff ?_).mp ⟨e, hread⟩, rfl⟩
    rw [length_drop]
    omega

theorem vectorBody_consumes {s t : VState} (hs : s.2.length < 2 ^ 63)
    (h : (vectorBody maxAlloc i s).result = .ok t) : t.2.length < s.2.length := by
  obtain ⟨d, adv, hd, hvec, -⟩ := vectorBody_result hs h
  have hlen := length_vectorAt hvec
  rw [length_drop] at hlen
  omega

/-- A vector that is there is read when its components fit. -/
theorem vectorBody_reads (hr : r.length < 2 ^ 63) (hd : NextDim dim r d adv)
    (hvec : VectorAt d (r.drop adv) rest) (hfits : d * 8 ≤ maxAlloc) :
    ∃ m', (vectorBody maxAlloc i ((dim, m), r)).result = .ok ((asInt d, m'), rest) := by
  obtain ⟨e, he⟩ := (readVEntry_iff (by rw [length_drop]; omega)).mpr hvec
  have hmake : (makeSlice maxAlloc 8 d : Decoder Unit).result = .ok () := by
    rw [makeSlice, if_neg (not_lt.mpr hfits)]
    exact result_alloc
  refine ⟨m.insert e.1 e.2, ?_⟩
  rw [vectorBody_eq hd, result_bind_ok hmake, result_bind_ok he]
  rw [result_bind_ok result_grow, result_pure]

end

theorem vectored_of_loop {s t : VState} (hs : s.2.length < 2 ^ 63)
    (h : (loop (vectorBody maxAlloc) i k s).result = .ok t) : Vectored s.1.1 k s.2 t.1.1 t.2 := by
  induction k generalizing i s with
  | zero =>
    cases h
    exact .nil
  | succ k ih =>
    obtain ⟨u, hu, ht⟩ := exists_of_result_bind h
    obtain ⟨d, adv, hd, hvec, hdim⟩ := vectorBody_result hs hu
    have hshorter := vectorBody_consumes hs hu
    refine .cons hd hvec ?_
    rw [← hdim]
    exact ih (by omega) ht

/-- The vectors that are there are read as long as their components fit. -/
theorem loop_of_vectored {dim dim' : Int} (h : Vectored dim k r dim' rest) (hr : r.length < 2 ^ 63)
    (i : Nat) (m : Vectors) (hfine : (loop (vectorBody maxAlloc) i k ((dim, m), r)).Fine bound) :
    ∃ m', (loop (vectorBody maxAlloc) i k ((dim, m), r)).result = .ok ((dim', m'), rest) := by
  induction h generalizing i m with
  | nil => exact ⟨m, rfl⟩
  | @cons dim dim' k d adv r r' rest hd hvec htail ih =>
    rw [loop_succ] at hfine ⊢
    obtain ⟨hbody, hrest⟩ := fine_bind.mp hfine
    rw [vectorBody_eq hd] at hbody
    obtain ⟨m', hm⟩ := vectorBody_reads hr hd hvec (fine_makeSlice_bind.mp hbody).1.1
    have hlen := length_vectorAt hvec
    rw [length_drop] at hlen
    rw [result_bind_ok hm]
    exact ih (by omega) (i + 1) m' (hrest _ hm)

/-- The components of a vector behind whole vectors do not fit. -/
def DimensionTooLarge (maxAlloc bound : Nat) (raw : Bytes) : Prop :=
  ∃ count n, uvarint raw = some (count, n) ∧ ∃ k < count, ∃ dim r d adv,
    Vectored (-1) k (raw.drop n) dim r ∧ NextDim dim r d adv ∧ (maxAlloc < d * 8 ∨ bound < d * 8)

theorem fine_decodeVector {factor : Nat} (hfactor : 112 ≤ factor) (hraw : raw.length < 2 ^ 63) :
    (decodeVector maxAlloc raw).Fine (factor * raw.length) ↔
      ¬ DimensionTooLarge maxAlloc (factor * raw.length) raw := by
  rw [decodeVector]
  cases hn : uvarint raw with
  | none =>
    exact iff_of_true fine_fail (not_exists_uvarint hn)
  | some x =>
    have hadv := uvarint_bounds hn
    have hlen : (raw.drop x.2).length + 1 ≤ raw.length := by
      rw [length_drop]
      omega
    have hle : raw.length ≤ factor * raw.length := Nat.le_mul_of_pos_left _ (by omega)
    rw [fine_bind, and_iff_left fun _ _ => fine_pure]
    -- Every round finds less input than the last, and room for one more entry.
    have hround : ∀ k t, (loop (vectorBody maxAlloc) 0 k ((-1, ∅), raw.drop x.2)).result = .ok t →
        t.2.length < 2 ^ 63 ∧ t.2.length ≤ factor * raw.length ∧
          112 * (k + 1) ≤ factor * raw.length := by
      intro k t ht
      have hused := loop_consumes
        (fun i u v hu => vectorBody_consumes (by dsimp only at hu; omega)) ht
      dsimp only at hused
      exact ⟨by omega, by omega, Nat.mul_le_mul hfactor (by omega)⟩
    constructor
    · intro hfine hlarge
      obtain ⟨k, hk, dim, r, d, adv, hvecs, hd, hbig⟩ := (exists_uvarint_iff hn).mp hlarge
      obtain ⟨m, hm⟩ := loop_of_vectored hvecs (by omega) 0 ∅
        (fine_loop_of_le hk.le hfine)
      obtain ⟨hr, hle', hroom⟩ := hround k _ hm
      have hbody := (fine_loop.mp hfine) k hk _ hm
      rw [zero_add] at hbody
      have hfits := (fine_vectorBody hr hle' hroom).mp hbody d adv hd
      omega
    · intro hnot
      refine fine_loop.mpr fun k hk t ht => ?_
      obtain ⟨hr, hle', hroom⟩ := hround k t ht
      rw [zero_add]
      refine (fine_vectorBody hr hle' hroom).mpr fun d adv hd => ?_
      by_contra hbig
      have hvecs := vectored_of_loop (by dsimp only; omega) ht
      exact hnot ⟨x.1, x.2, hn, k, hk, t.1.1, t.2, d, adv, hvecs, hd, by omega⟩

/-- A reader that takes at least a number of bytes from its input, and room for a multiple of it. -/
def Takes {α : Type} (factor least : Nat) (read : Bytes → Decoder (α × Bytes)) : Prop :=
  ∀ b, b.length < 2 ^ 63 → (read b).Fine (factor * b.length) ∧
    ∀ x rest, (read b).result = .ok (x, rest) → rest.length + least ≤ b.length

section
variable {α β : Type} {factor least : Nat} {read : Bytes → Decoder (α × Bytes)}

theorem takes_pure {x : α} : Takes factor 0 fun b => pure (x, b) := by
  intro b _
  refine ⟨fine_pure, ?_⟩
  rintro _ _ ⟨⟩
  exact le_refl _

theorem takes_fail {e : PayloadError} :
    Takes factor least fun _ => (fail e : Decoder (α × Bytes)) := by
  intro b _
  refine ⟨fine_fail, ?_⟩
  rintro _ _ ⟨⟩

/-- What follows a reader finds the input that the reader has left. -/
theorem Takes.fine_bind {k : α × Bytes → Decoder β} (h : Takes factor least read)
    (hb : b.length < 2 ^ 63)
    (hk : ∀ x rest, rest.length < 2 ^ 63 → (k (x, rest)).Fine (factor * rest.length)) :
    (read b >>= k).Fine (factor * b.length) := by
  refine Meter.fine_bind.mpr ⟨(h b hb).1, fun y hy => ?_⟩
  have hlen := (h b hb).2 y.1 y.2 hy
  exact (hk y.1 y.2 (by omega)).mono (Nat.mul_le_mul_left factor (by omega))

theorem Takes.bind {k : α × Bytes → Decoder (β × Bytes)} (h : Takes factor least read)
    (hk : ∀ x, Takes factor 0 fun rest => k (x, rest)) :
    Takes factor least fun b => read b >>= k := by
  intro b hb
  refine ⟨h.fine_bind hb fun x rest hrest => (hk x rest hrest).1, fun y rest hy => ?_⟩
  obtain ⟨x, hx, hy⟩ := exists_of_result_bind hy
  have hlen := (h b hb).2 x.1 x.2 hx
  have hlen' := (hk x.1 x.2 (by omega)).2 y rest hy
  omega

/-- A reader behind the first one, where what it takes no longer matters. -/
theorem Takes.andThen {k : α × Bytes → Decoder (β × Bytes)} (h : Takes factor 1 read)
    (hk : ∀ x, Takes factor 0 fun rest => k (x, rest)) :
    Takes factor 0 fun b => read b >>= k := by
  intro b hb
  refine ⟨(h.bind hk b hb).1, fun y rest hy => ?_⟩
  exact Nat.le_of_succ_le ((h.bind hk b hb).2 y rest hy)

theorem takes_readUvarint : Takes factor 1 readUvarint := by
  intro b hb
  rw [readUvarint]
  cases hn : uvarint b with
  | none => exact takes_fail b hb
  | some =>
    have hadv := uvarint_bounds hn
    refine ⟨fine_pure, ?_⟩
    rintro _ _ ⟨⟩
    rw [length_drop]
    omega

theorem takes_readUvarintOrZero : Takes factor 0 readUvarintOrZero := by
  intro b _
  rw [readUvarintOrZero]
  cases hn : uvarint b with
  | none =>
    refine ⟨fine_pure, ?_⟩
    rintro _ _ ⟨⟩
    exact le_refl _
  | some =>
    refine ⟨fine_pure, ?_⟩
    rintro _ _ ⟨⟩
    rw [length_drop]
    omega

theorem takes_readStreamStr (hfactor : 0 < factor) : Takes factor 1 readStreamStr := by
  intro b hb
  rw [readStreamStr, fine_readStr_bind hb (Nat.le_mul_of_pos_left _ hfactor),
    result_readStr_bind hb]
  cases htext : splitPrefixed b with
  | none => exact takes_fail b hb
  | some =>
    have hlen := length_splitPrefixed htext
    refine ⟨fine_pure, ?_⟩
    rintro _ _ ⟨⟩
    omega

theorem takes_readBool : Takes factor 1 readBool := by
  apply takes_readUvarint.bind
  exact fun _ => takes_pure

theorem takes_readID : Takes factor 1 readID := by
  apply takes_readUvarint.bind
  intro ms
  apply takes_readUvarint.andThen
  exact fun _ => takes_pure

/-- A slice whose elements take input grows to a multiple of the input. -/
theorem takes_readAll (hread : Takes factor 1 read) (hwidth : 2 * width ≤ factor) :
    Takes factor 1 (readAll width read) := by
  intro b hb
  have hconsumes : ∀ i (u v : List α × Bytes), u.2.length < 2 ^ 63 →
      (appendBody width read i u).result = .ok v → v.2.length < u.2.length := by
    intro i u v hu hv
    obtain ⟨x, hx, hv⟩ := exists_of_result_bind hv
    have hlen := (hread u.2 hu).2 x.1 x.2 hx
    cases hv
    dsimp only
    omega
  have hcount : Takes factor 1 readUvarint := takes_readUvarint
  rw [readAll, Meter.fine_bind]
  refine ⟨⟨(hcount b hb).1, fun n hn => ?_⟩, fun xs rest h => ?_⟩
  · have hlen := (hcount b hb).2 n.1 n.2 hn
    refine fine_loop_of_consumes fun i u hu => ⟨?_, fun v => hconsumes i u v ?_⟩
    · dsimp only at hu
      refine Meter.fine_bind.mpr ⟨(hread u.2 (by omega)).1.mono ?_, fun x _ => ?_⟩
      · exact Nat.mul_le_mul_left factor (by omega)
      · refine fine_grow_bind.mpr ⟨?_, fine_pure⟩
        exact Nat.mul_le_mul hwidth (by omega)
    · dsimp only at hu
      omega
  · obtain ⟨n, hn, h⟩ := exists_of_result_bind h
    have hlen := (hcount b hb).2 n.1 n.2 hn
    have hused := loop_consumes (fun i u v hu => hconsumes i u v (by dsimp only at hu; omega)) h
    dsimp only at hused
    omega

end

section
variable {factor : Nat}

theorem takes_readEntry (hfactor : 32 ≤ factor) : Takes factor 1 readEntry := by
  have htext : Takes factor 1 readStreamStr := takes_readStreamStr (by omega)
  apply takes_readID.bind
  intro id
  apply (takes_readAll htext (by omega)).andThen
  intro fields b hb
  dsimp only
  split
  · exact takes_pure b hb
  · exact takes_fail b hb

theorem takes_readConsumer (hfactor : 0 < factor) : Takes factor 1 readConsumer := by
  apply (takes_readStreamStr hfactor).bind
  intro name
  apply takes_readUvarint.andThen
  intro seenMs
  apply takes_readBool.andThen
  intro hasActive
  apply takes_readUvarint.andThen
  exact fun _ => takes_pure

theorem takes_readPEL (hfactor : 0 < factor) : Takes factor 1 readPEL := by
  apply takes_readID.bind
  intro id
  apply (takes_readStreamStr hfactor).andThen
  intro consumer
  apply takes_readUvarint.andThen
  intro deliveryMs
  apply takes_readUvarint.andThen
  exact fun _ => takes_pure

theorem takes_readGroup (hfactor : 80 ≤ factor) : Takes factor 1 readGroup := by
  have hconsumer : Takes factor 1 readConsumer := takes_readConsumer (by omega)
  have hpel : Takes factor 1 readPEL := takes_readPEL (by omega)
  apply (takes_readStreamStr (by omega)).bind
  intro name
  apply takes_readID.andThen
  intro lastID
  apply takes_readBool.andThen
  intro hasRead
  apply takes_readUvarint.andThen
  intro entriesRead
  apply (takes_readAll hconsumer (by omega)).andThen
  intro consumers
  apply (takes_readAll hpel (by omega)).andThen
  exact fun _ => takes_pure

/-- No payload of a stream can make its decoder panic or take more room than a multiple of it. -/
theorem fine_decodeStream (hfactor : 80 ≤ factor) (hraw : raw.length < 2 ^ 63) :
    (decodeStream raw).Fine (factor * raw.length) := by
  have hentry : Takes factor 1 readEntry := takes_readEntry (by omega)
  refine (takes_readAll hentry hfactor).fine_bind hraw fun _ _ h => ?_
  refine takes_readUvarintOrZero.fine_bind h fun _ _ h => ?_
  refine takes_readUvarintOrZero.fine_bind h fun _ _ h => ?_
  refine takes_readBool.fine_bind h fun _ _ h => ?_
  refine takes_readUvarint.fine_bind h fun _ _ h => ?_
  refine takes_readID.fine_bind h fun _ _ h => ?_
  exact (takes_readAll (takes_readGroup hfactor) (by omega)).fine_bind h fun _ _ _ => fine_pure

theorem fine_decodeHLL (hfactor : 0 < factor) : (decodeHLL raw).Fine (factor * raw.length) := by
  rw [decodeHLL]
  split
  · exact fine_fail
  · next hlen =>
    split
    · exact fine_fail
    · split
      · exact fine_fail
      · refine fine_alloc_bind.mpr ⟨?_, fine_pure⟩
        have hle := Nat.le_mul_of_pos_left raw.length hfactor
        have hsize : raw.length = 16 + 12288 := not_not.mp hlen
        rw [hllDenseRegs]
        omega

end

/-- The numbers in a payload that its decoder trusts without reason: the count of a list or a map and
the dimension of a vector, for which room is made at once, and the length of a member of a sorted
set. -/
def Overstates (maxAlloc bound : Nat) : Container → Bytes → Prop
  | .hash, raw => MapTooLarge maxAlloc bound 32 raw
  | .list, raw => SliceTooLarge maxAlloc bound 16 raw
  | .set, raw => MapTooLarge maxAlloc bound 16 raw
  | .zset, raw => MapTooLarge maxAlloc bound 24 raw ∨ MemberWraps raw
  | .stream, _ => False
  | .vector, raw => DimensionTooLarge maxAlloc bound raw
  | .hll, _ => False

/-- A decoder answers with a value or an error, without a wrapped length and within a multiple of the
payload, exactly when the payload does not overstate what it holds. -/
theorem decodeContent_fine_iff {factor : Nat} {raw : Bytes} (maxAlloc : Nat) (c : Container)
    (hfactor : 112 ≤ factor) (hraw : raw.length < 2 ^ 63) :
    (decodeContent maxAlloc c raw).Fine (factor * raw.length) ↔
      ¬ Overstates maxAlloc (factor * raw.length) c raw := by
  cases c
  all_goals rw [decodeContent, fine_bind, and_iff_left fun _ _ => fine_pure]
  case hash => exact fine_meterHash (by omega) hraw
  case list => exact fine_decodeList (by omega) hraw
  case set => exact fine_decodeSet (by omega) hraw
  case zset =>
    rw [Overstates, not_or]
    exact fine_decodeZSet (by omega) hraw
  case stream => exact iff_of_true (fine_decodeStream (by omega) hraw) not_false
  case vector => exact fine_decodeVector hfactor hraw
  case hll => exact iff_of_true (fine_decodeHLL (by omega)) not_false

/-- A sorted set with the member "m" of score zero. -/
def oneMember : Bytes := [0, 1, 1, 109] ++ List.replicate 8 0

theorem decodeContent_fine_member :
    (decodeContent (2 ^ 48) .zset oneMember).Fine (112 * oneMember.length) := by
  refine (decodeContent_fine_iff (2 ^ 48) .zset (le_refl 112) (by decide)).mpr ?_
  have hcount : announced oneMember = some (1, 1) := by decide
  rintro (⟨n, adv, h, -, hbig⟩ | ⟨n, adv, h, k, hk, r, hscored, mlen, adv', hlen, hwraps⟩)
  · rw [hcount] at h
    cases h
    exact absurd hbig (by decide)
  · rw [hcount] at h
    cases h
    obtain rfl : k = 0 := by omega
    cases hscored
    have hmember : uvarint (oneMember.tail.drop 1) = some (1, 1) := by decide
    rw [hmember] at hlen
    cases hlen
    omega

/-- A sorted set that announces one member whose length is the largest number there is. -/
def longMember : Bytes := [0, 1] ++ appendUvarint (2 ^ 64 - 1) ++ List.replicate 8 0

/-- The check lets the length through, and cutting the member out panics. -/
theorem decodeContent_member_panics :
    (decodeContent (2 ^ 48) .zset longMember).result = .error (.panicked .sliceBounds) := by
  have hzset : (decodeZSet (2 ^ 48) longMember).result = .error (.panicked .sliceBounds) := by
    decide +kernel
  exact result_bind_error hzset

end Gedis.Datastruct
