import Gedis.Datastruct.Untrusted

/-!
# Payloads of empty containers

A payload is decoded to an empty container only when it announces no elements, so what an encoder
makes of a container with elements is never decoded to an empty one.
-/

namespace Gedis.Datastruct

open Gedis.Core Meter Std List

variable {maxAlloc : Nat} {raw : Bytes} {enc : UInt8} {elems : List Bytes} {m : Fields}

theorem announced_decodeList (h : (decodeList maxAlloc raw).result = .ok elems) :
    ∃ adv, announced raw = some (elems.length, adv) := by
  cases raw with
  | nil => cases h
  | cons enc rest =>
    rw [decodeList] at h
    split at h
    · cases h
    · next n adv hn =>
      obtain ⟨_, -, h⟩ := exists_of_result_bind h
      obtain ⟨s, hs, h⟩ := exists_of_result_bind h
      cases h
      have hlen := loop_invariant (s := (([] : List Bytes), rest.drop adv))
        (fun i (s : List Bytes × Bytes) => s.1.length = i) (fun i s t hi ht => ?_) rfl hs
      · refine ⟨adv, ?_⟩
        rw [hlen]
        dsimp only [length_nil]
        rw [Nat.zero_add]
        exact hn
      · obtain ⟨r, -, ht⟩ := exists_of_result_bind ht
        split at ht
        · cases ht
        · cases ht
          rw [length_append, hi]
          rfl

/-- A loop that inserts something in every round leaves a map with something in it. -/
theorem nonempty_of_loop {β : Type} {body : Nat → OrdMap Bytes β × Bytes → Decoder (OrdMap Bytes β × Bytes)}
    (hbody : ∀ i s t, (body i s).result = .ok t → ∃ k v, t.1 = s.1.insert k v) {n : Nat}
    {s t : OrdMap Bytes β × Bytes} (h : (loop body 0 n s).result = .ok t) (hn : 0 < n) :
    t.1.isEmpty = false := by
  have hinv := loop_invariant (fun i (s : OrdMap Bytes β × Bytes) => 0 < i → s.1.isEmpty = false)
    (fun i s t _ ht _ => ?_) (fun h => absurd h (Nat.lt_irrefl 0)) h
  · exact hinv (by omega)
  · obtain ⟨k, v, hins⟩ := hbody i s t ht
    rw [hins, OrdMap.isEmpty_insert]

/-- A map that is empty after such a loop comes from one without rounds. -/
theorem eq_zero_of_empty {β : Type}
    {body : Nat → OrdMap Bytes β × Bytes → Decoder (OrdMap Bytes β × Bytes)}
    (hbody : ∀ i s t, (body i s).result = .ok t → ∃ k v, t.1 = s.1.insert k v) {width n : Nat}
    {rest : Bytes} {enc enc' : UInt8} {m : OrdMap Bytes β}
    (h : (do
      .makeMap maxAlloc width n
      let s ← loop body 0 n (∅, rest)
      pure (s.1, enc) : Decoder (OrdMap Bytes β × UInt8)).result = .ok (m, enc'))
    (hempty : m.isEmpty = true) : n = 0 := by
  obtain ⟨_, -, h⟩ := exists_of_result_bind h
  obtain ⟨t, ht, h⟩ := exists_of_result_bind h
  cases h
  by_contra hn
  rw [nonempty_of_loop hbody ht (Nat.pos_of_ne_zero hn)] at hempty
  cases hempty

theorem setBody_inserts (i : Nat) (s t : Members × Bytes) (h : (setBody i s).result = .ok t) :
    ∃ k v, t.1 = s.1.insert k v := by
  obtain ⟨r, -, h⟩ := exists_of_result_bind h
  split at h
  · cases h
  · next m rest =>
    cases h
    exact ⟨m, (), rfl⟩

theorem zsetBody_inserts (i : Nat) (s t : Scores × Bytes) (h : (zsetBody i s).result = .ok t) :
    ∃ k v, t.1 = s.1.insert k v := by
  rw [zsetBody] at h
  split at h
  · cases h
  · obtain ⟨size, -, h⟩ := exists_of_result_bind h
    split at h
    · cases h
    · obtain ⟨m, -, h⟩ := exists_of_result_bind h
      obtain ⟨rest, -, h⟩ := exists_of_result_bind h
      obtain ⟨bits, -, h⟩ := exists_of_result_bind h
      obtain ⟨tail, -, h⟩ := exists_of_result_bind h
      obtain ⟨_, -, h⟩ := exists_of_result_bind h
      cases h
      exact ⟨m, _, rfl⟩

theorem announced_decodeSet {s : Members} (h : (decodeSet maxAlloc raw).result = .ok (s, enc))
    (hempty : s.isEmpty = true) : ∃ adv, announced raw = some (0, adv) := by
  cases raw with
  | nil => cases h
  | cons enc rest =>
    rw [decodeSet] at h
    split at h
    · cases h
    · next n adv hn =>
      obtain rfl := eq_zero_of_empty setBody_inserts h hempty
      exact ⟨adv, hn⟩

theorem announced_decodeZSet {z : Scores} (h : (decodeZSet maxAlloc raw).result = .ok (z, enc))
    (hempty : z.isEmpty = true) : ∃ adv, announced raw = some (0, adv) := by
  cases raw with
  | nil => cases h
  | cons enc rest =>
    rw [decodeZSet] at h
    split at h
    · cases h
    · next n adv hn =>
      obtain rfl := eq_zero_of_empty zsetBody_inserts h hempty
      exact ⟨adv, hn⟩

theorem nonempty_of_readPairs {i n : Nat} {rest : Bytes} {m' : Fields}
    (h : readPairs i n rest m = .ok m') (hn : 0 < n ∨ m.isEmpty = false) : m'.isEmpty = false := by
  induction n generalizing i rest m with
  | zero =>
    cases h
    exact hn.resolve_left (Nat.lt_irrefl 0)
  | succ n ih =>
    rw [readPairs] at h
    split at h
    · cases h
    · split at h
      · cases h
      · exact ih h (.inr OrdMap.isEmpty_insert)

theorem announced_decodeHash (h : decodeHash raw = .ok (m, enc)) (hempty : m.isEmpty = true) :
    ∃ adv, announced raw = some (0, adv) := by
  cases raw with
  | nil => cases h
  | cons enc rest =>
    rw [decodeHash] at h
    split at h
    · cases h
    · next n adv hn =>
      split at h
      · cases h
      · next m' hm =>
        cases h
        rcases Nat.eq_zero_or_pos n with rfl | hpos
        · exact ⟨adv, hn⟩
        · rw [nonempty_of_readPairs hm (.inl hpos)] at hempty
          cases hempty

/-- A payload of representable length announces its elements. -/
theorem announced_items {γ : Type} {f : γ → Bytes} (hf : ∀ x, f x ≠ []) {items : List γ}
    (hlen : (enc :: (appendUvarint items.length ++ items.flatMap f)).length < 2 ^ 64) :
    ∃ adv, announced (enc :: (appendUvarint items.length ++ items.flatMap f)) =
      some (items.length, adv) := by
  have hle := length_le_flatMap hf items
  rw [length_cons, length_append] at hlen
  exact ⟨_, uvarint_appendUvarint (by omega) _⟩

theorem prefixed_ne_nil (bs : Bytes) : prefixed bs ≠ [] :=
  append_ne_nil_of_left_ne_nil appendUvarint_ne_nil _

theorem encodeScore_ne_nil (p : Bytes × UInt64) : encodeScore p ≠ [] :=
  append_ne_nil_of_left_ne_nil (prefixed_ne_nil _) _

/-- The record of a list, set, hash or sorted set that is decoded to an empty one. -/
def isEmptyEntry (maxAlloc : Nat) (e : Entry) : Bool :=
  if e.typ = typeList then
    match (decodeList maxAlloc e.payload).result with
    | .ok elems => elems.isEmpty
    | .error _ => false
  else if e.typ = typeSet then
    match (decodeSet maxAlloc e.payload).result with
    | .ok (s, _) => s.isEmpty
    | .error _ => false
  else if e.typ = typeHash then
    match decodeHash e.payload with
    | .ok (m, _) => m.isEmpty
    | .error _ => false
  else if e.typ = typeZSet then
    match (decodeZSet maxAlloc e.payload).result with
    | .ok (z, _) => z.isEmpty
    | .error _ => false
  else false

/-- Such a record announces no elements. -/
theorem announced_of_isEmptyEntry {e : Entry} (h : isEmptyEntry maxAlloc e = true) :
    ∃ adv, announced e.payload = some (0, adv) := by
  rw [isEmptyEntry] at h
  split at h
  · split at h
    · next elems hd =>
      obtain ⟨adv, hadv⟩ := announced_decodeList hd
      rw [isEmpty_iff.mp h] at hadv
      exact ⟨adv, hadv⟩
    · cases h
  · split at h
    · split at h
      · next s enc hd => exact announced_decodeSet hd h
      · cases h
    · split at h
      · split at h
        · next m enc hd => exact announced_decodeHash hd h
        · cases h
      · split at h
        · split at h
          · next z enc hd => exact announced_decodeZSet hd h
          · cases h
        · cases h

/-- A payload that announces at least one element, if its length is representable. -/
def Announces (payload : Bytes) : Prop :=
  payload.length < 2 ^ 64 → ∃ n adv, announced payload = some (n + 1, adv)

theorem announces_items {γ : Type} {f : γ → Bytes} (hf : ∀ x, f x ≠ [])
    {items : List γ} (hne : items ≠ []) :
    Announces (enc :: (appendUvarint items.length ++ items.flatMap f)) := by
  intro hlen
  obtain ⟨adv, hadv⟩ := announced_items hf hlen
  have hpos := length_pos_iff.mpr hne
  exact ⟨items.length - 1, adv, by rw [hadv, Nat.sub_add_cancel hpos]⟩

theorem announces_encodeList (h : elems ≠ []) : Announces (encodeList elems) :=
  announces_items prefixed_ne_nil h

theorem toList_ne_nil {β : Type} {m : OrdMap Bytes β} (h : m.isEmpty = false) : m.toList ≠ [] := by
  obtain ⟨k, hk⟩ := OrdMap.isEmpty_eq_false_iff.mp h
  have hmem : (k, m[k]) ∈ m.toList := ExtTreeMap.mem_toList_iff_getElem?_eq_some.mpr
    (ExtTreeMap.getElem?_eq_some_getElem hk)
  exact ne_nil_of_mem hmem

theorem announces_encodeHash (h : m.isEmpty = false) : Announces (encodeHash m) := by
  rw [encodeHash, ← ExtTreeMap.length_toList]
  exact announces_items encodePair_ne_nil (toList_ne_nil h)

theorem announces_encodeZSet {order : List Nat} {z : Scores} (h : z.isEmpty = false) :
    Announces (encodeZSet order z) := by
  apply announces_items encodeScore_ne_nil
  intro hnil
  have hlen := (sortZSetPairs_perm.trans (arrange_perm order z.toList)).length_eq
  rw [hnil] at hlen
  exact toList_ne_nil h (length_eq_zero_iff.mp hlen.symm)

theorem announces_encodeSet {members : List Bytes} (h : members ≠ []) :
    Announces (encodeSet members) := by
  have huniq : (members.foldl (fun (m : Members) x => m.insert x ()) ∅).isEmpty = false := by
    rw [← dropLast_concat_getLast h, foldl_append]
    exact OrdMap.isEmpty_insert
  apply announces_items prefixed_ne_nil
  intro hnil
  exact toList_ne_nil huniq (map_eq_nil_iff.mp hnil)

/-- A record is not decoded to an empty container, if its length is representable. -/
def Filled (maxAlloc : Nat) (v : Bytes) : Prop :=
  v.length < 2 ^ 64 → ∀ e, decode v = some e → isEmptyEntry maxAlloc e = false

theorem filled_encode (maxAlloc : Nat) (typ : UInt8) (expiry : Int64) {payload : Bytes}
    (h : Announces payload) : Filled maxAlloc (encode typ expiry payload) := by
  intro hlen e he
  rw [decode_encode] at he
  cases he
  rw [← Bool.not_eq_true]
  intro hempty
  obtain ⟨adv, hzero⟩ := announced_of_isEmptyEntry hempty
  have hshort : payload.length < 2 ^ 64 := by
    rw [encode, length_cons, length_append] at hlen
    omega
  obtain ⟨n, adv', hpos⟩ := h hshort
  rw [hzero] at hpos
  cases hpos

end Gedis.Datastruct
