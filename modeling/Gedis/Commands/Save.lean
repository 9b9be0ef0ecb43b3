import Gedis.Core.FirstWins
import Gedis.Commands.UserKeys
import Gedis.Datastruct.Stream

/-!
# Collecting the data set for a dump

`SAVE` scans the records of each type prefix, turns each into an entry of a dump and keeps the first
entry of each name. Expired records, records whose payload is not well formed and records of a type
that dumps do not have are passed over.
-/

namespace Gedis.Rdb

open Gedis.Core Datastruct

variable {p : Prefix} {name : Bytes}

structure StreamEntry where
  ms : UInt64
  seq : UInt64
  fields : List (Bytes × Bytes)
  deriving DecidableEq, Repr

structure StreamPending where
  ms : UInt64
  seq : UInt64
  deliveryTime : UInt64
  deliveryCount : UInt64
  consumer : Bytes
  deriving DecidableEq, Repr

structure StreamConsumerData where
  name : Bytes
  seenTime : UInt64
  activeTime : UInt64
  deriving DecidableEq, Repr

structure StreamGroupData where
  name : Bytes
  lastMs : UInt64
  lastSeq : UInt64
  entriesRead : UInt64
  hasEntriesRead : Bool
  pending : List StreamPending
  consumers : List StreamConsumerData
  deriving DecidableEq, Repr

structure StreamData where
  entries : List StreamEntry
  length : UInt64
  lastMs : UInt64
  lastSeq : UInt64
  firstMs : UInt64
  firstSeq : UInt64
  maxDeletedMs : UInt64
  maxDeletedSeq : UInt64
  added : UInt64
  groups : List StreamGroupData
  deriving DecidableEq, Repr

/-- The type and the value of an entry. Vector sets are not among them. -/
inductive Value where
  | string (b : Bytes)
  | list (elems : List Bytes)
  | set (members : List Bytes)
  | zset (members : List (Bytes × UInt64))
  | hash (m : Fields)
  | stream (d : StreamData)
  | hll (blob : Bytes)

/-- A deadline is a Unix time in milliseconds, zero when the key does not expire. -/
structure Entry where
  key : Bytes
  value : Value
  expireMs : Int64

end Gedis.Rdb

namespace Gedis.Commands

open Gedis.Core Datastruct List

/-- Fields and values that alternate, as pairs. -/
def pairFields : List Bytes → List (Bytes × Bytes)
  | field :: value :: rest => (field, value) :: pairFields rest
  | _ => []

def streamGroupDataOf (g : StreamGroup) : Rdb.StreamGroupData where
  name := g.name
  lastMs := g.lastID.ms
  lastSeq := g.lastID.seq
  entriesRead := g.entriesRead
  hasEntriesRead := g.hasRead
  pending := g.pel.map fun p => ⟨p.id.ms, p.id.seq, p.deliveryMs, p.count, p.consumer⟩
  consumers := g.consumers.map fun c => ⟨c.name, c.seenMs, c.activeMs⟩

/-- A stream in the form a dump has. -/
def streamDataOf (st : Stream) : Rdb.StreamData where
  entries := st.entries.map fun e => ⟨e.id.ms, e.id.seq, pairFields e.fields⟩
  length := UInt64.ofNat st.entries.length
  lastMs := st.last.ms
  lastSeq := st.last.seq
  firstMs := (st.entries.head?.map (·.id.ms)).getD 0
  firstSeq := (st.entries.head?.map (·.id.seq)).getD 0
  maxDeletedMs := st.maxDeleted.ms
  maxDeletedSeq := st.maxDeleted.seq
  added := st.added
  groups := st.groups.map streamGroupDataOf

/-- What a decoder reads, or nothing when it refuses the payload. -/
def readPayload {α : Type} (d : Decoder α) (value : α → Rdb.Value) : Go (Option Rdb.Value) :=
  match d.result with
  | .ok a => .ok (some (value a))
  | .error (.failed _) => .ok none
  | .error (.panicked p) => .error p

/-- The value of a record by its type. Members are sorted, so the order in which a map is enumerated
does not matter. -/
def collectValue (maxAlloc : Nat) (ent : Entry) : Go (Option Rdb.Value) :=
  if ent.typ = typeString then .ok (some (.string ent.payload))
  else if ent.typ = typeHash then
    readPayload (meterHash maxAlloc ent.payload) fun m => .hash m.1
  else if ent.typ = typeList then readPayload (decodeList maxAlloc ent.payload) .list
  else if ent.typ = typeSet then
    readPayload (decodeSet maxAlloc ent.payload) fun m => .set m.1.keys
  else if ent.typ = typeZSet then
    readPayload (decodeZSet maxAlloc ent.payload) fun m => .zset m.1.toList
  else if ent.typ = typeHLL then .ok (some (.hll ent.payload))
  else if ent.typ = typeStream then
    readPayload (decodeStream ent.payload) fun st => .stream (streamDataOf st)
  else .ok none

def nanosPerMilli : Int64 := 1000000

/-- Turn a record into an entry without a name. -/
def collectEntry (maxAlloc : Nat) (raw : Bytes) : Go (Option Rdb.Entry) :=
  match decode raw with
  | none => .ok none
  | some ent => do
    let expireMs := if ent.expiry ≠ 0 then ent.expiry / nanosPerMilli else 0
    match ← collectValue maxAlloc ent with
    | none => .ok none
    | some value => .ok (some ⟨[], value, expireMs⟩)

/-- Keep the entry of a record unless its name was seen before or it has expired. -/
def emit (maxAlloc : Nat) (now : Int64) (seen : OrdMap Bytes Rdb.Entry) (rawKey raw : Bytes) :
    Go (OrdMap Bytes Rdb.Entry) :=
  match stripTypePrefix rawKey with
  | none => .ok seen
  | some name =>
    match seen[name]? with
    | some _ => .ok seen
    | none => do
      match ← collectEntry maxAlloc raw with
      | none => .ok seen
      | some e =>
        if e.expireMs ≠ 0 ∧ e.expireMs * nanosPerMilli ≤ now then .ok seen
        else .ok (seen.insert name { e with key := name })

/-- Scan the records of one type prefix. -/
def emitType (maxAlloc : Nat) (now : Int64) (snap : OrdMap Bytes Bytes)
    (seen : OrdMap Bytes Rdb.Entry) (p : Prefix) : Go (OrdMap Bytes Rdb.Entry) :=
  (scanKeys snap p.bytes).foldlM (fun seen k =>
    match snap[k]? with
    | none => .ok seen
    | some v => emit maxAlloc now seen k v) seen

/-- The entries of all user keys in a snapshot of the store, in the order a map is enumerated. -/
def collectAll (maxAlloc : Nat) (now : Int64) (order : List Nat) (snap : OrdMap Bytes Bytes) :
    Go (List Rdb.Entry) := do
  let seen ← typePrefixes.foldlM (emitType maxAlloc now snap) ∅
  pure (arrange order (seen.toList.map (·.2)))

/-- What the record of a type prefix offers for a name. -/
def offered (maxAlloc : Nat) (now : Int64) (snap : OrdMap Bytes Bytes) (p : Prefix) (name : Bytes) :
    Go (Option Rdb.Entry) :=
  match snap[rawKey p name]? with
  | none => .ok none
  | some v => do
    match ← collectEntry maxAlloc v with
    | none => .ok none
    | some e =>
      if e.expireMs ≠ 0 ∧ e.expireMs * nanosPerMilli ≤ now then .ok none
      else .ok (some { e with key := name })

section Collect

variable {maxAlloc : Nat} {now : Int64} {snap : OrdMap Bytes Bytes} {p : Prefix} {name : Bytes}

theorem emit_rawKey {v : Bytes} (hv : snap[rawKey p name]? = some v) {seen : OrdMap Bytes Rdb.Entry}
    : emit maxAlloc now seen (rawKey p name) v =
      addNew (offered maxAlloc now snap p) seen name := by
  simp only [emit, stripTypePrefix_rawKey, addNew, offered, hv]
  cases seen[name]? with
  | some => rfl
  | none =>
    cases collectEntry maxAlloc v with
    | error => rfl
    | ok found =>
      cases found with
      | none => rfl
      | some =>
        dsimp only [bind, Except.bind]
        split_ifs <;> rfl

/-- The names of the records of a type prefix. -/
def namesOf (snap : OrdMap Bytes Bytes) (p : Prefix) : List Bytes :=
  (scanKeys snap p.bytes).map (·.drop p.bytes.length)

theorem drop_rawKey : (rawKey p name).drop p.bytes.length = name :=
  drop_left ..

theorem mem_namesOf : name ∈ namesOf snap p ↔ rawKey p name ∈ snap := by
  rw [namesOf, mem_map]
  constructor
  · rintro ⟨k, hk, rfl⟩
    obtain ⟨hmem, name, rfl⟩ := mem_scanKeys.mp hk
    rw [drop_left]
    exact hmem
  · intro h
    exact ⟨rawKey p name, mem_scanKeys.mpr ⟨h, prefix_append ..⟩, drop_rawKey⟩

private theorem foldlM_emit (p : Prefix) (ks : List Bytes)
    (hks : ∀ k ∈ ks, ∃ name, k = rawKey p name ∧ rawKey p name ∈ snap)
    (seen : OrdMap Bytes Rdb.Entry) :
    ks.foldlM (fun seen k =>
      match snap[k]? with
      | none => .ok seen
      | some v => emit maxAlloc now seen k v) seen =
    (ks.map (·.drop p.bytes.length)).foldlM (addNew (offered maxAlloc now snap p)) seen := by
  induction ks generalizing seen with
  | nil => rfl
  | cons k ks ih =>
    obtain ⟨name, rfl, hmem⟩ := hks k (mem_cons_self ..)
    obtain ⟨v, hv⟩ := Std.ExtTreeMap.mem_iff_isSome_getElem?.mp hmem |> Option.isSome_iff_exists.mp
    rw [map_cons, foldlM_cons, foldlM_cons, drop_rawKey, hv]
    dsimp only
    rw [emit_rawKey hv]
    refine congrArg _ (funext fun seen => ih (fun k hk => hks k (mem_cons_of_mem _ hk)) seen)

/-- The scan of a type prefix is one pass over its names. -/
theorem emitType_eq {seen : OrdMap Bytes Rdb.Entry} : emitType maxAlloc now snap seen p =
      (namesOf snap p).foldlM (addNew (offered maxAlloc now snap p)) seen := by
  refine foldlM_emit p _ (fun k hk => ?_) seen
  obtain ⟨hmem, name, rfl⟩ := mem_scanKeys.mp hk
  exact ⟨name, rfl, hmem⟩

theorem offered_of_not_mem (h : rawKey p name ∉ snap) :
    offered maxAlloc now snap p name = .ok none := by
  rw [offered, Std.ExtTreeMap.getElem?_eq_none h]

/-- The collection has for each name what trying the type prefixes for that name gives. -/
theorem foldlM_emitType_iff {seen : OrdMap Bytes Rdb.Entry} :
    typePrefixes.foldlM (emitType maxAlloc now snap) ∅ = .ok seen ↔
      ∀ name, typePrefixes.findSomeM? (offered maxAlloc now snap · name) = .ok seen[name]? := by
  have hpasses : emitType maxAlloc now snap = fun seen p =>
      (namesOf snap p).foldlM (addNew (offered maxAlloc now snap p)) seen :=
    funext fun seen => funext fun p => emitType_eq
  rw [hpasses, foldlM_passes_iff (offered maxAlloc now snap)
    (fun p name h => offered_of_not_mem (mt mem_namesOf.mpr h))]
  simp

end Collect

end Gedis.Commands

namespace Gedis.Rdb

open Gedis.Core Datastruct

/-- A group of a dump is a group of a stream. Whether a consumer was ever active is not recorded. -/
structure StreamGroupData.Of (d : StreamGroupData) (g : StreamGroup) : Prop where
  name : d.name = g.name
  lastID : StreamID.mk d.lastMs d.lastSeq = g.lastID
  entriesRead : (d.entriesRead, d.hasEntriesRead) = (g.entriesRead, g.hasRead)
  pel : d.pending.map (fun p =>
    StreamPEL.mk ⟨p.ms, p.seq⟩ p.consumer p.deliveryTime p.deliveryCount) = g.pel
  consumers : d.consumers.map (fun c => (c.name, c.seenTime, c.activeTime)) =
    g.consumers.map fun c => (c.name, c.seenMs, c.activeMs)

/-- A stream of a dump has the entries, the IDs, the counter and the groups of a stream. -/
structure StreamData.Of (d : StreamData) (s : Stream) : Prop where
  entries : d.entries.map (fun e =>
      (StreamID.mk e.ms e.seq, e.fields.flatMap fun f => [f.1, f.2])) =
    s.entries.map fun e => (e.id, e.fields)
  length : d.length = UInt64.ofNat s.entries.length
  last : StreamID.mk d.lastMs d.lastSeq = s.last
  maxDeleted : StreamID.mk d.maxDeletedMs d.maxDeletedSeq = s.maxDeleted
  added : d.added = s.added
  groups : List.Forall₂ StreamGroupData.Of d.groups s.groups

/-- The type and the value are those of a record. -/
def Value.Of (maxAlloc : Nat) (e : Datastruct.Entry) : Value → Prop
  | .string b => e.typ = typeString ∧ b = e.payload
  | .list elems => e.typ = typeList ∧ (decodeList maxAlloc e.payload).result = .ok elems
  | .set members => e.typ = typeSet ∧ ∃ m enc, (decodeSet maxAlloc e.payload).result = .ok (m, enc) ∧
      members.Nodup ∧ ∀ x, x ∈ members ↔ x ∈ m
  | .zset members => e.typ = typeZSet ∧
      ∃ z enc, (decodeZSet maxAlloc e.payload).result = .ok (z, enc) ∧
        members.Nodup ∧ ∀ x score, (x, score) ∈ members ↔ z[x]? = some score
  | .hash m => e.typ = typeHash ∧ ∃ enc, (meterHash maxAlloc e.payload).result = .ok (m, enc)
  | .stream d => e.typ = typeStream ∧ ∃ s, (decodeStream e.payload).result = .ok s ∧ d.Of s
  | .hll blob => e.typ = typeHLL ∧ blob = e.payload

end Gedis.Rdb

namespace Gedis.Commands

open Gedis.Core Datastruct List

theorem flatMap_pairFields : ∀ {fields : List Bytes}, fields.length % 2 = 0 →
    ((pairFields fields).flatMap fun f => [f.1, f.2]) = fields
  | [], _ => rfl
  | [_], h => by simp at h
  | field :: value :: rest, h => by
    have hrest : rest.length % 2 = 0 := by
      simp only [length_cons] at h
      omega
    rw [pairFields, flatMap_cons, flatMap_pairFields hrest]
    rfl

theorem streamGroupDataOf_of {g : StreamGroup} : (streamGroupDataOf g).Of g where
  name := rfl
  lastID := rfl
  entriesRead := rfl
  pel := by
    rw [streamGroupDataOf, map_map]
    exact map_id g.pel
  consumers := by simp [streamGroupDataOf]

/-- The dump of a stream is the stream. -/
theorem streamDataOf_of {s : Stream} : (streamDataOf s).Of s where
  entries := by
    simp only [streamDataOf, map_map]
    refine map_congr_left fun e _ => ?_
    simp [flatMap_pairFields e.even]
  length := rfl
  last := rfl
  maxDeleted := rfl
  added := rfl
  groups := by
    simp only [streamDataOf, forall₂_map_left_iff, forall₂_same]
    exact fun g _ => streamGroupDataOf_of

theorem readPayload_eq_some_iff {α : Type} {d : Decoder α} {value : α → Rdb.Value} {v : Rdb.Value} :
    readPayload d value = .ok (some v) ↔ ∃ a, d.result = .ok a ∧ v = value a := by
  rw [readPayload]
  rcases d.result with (e | p) | a
  · simp
  · simp
  · simp [eq_comm]

/-- The value collected from a record is the record's. -/
theorem of_collectValue {maxAlloc : Nat} {e : Entry} {v : Rdb.Value}
    (h : collectValue maxAlloc e = .ok (some v)) : v.Of maxAlloc e := by
  rw [collectValue] at h
  split_ifs at h with hs hh hl hst hz hhll hx
  · cases h
    exact ⟨hs, rfl⟩
  · obtain ⟨⟨m, enc⟩, hm, rfl⟩ := readPayload_eq_some_iff.mp h
    exact ⟨hh, enc, hm⟩
  · obtain ⟨elems, helems, rfl⟩ := readPayload_eq_some_iff.mp h
    exact ⟨hl, helems⟩
  · obtain ⟨⟨m, enc⟩, hm, rfl⟩ := readPayload_eq_some_iff.mp h
    exact ⟨hst, m, enc, hm, Std.ExtTreeMap.nodup_keys, fun x => Std.ExtTreeMap.mem_keys⟩
  · obtain ⟨⟨z, enc⟩, hm, rfl⟩ := readPayload_eq_some_iff.mp h
    exact ⟨hz, z, enc, hm, OrdMap.nodup_toList,
      fun x score => Std.ExtTreeMap.mem_toList_iff_getElem?_eq_some⟩
  · cases h
    exact ⟨hhll, rfl⟩
  · obtain ⟨s, hm, rfl⟩ := readPayload_eq_some_iff.mp h
    exact ⟨hx, s, hm, streamDataOf_of⟩
  · cases h

/-- A user key is live: the record that probing finds has no deadline, or one that is more than a
millisecond away. -/
def LiveKey (snap : OrdMap Bytes Bytes) (now : Int64) (key : Bytes) (e : Entry) : Prop :=
  ∃ p v, probe snap key = some p ∧ snap[rawKey p key]? = some v ∧ decode v = some e ∧
    (e.expiry = 0 ∨ now.toInt + 1000000 < e.expiry.toInt)

/-- However the map is enumerated, the collection has exactly one entry for a key, with the type, the
value and the deadline of a record. -/
def Covered (maxAlloc : Nat) (now : Int64) (snap : OrdMap Bytes Bytes) (key : Bytes) (e : Entry) :
    Prop :=
  ∀ order, ∃ entries, collectAll maxAlloc now order snap = .ok entries ∧
    ∃ x, entries.filter (·.key = key) = [x] ∧ x.value.Of maxAlloc e ∧
      x.expireMs.toInt = e.expiry.toInt / 1000000

/-- A decoder accepts its input. -/
def Accepts {α : Type} (d : Decoder α) : Prop := ∃ a, d.result = .ok a

/-- A record of one of the seven types of a dump, with a payload that its decoder accepts. -/
def Exportable (maxAlloc : Nat) (e : Entry) : Prop :=
  e.typ = typeString ∨ e.typ = typeHLL ∨
  e.typ = typeHash ∧ Accepts (meterHash maxAlloc e.payload) ∨
  e.typ = typeList ∧ Accepts (decodeList maxAlloc e.payload) ∨
  e.typ = typeSet ∧ Accepts (decodeSet maxAlloc e.payload) ∨
  e.typ = typeZSet ∧ Accepts (decodeZSet maxAlloc e.payload) ∨
  e.typ = typeStream ∧ Accepts (decodeStream e.payload)

/-- No stored payload makes its decoder panic. -/
def PanicFree (maxAlloc : Nat) (snap : OrdMap Bytes Bytes) : Prop :=
  ∀ raw v : Bytes, snap[raw]? = some v → ∃ r, collectEntry maxAlloc v = .ok r

section Covers

variable {maxAlloc : Nat} {now : Int64} {snap : OrdMap Bytes Bytes} {key : Bytes} {e : Entry}

theorem exists_collectValue (h : Exportable maxAlloc e) :
    ∃ v, collectValue maxAlloc e = .ok (some v) := by
  have hread {α : Type} {d : Decoder α} {value : α → Rdb.Value} (hd : Accepts d) :
      ∃ v, readPayload d value = .ok (some v) := by
    obtain ⟨a, ha⟩ := hd
    exact ⟨value a, readPayload_eq_some_iff.mpr ⟨a, ha, rfl⟩⟩
  rw [collectValue]
  rcases h with h | h | ⟨h, hd⟩ | ⟨h, hd⟩ | ⟨h, hd⟩ | ⟨h, hd⟩ | ⟨h, hd⟩
  · exact ⟨_, if_pos h⟩
  · exact ⟨.hll e.payload, by rw [h]; rfl⟩
  all_goals
    rw [h]
    exact hread hd

theorem exportable_of_value {v : Rdb.Value} (h : v.Of maxAlloc e) : Exportable maxAlloc e := by
  cases v with
  | string => exact .inl h.1
  | hll => exact .inr (.inl h.1)
  | hash =>
    obtain ⟨ht, enc, hm⟩ := h
    exact .inr (.inr (.inl ⟨ht, _, hm⟩))
  | list => exact .inr (.inr (.inr (.inl ⟨h.1, _, h.2⟩)))
  | set =>
    obtain ⟨ht, m, enc, hm, -⟩ := h
    exact .inr (.inr (.inr (.inr (.inl ⟨ht, _, hm⟩))))
  | zset =>
    obtain ⟨ht, m, enc, hm, -⟩ := h
    exact .inr (.inr (.inr (.inr (.inr (.inl ⟨ht, _, hm⟩)))))
  | stream =>
    obtain ⟨ht, s, hm, -⟩ := h
    exact .inr (.inr (.inr (.inr (.inr (.inr ⟨ht, _, hm⟩)))))

/-- A deadline more than a millisecond away is rounded down and not taken for a past one. -/
theorem expireMs_of_live (hnow : 0 ≤ now.toInt)
    (hlive : e.expiry = 0 ∨ now.toInt + 1000000 < e.expiry.toInt) :
    let expireMs := if e.expiry ≠ 0 then e.expiry / nanosPerMilli else 0
    expireMs.toInt = e.expiry.toInt / 1000000 ∧
      ¬ (expireMs ≠ 0 ∧ expireMs * nanosPerMilli ≤ now) := by
  rcases hlive with h0 | hlater
  · simp [h0]
  · have hne : e.expiry ≠ 0 := by
      intro h0
      rw [h0, Int64.toInt_zero] at hlater
      omega
    have hmilli : nanosPerMilli.toInt = 1000000 := by decide
    have hlt := e.expiry.toInt_lt
    have hdiv : (e.expiry / nanosPerMilli).toInt = e.expiry.toInt / 1000000 := by
      rw [Int64.toInt_div, hmilli, Int.tdiv_eq_ediv_of_nonneg (by omega)]
      exact Int.bmod_eq_of_le (by omega) (by omega)
    rw [if_pos hne]
    refine ⟨hdiv, fun hpast => ?_⟩
    have hle := Int64.le_iff_toInt_le.mp hpast.2
    rw [Int64.toInt_mul, hdiv, hmilli, Int.bmod_eq_of_le (by omega) (by omega)] at hle
    omega

theorem key_of_offered {p : Prefix} {name : Bytes} {x : Rdb.Entry}
    (h : offered maxAlloc now snap p name = .ok (some x)) : x.key = name := by
  rw [offered] at h
  cases hv : snap[rawKey p name]? with
  | none =>
    rw [hv] at h
    cases h
  | some v =>
    rw [hv] at h
    dsimp only at h
    cases hc : collectEntry maxAlloc v with
    | error =>
      rw [hc] at h
      cases h
    | ok found =>
      rw [hc] at h
      cases found with
      | none => cases h
      | some =>
        dsimp only [bind, Except.bind] at h
        split_ifs at h
        · cases h
        · cases h
          rfl

/-- A live record that can be exported is offered with its type, value and deadline. -/
theorem offered_of_live {p : Prefix} {v : Bytes} (hv : snap[rawKey p key]? = some v)
    (hd : decode v = some e) (hnow : 0 ≤ now.toInt)
    (hlive : e.expiry = 0 ∨ now.toInt + 1000000 < e.expiry.toInt) (hexp : Exportable maxAlloc e) :
    ∃ x, offered maxAlloc now snap p key = .ok (some x) ∧ x.value.Of maxAlloc e ∧
      x.expireMs.toInt = e.expiry.toInt / 1000000 := by
  obtain ⟨value, hvalue⟩ := exists_collectValue hexp
  obtain ⟨hms, hpast⟩ := expireMs_of_live hnow hlive
  refine ⟨⟨key, value, if e.expiry ≠ 0 then e.expiry / nanosPerMilli else 0⟩, ?_,
    of_collectValue hvalue, hms⟩
  simp only [offered, hv, collectEntry, hd, hvalue]
  exact if_neg hpast

theorem exists_offered (hfree : PanicFree maxAlloc snap) (p : Prefix) (name : Bytes) :
    ∃ r, offered maxAlloc now snap p name = .ok r := by
  rw [offered]
  cases hv : snap[rawKey p name]? with
  | none => exact ⟨none, rfl⟩
  | some v =>
    obtain ⟨found, hfound⟩ := hfree _ v hv
    dsimp only
    rw [hfound]
    cases found with
    | none => exact ⟨none, rfl⟩
    | some =>
      dsimp only [bind, Except.bind]
      split
      · exact ⟨none, rfl⟩
      · exact ⟨_, rfl⟩

/-- Without a panic there is a collection. -/
theorem exists_seen (hfree : PanicFree maxAlloc snap) :
    ∃ seen, typePrefixes.foldlM (emitType maxAlloc now snap) ∅ = .ok seen := by
  obtain ⟨seen, hseen⟩ := exists_foldlM_passes ∅ (exists_offered hfree)
  refine ⟨seen, ?_⟩
  rw [← hseen]
  exact congrArg (fun f => typePrefixes.foldlM f ∅) (funext₂ fun seen p => emitType_eq)

/-- An entry that was seen is the only one of its name in the collection. -/
theorem filter_collected {seen : OrdMap Bytes Rdb.Entry} {x : Rdb.Entry} {order : List Nat}
    (hkeys : ∀ (name : Bytes) (y : Rdb.Entry), seen[name]? = some y → y.key = name) (hx : seen[key]? = some x) :
    (arrange order (seen.toList.map (·.2))).filter (·.key = key) = [x] := by
  have hothers : ((seen.erase key).toList.map (·.2)).filter (·.key = key) = [] := by
    rw [filter_eq_nil_iff]
    intro y hy hk
    obtain ⟨⟨name, y⟩, hmem, rfl⟩ := mem_map.mp hy
    rw [Std.ExtTreeMap.mem_toList_iff_getElem?_eq_some, OrdMap.getElem?_erase] at hmem
    split at hmem
    · cases hmem
    · next hne => exact hne ((of_decide_eq_true hk).symm.trans (hkeys name y hmem))
  have hperm := ((arrange_perm order (seen.toList.map (·.2))).trans
    ((OrdMap.toList_perm_of_getElem? hx).map (·.2))).filter (fun y => decide (y.key = key))
  have hself : decide (x.key = key) = true := decide_eq_true (hkeys key x hx)
  rw [map_cons, filter_cons, if_pos hself, hothers] at hperm
  exact perm_singleton.mp hperm

/-- A live key is in the dump, once and as it is, exactly when its record is of a type that dumps
have and its payload is well formed. -/
theorem collectAll_covers_iff (hfree : PanicFree maxAlloc snap) (hnow : 0 ≤ now.toInt)
    (hlive : LiveKey snap now key e) :
    Covered maxAlloc now snap key e ↔ Exportable maxAlloc e := by
  obtain ⟨p, v, hprobe, hv, hd, hdeadline⟩ := hlive
  constructor
  · intro h
    obtain ⟨entries, -, x, -, hx, -⟩ := h []
    exact exportable_of_value hx
  · intro hexp order
    obtain ⟨seen, hseen⟩ := exists_seen hfree
    have hsearch := foldlM_emitType_iff.mp hseen
    have hkeys : ∀ (name : Bytes) (y : Rdb.Entry), seen[name]? = some y → y.key = name := by
      intro name y hy
      have hfound := hsearch name
      rw [hy] at hfound
      obtain ⟨q, -, hq⟩ := exists_of_findSomeM? hfound
      exact key_of_offered hq
    obtain ⟨x, hx, hvalue, hms⟩ := offered_of_live hv hd hnow hdeadline hexp
    -- the prefixes before that of the record have no record of this name
    obtain ⟨-, before, after, hsplit, hbefore⟩ := find?_eq_some_iff_append.mp hprobe
    have hfirst : (before ++ p :: after).findSomeM? (offered maxAlloc now snap · key) = .ok (some x) :=
      findSomeM?_of_first (fun q hq => offered_of_not_mem (by simpa using hbefore q hq)) hx
    rw [← hsplit, hsearch key] at hfirst
    refine ⟨arrange order (seen.toList.map (·.2)), ?_, x,
      filter_collected hkeys (Except.ok.inj hfirst), hvalue, hms⟩
    rw [collectAll, hseen]
    rfl

end Covers

/-- A list with a deadline. -/
def savedList : Entry := ⟨typeList, 5000000000, encodeList [ascii ['a'], ascii ['b']]⟩

def listSnapshot : OrdMap Bytes Bytes :=
  (∅ : OrdMap Bytes Bytes).insert (rawKey .l (ascii ['k']))
    (encode savedList.typ savedList.expiry savedList.payload)

theorem collectAll_covers_list : Covered 1024 0 listSnapshot (ascii ['k']) savedList := by
  have hlive : LiveKey listSnapshot 0 (ascii ['k']) savedList :=
    ⟨.l, _, by decide +kernel, by decide +kernel, decode_encode .., .inr (by decide)⟩
  have hfree : PanicFree 1024 listSnapshot := by
    intro raw v hv
    rw [listSnapshot, OrdMap.getElem?_insert] at hv
    split at hv
    · cases hv
      exact ⟨_, rfl⟩
    · simp at hv
  refine (collectAll_covers_iff hfree (by decide) hlive).mpr ?_
  exact .inr (.inr (.inr (.inl ⟨rfl, _, rfl⟩)))

/-- A vector set of one element. -/
def oneVector : Vectors :=
  (∅ : Vectors).insert (ascii ['a']) ⟨[0x3FF0000000000000], []⟩

def savedVector : Entry :=
  ⟨typeVector, 0, [1, 1] ++ appendUvarint 0x3FF0000000000000 ++ [1, 97, 0]⟩

def vectorSnapshot : OrdMap Bytes Bytes :=
  (∅ : OrdMap Bytes Bytes).insert (rawKey .vs (ascii ['k']))
    (encode savedVector.typ savedVector.expiry savedVector.payload)

/-- A live vector set is not in the dump. -/
theorem collectAll_skips_vector :
    encodeVector oneVector = .ok savedVector.payload ∧
      LiveKey vectorSnapshot 0 (ascii ['k']) savedVector ∧
      collectAll 1024 0 [] vectorSnapshot = .ok [] ∧
      ¬ Covered 1024 0 vectorSnapshot (ascii ['k']) savedVector := by
  have hempty : collectAll 1024 0 [] vectorSnapshot = .ok [] := by
    rfl
  refine ⟨by decide +kernel, ⟨.vs, _, by decide +kernel, by decide +kernel, decode_encode ..,
    .inl rfl⟩, hempty, fun h => ?_⟩
  obtain ⟨entries, hentries, x, hx, -⟩ := h []
  cases hentries
  cases hx

end Gedis.Commands
