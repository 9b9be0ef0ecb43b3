import Mathlib.Data.Set.Card
import Gedis.Cluster.Resharding
import Gedis.Commands.ScanCover

/-!
# The keys of a slot

The keys of a slot are those of the enumeration of all user keys, which includes records whose
deadline has passed. The loop compares the number of names with the count only after it has taken a
name.
-/

namespace Gedis.Cluster

open Gedis.Core Storage Protocol Commands List

variable {w : World} {s : Nat} {count : Int} {names out : List Bytes} {key text number : Bytes}
  {n : Int64}

/-- The loop over the names: those of the slot, up to the count unless it is negative. -/
def collectSlot (s : Nat) (count : Int) : List Bytes → List Bytes → List Bytes
  | [], out => out
  | n :: names, out =>
    if slot n ≠ s then collectSlot s count names out
    else if 0 ≤ count ∧ count ≤ (out ++ [n]).length then out ++ [n]
    else collectSlot s count names (out ++ [n])

def keysInSlotNames (s : Nat) (count : Int) : Handler (List Bytes) := do
  let found ← scanUserKeys typePrefixes []
  pure (collectSlot s count (found.map Prod.fst) [])

def clusterArgErr (sub : String) : Value :=
  errValue s!"ERR wrong number of arguments for 'cluster|{sub.toLower}' command"

/-- `CLUSTER COUNTKEYSINSLOT` with its arguments, of which it asks for two. -/
def countKeysInSlot : List Arg → Handler Value
  | [slot, _] =>
    match slot.bind parseSlotArg with
    | none => pure (errValue "ERR Invalid or out of range slot")
    | some s => do
      let names ← keysInSlotNames s (-1)
      pure (.integer (Int64.ofNat names.length))
  | _ => pure (clusterArgErr "COUNTKEYSINSLOT")

def getKeysInSlot : List Arg → Handler Value
  | [slot, count] =>
    match slot.bind parseSlotArg with
    | none => pure (errValue "ERR Invalid or out of range slot")
    | some s =>
      match count.bind parseInt with
      | none => pure (errValue "ERR Invalid COUNT")
      | some n =>
        if n < 0 then pure (errValue "ERR Invalid COUNT")
        else do
          let names ← keysInSlotNames s n.toInt
          pure (arrayOf (names.map bulkOf))
  | _ => pure (clusterArgErr "GETKEYSINSLOT")

/-- The listed names of a slot. -/
def slotNames (w : World) (s : Nat) : List Bytes :=
  ((allUserKeys w.store.db).map Prod.fst).filter (slot · = s)

/-- The keys of a slot that have a value. -/
def liveKeys (w : World) (s : Nat) : Set Bytes := {key | slot key = s ∧ Present w key}

/-- As many distinct keys of the slot with a value as there are, up to a number. -/
def ExactKeys (w : World) (s n : Nat) (names : List Bytes) : Prop :=
  names.Nodup ∧ (∀ key ∈ names, key ∈ liveKeys w s) ∧ names.length = min n (liveKeys w s).ncard

theorem collectSlot_eq (hout : 0 ≤ count → out.length < max count 1) :
    collectSlot s count names out = out ++ if count < 0 then names.filter (slot · = s)
      else (names.filter (slot · = s)).take ((max count 1).toNat - out.length) := by
  induction names generalizing out with
  | nil => simp [collectSlot]
  | cons n names ih =>
    rw [collectSlot]
    by_cases hn : slot n = s
    · rw [if_neg (not_not.mpr hn), filter_cons_of_pos (by simpa using hn), length_append,
        length_singleton]
      by_cases hfull : 0 ≤ count ∧ count ≤ ↑(out.length + 1)
      · have hroom : (max count 1).toNat - out.length = 1 := by have := hout hfull.1; omega
        rw [if_pos hfull, if_neg (by omega), hroom]
        rfl
      · rw [if_neg hfull, ih (by rw [length_append, length_singleton]; omega),
          append_assoc]
        split_ifs
        · rfl
        · have hroom : (max count 1).toNat - out.length =
              (max count 1).toNat - (out ++ [n]).length + 1 := by
            rw [length_append, length_singleton]
            omega
          rw [hroom, take_succ_cons]
          rfl
    · rw [if_pos hn, ih hout, filter_cons_of_neg (by simpa using hn)]

theorem exec_keysInSlotNames : (keysInSlotNames s count).exec World.answer w =
    (w, if count < 0 then slotNames w s else (slotNames w s).take (max count 1).toNat) := by
  rw [keysInSlotNames, Prog.exec_bind, exec_scanUserKeys]
  refine congrArg (Prod.mk w) ((collectSlot_eq fun _ => ?_).trans ?_)
  · rw [length_nil]
    omega
  · simp only [nil_append, length_nil, Nat.sub_zero]
    rfl

theorem exec_countKeysInSlot (hs : parseSlotArg text = some s) (extra : Arg) :
    ((countKeysInSlot [some text, extra]).exec World.answer w).2 =
      .integer (Int64.ofNat (slotNames w s).length) := by
  simp only [countKeysInSlot, Option.bind_some, hs, Prog.exec_bind, exec_keysInSlotNames]
  rfl

theorem exec_getKeysInSlot (hs : parseSlotArg text = some s) (hn : parseInt number = some n)
    (hpos : 0 ≤ n) : ((getKeysInSlot [some text, some number]).exec World.answer w).2 =
      arrayOf (((slotNames w s).take (max n.toInt.toNat 1)).map bulkOf) := by
  have hnat : 0 ≤ n.toInt := Int64.le_iff_toInt_le.mp hpos
  have hmax : (max n.toInt 1).toNat = max n.toInt.toNat 1 := by omega
  simp only [getKeysInSlot, Option.bind_some, hs, hn, if_neg (Int64.not_lt.mpr hpos),
    Prog.exec_bind, exec_keysInSlotNames, if_neg (Int.not_lt.mpr hnat), hmax]
  rfl

theorem nodup_addRaw {found : List (Bytes × Bytes)} (h : (found.map Prod.fst).Nodup) (raw : Bytes) :
    ((addRaw found raw).map Prod.fst).Nodup := by
  rw [addRaw]
  split
  · exact h
  · split
    · exact h
    · next hnew =>
      rw [map_append]
      exact h.append (nodup_singleton _) (by simpa using hnew)

theorem nodup_slotNames : (slotNames w s).Nodup := by
  let Distinct (found : List (Bytes × Bytes)) : Prop := (found.map Prod.fst).Nodup
  have hscan : ∀ found p, Distinct found → Distinct (addType w.store.db found p) :=
    fun _ _ h => foldlRecOn (motive := Distinct) _ _ h fun _ h raw _ => nodup_addRaw h raw
  have hall : Distinct (allUserKeys w.store.db) :=
    foldlRecOn (motive := Distinct) _ _ nodup_nil fun _ h p _ => hscan _ p h
  exact List.Nodup.filter _ hall

theorem mem_slotNames (h : key ∈ liveKeys w s) : key ∈ slotNames w s := by
  obtain ⟨hslot, hpresent⟩ := h
  refine mem_filter.mpr ⟨?_, by simpa using hslot⟩
  rw [Present, keyPresent, Prog.exec_bind] at hpresent
  cases hfound : ((lookupRaw key).exec World.answer w).2 with
  | record p e =>
    exact mem_map_of_mem (mem_allUserKeys.mpr ⟨p, (lookupFrom_record hfound).1, rfl⟩)
  | missing | failed =>
    rw [hfound] at hpresent
    cases hpresent

theorem ncard_liveKeys : (liveKeys w s).ncard = (slotNames w s).countP (Present w ·) := by
  have hset : liveKeys w s = ((slotNames w s).filter (Present w ·)).toFinset := by
    ext key
    rw [coe_toFinset, Set.mem_ofPred_eq, mem_filter, decide_eq_true_eq]
    constructor
    · exact fun h => ⟨mem_slotNames h, h.2⟩
    · exact fun h => ⟨by simpa using (mem_filter.mp h.1).2, h.2⟩
  rw [hset, Set.ncard_coe_finset, toFinset_card_of_nodup (nodup_slotNames.filter _),
    countP_eq_length_filter]

theorem exactKeys_take_iff {n : Nat} : ExactKeys w s n ((slotNames w s).take (max n 1)) ↔
    (∀ key ∈ (slotNames w s).take (max n 1), Present w key) ∧ (n = 0 → slotNames w s = []) := by
  rw [ExactKeys, ncard_liveKeys, length_take]
  constructor
  · rintro ⟨-, hlive, hlen⟩
    refine ⟨fun key hkey => (hlive key hkey).2, fun hzero => length_eq_zero_iff.mp ?_⟩
    omega
  · rintro ⟨hpresent, hempty⟩
    have hsub := take_sublist (max n 1) (slotNames w s)
    refine ⟨nodup_slotNames.sublist hsub, fun key hkey => ⟨?_, hpresent key hkey⟩, ?_⟩
    · simpa using (mem_filter.mp (hsub.subset hkey)).2
    · have hle := hsub.countP_le (p := (Present w ·))
      have htotal := countP_le_length (p := (Present w ·)) (l := slotNames w s)
      rw [countP_eq_length.mpr (by simpa using hpresent), length_take] at hle
      rcases Nat.eq_zero_or_pos n with hzero | hpos
      · rw [hempty hzero]
        simp [hzero]
      · omega

/-- The form with one argument is refused. With another argument, the number is that of the listed
names, which is exact if and only if all of them have a value. A list is exact if and only if the
names on it have a value and, for count zero, there is none; an empty one means that the slot is
drained. -/
theorem slotListings_exact_iff (w : World) (hs : parseSlotArg text = some s)
    (hn : parseInt number = some n) (hpos : 0 ≤ n) :
    (∀ k, ((countKeysInSlot [some text]).exec World.answer w).2 ≠ .integer k) ∧
    (∀ extra, ∃ k, ((countKeysInSlot [some text, extra]).exec World.answer w).2 =
        .integer (Int64.ofNat k) ∧
      (k = (liveKeys w s).ncard ↔ ∀ key ∈ slotNames w s, Present w key)) ∧
    ∃ names, ((getKeysInSlot [some text, some number]).exec World.answer w).2 =
        arrayOf (names.map bulkOf) ∧
      (ExactKeys w s n.toInt.toNat names ↔
        (∀ key ∈ (slotNames w s).take (max n.toInt.toNat 1), Present w key) ∧
          (n.toInt.toNat = 0 → slotNames w s = [])) ∧
      (names = [] → liveKeys w s = ∅) := by
  refine ⟨by rintro _ ⟨⟩, fun extra => ⟨_, exec_countKeysInSlot hs extra, ?_⟩,
    _, exec_getKeysInSlot hs hn hpos, exactKeys_take_iff, fun hempty => ?_⟩
  · rw [ncard_liveKeys, eq_comm, countP_eq_length]
    simp
  · refine Set.eq_empty_of_forall_notMem fun key hkey => ?_
    have hnil : slotNames w s = [] := by simpa using hempty
    exact not_mem_nil (hnil ▸ mem_slotNames hkey)

/-- `SETEX k 1 v` at time one. -/
def secondKey : Pebble := run step emptyStore [.dispatch (.setex [107] 1 [118]) fun _ => 1]

theorem slotNames_secondKey {clock : Nat → Int64} : slotNames ⟨secondKey, clock⟩ 7629 = [[107]] := by
  have hnames : slotNames ⟨secondKey, fun _ => 0⟩ 7629 = [[107]] := by decide +kernel
  exact hnames

theorem parse_slot : parseSlotArg [55, 54, 50, 57] = some 7629 := by decide

/-- Before the deadline `CLUSTER GETKEYSINSLOT 7629 1` is exact. -/
theorem slotListings_exact_live : ∃ names,
    ((getKeysInSlot [some [55, 54, 50, 57], some [49]]).exec World.answer ⟨secondKey, fun _ => 1⟩).2 =
      arrayOf (names.map bulkOf) ∧ ExactKeys ⟨secondKey, fun _ => 1⟩ 7629 1 names := by
  obtain ⟨-, -, names, hreply, hexact, -⟩ := slotListings_exact_iff ⟨secondKey, fun _ => 1⟩ parse_slot
    (by decide : parseInt [49] = some 1) (by decide)
  refine ⟨names, hreply, hexact.mpr ⟨?_, fun h => absurd h (by decide)⟩⟩
  rw [slotNames_secondKey]
  decide +kernel

/-- Count zero gives the key, and after the deadline it is counted and listed still. -/
theorem slot_lists_expired :
    ((getKeysInSlot [some [55, 54, 50, 57], some [48]]).exec World.answer ⟨secondKey, fun _ => 1⟩).2 =
      arrayOf [bulkOf [107]] ∧
    liveKeys ⟨secondKey, fun _ => 2000000000⟩ 7629 = ∅ ∧
    ((countKeysInSlot [some [55, 54, 50, 57], none]).exec World.answer
      ⟨secondKey, fun _ => 2000000000⟩).2 = .integer 1 ∧
    ((getKeysInSlot [some [55, 54, 50, 57], some [49]]).exec World.answer
      ⟨secondKey, fun _ => 2000000000⟩).2 = arrayOf [bulkOf [107]] := by
  rw [exec_getKeysInSlot parse_slot (by decide : parseInt [48] = some 0) (by decide),
    exec_getKeysInSlot parse_slot (by decide : parseInt [49] = some 1) (by decide),
    exec_countKeysInSlot parse_slot, slotNames_secondKey, slotNames_secondKey]
  refine ⟨rfl, Set.eq_empty_of_forall_notMem fun key hkey => ?_, rfl, rfl⟩
  have hmem := mem_slotNames hkey
  rw [slotNames_secondKey, mem_singleton] at hmem
  subst hmem
  exact absurd hkey.2 (by decide +kernel)

end Gedis.Cluster
