import Gedis.Commands.Numkeys
import Gedis.Commands.Stores
import Gedis.Commands.Windows

/-!
# Counting common members

`SINTERCARD` and `ZINTERCARD` go through the smallest of their sets, in the order in which the map
happens to be enumerated, and stop at the limit. A limit of zero is no limit for the one, and for
the other it ends the command before it counts.
-/

namespace Gedis.Commands.Intersections

open Gedis.Core Datastruct Protocol Storage List

variable {V : Type}

/-- Count the members that are hit, and stop when there are enough. -/
def countHits (hit : Bytes → Bool) (stop : Nat → Bool) : Nat → List Bytes → Nat
  | n, [] => n
  | n, m :: ms =>
    if hit m then if stop (n + 1) then n + 1 else countHits hit stop (n + 1) ms
    else countHits hit stop n ms

/-- The first index of a set that is not larger than another. -/
def smallest (sets : List (OrdMap Bytes V)) : Nat :=
  (List.range sets.length).foldl
    (fun s i => if (sets.getD i ∅).size < (sets.getD s ∅).size then i else s) 0

/-- The count of `SINTERCARD`. -/
def sinterCount (order : List Nat) (limit : Int64) (sets : List Members) : Nat :=
  countHits
    (fun m => (List.range sets.length).all fun i => i = smallest sets || (sets.getD i ∅).contains m)
    (fun n => 0 < limit && limit.toInt ≤ n) 0 (arrange order (sets.getD (smallest sets) ∅).keys)

/-- The count of `ZINTERCARD`, which reads at least one key. -/
def zinterCount (order : List Nat) (limit : Option Int64) : List Scores → Nat
  | [] => 0
  | first :: rest =>
    if limit = some 0 then 0
    else
      countHits (fun m => (first :: rest).all (·.contains m))
        (fun n => limit.any fun l : Int64 => l.toInt ≤ n) 0 (arrange order
          (rest.foldl (fun s z => if z.size < s.size then z else s) first).keys)

/-- Read the keys, of which the missing ones are empty, and count. -/
def intercard {β : Type} (kind : Kind) (dec : Bytes → Except Reply (OrdMap Bytes V))
    (count : β → List (OrdMap Bytes V) → Nat) :
    Numkeys.Parse (List Bytes × β) → Handler (Go Reply)
  | .error p => pure (.error p)
  | .ok (.error reply) => pure (.ok reply)
  | .ok (.ok (keys, limit)) => do
    match ← readAll kind dec keys [] with
    | .error reply => pure (.ok reply)
    | .ok sets => pure (.ok (.int (Int64.ofNat (count limit (sets.map (·.getD ∅))))))

/-- `SINTERCARD numkeys key ... [LIMIT limit]`. -/
def sintercard (maxAlloc : Nat) (order : List Nat) (dec : Bytes → Except Reply Members)
    (args : List Arg) : Handler (Go Reply) :=
  intercard .set dec (sinterCount order) (Numkeys.sintercard maxAlloc args)

/-- `ZINTERCARD numkeys key ... [LIMIT limit]`. -/
def zintercard (maxAlloc : Nat) (order : List Nat) (dec : Bytes → Except Reply Scores)
    (args : List Arg) : Handler (Go Reply) :=
  intercard .zset dec (zinterCount order) (Numkeys.zintercard maxAlloc args)

/-- The members of the first set that all have. -/
def common (sets : List (OrdMap Bytes V)) : List Bytes :=
  (sets.headD ∅).keys.filter fun m => sets.all (·.contains m)

/-- A number of members, not above the limit if that is positive. -/
def capped (limit : Int64) (n : Nat) : Nat :=
  if 0 < limit.toInt then min limit.toInt.toNat n else n

theorem capped_zero {n : Nat} : capped 0 n = n := if_neg (by decide)

variable {sets : List (OrdMap Bytes V)}

theorem mem_common {m : Bytes} : m ∈ common sets ↔ sets ≠ [] ∧ ∀ s ∈ sets, m ∈ s := by
  cases sets with
  | nil => simp [common]
  | cons => simp +contextual [common]

/-- The loop finds the hits, up to the limit. -/
theorem countHits_eq {hit : Bytes → Bool} {stop : Nat → Bool} (limit : Int64)
    (hstop : ∀ n, stop n = true ↔ 0 < limit.toInt ∧ limit.toInt ≤ n) {n : Nat} (hn : stop n = false)
    (ms : List Bytes) : countHits hit stop n ms = capped limit (n + ms.countP hit) := by
  induction ms generalizing n with
  | nil =>
    have hlow := mt (hstop n).mpr (by simp [hn])
    rw [countHits, countP_nil, capped]
    split <;> omega
  | cons m ms ih =>
    rw [countHits]
    by_cases hm : hit m = true
    · rw [if_pos hm, countP_cons_of_pos hm]
      cases hnext : stop (n + 1) with
      | true =>
        have hhigh := (hstop (n + 1)).mp hnext
        have hlow := mt (hstop n).mpr (by simp [hn])
        rw [if_pos rfl, capped, if_pos hhigh.1]
        omega
      | false =>
        rw [if_neg Bool.false_ne_true, ih hnext, Nat.add_right_comm, Nat.add_assoc]
    · rw [if_neg hm, countP_cons_of_neg hm, ih hn]

/-- Whichever set is gone through, the members in common are found. -/
theorem countP_common {s : OrdMap Bytes V} (hs : s ∈ sets) {order : List Nat} :
    (arrange order s.keys).countP (fun m => sets.all (·.contains m)) = (common sets).length := by
  rw [(arrange_perm order s.keys).countP_eq, countP_eq_length_filter]
  refine List.Perm.length_eq ?_
  refine (perm_ext_iff_of_nodup (Std.ExtTreeMap.nodup_keys.filter _)
    (Std.ExtTreeMap.nodup_keys.filter _)).mpr fun m => ?_
  rw [mem_filter, ← common, mem_common, Std.ExtTreeMap.mem_keys]
  simp only [all_eq_true, Std.ExtTreeMap.contains_iff_mem]
  exact ⟨fun h => ⟨ne_nil_of_mem hs, h.2⟩, fun h => ⟨h.2 s hs, h.2⟩⟩

/-- A fold that keeps one of two elements ends with one of all. -/
theorem foldl_mem {α : Type} (pick : α → α → α) (h : ∀ a b, pick a b = a ∨ pick a b = b) (a : α)
    (l : List α) : l.foldl pick a ∈ a :: l := by
  induction l generalizing a with
  | nil => exact mem_singleton.mpr rfl
  | cons b l ih =>
    rw [foldl_cons]
    rcases h a b with he | he
    · rw [he]
      exact mem_cons.mpr ((mem_cons.mp (ih a)).imp_right (mem_cons_of_mem b))
    · rw [he]
      exact mem_cons_of_mem a (ih b)

theorem sinterCount_eq {order : List Nat} {limit : Int64} {sets : List Members} :
    sinterCount order limit sets = capped limit (common sets).length := by
  rw [sinterCount, countHits_eq limit (fun n => by simp [Int64.lt_iff_toInt_lt])
    (by simp [Int64.lt_iff_toInt_lt]), Nat.zero_add]
  congr 1
  have hmem := foldl_mem (fun s i =>
    if (sets.getD i ∅).size < (sets.getD s ∅).size then i else s)
    (fun s i => by split <;> simp) 0 (range sets.length)
  rw [← smallest] at hmem
  cases sets with
  | nil =>
    rw [(arrange_perm ..).countP_eq]
    rfl
  | cons first rest =>
    have hlt : smallest (first :: rest) < (first :: rest).length := by
      rcases mem_cons.mp hmem with h | h
      · rw [length_cons]
        omega
      · exact mem_range.mp h
    generalize smallest (first :: rest) = k at hlt
    generalize first :: rest = sets at hlt
    have hget : sets.getD k ∅ = sets[k] := by simp [getD, hlt]
    rw [← countP_common (getElem_mem hlt), hget]
    refine countP_congr fun m hm => ?_
    have hm : m ∈ sets[k] := Std.ExtTreeMap.mem_keys.mp ((arrange_perm ..).mem_iff.mp hm)
    simp only [all_eq_true, mem_range, Bool.or_eq_true, decide_eq_true_eq]
    constructor
    · intro h s hs
      obtain ⟨i, hi, rfl⟩ := getElem_of_mem hs
      rcases h i hi with rfl | h
      · exact Std.ExtTreeMap.contains_iff_mem.mpr hm
      · simpa [getD, hi] using h
    · intro h i hi
      exact .inr (by simpa [getD, hi] using h _ (getElem_mem hi))

theorem zinterCount_eq {order : List Nat} {limit : Option Int64} (hlimit : ∀ l ∈ limit, 0 ≤ l.toInt)
    {sets : List Scores} :
    zinterCount order limit sets =
      if limit = some 0 then 0 else capped (limit.getD 0) (common sets).length := by
  cases sets with
  | nil => simp [zinterCount, common, capped]
  | cons first rest =>
    rw [zinterCount]
    split
    · rfl
    · next hne =>
      have hpos : ∀ l ∈ limit, 0 < l.toInt := by
        intro l hl
        refine lt_of_le_of_ne (hlimit l hl) fun he => hne ?_
        have hzero : l = 0 := Int64.toInt_inj.mp he.symm
        rw [Option.mem_def.mp hl, hzero]
      have hmem := foldl_mem (fun s z : Scores => if z.size < s.size then z else s)
        (fun s z => by split <;> simp) first rest
      have hstop (n : Nat) : (limit.any fun l : Int64 => l.toInt ≤ n) = true ↔
          0 < (limit.getD 0).toInt ∧ (limit.getD 0).toInt ≤ n := by
        cases limit with
        | none => simp
        | some l => simp [hpos l rfl]
      have hstart : (limit.any fun l : Int64 => l.toInt ≤ (0 : Nat)) = false := by
        cases limit with
        | none => rfl
        | some l => simpa using hpos l rfl
      rw [countHits_eq _ hstop hstart, zero_add, countP_common hmem]

/-- Sets with the same members have the same members in common. -/
theorem length_common_congr {W : Type} {zsets : List (OrdMap Bytes W)}
    (h : List.Forall₂ (fun s z => ∀ m, m ∈ s ↔ m ∈ z) sets zsets) :
    (common sets).length = (common zsets).length := by
  refine ((perm_ext_iff_of_nodup (Std.ExtTreeMap.nodup_keys.filter _)
    (Std.ExtTreeMap.nodup_keys.filter _)).mpr fun m => ?_).length_eq
  rw [← common, ← common, mem_common, mem_common]
  have hall : (∀ s ∈ sets, m ∈ s) ↔ ∀ z ∈ zsets, m ∈ z := by
    induction h with
    | nil => simp
    | cons hsz _ ih => rw [forall_mem_cons, forall_mem_cons, hsz m, ih]
  have hnil : sets = [] ↔ zsets = [] := by
    rw [← length_eq_zero_iff, h.length_eq, length_eq_zero_iff]
  rw [hall, Ne, hnil]

/-- Whatever the sets, the enumerations of the maps and the limit: `SINTERCARD` replies with the
number of members in common up to the limit. `ZINTERCARD` does so, and agrees with it on sets with
the same members, exactly when the limit is not zero or nothing is in common. -/
theorem intercard_exact_iff (maxAlloc : Nat) (order : List Nat) (w : World) :
    (∀ dec args keys limit w' sets, Numkeys.sintercard maxAlloc args = .ok (.ok (keys, limit)) →
      (readAll .set dec keys []).exec World.answer w = (w', .ok sets) →
      ((sintercard maxAlloc order dec args).exec World.answer w).2 =
        .ok (.int (Int64.ofNat (capped limit (common (sets.map (·.getD ∅))).length)))) ∧
    ∀ (limit : Option Int64), (∀ l ∈ limit, 0 ≤ l.toInt) →
      (∀ dec args keys w' sets, Numkeys.zintercard maxAlloc args = .ok (.ok (keys, limit)) →
        (readAll .zset dec keys []).exec World.answer w = (w', .ok sets) →
        (common (sets.map (·.getD ∅))).length < 2 ^ 63 →
        (((zintercard maxAlloc order dec args).exec World.answer w).2 = .ok (.int (Int64.ofNat
            (capped (limit.getD 0) (common (sets.map (·.getD ∅))).length))) ↔
          limit = some 0 → common (sets.map (·.getD ∅)) = [])) ∧
      ∀ (order' : List Nat) (sets : List Members) (zsets : List Scores),
        List.Forall₂ (fun s z => ∀ m, m ∈ s ↔ m ∈ z) sets zsets →
        (zinterCount order limit zsets = sinterCount order' (limit.getD 0) sets ↔
          limit = some 0 → common sets = []) := by
  refine ⟨?_, fun limit hlimit => ⟨?_, ?_⟩⟩
  · intro dec args keys limit w' sets hparse hread
    rw [sintercard, hparse, intercard, Prog.exec_bind, hread]
    exact congrArg (Except.ok ∘ Reply.int ∘ Int64.ofNat) sinterCount_eq
  · intro dec args keys w' sets hparse hread hsize
    have hexec : ((zintercard maxAlloc order dec args).exec World.answer w).2 =
        .ok (.int (Int64.ofNat (zinterCount order limit (sets.map (·.getD ∅))))) := by
      rw [zintercard, hparse, intercard, Prog.exec_bind, hread]
      rfl
    rw [hexec, zinterCount_eq hlimit]
    by_cases hzero : limit = some 0
    · have hlen := toInt_len64 hsize
      rw [len64] at hlen
      rw [hzero, Option.getD_some, capped_zero, Except.ok.injEq, Reply.int.injEq,
        ← Int64.toInt_inj, hlen]
      exact ⟨fun he _ => length_eq_zero_iff.mp (Int.natCast_eq_zero.mp he.symm),
        fun hnil => by rw [hnil rfl]; rfl⟩
    · simp [hzero]
  · intro order' sets zsets hsame
    rw [zinterCount_eq hlimit, sinterCount_eq, ← length_common_congr hsame]
    by_cases hzero : limit = some 0
    · rw [hzero, Option.getD_some]
      exact ⟨fun he _ => length_eq_zero_iff.mp he.symm, fun hnil => by rw [hnil rfl]; rfl⟩
    · simp [hzero]

/-- Read a sorted set. -/
def scoresOf (raw : Bytes) : Except Reply Scores :=
  match (decodeZSet 1024 raw).result with
  | .ok (z, _) => .ok z
  | .error _ => .error .ok

/-- The members in common of what is read. -/
def commonRead (r : Except Reply (List (Option Scores))) : Option (List Bytes) :=
  r.toOption.map fun sets => common (sets.map (·.getD ∅))

/-- `ZINTERCARD 1 z` counts `a` and `b`. -/
theorem zintercard_two :
    ((zintercard 1024 [] scoresOf [some [49], some [122]]).exec World.answer windowStore).2 =
      .ok (.int 2) := by
  have h : commonRead ((readAll .zset scoresOf [[122]] []).exec World.answer windowStore).2 =
      some [[97], [98]] := by decide +kernel
  rcases hread : (readAll .zset scoresOf [[122]] []).exec World.answer windowStore with
    ⟨w', reply | sets⟩
  · rw [hread] at h
    cases h
  · rw [hread] at h
    have hcommon : common (sets.map (·.getD ∅)) = [[97], [98]] := Option.some.inj h
    have hexact := (((intercard_exact_iff 1024 [] windowStore).2 none (by simp)).1 scoresOf
      [some [49], some [122]] [[122]] w' sets (by decide +kernel) hread
      (by rw [hcommon]; decide)).mpr fun he => by cases he
    rfl

/-- `ZINTERCARD 1 z LIMIT 0` replies zero, and `a` and `b` are in common. -/
theorem zintercard_limit_zero :
    ((zintercard 1024 [] scoresOf [some [49], some [122], some (ascii "LIMIT".toList),
        some [48]]).exec World.answer windowStore).2 = .ok (.int 0) ∧
      commonRead ((readAll .zset scoresOf [[122]] []).exec World.answer windowStore).2 =
        some [[97], [98]] := by
  decide +kernel

end Gedis.Commands.Intersections
