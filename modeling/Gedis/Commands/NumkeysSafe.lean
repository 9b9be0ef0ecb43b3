import Gedis.Acl.KeySpec
import Gedis.Cluster.Keys
import Gedis.Commands.Numkeys

/-!
# Commands with a number of keys

The handler of a command, access control and the routing of a cluster each read the number of keys on
their own. This module says when each of the three takes exactly the keys that follow, or none.
-/

namespace Gedis.Commands.Numkeys

open Gedis.Core Protocol Acl List

inductive NumkeysCmd where
  | zunion | zinter | zdiff | zunionstore | zinterstore | zdiffstore | zintercard | sintercard
  | lmpop | blmpop | zmpop | bzmpop
  deriving DecidableEq, Repr

namespace NumkeysCmd

def cmd : NumkeysCmd → Cmd
  | zunion => .ZUNION
  | zinter => .ZINTER
  | zdiff => .ZDIFF
  | zunionstore => .ZUNIONSTORE
  | zinterstore => .ZINTERSTORE
  | zdiffstore => .ZDIFFSTORE
  | zintercard => .ZINTERCARD
  | sintercard => .SINTERCARD
  | lmpop => .LMPOP
  | blmpop => .BLMPOP
  | zmpop => .ZMPOP
  | bzmpop => .BZMPOP

/-- Where the number of keys stands. -/
def numPos : NumkeysCmd → Nat
  | zunionstore | zinterstore | zdiffstore | blmpop | bzmpop => 1
  | _ => 0

/-- The destination, which comes first. -/
def dest (ws : List Bytes) : NumkeysCmd → List Bytes
  | zunionstore | zinterstore | zdiffstore => ws.take 1
  | _ => []

/-- The keys that the handler reads from its arguments. -/
def handlerKeys (maxAlloc : Nat) (parseScore : Bytes → Option UInt64)
    (parseTimeout : Bytes → Option Int64) (args : List Arg) : NumkeysCmd → Parse (List Bytes)
  | zunion => (parseZSetOp maxAlloc parseScore args "zunion" true).bind (.ok <| .ok ·.keys)
  | zinter => (parseZSetOp maxAlloc parseScore args "zinter" true).bind (.ok <| .ok ·.keys)
  | zdiff => (parseZSetOp maxAlloc parseScore args "zdiff" false).bind (.ok <| .ok ·.keys)
  | zunionstore => (storeZSetOp maxAlloc parseScore args "zunionstore" true).bind (.ok <| .ok ·.keys)
  | zinterstore => (storeZSetOp maxAlloc parseScore args "zinterstore" true).bind (.ok <| .ok ·.keys)
  | zdiffstore => (storeZSetOp maxAlloc parseScore args "zdiffstore" false).bind (.ok <| .ok ·.keys)
  | zintercard => (Numkeys.zintercard maxAlloc args).bind (.ok <| .ok ·.1)
  | sintercard => (Numkeys.sintercard maxAlloc args).bind (.ok <| .ok ·.1)
  | lmpop => (Numkeys.lmpop maxAlloc args).bind (.ok <| .ok ·.keys)
  | blmpop => (bmpop maxAlloc parseTimeout args).bind (.ok <| .ok ·.1.keys)
  | zmpop => (Numkeys.zmpop maxAlloc args).bind (.ok <| .ok ·.keys)
  | bzmpop => (Numkeys.bzmpop maxAlloc parseTimeout args).bind (.ok <| .ok ·.1.keys)

/-- The handler refuses the arguments or reads exactly the keys that follow their number. -/
def HandlerSafe (maxAlloc : Nat) (parseScore : Bytes → Option UInt64)
    (parseTimeout : Bytes → Option Int64) (c : NumkeysCmd) (args : List Arg) (n : Int64) : Prop :=
  (c.handlerKeys maxAlloc parseScore parseTimeout args).Yields fun keys =>
    following args c.numPos n = some (keys.map some)

/-- Access control finds no keys but a destination, or exactly the keys that follow their number. -/
def AclSafe (c : NumkeysCmd) (ws : List Bytes) (n : Int64) : Prop :=
  ∃ found, extractKeys c.cmd ws = .ok found ∧
    (found = c.dest ws ∨ ∃ keys, following ws c.numPos n = some keys ∧ found = c.dest ws ++ keys)

/-- Routing finds nothing, or exactly the keys that follow their number and a destination. -/
def ClusterSafe (c : NumkeysCmd) (ws : List Bytes) (n : Int64) : Prop :=
  ∃ found, Cluster.keysOf c.cmd.name ws = .ok found ∧ ∀ l, found = some l →
    ∃ keys, following ws c.numPos n = some keys ∧ l = c.dest ws ++ keys

/-- When a handler is safe. -/
def HandlerFits (args : List Arg) (n : Int64) : NumkeysCmd → Prop
  | zunion | zinter | zdiff | zintercard => 1 + n.toInt < 2 ^ 63
  | zunionstore | zinterstore | zdiffstore => args.head? = some none ∨ 1 + n.toInt < 2 ^ 63
  | sintercard | lmpop | blmpop | zmpop | bzmpop => True

/-- When access control is safe. -/
def AclFits (c : NumkeysCmd) (n : Int64) : Prop := c.numPos + 1 + n.toInt < 2 ^ 63

/-- The timeout, read as a number of keys, is refused or happens to give the keys. -/
def TimeoutHarmless (ws : List Bytes) (n : Int64) : Prop :=
  ∀ m, ws.head?.bind parseInt = some m → 0 < m.toInt →
    (ws.length < 1 + m.toInt ∧ 1 + m.toInt < 2 ^ 63) ∨
      (1 + m.toInt ≤ ws.length ∧
        ([] ∈ (ws.drop 1).take m.toInt.toNat ∨
          following ws 1 n = some ((ws.drop 1).take m.toInt.toNat)))

/-- When routing is safe. -/
def ClusterFits (ws : List Bytes) (n : Int64) : NumkeysCmd → Prop
  | zunion | zinter | zdiff | zintercard | lmpop | zmpop => ws.length < 2 ∨ 1 + n.toInt < 2 ^ 63
  | zunionstore | zinterstore | zdiffstore => ws.length < 3 ∨ 2 + n.toInt < 2 ^ 63
  -- every argument is taken for a key
  | sintercard => [] ∈ ws
  | blmpop | bzmpop => TimeoutHarmless ws n

end NumkeysCmd

theorem NumkeysCmd.handlerSafe_iff {maxAlloc : Nat} {args : List Arg} (hmem : Held maxAlloc args)
    {text : Bytes} {n : Int64} (hn : parseInt text = some n) {parseScore : Bytes → Option UInt64}
    {parseTimeout : Bytes → Option Int64} (c : NumkeysCmd)
    (hargs : args[c.numPos]? = some (some text)) :
    c.HandlerSafe maxAlloc parseScore parseTimeout args n ↔ c.HandlerFits args n := by
  have hhead : c.numPos = 0 → args.head? = some (some text) := fun h => by
    rw [head?_eq_getElem?, ← h, hargs]
  cases c with
  | zunion | zinter | zdiff => exact handler_zset_iff hmem hn (hhead rfl)
  | zunionstore | zinterstore | zdiffstore => exact handler_store_iff hmem hn hargs
  | zintercard => exact handler_zintercard_iff hmem hn (hhead rfl)
  | sintercard =>
    exact iff_of_true ((sintercard_yields hmem hn (hhead rfl)).bind fun _ h => yields_ok h) trivial
  | lmpop | zmpop =>
    exact iff_of_true ((mpop_yields hmem hn (hhead rfl)).bind fun _ h => yields_ok h) trivial
  | blmpop | bzmpop =>
    exact iff_of_true ((blockingPop_yields hmem hn hargs).bind fun _ h => yields_ok h) trivial

section

variable {ws : List Bytes} {n : Int64}

/-- The positions are those of the keys that follow, or none; a sum that wraps around is a panic. -/
theorem numkeysPositions_cases (hlen : ws.length < 2 ^ 59) {numPos : Nat} (hpos : numPos ≤ 1)
    (hn : ws[numPos]?.bind parseInt = some n) :
    (numPos + 1 + n.toInt < 2 ^ 63 ∧ ∃ idx, numkeysPositions numPos (numPos + 1) ws = .ok idx ∧
        idx.filterMap (ws[·]?) = (following ws numPos n).getD []) ∨
      (2 ^ 63 ≤ numPos + 1 + n.toInt ∧
        numkeysPositions numPos (numPos + 1) ws = .error .makeSlice) := by
  have hkey : (Int64.ofNat (numPos + 1)).toInt = numPos + 1 := Int64.toInt_ofNat_of_lt (by omega)
  simp only [numkeysPositions, hn, Int64.le_iff_toInt_le, Int64.toInt_zero, following]
  by_cases hfew : n.toInt ≤ 0
  · refine .inl ⟨by omega, ?_⟩
    rw [if_pos (.inl hfew), if_neg (by omega)]
    exact ⟨_, rfl, rfl⟩
  · rcases toInt_add_cases (a := Int64.ofNat (numPos + 1)) (b := n) (by omega) (by omega) with
      ⟨hfits, hsum⟩ | ⟨hwrap, hsum⟩
    · refine .inl ⟨by omega, ?_⟩
      by_cases hle : numPos + 1 + n.toInt ≤ ws.length
      · rw [if_neg (by omega), if_neg (by omega), if_pos (by omega)]
        exact ⟨_, rfl, filterMap_range'⟩
      · rw [if_pos (.inr (by omega)), if_neg (by omega)]
        exact ⟨_, rfl, rfl⟩
    · have hlt := n.toInt_lt
      refine .inr ⟨by omega, ?_⟩
      rw [if_neg (by omega), if_pos (by omega)]

variable {c : NumkeysCmd}

/-- The destination, if any, and the keys that follow, if they are all there. -/
theorem aclSafe_of_eq
    (h : extractKeys c.cmd ws = .ok (c.dest ws ++ (following ws c.numPos n).getD [])) :
    c.AclSafe ws n := by
  refine ⟨_, h, ?_⟩
  cases hf : following ws c.numPos n with
  | none => exact .inl (by simp)
  | some keys => exact .inr ⟨keys, rfl, rfl⟩

theorem not_aclSafe_of_error {p : Panic} (h : extractKeys c.cmd ws = .error p) :
    ¬ c.AclSafe ws n := by
  rintro ⟨found, hfound, -⟩
  rw [h] at hfound
  cases hfound

section

variable (hlen : ws.length < 2 ^ 59)
include hlen

theorem aclSafe_numkeys_iff (hpos : c.numPos ≤ 1)
    (hspec : c.cmd.keys = { first := 0, custom := some (.numkeysKeys c.numPos (c.numPos + 1)) })
    (hdest : c.dest ws = []) (hn : ws[c.numPos]?.bind parseInt = some n) :
    c.AclSafe ws n ↔ c.AclFits n := by
  rcases numkeysPositions_cases hlen hpos hn with ⟨hfits, idx, hidx, hfound⟩ | ⟨hwrap, hpanic⟩
  · have hpositions : (Custom.numkeysKeys c.numPos (c.numPos + 1)).positions ws = .ok idx := hidx
    refine iff_of_true (aclSafe_of_eq ?_) hfits
    rw [extractKeys, hspec, extract_custom idx hpositions, hdest, hfound, nil_append]
  · refine iff_of_false (not_aclSafe_of_error (p := .makeSlice) ?_) (by
      unfold NumkeysCmd.AclFits
      omega)
    simp only [extractKeys, hspec, KeySpec.extract, Custom.positions, hpanic]
    rfl

theorem aclSafe_store_iff (hpos : c.numPos = 1)
    (hspec : c.cmd.keys = { first := 0, custom := some .zStoreKeys })
    (hdest : c.dest ws = ws.take 1) (hn : ws[1]?.bind parseInt = some n) :
    c.AclSafe ws n ↔ c.AclFits n := by
  rcases numkeysPositions_cases hlen (le_refl 1) hn with
    ⟨hfits, idx, hidx, hfound⟩ | ⟨hwrap, hpanic⟩
  · have hpositions : Custom.zStoreKeys.positions ws = .ok (0 :: idx) := by
      rw [Custom.positions, hidx]
      rfl
    refine iff_of_true (aclSafe_of_eq ?_) (by
      unfold NumkeysCmd.AclFits
      rw [hpos]
      exact hfits)
    rw [extractKeys, hspec, extract_custom _ hpositions, hdest, hpos, filterMap_cons, hfound]
    cases ws <;> rfl
  · refine iff_of_false (not_aclSafe_of_error (p := .makeSlice) ?_) (by
      unfold NumkeysCmd.AclFits
      omega)
    simp only [extractKeys, hspec, KeySpec.extract, Custom.positions, hpanic]
    rfl

theorem NumkeysCmd.aclSafe_iff (c : NumkeysCmd) (hn : ws[c.numPos]?.bind parseInt = some n) :
    c.AclSafe ws n ↔ c.AclFits n := by
  cases c with
  | zunionstore | zinterstore | zdiffstore => exact aclSafe_store_iff hlen rfl rfl rfl hn
  | _ => exact aclSafe_numkeys_iff hlen (by decide) rfl rfl hn

/-- The words are those that follow, or none; a sum that wraps around is a panic. -/
theorem numbered_cases {numPos : Nat} (hpos : numPos ≤ 1) (hn : ws[numPos]?.bind parseInt = some n)
    :
    (numPos + 1 + n.toInt < 2 ^ 63 ∧
        Cluster.numbered numPos (numPos + 1) ws = .ok (following ws numPos n)) ∨
      (2 ^ 63 ≤ numPos + 1 + n.toInt ∧
        Cluster.numbered numPos (numPos + 1) ws = .error .sliceBounds) := by
  have hkey : (Int64.ofNat (numPos + 1)).toInt = numPos + 1 := Int64.toInt_ofNat_of_lt (by omega)
  have hone : (1 : Int64).toInt = 1 := rfl
  simp only [Cluster.numbered, hn, Int64.lt_iff_toInt_lt, hone, following]
  by_cases hfew : n.toInt < 1
  · refine .inl ⟨by omega, ?_⟩
    rw [if_pos (.inl hfew), if_neg (by omega)]
  · rcases toInt_add_cases (a := Int64.ofNat (numPos + 1)) (b := n) (by omega) (by omega) with
      ⟨hfits, hsum⟩ | ⟨hwrap, hsum⟩
    · refine .inl ⟨by omega, ?_⟩
      by_cases hle : numPos + 1 + n.toInt ≤ ws.length
      · rw [if_neg (by omega), if_neg (by omega), if_pos (by omega)]
      · rw [if_pos (.inr (by omega)), if_neg (by omega)]
    · have hlt := n.toInt_lt
      refine .inr ⟨by omega, ?_⟩
      rw [if_neg (by omega), if_pos (by omega)]

end

theorem allNonEmpty_some {ks l : List Bytes} (h : Cluster.allNonEmpty ks = some l) : l = ks := by
  unfold Cluster.allNonEmpty at h
  split at h
  · cases h
  · exact (Option.some.inj h).symm

theorem NumkeysCmd.keysOf_eq (c : NumkeysCmd) {ws : List Bytes} :
    Cluster.keysOf c.cmd.name ws = (Cluster.cmdRule c.cmd).keys ws := by
  have hrule : ∀ c : NumkeysCmd, Cluster.ruleOf c.cmd.name = Cluster.cmdRule c.cmd := by
    intro c
    cases c <;> decide +kernel
  rw [Cluster.keysOf, hrule]

/-- Safety over the rule of a command. -/
theorem clusterSafe_iff_rule {rule : Cluster.Rule} (h : Cluster.cmdRule c.cmd = rule) :
    c.ClusterSafe ws n ↔ ∃ found, rule.keys ws = .ok found ∧ ∀ l, found = some l →
      ∃ keys, following ws c.numPos n = some keys ∧ l = c.dest ws ++ keys := by
  rw [NumkeysCmd.ClusterSafe, c.keysOf_eq, h]

theorem clusterSafe_numkeys_iff (hlen : ws.length < 2 ^ 59)
    (hrule : Cluster.cmdRule c.cmd = .numkeys) (hpos : c.numPos = 0) (hdest : c.dest ws = [])
    (hn : ws[0]?.bind parseInt = some n) :
    c.ClusterSafe ws n ↔ ws.length < 2 ∨ 1 + n.toInt < 2 ^ 63 := by
  rw [clusterSafe_iff_rule hrule, hpos, hdest, Cluster.Rule.keys, Cluster.numkeysKeys]
  by_cases hshort : ws.length < 2
  · rw [if_pos hshort]
    exact iff_of_true ⟨_, rfl, nofun⟩ (.inl hshort)
  · rw [if_neg hshort]
    rcases numbered_cases hlen (Nat.zero_le 1) hn with ⟨hfits, hfound⟩ | ⟨hwrap, hpanic⟩
    · refine iff_of_true ⟨_, by rw [hfound]; rfl, fun l hl => ?_⟩ (by omega)
      obtain ⟨keys, hkeys, hl⟩ := Option.bind_eq_some_iff.mp hl
      exact ⟨keys, hkeys, allNonEmpty_some hl⟩
    · rw [hpanic]
      exact iff_of_false (fun ⟨_, h, _⟩ => nomatch h) (by omega)

theorem clusterSafe_store_iff (hlen : ws.length < 2 ^ 59)
    (hrule : Cluster.cmdRule c.cmd = .zstore) (hpos : c.numPos = 1) (hdest : c.dest ws = ws.take 1)
    (hn : ws[1]?.bind parseInt = some n) :
    c.ClusterSafe ws n ↔ ws.length < 3 ∨ 2 + n.toInt < 2 ^ 63 := by
  rw [clusterSafe_iff_rule hrule, hpos, hdest, Cluster.Rule.keys]
  match ws, hlen, hn with
  | [_, _], _, _ => exact iff_of_true ⟨_, rfl, nofun⟩ (.inl (le_refl 3))
  | dst :: num :: key :: rest, hlen, hn =>
    have hlong : ¬ (dst :: num :: key :: rest).length < 3 := by
      simp only [length_cons]
      omega
    rw [Cluster.zstoreKeys]
    rcases numbered_cases hlen (le_refl 1) hn with ⟨hfits, hfound⟩ | ⟨hwrap, hpanic⟩
    · refine iff_of_true ⟨_, by rw [hfound]; rfl, fun l hl => ?_⟩ (by omega)
      obtain ⟨keys, hkeys, hl⟩ := Option.bind_eq_some_iff.mp hl
      exact ⟨keys, hkeys, allNonEmpty_some hl⟩
    · rw [hpanic]
      exact iff_of_false (fun ⟨_, h, _⟩ => nomatch h) (by omega)

/-- The number itself is among the words, so that all words are never the keys. -/
theorem clusterSafe_all_iff (hrule : Cluster.cmdRule c.cmd = .all)
    (hdest : c.dest ws = []) (hne : ws ≠ []) : c.ClusterSafe ws n ↔ [] ∈ ws := by
  rw [clusterSafe_iff_rule hrule, hdest, Cluster.Rule.keys, Cluster.allNonEmpty]
  by_cases hempty : [] ∈ ws
  · rw [if_pos (.inr (contains_iff_mem.mpr hempty))]
    exact iff_of_true ⟨_, rfl, nofun⟩ hempty
  · rw [if_neg (not_or.mpr ⟨hne, fun h => hempty (contains_iff_mem.mp h)⟩)]
    refine iff_of_false ?_ hempty
    rintro ⟨found, hfound, h⟩
    cases hfound
    obtain ⟨keys, hkeys, hws⟩ := h ws rfl
    have hlen := length_of_following hkeys
    have hsame := congrArg length hws
    rw [nil_append] at hsame
    omega

theorem allNonEmpty_eq_some_iff {ks l : List Bytes} (hne : ks ≠ []) :
    Cluster.allNonEmpty ks = some l ↔ [] ∉ ks ∧ l = ks := by
  unfold Cluster.allNonEmpty
  by_cases hempty : [] ∈ ks
  · rw [if_pos (.inr (contains_iff_mem.mpr hempty))]
    exact iff_of_false nofun fun h => h.1 hempty
  · rw [if_neg (not_or.mpr ⟨hne, fun h => hempty (contains_iff_mem.mp h)⟩), Option.some.injEq]
    exact ⟨fun h => ⟨hempty, h.symm⟩, fun h => h.2.symm⟩

/-- The timeout stands where routing expects the number of keys. -/
theorem clusterSafe_timeout_iff (hlen : ws.length < 2 ^ 59)
    (hrule : Cluster.cmdRule c.cmd = .numkeys) (hpos : c.numPos = 1) (hdest : c.dest ws = [])
    (htwo : 2 ≤ ws.length) : c.ClusterSafe ws n ↔ NumkeysCmd.TimeoutHarmless ws n := by
  rw [clusterSafe_iff_rule hrule, hpos, hdest, Cluster.Rule.keys, Cluster.numkeysKeys,
    if_neg (not_lt.mpr htwo), NumkeysCmd.TimeoutHarmless, head?_eq_getElem?]
  cases hm : ws[0]?.bind parseInt with
  | none =>
    rw [Cluster.numbered, hm]
    exact iff_of_true ⟨_, rfl, nofun⟩ nofun
  | some m =>
    rcases numbered_cases hlen (Nat.zero_le 1) hm with ⟨hfits, hfound⟩ | ⟨hwrap, hpanic⟩
    · rw [hfound]
      by_cases hcount : 1 ≤ m.toInt ∧ (0 : Nat) + 1 + m.toInt ≤ ws.length
      · have hwindow : following ws 0 m = some ((ws.drop 1).take m.toInt.toNat) := if_pos hcount
        have hne : (ws.drop 1).take m.toInt.toNat ≠ [] := by
          intro h
          have := (length_of_following hwindow).2.1
          rw [h, length_nil] at this
          omega
        rw [hwindow]
        constructor
        · rintro ⟨found, heq, h⟩ m' hm' hpos'
          cases heq
          cases hm'
          refine .inr ⟨by omega, ?_⟩
          by_cases hempty : [] ∈ (ws.drop 1).take m.toInt.toNat
          · exact .inl hempty
          · obtain ⟨keys, hkeys, hl⟩ := h _ ((allNonEmpty_eq_some_iff hne).mpr ⟨hempty, rfl⟩)
            exact .inr (hl ▸ hkeys)
        · intro h
          refine ⟨_, rfl, fun l hl => ?_⟩
          obtain ⟨hempty, rfl⟩ := (allNonEmpty_eq_some_iff hne).mp hl
          rcases h m rfl (by omega) with hshort | ⟨-, hbad | hsame⟩
          · omega
          · exact absurd hbad hempty
          · exact ⟨_, hsame, rfl⟩
      · have hnone : following ws 0 m = none := if_neg hcount
        rw [hnone]
        refine iff_of_true ⟨_, rfl, nofun⟩ fun m' hm' hpos' => .inl ?_
        cases hm'
        omega
    · rw [hpanic]
      refine iff_of_false (fun ⟨_, h, _⟩ => nomatch h) fun h => ?_
      rcases h m rfl (by omega) with hshort | ⟨hlong, -⟩ <;> omega

theorem NumkeysCmd.clusterSafe_iff (hlen : ws.length < 2 ^ 59) (c : NumkeysCmd)
    (hn : ws[c.numPos]?.bind parseInt = some n) : c.ClusterSafe ws n ↔ c.ClusterFits ws n := by
  have hlong : c.numPos < ws.length := by
    by_contra hshort
    rw [getElem?_eq_none (not_lt.mp hshort)] at hn
    cases hn
  cases c with
  | zunionstore | zinterstore | zdiffstore => exact clusterSafe_store_iff hlen rfl rfl rfl hn
  | sintercard => exact clusterSafe_all_iff rfl rfl (ne_nil_of_length_pos hlong)
  | blmpop | bzmpop => exact clusterSafe_timeout_iff hlen rfl rfl rfl hlong
  | _ => exact clusterSafe_numkeys_iff hlen rfl rfl rfl hn

end

/-- When the handler, access control and routing take exactly the keys that follow their number, or
none. The room for the keys is bounded by the arguments, as their size may be all that can be
allocated. -/
theorem numkeys_safe_iff (c : NumkeysCmd) (parseScore : Bytes → Option UInt64)
    (parseTimeout : Bytes → Option Int64) :
    (∀ (maxAlloc : Nat) (args : List Arg) (text : Bytes) (n : Int64), Held maxAlloc args →
      args[c.numPos]? = some (some text) → parseInt text = some n →
        (c.HandlerSafe maxAlloc parseScore parseTimeout args n ↔ c.HandlerFits args n)) ∧
    ∀ (ws : List Bytes) (text : Bytes) (n : Int64), ws.length < 2 ^ 59 →
      ws[c.numPos]? = some text → parseInt text = some n →
        (c.AclSafe ws n ↔ c.AclFits n) ∧ (c.ClusterSafe ws n ↔ c.ClusterFits ws n) := by
  refine ⟨fun maxAlloc args text n hmem hargs hn => ?_, fun ws text n hlen hws hn => ?_⟩
  · exact c.handlerSafe_iff hmem hn hargs
  · have hread : ws[c.numPos]?.bind parseInt = some n := by rw [hws, Option.bind_some, hn]
    exact ⟨c.aclSafe_iff hlen hread, c.clusterSafe_iff hlen hread⟩

/-- `ZUNION 1 a`. -/
theorem numkeys_safe_one :
    NumkeysCmd.zunion.HandlerSafe 32 (fun _ => none) (fun _ => none) [some [49], some [97]] 1 ∧
      NumkeysCmd.zunion.AclSafe [[49], [97]] 1 ∧ NumkeysCmd.zunion.ClusterSafe [[49], [97]] 1 := by
  have h := numkeys_safe_iff .zunion (fun _ => none) (fun _ => none)
  have hnum : parseInt [49] = some 1 := by decide
  obtain ⟨hacl, hcluster⟩ := h.2 [[49], [97]] [49] 1 (by decide) rfl hnum
  have hfits : (1 : Int) + (1 : Int64).toInt < 2 ^ 63 := by decide
  exact ⟨(h.1 32 _ [49] 1 ⟨by decide, by decide⟩ rfl hnum).mpr hfits, hacl.mpr hfits,
    hcluster.mpr (.inr hfits)⟩

/-- `9223372036854775807`. -/
def greatestCount : Bytes := ascii "9223372036854775807".toList

/-- With the greatest number of keys the handler of `ZUNION`, access control and routing panic.
`SINTERCARD 1 a` is routed by the number too, and `BLMPOP 1 1 k LEFT` by the number instead of the
key. -/
theorem numkeys_unsafe :
    (¬ NumkeysCmd.zunion.HandlerSafe (2 ^ 47) (fun _ => none) (fun _ => none)
        [some greatestCount, some [97]] 9223372036854775807 ∧
      ¬ NumkeysCmd.zunion.AclSafe [greatestCount, [97]] 9223372036854775807 ∧
      ¬ NumkeysCmd.zunion.ClusterSafe [greatestCount, [97]] 9223372036854775807) ∧
    ¬ NumkeysCmd.sintercard.ClusterSafe [[49], [97]] 1 ∧
    ¬ NumkeysCmd.blmpop.ClusterSafe [[49], [49], [107], ascii "LEFT".toList] 1 := by
  have hhandler : NumkeysCmd.zunion.handlerKeys (2 ^ 47) (fun _ => none) (fun _ => none)
      [some greatestCount, some [97]] = .error .makeSlice := by decide +kernel
  have hacl : extractKeys .ZUNION [greatestCount, [97]] = .error .makeSlice := by decide +kernel
  have hcluster : Cluster.keysOf (Cmd.name .ZUNION) [greatestCount, [97]] = .error .sliceBounds := by
    decide +kernel
  have hall : Cluster.keysOf (Cmd.name .SINTERCARD) [[49], [97]] = .ok (some [[49], [97]]) := by
    decide +kernel
  have htimeout : Cluster.keysOf (Cmd.name .BLMPOP) [[49], [49], [107], ascii "LEFT".toList] =
      .ok (some [[49]]) := by decide +kernel
  refine ⟨⟨?_, ?_, ?_⟩, ?_, ?_⟩
  · rintro ⟨r, hr, -⟩
    cases hr
  · exact not_aclSafe_of_error hacl
  · rintro ⟨r, hr, -⟩
    cases hr
  · rintro ⟨r, hr, h⟩
    cases hr
    obtain ⟨keys, hkeys, hl⟩ := h _ rfl
    cases hkeys
    exact absurd hl (by decide)
  · rintro ⟨r, hr, h⟩
    cases hr
    obtain ⟨keys, hkeys, hl⟩ := h _ rfl
    cases hkeys
    exact absurd hl (by decide)

end Gedis.Commands.Numkeys
