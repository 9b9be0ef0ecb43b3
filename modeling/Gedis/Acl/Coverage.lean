import Gedis.Acl.Gate
import Gedis.Acl.KeySpec
import Gedis.Commands.Accepted

/-!
# Access control sees the keys of a command

Before a command runs, the keys that its specification finds among the strings of its arguments
are checked. This module compares them with the keys that the handler visits.
-/

namespace Gedis.Acl

open Gedis.Core Protocol Commands.Grammar List Option

variable {key : Bytes} {rest ws keys : List Bytes} {optionsFrom : Nat}

/-- The specification finds every user key of a handler among the words. -/
def Listed (spec : KeySpec) (ws : List Bytes) (r : Reach) : Prop :=
  ∃ keys, spec.extract ws = .ok keys ∧ ∀ key, r.Touches key → key ∈ keys

/-- Every user key that the handler visits is among those that a specification finds. -/
def ListedBy (reach : List Arg → Option Reach) (spec : KeySpec) (args : List Arg) : Prop :=
  ∀ r, reach args = some r → Listed spec (words args) r

/-- Every user key that the handler of a command visits is checked. -/
def KeysListed (cmd : Cmd) (args : List Arg) : Prop := ListedBy (touched cmd) cmd.keys args

section Listed

variable {spec : KeySpec} {args : List Arg}

theorem listed_noKeys (h : ∃ keys, spec.extract (words args) = .ok keys) :
    ListedBy noKeys spec args := by
  rintro r ⟨⟩
  obtain ⟨keys, hkeys⟩ := h
  exact ⟨keys, hkeys, by simp⟩

theorem listed_noKeys_none : ListedBy noKeys { first := -1 } args :=
  listed_noKeys ⟨[], rfl⟩

theorem listed_watch : ListedBy noKeys { first := 0, last := -1 } args :=
  listed_noKeys ⟨_, extract_toEnd rfl le_rfl _ le_rfl (by decide)⟩

theorem listed_keyFirst : ListedBy keyFirst { first := 0 } args := by
  intro r hr
  obtain ⟨key, rest, rfl, rfl⟩ := keyFirst_some hr
  refine ⟨_, extract_upTo rfl le_rfl _ le_rfl le_rfl, ?_⟩
  simp [words]

theorem listed_keysAll : ListedBy keysAll { first := 0, last := -1 } args := by
  intro r hr
  obtain ⟨ws, -, rfl, rfl⟩ := keysAll_some hr
  refine ⟨_, extract_toEnd rfl le_rfl _ le_rfl (by decide), ?_⟩
  simp

theorem listed_keysTwo : ListedBy keysTwo { first := 0, last := 1 } args := by
  intro r hr
  obtain ⟨a, b, rest, rfl, rfl⟩ := keysTwo_some hr
  refine ⟨_, extract_upTo rfl le_rfl _ le_rfl (by decide), ?_⟩
  simp [words]

theorem listed_dstSrc : ListedBy keysTwo { first := 0, custom := some .dstSrc } args := by
  intro r hr
  obtain ⟨a, b, rest, rfl, rfl⟩ := keysTwo_some hr
  refine ⟨[a, b], ?_, by simp⟩
  rw [extract_custom [0, 1] (by simp [Custom.positions, words])]
  simp [words]

theorem listed_renamenx : ListedBy renamenxKeys { first := 0, last := 1 } args := by
  intro r hr
  obtain ⟨src, dst, rfl, rfl⟩ := renamenxKeys_some hr
  refine ⟨_, extract_upTo rfl le_rfl _ le_rfl (by decide), ?_⟩
  split <;> simp [words]

theorem listed_mset : ListedBy msetKeys { first := 0, last := -1, step := 2 } args := by
  intro r hr
  obtain ⟨ws, rfl, -, rfl⟩ := msetKeys_some hr
  exact ⟨evens ws, by rw [words_map_some, extract_evens], by simp⟩

theorem listed_bitop : ListedBy bitopKeys { first := 1, last := -1 } args := by
  intro r hr
  obtain ⟨op, dst, src, srcs, rfl, rfl⟩ := bitopKeys_some hr
  refine ⟨_, extract_toEnd rfl (by decide) _ le_rfl (by decide), ?_⟩
  simp

theorem listed_migrate : ListedBy migrateKey { first := 2, last := 2 } args := by
  intro r hr
  obtain ⟨host, port, key, rest, rfl, rfl⟩ := migrateKey_some hr
  refine ⟨_, extract_upTo rfl (by decide) _ le_rfl (by decide), ?_⟩
  simp

theorem listed_allButLast :
    ListedBy keysButLast { first := 0, custom := some .allButLast } args := by
  intro r hr
  obtain ⟨ws, hlen, rfl, rfl⟩ := keysButLast_some hr
  refine ⟨ws.dropLast, ?_, by simp⟩
  rw [words_map_some, extract_custom (range (ws.length - 1)), range_eq_range',
    filterMap_range', drop_zero, dropLast_eq_take]
  simp [Custom.positions, not_lt.mpr hlen]

theorem listed_numkeysFirst :
    ListedBy numkeysFirst { first := 0, custom := some (.numkeysKeys 0 1) } args := by
  intro r hr
  obtain ⟨count, rest, keys, rfl, hkeys, hne, rfl⟩ := numkeysFirst_some hr
  obtain ⟨n, hn, hnonneg, hle, rfl⟩ := countedKeys_some hkeys
  refine ⟨rest.take n.toInt.toNat, ?_, by simp⟩
  rw [words_map_some, extract_numkeysKeys _ _ (by decide) (by simpa using hn)
    (pos_of_take_ne_nil hnonneg hne) (by simp; omega)]
  rfl

theorem listed_numkeysSecond :
    ListedBy numkeysSecond { first := 0, custom := some (.numkeysKeys 1 2) } args := by
  intro r hr
  obtain ⟨timeout, count, rest, keys, rfl, hkeys, hne, rfl⟩ := numkeysSecond_some hr
  obtain ⟨n, hn, hnonneg, hle, rfl⟩ := countedKeys_some hkeys
  refine ⟨rest.take n.toInt.toNat, ?_, by simp⟩
  rw [words_map_some, extract_numkeysKeys _ _ (by decide) (by simpa using hn)
    (pos_of_take_ne_nil hnonneg hne) (by simp; omega)]
  rfl

theorem listed_zstore : ListedBy zstoreKeys { first := 0, custom := some .zStoreKeys } args := by
  intro r hr
  obtain ⟨dst, count, rest, keys, rfl, hkeys, hne, rfl⟩ := zstoreKeys_some hr
  obtain ⟨n, hn, hnonneg, hle, rfl⟩ := countedKeys_some hkeys
  refine ⟨dst :: rest.take n.toInt.toNat, ?_, by simp⟩
  have hpositions : (Custom.numkeysKeys 1 2).positions (dst :: count :: rest) =
      .ok (range' 2 n.toInt.toNat) :=
    numkeysPositions_of_le (by decide) (by simpa using hn)
      (pos_of_take_ne_nil hnonneg hne) (by simp; omega)
  simp only [Custom.positions] at hpositions
  rw [words_map_some, extract_custom (0 :: range' 2 n.toInt.toNat)
    (by simp only [Custom.positions, hpositions]; rfl), filterMap_cons, filterMap_range']
  rfl

theorem listed_xread : ListedBy xreadKeys { first := 0, custom := some .xreadKeys } args := by
  intro r hr
  obtain ⟨before, w, rest, rfl, hw, hbefore, hne, heven, rfl⟩ := xreadKeys_some hr
  refine ⟨rest.take (rest.length / 2), ?_, by simp⟩
  rw [words_map_some, extract_custom _ (positions_xreadKeys (fun v hv => equalFold_streams ▸
    hbefore v hv) (equalFold_streams ▸ hw)), if_neg (by simp [hne, heven]), filterMap_range']
  simp

theorem extract_subKeyAt1 {sub : Bytes} (h : reads sub "HELP" = false) :
    ({ first := 0, custom := some .subKeyAt1 } : KeySpec).extract (sub :: key :: rest) =
      .ok [key] := by
  have hhelp : equalFold sub (ascii "HELP".toList) = false :=
    (equalFold_eq_reads rfl rfl).trans h
  rw [extract_custom [1] (by simp only [Custom.positions, hhelp]; rfl)]
  rfl

theorem listed_object : ListedBy objectKey { first := 0, custom := some .subKeyAt1 } args := by
  intro r hr
  obtain ⟨sub, key, rfl, hsub, rfl⟩ := objectKey_some hr
  exact ⟨[key], extract_subKeyAt1 hsub, by simp⟩

theorem listed_xinfo : ListedBy xinfoKey { first := 0, custom := some .subKeyAt1 } args := by
  intro r hr
  obtain ⟨sub, key, rest, rfl, hsub, rfl⟩ := xinfoKey_some hr
  exact ⟨[key], extract_subKeyAt1 hsub, by simp⟩

end Listed

/-- The keys are in the first half of the words, and there is such a half. -/
def InFirstHalf (rest keys : List Bytes) : Prop :=
  rest.length % 2 = 0 ∧ ∀ key ∈ keys, key ∈ rest.take (rest.length / 2)

/-- When the keys that a handler visits are all listed. -/
def SpecCovers (cmd : Cmd) (args : List Arg) (r : Reach) : Prop :=
  match cmd with
  -- only the first key is listed
  | .DEL | .UNLINK | .EXISTS | .GEORADIUS_RO | .GEORADIUSBYMEMBER_RO =>
    ∀ key ∈ r.keys, (words args).head? = some key
  -- no key is listed
  | .TOUCH | .MEMORY | .DEBUG => r.keys = []
  -- a key that is not a string counts as empty, and the next string is listed in its place
  | .SET => args.head? = some none → (words args).head? = some []
  | .XGROUP => args[1]? = some none → args[2]? = some (some [])
  | .MSETNX => none ∉ args ∨ ∀ key ∈ r.keys, key ∈ evens (words args)
  | .FCALL | .FCALL_RO =>
    none ∉ (args.drop 2).take r.keys.length ∨
      (r.keys.length ≤ (words (args.drop 2)).length ∧ [] ∈ (words (args.drop 2)).take r.keys.length)
  -- the script is taken for the number of keys
  | .EVAL | .EVALSHA =>
    r.keys = [] ∨ ∃ n, (words args).head?.bind parseInt = some n ∧ 0 < n ∧
      n.toInt + 1 ≤ (words args).length ∧ ∀ key ∈ r.keys, key ∈ (words args).tail.take n.toInt.toNat
  -- the first word that reads `STREAMS` may be the group or the consumer
  | .XREADGROUP =>
    match (words args).tail with
    | group :: consumer :: options =>
      if reads group "STREAMS" then InFirstHalf (consumer :: options) r.keys
      else if reads consumer "STREAMS" then InFirstHalf options r.keys
      else True
    | _ => True
  -- the first word that names the option is taken, whatever its place
  | .GEORADIUS | .GEORADIUSBYMEMBER =>
    ∀ dst ∈ r.keys.tail, (words args).head? = some dst ∨
      wordAfter [ascii "STORE".toList, ascii "STOREDIST".toList] (words args).tail = some dst
  | .SORT =>
    let listed := (words args).take 1 ++ (wordAfter [ascii "STORE".toList] (words args).tail).toList
    (∀ dst ∈ r.keys.tail, dst ∈ listed) ∧ TemplatesWithin r listed
  | .SORT_RO => TemplatesWithin r ((words args).take 1)
  | _ => True

theorem listed_iff_of_extract {spec : KeySpec} {found : List Bytes}
    (h : spec.extract ws = .ok found) {r : Reach} :
    Listed spec ws r ↔ ∀ key, r.Touches key → key ∈ found := by
  constructor
  · rintro ⟨keys, hkeys, hmem⟩
    cases h.symm.trans hkeys
    exact hmem
  · exact fun hmem => ⟨found, h, hmem⟩

section Missed

variable {args : List Arg} {r : Reach}

private theorem mem_take_one : key ∈ ws.take 1 ↔ ws.head? = some key := by
  cases ws with
  | nil => simp
  | cons => simp [eq_comm]

/-- A specification of the first word only. -/
theorem listed_first_iff :
    Listed { first := 0 } ws { keys } ↔ ∀ key ∈ keys, ws.head? = some key := by
  rw [listed_iff_of_extract (extract_upTo rfl le_rfl _ le_rfl le_rfl)]
  simp only [touches_keys]
  exact forall₂_congr fun key _ => mem_take_one

theorem listed_none_iff : Listed { first := -1 } ws { keys } ↔ keys = [] := by
  have h : ({ first := -1 } : KeySpec).extract ws = .ok [] := rfl
  rw [listed_iff_of_extract h]
  simp [eq_nil_iff_forall_not_mem]

theorem missed_keyList (h : keyList args = some r) :
    Listed { first := 0 } (words args) r ↔ ∀ key ∈ r.keys, (words args).head? = some key := by
  obtain ⟨-, rfl⟩ := keyList_some h
  exact listed_first_iff

theorem missed_touch (h : keyList args = some r) :
    Listed { first := -1 } (words args) r ↔ r.keys = [] := by
  obtain ⟨-, rfl⟩ := keyList_some h
  exact listed_none_iff

theorem missed_memory (h : memoryKey args = some r) :
    Listed { first := -1 } (words args) r ↔ r.keys = [] := by
  rcases memoryKey_some h with ⟨sub, -, rfl⟩ | ⟨sub, key, rest, -, rfl⟩
  · exact listed_none_iff
  · exact listed_none_iff

theorem missed_debug (h : debugKey args = some r) :
    Listed { first := -1 } (words args) r ↔ r.keys = [] := by
  rcases debugKey_some h with rfl | ⟨sub, key, -, rfl⟩
  · exact listed_none_iff
  · exact listed_none_iff

theorem missed_set (h : setKey args = some r) :
    Listed { first := 0 } (words args) r ↔
      (args.head? = some none → (words args).head? = some []) := by
  obtain ⟨key, value, options, rfl, rfl⟩ := setKey_some h
  rw [listed_first_iff]
  cases key <;> simp [words]

theorem missed_xgroup (h : xgroupKey args = some r) :
    Listed { first := 0, custom := some .subKeyAt1 } (words args) r ↔
      (args[1]? = some none → args[2]? = some (some [])) := by
  obtain ⟨sub, key, group, rest, rfl, hsub, rfl⟩ := xgroupKey_some h
  cases key with
  | none =>
    rw [words_some_cons, words_none_cons, words_some_cons,
      listed_iff_of_extract (extract_subKeyAt1 hsub)]
    simp [eq_comm]
  | some =>
    rw [words_some_cons, words_some_cons, listed_iff_of_extract (extract_subKeyAt1 hsub)]
    simp

theorem missed_msetnx (h : msetnxKeys args = some r) :
    Listed { first := 0, last := -1, step := 2 } (words args) r ↔
      (none ∉ args ∨ ∀ key ∈ r.keys, key ∈ evens (words args)) := by
  obtain ⟨keys, -, hkeys, rfl⟩ := msetnxKeys_some h
  rw [listed_iff_of_extract extract_evens]
  simp only [touches_keys]
  refine ⟨.inr, ?_⟩
  rintro (hstrings | hlisted)
  · rw [← map_some_words hstrings] at hkeys
    rw [msetnxPairs_strings hkeys]
    exact fun key hkey => hkey
  · exact hlisted

/-- A radius query that access control takes to have no other key. -/
theorem missed_radius_ro (h : radiusKeys optionsFrom args = some r) :
    Listed { first := 0 } (words args) r ↔ ∀ key ∈ r.keys, (words args).head? = some key := by
  obtain ⟨key, query, store, rfl, rfl⟩ := radiusKeys_some h
  exact listed_first_iff

private theorem extract_option (names : List Bytes) (key : Bytes) (options : List Bytes) :
    (0 :: optionTarget names 1 options).filterMap ((key :: options)[·]?) =
      key :: (wordAfter names options).toList := by
  have h := optionTarget_words names [key] options
  exact congrArg (key :: ·) h

theorem missed_radius (h : radiusKeys optionsFrom args = some r) :
    Listed { first := 0, custom := some .geoRadiusKeys } (words args) r ↔
      ∀ dst ∈ r.keys.tail, (words args).head? = some dst ∨
        wordAfter [ascii "STORE".toList, ascii "STOREDIST".toList] (words args).tail =
          some dst := by
  obtain ⟨key, query, store, rfl, rfl⟩ := radiusKeys_some h
  have hpositions : Custom.geoRadiusKeys.positions (key :: query) =
      .ok (0 :: optionTarget [ascii "STORE".toList, ascii "STOREDIST".toList] 1 query) := rfl
  rw [words_map_some, listed_iff_of_extract (extract_custom _ hpositions), extract_option]
  simp only [touches_keys, mem_cons, mem_toList, head?_cons, tail_cons,
    some.injEq]
  constructor
  · intro hall dst hdst
    exact (hall dst (.inr hdst)).imp_left Eq.symm
  · rintro hall dst (rfl | hdst)
    · exact .inl rfl
    · exact (hall dst hdst).imp_left Eq.symm

theorem missed_eval (h : evalKeys args = some r) :
    Listed { first := 0, custom := some .evalKeys } (words args) r ↔
      (r.keys = [] ∨ ∃ n, (words args).head?.bind parseInt = some n ∧ 0 < n ∧
        n.toInt + 1 ≤ (words args).length ∧
        ∀ key ∈ r.keys, key ∈ (words args).tail.take n.toInt.toNat) := by
  obtain ⟨script, count, rest, keys, rfl, -, rfl⟩ := evalKeys_some h
  rw [words_map_some]
  -- without a number in the place of the script nothing is listed
  have hnone (hpositions : Custom.evalKeys.positions (script :: count :: rest) = .ok []) :
      Listed { first := 0, custom := some .evalKeys } (script :: count :: rest) { keys } ↔
        keys = [] := by
    rw [listed_iff_of_extract (extract_custom _ hpositions)]
    simp [eq_nil_iff_forall_not_mem]
  cases hn : parseInt script with
  | none =>
    rw [hnone (by simp [Custom.positions, hn])]
    simp [hn]
  | some n =>
    simp only [head?_cons, bind_some, hn, some.injEq, tail_cons,
      length_cons, exists_eq_left']
    by_cases hbound : n ≤ 0 ∨ (rest.length : Int) + 1 < n.toInt
    · rw [hnone (by simp [Custom.positions, hn, hbound])]
      refine ⟨.inl, ?_⟩
      rintro (hnil | ⟨hpos, hle, -⟩)
      · exact hnil
      · rcases hbound with hneg | hlong
        · exact absurd hpos (Int64.not_lt.mpr hneg)
        · push_cast at hle
          omega
    · have hpositions : Custom.evalKeys.positions (script :: count :: rest) =
          .ok (range' 1 n.toInt.toNat) := by
        simp [Custom.positions, hn, hbound]
      rw [listed_iff_of_extract (extract_custom _ hpositions), filterMap_range']
      rw [not_or, Int64.not_le] at hbound
      simp only [touches_keys, drop_one, tail_cons]
      constructor
      · exact fun hall => .inr ⟨hbound.1, by push_cast; omega, hall⟩
      · rintro (hnil | ⟨-, -, hall⟩)
        · simp [hnil]
        · exact hall

private theorem words_take_subset (n : Nat) (args : List Arg) :
    words (args.take n) ⊆ (words args).take n := by
  induction n generalizing args with
  | zero => simp [words]
  | succ n ih =>
    cases args with
    | nil => simp [words]
    | cons a rest =>
      cases a with
      | none =>
        exact List.Subset.trans (ih rest) (take_subset_take_left _ (Nat.le_succ n))
      | some w =>
        exact cons_subset_cons w (ih rest)

private theorem mem_map_getD {args : List Arg} :
    key ∈ args.map (·.getD []) ↔ key ∈ words args ∨ (none ∈ args ∧ key = []) := by
  induction args with
  | nil => simp [words]
  | cons a rest ih =>
    cases a with
    | none =>
      simp only [map_cons, getD_none, mem_cons, ih, words_none_cons]
      tauto
    | some =>
      simp only [map_cons, getD_some, mem_cons, ih, words_some_cons,
        reduceCtorEq, false_or]
      tauto

theorem missed_fcall (h : fcallKeys args = some r) :
    Listed { first := 0, custom := some (.numkeysKeys 1 2) } (words args) r ↔
      (none ∉ (args.drop 2).take r.keys.length ∨
        (r.keys.length ≤ (words (args.drop 2)).length ∧
          [] ∈ (words (args.drop 2)).take r.keys.length)) := by
  obtain ⟨name, count, rest, keys, rfl, hkeys, rfl⟩ := fcallKeys_some h
  obtain ⟨n, hn, hnonneg, hle, rfl⟩ := countedKeys_some hkeys
  rw [length_map] at hle
  have hlen : ((rest.map (·.getD ([] : Bytes))).take n.toInt.toNat).length = n.toInt.toNat := by
    rw [length_take, length_map]
    omega
  simp only [hlen, drop_succ_cons, drop_zero, words_some_cons]
  rw [← map_take] at hlen ⊢
  have hcount : (name :: count :: words rest)[1]?.bind parseInt = some n := by simpa using hn
  by_cases hpos : 0 < n
  · have hposInt := Int64.lt_iff_toInt_lt.mp hpos
    by_cases hfit : n.toInt.toNat ≤ (words rest).length
    · rw [listed_iff_of_extract (extract_numkeysKeys 1 2 (by decide) hcount hpos (by simp; omega))]
      simp only [touches_keys, mem_map_getD, hfit, true_and, drop_succ_cons, drop_zero]
      constructor
      · intro hall
        by_cases hnone : none ∈ rest.take n.toInt.toNat
        · exact .inr (hall [] (.inr ⟨hnone, rfl⟩))
        · exact .inl hnone
      · rintro hcase key (hkey | ⟨hnone, rfl⟩)
        · exact words_take_subset _ _ hkey
        · exact hcase.resolve_left (not_not.mpr hnone)
    · -- fewer strings than keys: nothing is listed, and some key is not a string
      have hnot : ¬ Listed { first := 0, custom := some (.numkeysKeys 1 2) }
          (name :: count :: words rest)
          { keys := (rest.take n.toInt.toNat).map (·.getD []) } := by
        rintro ⟨found, hfound, hall⟩
        obtain ⟨key, hkey⟩ := exists_mem_of_length_pos
          (show 0 < ((rest.take n.toInt.toNat).map (·.getD ([] : Bytes))).length by omega)
        have hmem := hall key (touches_keys.mpr hkey)
        rcases numkeysPositions_of_lt 2 hcount (by simp; omega) with
          hempty | herror
        · cases (extract_custom _ hempty).symm.trans hfound
          simp at hmem
        · simp only [KeySpec.extract, herror] at hfound
          cases hfound
      refine iff_of_false hnot ?_
      rintro (hnone | ⟨hfit', -⟩)
      · have hwords := congrArg length (map_some_words hnone)
        rw [length_map, length_take] at hwords
        have hlenle : (words (rest.take n.toInt.toNat)).length ≤ (words rest).length :=
          ((take_sublist _ rest).filterMap id).length_le
        omega
      · exact hfit hfit'
  · have hzero : n.toInt.toNat = 0 := by
      have := Int64.lt_iff_toInt_lt.not.mp hpos
      have hz : (0 : Int64).toInt = 0 := rfl
      omega
    rw [hzero, listed_iff_of_extract (extract_custom [] _)]
    · simp
    · simp only [Custom.positions, numkeysPositions, hcount]
      rw [if_pos (.inl (Int64.not_lt.mp hpos))]

private theorem listed_streams_iff (before : List Bytes) {w : Bytes}
    (hbefore : ∀ v ∈ before, reads v "STREAMS" = false) (hw : reads w "STREAMS" = true)
    (hkeys : keys ≠ []) :
    Listed { first := 0, custom := some .xreadKeys } (before ++ w :: rest) { keys } ↔
      InFirstHalf rest keys := by
  have hpositions := @positions_xreadKeys before rest w
    (fun v hv => equalFold_streams.trans (hbefore v hv)) (equalFold_streams.trans hw)
  rw [listed_iff_of_extract (extract_custom _ hpositions)]
  obtain ⟨key, hkey⟩ := exists_mem_of_ne_nil keys hkeys
  simp only [touches_keys]
  split
  · rename_i hcase
    refine iff_of_false (fun hall => ?_) ?_
    · simpa using hall key hkey
    · rintro ⟨heven, hall⟩
      rcases hcase with rfl | hodd
      · simpa using hall key hkey
      · exact hodd heven
  · rename_i hcase
    rw [not_or, not_not] at hcase
    rw [filterMap_range', show before.length + 1 = (before ++ [w]).length by simp,
      show before ++ w :: rest = (before ++ [w]) ++ rest by simp, drop_left]
    exact ⟨fun hall => ⟨hcase.2, hall⟩, fun hall => hall.2⟩

theorem missed_xreadgroup (h : xreadgroupKeys args = some r) :
    Listed { first := 0, custom := some .xreadKeys } (words args) r ↔
      match (words args).tail with
      | group :: consumer :: options =>
        if reads group "STREAMS" then InFirstHalf (consumer :: options) r.keys
        else if reads consumer "STREAMS" then InFirstHalf options r.keys
        else True
      | _ => True := by
  obtain ⟨kw, group, consumer, before, w, rest, rfl, hkw, hw, hbefore, hne, heven, rfl⟩ :=
    xreadgroupKeys_some h
  have hkw' : reads kw "STREAMS" = false := reads_of_equalFold hkw (by decide)
  have hkeys : rest.take (rest.length / 2) ≠ [] := by
    have hpos := length_pos_iff.mpr hne
    exact ne_nil_of_length_pos (by rw [length_take]; omega)
  simp only [words_map_some, tail_cons]
  split_ifs with hgroup hconsumer
  · exact listed_streams_iff [kw] (by simpa using hkw') hgroup hkeys
  · have hgroup' := eq_false_of_ne_true hgroup
    exact listed_streams_iff [kw, group] (by simpa using ⟨hkw', hgroup'⟩) hconsumer hkeys
  · have hgroup' := eq_false_of_ne_true hgroup
    have hconsumer' := eq_false_of_ne_true hconsumer
    refine iff_of_true ?_ trivial
    refine (listed_streams_iff (kw :: group :: consumer :: before) ?_ hw hkeys).mpr
      ⟨heven, fun key hkey => hkey⟩
    simpa using ⟨hkw', hgroup', hconsumer', hbefore⟩

theorem missed_sort (h : sortKeys false args = some r) :
    Listed { first := 0, custom := some .sortStoreKey } (words args) r ↔
      let listed := (words args).take 1 ++
        (wordAfter [ascii "STORE".toList] (words args).tail).toList
      (∀ dst ∈ r.keys.tail, dst ∈ listed) ∧ TemplatesWithin r listed := by
  obtain ⟨key, options, o, rfl, -, -, rfl⟩ := sortKeys_some h
  have hpositions : Custom.sortStoreKey.positions (key :: options) =
      .ok (0 :: optionTarget [ascii "STORE".toList] 1 options) := rfl
  rw [words_map_some, listed_iff_of_extract (extract_custom _ hpositions), extract_option]
  refine sort_within_iff (mem_cons_self ..) ?_
  cases wordAfter [ascii "STORE".toList] options <;> simp

theorem missed_sort_ro (h : sortKeys true args = some r) :
    Listed { first := 0 } (words args) r ↔ TemplatesWithin r ((words args).take 1) := by
  obtain ⟨key, options, o, rfl, -, hstore, rfl⟩ := sortKeys_some h
  rw [listed_iff_of_extract (extract_upTo rfl le_rfl _ le_rfl le_rfl)]
  refine (sort_within_iff (mem_cons_self ..) (by simp)).trans ?_
  simp only [hstore rfl, toList_none, not_mem_nil, false_imp_iff, implies_true,
    true_and]
  rfl

end Missed

end Gedis.Acl
