import Gedis.Acl.KeySpec
import Gedis.Cluster.Keys
import Gedis.Commands.Accepted

/-!
# Routing sees the keys of a command

The table of routing and the handlers read the arguments of a command separately. This module says
for every command and every accepted argument vector when the keys that routing finds are exactly
the keys that the handler visits.
-/

namespace Gedis.Cluster

open Gedis.Core Protocol Acl List
open Commands.Grammar hiding zstoreKeys evalKeys fcallKeys sortKeys

/-- The keys that a group takes from an argument vector. With anything but strings among the
arguments a command is not routed. -/
def Rule.route (rule : Rule) (args : List Arg) : Go (Option (List Bytes)) :=
  if none ∈ args then .ok none else rule.keys (words args)

/-- The keys found are those that a handler visits, and no keys are found only if it visits
none. -/
def Exact (found : Go (Option (List Bytes))) (r : Reach) : Prop :=
  match found with
  | .ok (some keys) => ∀ key, key ∈ keys ↔ r.Touches key
  | .ok none => ∀ key, ¬ r.Touches key
  | .error _ => False

/-- Routing finds exactly the user keys that the handler of a command visits. -/
def KeysRouted (cmd : Cmd) (args : List Arg) : Prop :=
  ∀ r, touched cmd args = some r → Exact ((cmdRule cmd).route args) r

/-- The handler visits the first word only, and it is not empty. -/
def FirstOnly (args : List Arg) (r : Reach) : Prop :=
  none ∉ args ∧ (∀ key ∈ r.keys, ¬ key = [] ∧ (words args).head? = some key) ∧
    TemplatesWithin r ((words args).take 1)

/-- The handler visits every word, and none is empty. -/
def KeysOnly (args : List Arg) (r : Reach) : Prop :=
  r.keys = [] ∨ (none ∉ args ∧ [] ∉ r.keys ∧ ∀ w ∈ words args, w ∈ r.keys)

/-- No key is empty, and the arguments are strings. -/
def NoneEmpty (args : List Arg) (r : Reach) : Prop := r.keys = [] ∨ (none ∉ args ∧ [] ∉ r.keys)

/-- The first word is a number of keys, and the words behind it are the given keys. -/
def CountedBy (ws keys : List Bytes) : Prop :=
  ∃ n, ws.head?.bind parseInt = some n ∧ 0 < n ∧ n.toInt + 1 ≤ ws.length ∧
    ∀ key, key ∈ ws.tail.take n.toInt.toNat ↔ key ∈ keys

/-- The first word is not a number of keys, or one that is refused: the words are too few, or one
of those behind it is empty. -/
def Uncounted (ws : List Bytes) : Prop :=
  ∀ n, ws.head?.bind parseInt = some n → 0 < n →
    (ws.length : Int) < (1 + n).toInt ∨ (n.toInt + 1 ≤ ws.length ∧ [] ∈ ws.tail.take n.toInt.toNat)

/-- The words have two halves, and the first one consists of the given keys. -/
def FirstHalf (rest keys : List Bytes) : Prop :=
  rest.length % 2 = 0 ∧ ∀ key, key ∈ rest.take (rest.length / 2) ↔ key ∈ keys

/-- What a sort visits is its key and the word behind the first `STORE`. -/
def SortedInto (key : Bytes) (dst : Option Bytes) (r : Reach) : Prop :=
  (∀ d ∈ r.keys.tail, d ∈ key :: dst.toList) ∧ TemplatesWithin r (key :: dst.toList) ∧
    ∀ d ∈ dst, d ∈ r.keys ∨ ∃ p, r.template p ∧ ¬ p = [35] ∧ fixedKey p = some d

/-- When the keys that a handler visits are the ones that routing finds. -/
def Routes (cmd : Cmd) (args : List Arg) (r : Reach) : Prop :=
  match cmd with
  -- the pattern is taken for a key
  | .KEYS => none ∈ args ∨ ∀ w ∈ (words args).head?, w = []
  -- two equal names are taken for keys, but nothing is renamed
  | .RENAMENX => if r.keys = [] then [] ∈ words args else [] ∉ r.keys
  -- the timeout is taken for the number of keys
  | .BLMPOP | .BZMPOP => [] ∉ r.keys ∧ CountedBy (words args) r.keys
  -- the script is taken for the number of keys
  | .EVAL | .EVALSHA =>
    if r.keys = [] then Uncounted (words args) else [] ∉ r.keys ∧ CountedBy (words args) r.keys
  -- the first word that reads `STREAMS` may be the group or the consumer
  | .XREADGROUP =>
    [] ∉ r.keys ∧
      match (words args).tail with
      | group :: consumer :: options =>
        if reads group "STREAMS" then FirstHalf (consumer :: options) r.keys
        else if reads consumer "STREAMS" then FirstHalf options r.keys
        else True
      | _ => True
  -- the first word that reads `STORE` is taken for the option, whatever its place
  | .SORT =>
    match words args with
    | key :: options =>
      let dst := wordAfter [ascii "STORE".toList] options
      ¬ key = [] ∧ ¬ dst = some [] ∧ (dst = none → ∀ w ∈ options, reads w "STORE" = false) ∧
        SortedInto key dst r
    | [] => False
  | _ =>
    match cmdRule cmd with
    | .pass => r.keys = []
    | .single 0 => FirstOnly args r
    | .all => KeysOnly args r
    | _ => NoneEmpty args r

section Groups

variable {args : List Arg} {keys : List Bytes}

theorem exact_none_iff : Exact (.ok none) { keys } ↔ keys = [] := by
  simp [Exact, eq_nil_iff_forall_not_mem]

theorem exact_allNonEmpty_nil {ws : List Bytes} :
    Exact (.ok (allNonEmpty ws)) { keys := [] } ↔ ws = [] ∨ [] ∈ ws := by
  unfold allNonEmpty
  split
  · rename_i h
    rw [contains_iff_mem] at h
    simp [Exact, h]
  · rename_i h
    rw [not_or, contains_iff_mem] at h
    simp [Exact, h.1, h.2, ← eq_nil_iff_forall_not_mem]

theorem exact_allNonEmpty_iff {ws : List Bytes} (hkeys : keys ≠ []) :
    Exact (.ok (allNonEmpty ws)) { keys } ↔ [] ∉ keys ∧ ∀ w, w ∈ ws ↔ w ∈ keys := by
  unfold allNonEmpty
  split
  · rename_i h
    rw [contains_iff_mem] at h
    rw [exact_none_iff]
    refine iff_of_false hkeys ?_
    rintro ⟨hempty, hsame⟩
    rcases h with rfl | h
    · exact hkeys (eq_nil_iff_forall_not_mem.mpr fun w hw => by simpa using (hsame w).mpr hw)
    · exact hempty ((hsame []).mp h)
  · rename_i h
    rw [not_or, contains_iff_mem] at h
    simp only [Exact, touches_keys]
    exact ⟨fun hsame => ⟨fun hempty => h.2 ((hsame []).mpr hempty), hsame⟩, fun hsame => hsame.2⟩

variable {rule : Rule}

theorem route_of_none (h : none ∈ args) : rule.route args = .ok none := if_pos h

theorem route_of_strings (h : none ∉ args) : rule.route args = rule.keys (words args) := if_neg h

theorem route_strings {ws : List Bytes} : rule.route (ws.map some) = rule.keys ws := by
  rw [route_of_strings (by simp), words_map_some]

/-- Routing that finds the keys themselves is exact unless one of them is empty. -/
theorem exact_same_iff (hkeys : keys ≠ [])
    (h : none ∉ args → rule.keys (words args) = .ok (allNonEmpty keys)) :
    Exact (rule.route args) { keys } ↔ keys = [] ∨ (none ∉ args ∧ [] ∉ keys) := by
  by_cases hnone : none ∈ args
  · rw [route_of_none hnone, exact_none_iff]
    simp [hnone]
  · rw [route_of_strings hnone, h hnone, exact_allNonEmpty_iff hkeys]
    simp [hkeys, hnone]

theorem wordAt_eq {i : Nat} {ws : List Bytes} {key : Bytes} (h : ws[i]? = some key) :
    wordAt i ws = allNonEmpty [key] := by
  simp [wordAt, allNonEmpty, h, eq_comm]

/-- Routing on the first word. -/
theorem exact_first_iff (hkeys : keys ≠ []) :
    Exact ((Rule.single 0).route args) { keys } ↔
      none ∉ args ∧ (∀ key ∈ keys, ¬ key = [] ∧ (words args).head? = some key) ∧
        TemplatesWithin { keys } ((words args).take 1) := by
  have htemplate : TemplatesWithin { keys } ((words args).take 1) := fun p hp => hp.elim
  obtain ⟨key₀, hkey₀⟩ := exists_mem_of_ne_nil keys hkeys
  by_cases hnone : none ∈ args
  · rw [route_of_none hnone, exact_none_iff]
    simp [hnone, hkeys]
  · rw [route_of_strings hnone]
    simp only [hnone, not_false_eq_true, htemplate, and_true, true_and, Rule.keys]
    cases hws : words args with
    | nil =>
      refine iff_of_false (fun h => hkeys (exact_none_iff.mp h)) fun h => ?_
      simpa using (h key₀ hkey₀).2
    | cons w ws =>
      rw [@wordAt_eq 0 (w :: ws) w rfl, exact_allNonEmpty_iff hkeys]
      simp only [mem_singleton, head?_cons, Option.some.injEq]
      constructor
      · rintro ⟨hempty, hsame⟩ key hkey
        exact ⟨fun he => hempty (he ▸ hkey), ((hsame key).mpr hkey).symm⟩
      · intro hall
        refine ⟨fun hempty => (hall [] hempty).1 rfl, fun key => ⟨?_, ?_⟩⟩
        · rintro rfl
          rwa [← (hall key₀ hkey₀).2] at hkey₀
        · exact fun hkey => (hall key hkey).2.symm

/-- Routing on all words, of which the keys are a part. -/
theorem exact_all_iff (hnil : keys = [] → none ∈ args) (hsub : ∀ key ∈ keys, key ∈ words args) :
    Exact (Rule.all.route args) { keys } ↔
      keys = [] ∨ (none ∉ args ∧ [] ∉ keys ∧ ∀ w ∈ words args, w ∈ keys) := by
  by_cases hkeys : keys = []
  · rw [route_of_none (hnil hkeys), exact_none_iff]
    simp [hkeys]
  · by_cases hnone : none ∈ args
    · rw [route_of_none hnone, exact_none_iff]
      simp [hnone]
    · rw [route_of_strings hnone, Rule.keys, exact_allNonEmpty_iff hkeys]
      simp only [hkeys, hnone, not_false_eq_true, true_and, false_or]
      refine and_congr_right fun _ => forall_congr' fun w => ?_
      exact ⟨Iff.mp, fun h => ⟨h, hsub w⟩⟩

theorem exact_pass_iff : Exact (Rule.pass.route args) { keys } ↔ keys = [] := by
  have h : Rule.pass.route args = .ok none := by simp [Rule.route, Rule.keys]
  rw [h, exact_none_iff]

end Groups

section Handlers

variable {args : List Arg} {r : Reach}

/-- A handler visits some keys, all of them by name. -/
def Keyed (r : Reach) : Prop := ∃ keys, keys ≠ [] ∧ r = { keys }

theorem keyed_keyFirst (h : keyFirst args = some r) : Keyed r := by
  obtain ⟨key, rest, -, rfl⟩ := keyFirst_some h
  exact ⟨[key], by simp, rfl⟩

theorem keyed_set (h : setKey args = some r) : Keyed r := by
  obtain ⟨key, value, options, -, rfl⟩ := setKey_some h
  exact ⟨_, by simp, rfl⟩

theorem keyed_keysTwo (h : keysTwo args = some r) : Keyed r := by
  obtain ⟨a, b, rest, -, rfl⟩ := keysTwo_some h
  exact ⟨[a, b], by simp, rfl⟩

theorem keyed_keysAll (h : keysAll args = some r) : Keyed r := by
  obtain ⟨ws, hne, -, rfl⟩ := keysAll_some h
  exact ⟨ws, hne, rfl⟩

theorem keyed_keysButLast (h : keysButLast args = some r) : Keyed r := by
  obtain ⟨ws, hlen, -, rfl⟩ := keysButLast_some h
  exact ⟨_, ne_nil_of_length_pos (by rw [length_dropLast]; omega), rfl⟩

theorem keyed_numkeysSecond (h : numkeysSecond args = some r) : Keyed r := by
  obtain ⟨timeout, count, rest, keys, -, -, hne, rfl⟩ := numkeysSecond_some h
  exact ⟨keys, hne, rfl⟩

theorem keyed_radius {optionsFrom : Nat} (h : radiusKeys optionsFrom args = some r) : Keyed r := by
  obtain ⟨key, query, store, -, rfl⟩ := radiusKeys_some h
  exact ⟨_, by simp, rfl⟩

theorem Keyed.first_iff (h : Keyed r) :
    Exact ((Rule.single 0).route args) r ↔ FirstOnly args r := by
  obtain ⟨keys, hne, rfl⟩ := h
  exact exact_first_iff hne

theorem Keyed.pass_iff (h : Keyed r) : Exact (Rule.pass.route args) r ↔ r.keys = [] := by
  obtain ⟨keys, hne, rfl⟩ := h
  exact exact_pass_iff

theorem pass_noKeys (h : noKeys args = some r) : Exact (Rule.pass.route args) r ↔ r.keys = [] := by
  obtain rfl := Option.some.inj h
  exact exact_pass_iff

theorem pass_debug (h : debugKey args = some r) : Exact (Rule.pass.route args) r ↔ r.keys = [] := by
  rcases debugKey_some h with rfl | ⟨sub, key, -, rfl⟩
  · exact exact_pass_iff
  · exact exact_pass_iff

theorem all_keyList (h : keyList args = some r) :
    Exact (Rule.all.route args) r ↔ KeysOnly args r := by
  obtain ⟨hargs, rfl⟩ := keyList_some h
  refine exact_all_iff (fun hnil => ?_) fun key hkey => hkey
  by_contra hnone
  rw [← map_some_words hnone, hnil] at hargs
  exact hargs rfl

theorem all_keysAll (h : keysAll args = some r) :
    Exact (Rule.all.route args) r ↔ KeysOnly args r := by
  obtain ⟨ws, hne, rfl, rfl⟩ := keysAll_some h
  exact exact_all_iff (fun hnil => absurd hnil hne) (by simp)

theorem all_bitop (h : bitopKeys args = some r) :
    Exact (Rule.all.route args) r ↔ KeysOnly args r := by
  obtain ⟨op, dst, src, srcs, rfl, rfl⟩ := bitopKeys_some h
  refine exact_all_iff (fun hnil => absurd hnil (by simp)) fun key hkey => ?_
  rw [words_map_some]
  exact mem_cons_of_mem op hkey

theorem all_numkeysFirst (h : numkeysFirst args = some r) :
    Exact (Rule.all.route args) r ↔ KeysOnly args r := by
  obtain ⟨count, rest, keys, rfl, hkeys, hne, rfl⟩ := numkeysFirst_some h
  obtain ⟨n, -, -, -, rfl⟩ := countedKeys_some hkeys
  refine exact_all_iff (fun hnil => absurd hnil hne) fun key hkey => ?_
  rw [words_map_some]
  exact mem_cons_of_mem count (mem_of_mem_take hkey)

theorem same_two (h : keysTwo args = some r) :
    Exact (Rule.two.route args) r ↔ NoneEmpty args r := by
  obtain ⟨a, b, rest, rfl, rfl⟩ := keysTwo_some h
  exact exact_same_iff (by simp) fun _ => rfl

theorem same_smove (h : keysTwo args = some r) :
    Exact (Rule.smove.route args) r ↔ NoneEmpty args r := by
  obtain ⟨a, b, rest, rfl, rfl⟩ := keysTwo_some h
  refine exact_same_iff (by simp) fun _ => ?_
  rfl

/-- Of keys and values in pairs, the keys are found. -/
theorem pairKeys_of_msetnxPairs {ws keys : List Bytes}
    (h : msetnxPairs (ws.map some) = some keys) : pairKeys ws = keys := by
  induction ws using pairKeys.induct generalizing keys with
  | case1 key value rest ih =>
    obtain ⟨keys', hkeys', rfl⟩ := Option.map_eq_some_iff.mp h
    rw [pairKeys, ih hkeys']
  | case2 ws hws =>
    cases ws with
    | nil => simpa [msetnxPairs, pairKeys] using h
    | cons w ws =>
      cases ws with
      | nil => simp [msetnxPairs] at h
      | cons v ws => exact absurd rfl (hws w v ws)

theorem same_msetnx (h : msetnxKeys args = some r) :
    Exact (Rule.pairs.route args) r ↔ NoneEmpty args r := by
  obtain ⟨keys, hne, hkeys, rfl⟩ := msetnxKeys_some h
  refine exact_same_iff hne fun hnone => ?_
  rw [← map_some_words hnone] at hkeys
  rw [Rule.keys, pairKeys_of_msetnxPairs hkeys]

theorem same_mset (h : msetKeys args = some r) :
    Exact (Rule.pairs.route args) r ↔ NoneEmpty args r := by
  obtain ⟨ws, -, h⟩ := Option.bind_eq_some_iff.mp h
  exact same_msetnx h

theorem numbered_of_le (numAt start : Nat) (hstart : start < 2 ^ 63) {ws : List Bytes} {n : Int64}
    (hn : ws[numAt]?.bind parseInt = some n) (hpos : 0 < n) (hle : start + n.toInt ≤ ws.length) :
    numbered numAt start ws = .ok (some ((ws.drop start).take n.toInt.toNat)) := by
  have hsum := toInt_add_le hstart hpos
  have hpos' := Int64.lt_iff_toInt_lt.mp hpos
  simp only [numbered, hn]
  rw [if_neg, if_neg (by omega)]
  rw [Int64.lt_iff_toInt_lt]
  have hzero : (0 : Int64).toInt = 0 := rfl
  have hone : (1 : Int64).toInt = 1 := rfl
  omega

theorem same_numkeys (h : numkeysFirst args = some r) :
    Exact (Rule.numkeys.route args) r ↔ NoneEmpty args r := by
  obtain ⟨count, rest, keys, rfl, hkeys, hne, rfl⟩ := numkeysFirst_some h
  obtain ⟨n, hn, hnonneg, hle, rfl⟩ := countedKeys_some hkeys
  have hpos := pos_of_take_ne_nil hnonneg hne
  refine exact_same_iff hne fun _ => ?_
  have hnumbered := @numbered_of_le 0 1 (by decide) (count :: rest) n (by simpa using hn) hpos
    (by simp; omega)
  have hlen : ¬ (count :: rest).length < 2 := by
    have := Int64.lt_iff_toInt_lt.mp hpos
    have hzero : (0 : Int64).toInt = 0 := rfl
    simp only [length_cons]
    omega
  rw [words_map_some, Rule.keys, numkeysKeys, if_neg hlen, hnumbered]
  rfl

theorem same_zstore (h : Commands.Grammar.zstoreKeys args = some r) :
    Exact (Rule.zstore.route args) r ↔ NoneEmpty args r := by
  obtain ⟨dst, count, rest, keys, rfl, hkeys, hne, rfl⟩ := zstoreKeys_some h
  obtain ⟨n, hn, hnonneg, hle, rfl⟩ := countedKeys_some hkeys
  refine exact_same_iff (by simp) fun _ => ?_
  have hnumbered := @numbered_of_le 1 2 (by decide) (dst :: count :: rest) n
    (by simpa using hn) (pos_of_take_ne_nil hnonneg hne) (by simp; omega)
  rw [words_map_some]
  cases rest with
  | nil => simp at hne
  | cons =>
    rw [Rule.keys, zstoreKeys, hnumbered]
    rfl

theorem same_object (h : objectKey args = some r) :
    Exact ((Rule.single 1).route args) r ↔ NoneEmpty args r := by
  obtain ⟨sub, key, rfl, -, rfl⟩ := objectKey_some h
  exact exact_same_iff (by simp) fun _ => congrArg Except.ok (wordAt_eq rfl)

theorem same_xinfo (h : xinfoKey args = some r) :
    Exact ((Rule.single 1).route args) r ↔ NoneEmpty args r := by
  obtain ⟨sub, key, rest, rfl, -, rfl⟩ := xinfoKey_some h
  exact exact_same_iff (by simp) fun _ => congrArg Except.ok (wordAt_eq rfl)

theorem same_xgroup (h : xgroupKey args = some r) :
    Exact ((Rule.single 1).route args) r ↔ NoneEmpty args r := by
  obtain ⟨sub, key, group, rest, rfl, -, rfl⟩ := xgroupKey_some h
  refine exact_same_iff (by simp) fun hnone => ?_
  cases key with
  | none => simp at hnone
  | some => exact congrArg Except.ok (wordAt_eq rfl)

theorem same_memory (h : memoryKey args = some r) :
    Exact ((Rule.single 1).route args) r ↔ NoneEmpty args r := by
  rcases memoryKey_some h with ⟨sub, rfl, rfl⟩ | ⟨sub, key, rest, rfl, rfl⟩
  · exact iff_of_true (exact_none_iff.mpr rfl) (.inl rfl)
  · refine exact_same_iff (by simp) fun _ => ?_
    exact congrArg Except.ok (wordAt_eq rfl)

theorem same_migrate (h : migrateKey args = some r) :
    Exact ((Rule.single 2).route args) r ↔ NoneEmpty args r := by
  obtain ⟨host, port, key, rest, rfl, rfl⟩ := migrateKey_some h
  refine exact_same_iff (by simp) fun _ => ?_
  exact congrArg Except.ok (wordAt_eq rfl)

theorem same_fcall (h : Commands.Grammar.fcallKeys args = some r) :
    Exact (Rule.fcall.route args) r ↔ NoneEmpty args r := by
  obtain ⟨name, count, rest, keys, rfl, hkeys, rfl⟩ := fcallKeys_some h
  obtain ⟨n, hn, hnonneg, hle, rfl⟩ := countedKeys_some hkeys
  by_cases hzero : n = 0
  · subst hzero
    have hroute : Rule.fcall.route (some name :: some count :: rest) = .ok none := by
      unfold Rule.route
      split
      · rfl
      · simp [Rule.keys, fcallKeys, hn]
    rw [hroute]
    exact iff_of_true (exact_none_iff.mpr rfl) (.inl rfl)
  · have hpos : 0 < n.toInt := by
      have hle := Int64.le_iff_toInt_le.mp hnonneg
      refine lt_of_le_of_ne hle fun he => hzero (Int64.toInt_inj.mp he.symm)
    rw [length_map] at hle
    refine exact_same_iff (ne_nil_of_length_pos ?_) fun hnone => ?_
    · rw [length_take, length_map]
      omega
    · have hrest : (words rest).map some = rest := map_some_words (by simpa using hnone)
      have hmap : rest.map (·.getD []) = words rest := by
        rw [← hrest, map_map, words_map_some]
        exact map_id' _
      rw [hmap, words_some_cons, words_some_cons, Rule.keys]
      simp only [fcallKeys, hn]
      rw [if_neg]
      rw [not_or, not_or, Int64.not_lt, not_lt]
      rw [← hmap, length_map]
      exact ⟨hnonneg, hle, hzero⟩

/-- What is found for a stream command is the first half behind the first `STREAMS`. -/
theorem streamsKeys_append {before rest : List Bytes} {w : Bytes}
    (hbefore : ∀ v ∈ before, reads v "STREAMS" = false) (hw : reads w "STREAMS" = true) :
    streamsKeys (before ++ w :: rest) =
      if rest = [] ∨ rest.length % 2 ≠ 0 then none
      else allNonEmpty (rest.take (rest.length / 2)) := by
  have hdrop : (before ++ w :: rest).dropWhile (fun v => toUpper v != ascii "STREAMS".toList) =
      w :: rest := by
    rw [dropWhile_append_of_pos, dropWhile_cons_of_neg]
    · simpa [reads] using hw
    · intro v hv
      simpa [reads] using hbefore v hv
  rw [streamsKeys, hdrop]

theorem exact_streams_iff {before rest keys : List Bytes} {w : Bytes}
    (hbefore : ∀ v ∈ before, reads v "STREAMS" = false) (hw : reads w "STREAMS" = true)
    (hkeys : keys ≠ []) :
    Exact (.ok (streamsKeys (before ++ w :: rest))) { keys } ↔ [] ∉ keys ∧ FirstHalf rest keys := by
  rw [streamsKeys_append hbefore hw]
  split
  · rename_i hcase
    rw [exact_none_iff]
    refine iff_of_false hkeys ?_
    rintro ⟨-, heven, hsame⟩
    rcases hcase with rfl | hodd
    · exact hkeys (eq_nil_iff_forall_not_mem.mpr fun k hk => by simpa using (hsame k).mpr hk)
    · exact hodd heven
  · rename_i hcase
    rw [not_or, not_not] at hcase
    rw [exact_allNonEmpty_iff hkeys]
    exact and_congr_right fun _ => ⟨fun hsame => ⟨hcase.2, hsame⟩, And.right⟩

private theorem half_ne_nil {rest : List Bytes} (hne : rest ≠ []) (heven : rest.length % 2 = 0) :
    rest.take (rest.length / 2) ≠ [] := by
  have hpos := length_pos_iff.mpr hne
  exact ne_nil_of_length_pos (by rw [length_take]; omega)

theorem same_xread (h : xreadKeys args = some r) :
    Exact (Rule.streams.route args) r ↔ NoneEmpty args r := by
  obtain ⟨before, w, rest, rfl, hw, hbefore, hne, heven, rfl⟩ := xreadKeys_some h
  refine exact_same_iff (half_ne_nil hne heven) fun _ => ?_
  rw [words_map_some, Rule.keys, streamsKeys_append hbefore hw, if_neg (by simp [hne, heven])]

theorem streams_xreadgroup (h : xreadgroupKeys args = some r) :
    Exact (Rule.streams.route args) r ↔
      ([] ∉ r.keys ∧
        match (words args).tail with
        | group :: consumer :: options =>
          if reads group "STREAMS" then FirstHalf (consumer :: options) r.keys
          else if reads consumer "STREAMS" then FirstHalf options r.keys
          else True
        | _ => True) := by
  obtain ⟨kw, group, consumer, before, w, rest, rfl, hkw, hw, hbefore, hne, heven, rfl⟩ :=
    xreadgroupKeys_some h
  have hkw' : reads kw "STREAMS" = false := reads_of_equalFold hkw (by decide)
  have hkeys := half_ne_nil hne heven
  rw [route_strings]
  simp only [words_map_some, tail_cons, Rule.keys]
  split_ifs with hgroup hconsumer
  · exact @exact_streams_iff [kw] _ _ _ (by simpa using hkw') hgroup hkeys
  · have hgroup' := eq_false_of_ne_true hgroup
    exact @exact_streams_iff [kw, group] _ _ _ (by simpa using ⟨hkw', hgroup'⟩) hconsumer hkeys
  · have hgroup' := eq_false_of_ne_true hgroup
    have hconsumer' := eq_false_of_ne_true hconsumer
    refine (@exact_streams_iff (kw :: group :: consumer :: before) _ _ _ ?_ hw hkeys).trans ?_
    · simpa using ⟨hkw', hgroup', hconsumer', hbefore⟩
    · exact and_congr_right fun _ => iff_of_true ⟨heven, fun key => Iff.rfl⟩ trivial

/-- The cases of keys that are counted by the first word. -/
theorem evalKeys_cases {ws : List Bytes} :
    (evalKeys ws = .ok none ∧ ∀ n, ws.head?.bind parseInt = some n → 0 < n →
        (ws.length : Int) < (1 + n).toInt) ∨
      (evalKeys ws = .error .sliceBounds ∧ ∃ n, ws.head?.bind parseInt = some n ∧ 0 < n ∧
        (1 + n).toInt ≤ ws.length ∧ (ws.length : Int) < n.toInt + 1) ∨
      ∃ n, ws.head?.bind parseInt = some n ∧ 0 < n ∧ (1 + n).toInt ≤ ws.length ∧
        n.toInt + 1 ≤ ws.length ∧ evalKeys ws = .ok (allNonEmpty (ws.tail.take n.toInt.toNat)) := by
  rw [head?_eq_getElem?]
  unfold evalKeys numbered
  cases hn : ws[0]?.bind parseInt with
  | none => exact .inl ⟨rfl, by simp⟩
  | some n =>
    have hone : (1 : Int64).toInt = 1 := rfl
    have hzero : (0 : Int64).toInt = 0 := rfl
    simp only [Option.some.injEq, forall_eq', exists_eq_left']
    split_ifs with hsmall hwrap
    · refine .inl ⟨rfl, fun hpos => hsmall.resolve_left ?_⟩
      rw [Int64.lt_iff_toInt_lt] at hpos ⊢
      omega
    all_goals
      rw [not_or, Int64.lt_iff_toInt_lt, not_lt, not_lt] at hsmall
      have hpos : 0 < n := Int64.lt_iff_toInt_lt.mpr (by omega)
    · exact .inr (.inl ⟨rfl, hpos, hsmall.2, by push_cast at hwrap; omega⟩)
    · refine .inr (.inr ⟨hpos, hsmall.2, by push_cast at hwrap; omega, ?_⟩)
      rw [drop_one]
      rfl

theorem exact_evalKeys_iff {ws keys : List Bytes} (hkeys : keys ≠ []) :
    Exact (evalKeys ws) { keys } ↔ [] ∉ keys ∧ CountedBy ws keys := by
  rcases evalKeys_cases with ⟨hkeysOf, hlarge⟩ | ⟨hkeysOf, n, hn, -, -, hlong⟩ |
    ⟨n, hn, hpos, -, hle, hkeysOf⟩
  · rw [hkeysOf, exact_none_iff]
    refine iff_of_false hkeys ?_
    rintro ⟨-, n, hn, hpos, hle, -⟩
    have hsum := @toInt_add_le 1 (by decide) n hpos
    have hlt := hlarge n hn hpos
    push_cast at hsum
    omega
  · rw [hkeysOf]
    refine iff_of_false id ?_
    rintro ⟨-, n', hn', -, hle, -⟩
    obtain rfl : n = n' := Option.some.inj (hn.symm.trans hn')
    omega
  · rw [hkeysOf, exact_allNonEmpty_iff hkeys]
    refine and_congr_right fun _ => ⟨fun hsame => ⟨n, hn, hpos, hle, hsame⟩, ?_⟩
    rintro ⟨n', hn', -, -, hsame⟩
    obtain rfl : n = n' := Option.some.inj (hn.symm.trans hn')
    exact hsame

theorem exact_evalKeys_nil_iff {ws : List Bytes} :
    Exact (evalKeys ws) { keys := [] } ↔ Uncounted ws := by
  rcases evalKeys_cases with ⟨hkeysOf, hlarge⟩ | ⟨hkeysOf, n, hn, hpos, hle, hlong⟩ |
    ⟨n, hn, hpos, hsum, hle, hkeysOf⟩
  · rw [hkeysOf, exact_none_iff]
    exact iff_of_true rfl fun n hn hpos => .inl (hlarge n hn hpos)
  · rw [hkeysOf]
    refine iff_of_false id fun h => ?_
    rcases h n hn hpos with h | ⟨h, -⟩ <;> omega
  · have hne : ¬ ws.tail.take n.toInt.toNat = [] := by
      have hpos' := Int64.lt_iff_toInt_lt.mp hpos
      have hzero : (0 : Int64).toInt = 0 := rfl
      refine ne_nil_of_length_pos ?_
      rw [length_take, length_tail]
      omega
    rw [hkeysOf, exact_allNonEmpty_nil]
    constructor
    · intro h n' hn' _
      obtain rfl : n = n' := Option.some.inj (hn.symm.trans hn')
      exact .inr ⟨hle, h.resolve_left hne⟩
    · intro h
      rcases h n hn hpos with h | ⟨-, h⟩
      · omega
      · exact .inr h

theorem numkeys_numkeysSecond (h : numkeysSecond args = some r) :
    Exact (Rule.numkeys.route args) r ↔ [] ∉ r.keys ∧ CountedBy (words args) r.keys := by
  obtain ⟨timeout, count, rest, keys, rfl, -, hne, rfl⟩ := numkeysSecond_some h
  rw [route_strings, words_map_some, Rule.keys, numkeysKeys]
  exact exact_evalKeys_iff hne

theorem eval_evalKeys (h : Commands.Grammar.evalKeys args = some r) :
    Exact (Rule.eval.route args) r ↔
      if r.keys = [] then Uncounted (words args)
      else [] ∉ r.keys ∧ CountedBy (words args) r.keys := by
  obtain ⟨script, count, rest, keys, rfl, -, rfl⟩ := evalKeys_some h
  rw [route_strings, words_map_some]
  split
  · rename_i hnil
    obtain rfl : keys = [] := hnil
    exact exact_evalKeys_nil_iff
  · rename_i hne
    exact exact_evalKeys_iff hne

theorem two_renamenx (h : renamenxKeys args = some r) :
    Exact (Rule.two.route args) r ↔ if r.keys = [] then [] ∈ words args else [] ∉ r.keys := by
  obtain ⟨src, dst, rfl, rfl⟩ := renamenxKeys_some h
  have hroute : Rule.two.route [some src, some dst] = .ok (allNonEmpty [src, dst]) := by
    simp [Rule.route, Rule.keys]
  rw [hroute]
  by_cases he : src = dst
  · simp only [he, ite_true]
    rw [exact_allNonEmpty_nil]
    simp [words]
  · simp only [he, ite_false]
    rw [exact_allNonEmpty_iff (by simp)]
    simp

theorem first_noKeys (h : noKeys args = some r) :
    Exact ((Rule.single 0).route args) r ↔ none ∈ args ∨ ∀ w ∈ (words args).head?, w = [] := by
  obtain rfl := Option.some.inj h
  by_cases hnone : none ∈ args
  · rw [route_of_none hnone]
    exact iff_of_true (exact_none_iff.mpr rfl) (.inl hnone)
  · rw [route_of_strings hnone, Rule.keys]
    simp only [hnone, false_or]
    cases hws : words args with
    | nil => exact iff_of_true (exact_none_iff.mpr rfl) (by simp)
    | cons w ws =>
      rw [@wordAt_eq 0 (w :: ws) w rfl, exact_allNonEmpty_nil]
      simp [eq_comm]

private theorem any_store (w : Bytes) :
    [ascii "STORE".toList].any (equalFold w) = reads w "STORE" := by
  rw [any_cons, any_nil, Bool.or_false]
  exact equalFold_eq_reads rfl rfl

theorem storeKeys_of_word {options : List Bytes} {dst : Bytes}
    (h : wordAfter [ascii "STORE".toList] options = some dst) :
    storeKeys options = if dst = [] then none else some [dst] := by
  fun_induction wordAfter [ascii "STORE".toList] options with
  | case1 w v rest hw =>
    obtain rfl := Option.some.inj h
    rw [any_store] at hw
    rw [storeKeys, if_pos (beq_iff_eq.mp hw)]
    rfl
  | case2 w v rest hw ih =>
    rw [any_store] at hw
    rw [storeKeys, if_neg fun he => hw (beq_iff_eq.mpr he), ih h]
  | case3 => cases h

theorem storeKeys_of_none {options : List Bytes}
    (h : wordAfter [ascii "STORE".toList] options = none) :
    storeKeys options = if ∀ w ∈ options, reads w "STORE" = false then some [] else none := by
  fun_induction wordAfter [ascii "STORE".toList] options with
  | case1 => cases h
  | case2 w v rest hw ih =>
    rw [any_store] at hw
    rw [storeKeys, if_neg fun he => hw (beq_iff_eq.mpr he), ih h]
    simp [eq_false_of_ne_true hw]
  | case3 options hoptions =>
    cases options with
    | nil => rfl
    | cons w rest =>
      cases rest with
      | cons v rest => exact absurd rfl (hoptions w v rest)
      | nil =>
        rw [storeKeys]
        by_cases hw : toUpper w = ascii "STORE".toList
        · have hreads : reads w "STORE" = true := beq_iff_eq.mpr hw
          rw [if_pos hw, if_neg (by simp [hreads])]
          rfl
        · have hreads : reads w "STORE" = false := beq_false_of_ne hw
          rw [if_neg hw, if_pos (by simpa using hreads)]
          rfl

/-- The keys of a sort are found when they are the sorted key and at most one more. -/
theorem exact_sort_iff {key : Bytes} {store dst : Option Bytes} {template : Bytes → Prop} :
    Exact (.ok (some (key :: dst.toList))) { keys := key :: store.toList, template } ↔
      SortedInto key dst { keys := key :: store.toList, template } := by
  have hwithin := @sort_within_iff (key :: dst.toList) key store template (by simp)
    (by cases dst <;> simp)
  -- a template that stands for one key visits that key
  have htemplate (hin : TemplatesWithin { keys := key :: store.toList, template }
      (key :: dst.toList)) (d : Bytes) :
      (∃ p elem, template p ∧ resolveSortPattern p elem = some d) ↔
        ∃ p, template p ∧ ¬ p = [35] ∧ fixedKey p = some d := by
    constructor
    · rintro ⟨p, elem, hp, hd⟩
      unfold resolveSortPattern at hd
      split at hd
      · cases hd
      · rename_i hne
        obtain ⟨k, -, hk⟩ := (hin p hp).resolve_left hne
        rw [beforeArrow_of_fixedKey hk] at hd
        exact ⟨p, hp, hne, hd ▸ hk⟩
    · rintro ⟨p, hp, hne, hd⟩
      exact ⟨p, [], hp, by rw [resolveSortPattern, if_neg hne, beforeArrow_of_fixedKey hd]⟩
  constructor
  · intro hexact
    have hin := hwithin.mp fun k hk => (hexact k).mpr hk
    refine ⟨hin.1, hin.2, fun d hd => ?_⟩
    have htouched := (hexact d).mp (mem_cons_of_mem _ (Option.mem_toList.mpr hd))
    exact htouched.imp_right (htemplate hin.2 d).mp
  · rintro ⟨hstore, hin, hdst⟩ k
    refine ⟨fun hk => ?_, hwithin.mpr ⟨hstore, hin⟩ k⟩
    rcases mem_cons.mp hk with rfl | hk
    · exact .inl (mem_cons_self ..)
    · exact (hdst k (Option.mem_toList.mp hk)).imp_right (htemplate hin k).mpr

/-- A sort is never unrouted rightly. -/
theorem not_exact_none {key : Bytes} {keys : List Bytes} {template : Bytes → Prop} :
    ¬ Exact (.ok none) { keys := key :: keys, template } :=
  fun h => h key (.inl (mem_cons_self ..))

theorem sort_sortKeys (h : Commands.Grammar.sortKeys false args = some r) :
    Exact (Rule.sort.route args) r ↔
      match words args with
      | key :: options =>
        let dst := wordAfter [ascii "STORE".toList] options
        ¬ key = [] ∧ ¬ dst = some [] ∧
          (dst = none → ∀ w ∈ options, reads w "STORE" = false) ∧ SortedInto key dst r
      | [] => False := by
  obtain ⟨key, options, o, rfl, -, -, rfl⟩ := sortKeys_some h
  rw [route_strings]
  simp only [words_map_some, Rule.keys, sortKeys]
  by_cases hkey : key = []
  · simp only [hkey, ite_true, not_true_eq_false, false_and, iff_false]
    exact not_exact_none
  simp only [hkey, ite_false, not_false_eq_true, true_and]
  cases hdst : wordAfter [ascii "STORE".toList] options with
  | some dst =>
    rw [storeKeys_of_word hdst]
    by_cases hempty : dst = []
    · simp only [hempty, ite_true, Option.map_none, not_true_eq_false, false_and, iff_false]
      exact not_exact_none
    · simpa [hempty] using @exact_sort_iff key o.store (some dst) _
  | none =>
    rw [storeKeys_of_none hdst]
    by_cases hstore : ∀ w ∈ options, reads w "STORE" = false
    · rw [if_pos hstore]
      refine (@exact_sort_iff key o.store none _).trans ?_
      exact ⟨fun hsorted => ⟨by simp, fun _ => hstore, hsorted⟩, fun hall => hall.2.2⟩
    · simp only [hstore, ite_false, Option.map_none, reduceCtorEq, not_false_eq_true, true_and,
        forall_const, false_and, iff_false]
      exact not_exact_none

theorem first_sort_ro (h : Commands.Grammar.sortKeys true args = some r) :
    Exact ((Rule.single 0).route args) r ↔ FirstOnly args r := by
  obtain ⟨key, options, o, rfl, -, hstore, rfl⟩ := sortKeys_some h
  have hwithin := @exact_sort_iff key o.store none
    fun p => o.sortBy = some p ∨ (p ∈ o.gets ∧ o.Yields)
  rw [route_strings, Rule.keys]
  by_cases hkey : key = []
  · have hword : wordAt 0 (key :: options) = none := by simp [wordAt, hkey]
    rw [hword]
    refine iff_of_false not_exact_none fun hfirst => ?_
    exact (hfirst.2.1 key (mem_cons_self ..)).1 hkey
  · have hword : wordAt 0 (key :: options) = some [key] := by simp [wordAt, hkey]
    rw [hword]
    refine hwithin.trans ?_
    simp [SortedInto, FirstOnly, hstore rfl, hkey]

end Handlers

end Gedis.Cluster
