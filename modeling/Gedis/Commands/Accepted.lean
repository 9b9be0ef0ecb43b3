import Gedis.Commands.Grammar

/-!
# What an accepted argument vector looks like

For each way of reading arguments: the form of the vectors that the handler accepts, and the keys
that it visits.
-/

namespace Gedis.Commands.Grammar

open Gedis.Core Protocol Acl List Option

variable {ws rest keys listed : List Bytes} {name : String} {w key p : Bytes} {args : List Arg}

theorem strings_eq_some : strings args = some ws ↔ args = ws.map some := by
  induction args generalizing ws with
  | nil => cases ws <;> simp [strings]
  | cons a rest ih =>
    cases a with
    | none => cases ws <;> simp [strings]
    | some w =>
      simp only [strings, map_eq_some_iff]
      constructor
      · rintro ⟨ws', h, rfl⟩
        simp [ih.mp h]
      · intro h
        cases ws with
        | nil => cases h
        | cons w' ws' =>
          obtain ⟨rfl, hrest⟩ : w = w' ∧ rest = ws'.map some := by simpa using h
          exact ⟨ws', ih.mpr hrest, rfl⟩

theorem strings_eq_none : strings args = none ↔ none ∈ args := by
  induction args with
  | nil => simp [strings]
  | cons a rest ih => cases a <;> simp [strings, ih]

@[simp] theorem words_none_cons {rest : List Arg} : words (none :: rest) = words rest := rfl

@[simp] theorem words_some_cons {rest : List Arg} : words (some w :: rest) = w :: words rest := rfl

@[simp] theorem words_map_some : words (ws.map some) = ws := by
  simp [words]

theorem map_some_words (h : none ∉ args) : (words args).map some = args := by
  induction args with
  | nil => rfl
  | cons a rest ih =>
    cases a with
    | none => simp at h
    | some => simpa using ih (by simpa using h)

/-- Comparing in capitals and comparing by case folding agree for a word of capitals without `I`
and `K`. -/
theorem equalFold_eq_reads (hname : foldCase (ascii name.toList) = ascii name.toList)
    (hletters : ((ascii name.toList).all fun b => b < 128 ∧ ¬ b = 73 ∧ ¬ b = 75) = true) :
    equalFold w (ascii name.toList) = reads w name := by
  replace hletters : ∀ b ∈ ascii name.toList, b < 128 ∧ ¬ b = 73 ∧ ¬ b = 75 := by
    simpa using hletters
  unfold equalFold reads
  rw [hname, Bool.eq_iff_iff, beq_iff_eq, beq_iff_eq]
  constructor
  · intro h
    rw [toUpper_of_foldCase, h]
    · exact fun b hb => (hletters b (h ▸ hb)).1
    · exact fun b hb => (hletters b (h ▸ hb)).2.2
  · intro h
    rw [foldCase_of_toUpper, h]
    · exact fun b hb => (hletters b (h ▸ hb)).1
    · exact fun b hb => (hletters b (h ▸ hb)).2.1

theorem equalFold_streams : equalFold w (ascii "STREAMS".toList) = reads w "STREAMS" :=
  equalFold_eq_reads rfl rfl

theorem reads_eq_false {name' : String} (h : reads w name = true)
    (hne : ¬ ascii name.toList = ascii name'.toList) : reads w name' = false := by
  unfold reads at h ⊢
  rw [beq_iff_eq.mp h]
  exact beq_false_of_ne hne

theorem reads_of_equalFold (h : equalFold w (ascii name.toList) = true)
    (hne : ¬ foldCase (ascii name.toList) = foldCase (ascii "STREAMS".toList)) :
    reads w "STREAMS" = false := by
  rw [← equalFold_streams]
  unfold equalFold at h ⊢
  rw [beq_iff_eq.mp h]
  exact beq_false_of_ne hne

/-- A number starts with a sign or a digit. -/
theorem head_of_parseInt (h : (parseInt w).isSome) : ∃ b rest, w = b :: rest ∧ b < 65 := by
  cases w with
  | nil => cases h
  | cons b rest =>
    refine ⟨b, rest, rfl, ?_⟩
    by_cases hplus : b = 43
    · rw [hplus]
      decide
    by_cases hminus : b = 45
    · rw [hminus]
      decide
    by_contra hb
    have hdigits : parseDigits 0 (b :: rest) = none := by
      rw [parseDigits, if_neg]
      rw [UInt8.lt_iff_toNat_lt] at hb
      simp only [UInt8.reduceToNat] at hb
      omega
    simp [parseInt, hplus, hminus, hdigits] at h

theorem reads_of_parseInt (h : (parseInt w).isSome) : reads w "STREAMS" = false := by
  obtain ⟨b, rest, rfl, hb⟩ := head_of_parseInt h
  have hb' : b < 128 := UInt8.lt_of_lt_of_le hb (by decide)
  have hupper : upperByte b = b := by
    unfold upperByte
    rw [if_neg]
    intro hle
    exact absurd (UInt8.lt_of_le_of_lt hle.1 hb) (by decide)
  unfold reads
  rw [toUpper_cons hb', hupper]
  refine beq_false_of_ne fun he => ?_
  have hhead : b = 83 := some.inj (congrArg head? he)
  rw [hhead] at hb
  exact absurd hb (by decide)

section Accepted

variable {args : List Arg} {r : Reach}

theorem keyFirst_some (h : keyFirst args = some r) :
    ∃ key rest, args = some key :: rest ∧ r = { keys := [key] } := by
  unfold keyFirst at h
  split at h
  · exact ⟨_, _, rfl, (some.inj h).symm⟩
  · cases h

theorem setKey_some (h : setKey args = some r) :
    ∃ key value options, args = key :: (value :: options).map some ∧
      r = { keys := [key.getD []] } := by
  unfold setKey at h
  split at h
  · rename_i key v options
    obtain ⟨ws, hws, h⟩ := bind_eq_some_iff.mp h
    cases ws with
    | nil => exact absurd (strings_eq_some.mp hws) (by simp)
    | cons value options' =>
      exact ⟨key, value, options', by rw [strings_eq_some.mp hws], (some.inj h).symm⟩
  · cases h

theorem keyList_some (h : keyList args = some r) : args ≠ [] ∧ r = { keys := words args } := by
  unfold keyList at h
  split at h
  · cases h
  · exact ⟨‹_›, (some.inj h).symm⟩

private theorem bind_strings {f : List Bytes → Option Reach}
    (h : (strings args >>= f) = some r) : ∃ ws, args = ws.map some ∧ f ws = some r := by
  obtain ⟨ws, hws, h⟩ := bind_eq_some_iff.mp h
  exact ⟨ws, strings_eq_some.mp hws, h⟩

theorem keysAll_some (h : keysAll args = some r) :
    ∃ ws, ws ≠ [] ∧ args = ws.map some ∧ r = { keys := ws } := by
  obtain ⟨ws, rfl, hf⟩ := bind_strings h
  split at hf
  · cases hf
  · exact ⟨ws, ‹_›, rfl, (some.inj hf).symm⟩

theorem keysTwo_some (h : keysTwo args = some r) :
    ∃ a b rest, args = some a :: some b :: rest ∧ r = { keys := [a, b] } := by
  unfold keysTwo at h
  split at h
  · exact ⟨_, _, _, rfl, (some.inj h).symm⟩
  · cases h

theorem renamenxKeys_some (h : renamenxKeys args = some r) :
    ∃ src dst, args = [some src, some dst] ∧
      r = { keys := if src = dst then [] else [src, dst] } := by
  unfold renamenxKeys at h
  split at h
  · exact ⟨_, _, rfl, (some.inj h).symm⟩
  · cases h

theorem msetnxKeys_some (h : msetnxKeys args = some r) :
    ∃ keys, keys ≠ [] ∧ msetnxPairs args = some keys ∧ r = { keys } := by
  obtain ⟨keys, hkeys, h⟩ := bind_eq_some_iff.mp h
  split at h
  · cases h
  · exact ⟨keys, ‹_›, hkeys, (some.inj h).symm⟩

theorem msetnxPairs_strings (h : msetnxPairs (ws.map some) = some keys) : keys = evens ws := by
  induction ws using evens.induct generalizing keys with
  | case1 a b rest ih =>
    obtain ⟨keys', hkeys', rfl⟩ := map_eq_some_iff.mp h
    rw [evens, ih hkeys']
  | case2 => simp [msetnxPairs] at h
  | case3 => simpa [msetnxPairs, evens] using h.symm

theorem msetKeys_some (h : msetKeys args = some r) :
    ∃ ws, args = ws.map some ∧ evens ws ≠ [] ∧ r = { keys := evens ws } := by
  obtain ⟨ws, rfl, hf⟩ := bind_strings h
  obtain ⟨keys, hne, hkeys, rfl⟩ := msetnxKeys_some hf
  obtain rfl := msetnxPairs_strings hkeys
  exact ⟨ws, rfl, hne, rfl⟩

theorem bitopKeys_some (h : bitopKeys args = some r) :
    ∃ op dst src srcs, args = (op :: dst :: src :: srcs).map some ∧
      r = { keys := dst :: src :: srcs } := by
  obtain ⟨ws, rfl, hf⟩ := bind_strings h
  split at hf
  · exact ⟨_, _, _, _, rfl, (some.inj hf).symm⟩
  · cases hf

theorem migrateKey_some (h : migrateKey args = some r) :
    ∃ host port key rest, args = (host :: port :: key :: rest).map some ∧
      r = { keys := [key] } := by
  obtain ⟨ws, rfl, hf⟩ := bind_strings h
  split at hf
  · exact ⟨_, _, _, _, rfl, (some.inj hf).symm⟩
  · cases hf

theorem keysButLast_some (h : keysButLast args = some r) :
    ∃ ws : List Bytes, 2 ≤ ws.length ∧ args = ws.map some ∧ r = { keys := ws.dropLast } := by
  obtain ⟨ws, rfl, hf⟩ := bind_strings h
  split at hf
  · cases hf
  · exact ⟨ws, by omega, rfl, (some.inj hf).symm⟩

theorem countedKeys_some {count : Bytes} (h : countedKeys count rest = some keys) :
    ∃ n, parseInt count = some n ∧ 0 ≤ n ∧ n.toInt ≤ rest.length ∧
      keys = rest.take n.toInt.toNat := by
  obtain ⟨n, hn, h⟩ := bind_eq_some_iff.mp h
  split at h
  · cases h
  · rename_i hbound
    rw [not_or, Int64.not_lt, not_lt] at hbound
    exact ⟨n, hn, hbound.1, hbound.2, (some.inj h).symm⟩

theorem pos_of_take_ne_nil {n : Int64} (hn : 0 ≤ n) (h : rest.take n.toInt.toNat ≠ []) : 0 < n := by
  rw [Int64.lt_iff_toInt_lt]
  have hle := Int64.le_iff_toInt_le.mp hn
  refine lt_of_le_of_ne hle fun he => h ?_
  rw [← he]
  rfl

theorem numkeysFirst_some (h : numkeysFirst args = some r) :
    ∃ count rest keys, args = (count :: rest).map some ∧ countedKeys count rest = some keys ∧
      keys ≠ [] ∧ r = { keys } := by
  obtain ⟨ws, rfl, hf⟩ := bind_strings h
  split at hf
  · obtain ⟨keys, hkeys, hf⟩ := bind_eq_some_iff.mp hf
    split at hf
    · cases hf
    · exact ⟨_, _, keys, rfl, hkeys, ‹_›, (some.inj hf).symm⟩
  · cases hf

theorem numkeysSecond_some (h : numkeysSecond args = some r) :
    ∃ timeout count rest keys, args = (timeout :: count :: rest).map some ∧
      countedKeys count rest = some keys ∧ keys ≠ [] ∧ r = { keys } := by
  obtain ⟨ws, rfl, hf⟩ := bind_strings h
  split at hf
  · obtain ⟨keys, hkeys, hf⟩ := bind_eq_some_iff.mp hf
    split at hf
    · cases hf
    · exact ⟨_, _, _, keys, rfl, hkeys, ‹_›, (some.inj hf).symm⟩
  · cases hf

theorem zstoreKeys_some (h : zstoreKeys args = some r) :
    ∃ dst count rest keys, args = (dst :: count :: rest).map some ∧
      countedKeys count rest = some keys ∧ keys ≠ [] ∧ r = { keys := dst :: keys } := by
  obtain ⟨ws, rfl, hf⟩ := bind_strings h
  split at hf
  · obtain ⟨keys, hkeys, hf⟩ := bind_eq_some_iff.mp hf
    split at hf
    · cases hf
    · exact ⟨_, _, _, keys, rfl, hkeys, ‹_›, (some.inj hf).symm⟩
  · cases hf

theorem evalKeys_some (h : evalKeys args = some r) :
    ∃ script count rest keys, args = (script :: count :: rest).map some ∧
      countedKeys count rest = some keys ∧ r = { keys } := by
  obtain ⟨ws, rfl, hf⟩ := bind_strings h
  split at hf
  · obtain ⟨keys, hkeys, hf⟩ := bind_eq_some_iff.mp hf
    exact ⟨_, _, _, keys, rfl, hkeys, (some.inj hf).symm⟩
  · cases hf

theorem fcallKeys_some (h : fcallKeys args = some r) :
    ∃ name count rest keys, args = some name :: some count :: rest ∧
      countedKeys count (rest.map (·.getD [])) = some keys ∧ r = { keys } := by
  unfold fcallKeys at h
  split at h
  · obtain ⟨keys, hkeys, h⟩ := bind_eq_some_iff.mp h
    exact ⟨_, _, _, keys, rfl, hkeys, (some.inj h).symm⟩
  · cases h

theorem streamKeys_some (h : streamKeys rest = some r) :
    rest ≠ [] ∧ rest.length % 2 = 0 ∧ r = { keys := rest.take (rest.length / 2) } := by
  unfold streamKeys at h
  split at h
  · cases h
  · rename_i hlen
    rw [not_or, not_not] at hlen
    exact ⟨ne_nil_of_length_pos (by omega), hlen.2, (some.inj h).symm⟩

/-- The first `STREAMS` among words is followed by the rest. -/
def StreamsAt (ws rest : List Bytes) : Prop :=
  ∃ before w, ws = before ++ w :: rest ∧ reads w "STREAMS" = true ∧
    ∀ v ∈ before, reads v "STREAMS" = false

theorem StreamsAt.head (h : reads w "STREAMS" = true) : StreamsAt (w :: rest) rest :=
  ⟨[], w, rfl, h, by simp⟩

theorem StreamsAt.cons (h : StreamsAt ws rest) (hw : reads w "STREAMS" = false) :
    StreamsAt (w :: ws) rest := by
  obtain ⟨before, x, rfl, hx, hbefore⟩ := h
  exact ⟨w :: before, x, rfl, hx, forall_mem_cons.mpr ⟨hw, hbefore⟩⟩

theorem xreadRest_some (h : xreadRest ws = some rest) : StreamsAt ws rest := by
  fun_induction xreadRest ws with
  | case1 | case3 | case5 | case7 | case9 => cases h
  | case2 w hw =>
    cases h
    exact .head hw
  | case4 w v rest' hw hv ih =>
    exact ((ih h).cons (reads_of_parseInt hv)).cons (reads_eq_false hw (by decide))
  | case6 w v rest' _ hw hv ih =>
    refine ((ih h).cons (reads_of_parseInt (isSome_of_any hv))).cons ?_
    exact reads_eq_false hw (by decide)
  | case8 w v rest' _ _ hw =>
    cases h
    exact .head hw

theorem xreadKeys_some (h : xreadKeys args = some r) :
    ∃ before w rest, args = (before ++ w :: rest).map some ∧ reads w "STREAMS" = true ∧
      (∀ v ∈ before, reads v "STREAMS" = false) ∧ rest ≠ [] ∧ rest.length % 2 = 0 ∧
      r = { keys := rest.take (rest.length / 2) } := by
  obtain ⟨ws, rfl, hf⟩ := bind_strings h
  obtain ⟨rest, hrest, hkeys⟩ := bind_eq_some_iff.mp hf
  obtain ⟨before, w, rfl, hw, hbefore⟩ := xreadRest_some hrest
  obtain ⟨hne, heven, rfl⟩ := streamKeys_some hkeys
  exact ⟨before, w, rest, rfl, hw, hbefore, hne, heven, rfl⟩

theorem xreadgroupRest_some (h : xreadgroupRest ws = some rest) : StreamsAt ws rest := by
  fun_induction xreadgroupRest ws with
  | case1 | case4 | case6 | case8 | case9 => cases h
  | case2 w rest' hw =>
    cases h
    exact .head (equalFold_streams ▸ hw)
  | case3 w rest' hw _ ih => exact (ih h).cons (eq_false_of_ne_true (equalFold_streams ▸ hw))
  | case5 w hw _ v rest' _ hv ih =>
    refine ((ih h).cons (reads_of_parseInt hv)).cons ?_
    exact eq_false_of_ne_true (equalFold_streams ▸ hw)
  | case7 w hw _ v rest' _ _ hv ih =>
    refine ((ih h).cons (reads_of_parseInt (isSome_of_any hv))).cons ?_
    exact eq_false_of_ne_true (equalFold_streams ▸ hw)

theorem xreadgroupKeys_some (h : xreadgroupKeys args = some r) :
    ∃ kw group consumer before w rest,
      args = (kw :: group :: consumer :: (before ++ w :: rest)).map some ∧
      equalFold kw (ascii "GROUP".toList) = true ∧ reads w "STREAMS" = true ∧
      (∀ v ∈ before, reads v "STREAMS" = false) ∧ rest ≠ [] ∧ rest.length % 2 = 0 ∧
      r = { keys := rest.take (rest.length / 2) } := by
  obtain ⟨ws, rfl, hf⟩ := bind_strings h
  split at hf
  · rename_i kw group consumer options
    split at hf
    · rename_i hkw
      obtain ⟨rest, hrest, hkeys⟩ := bind_eq_some_iff.mp hf
      obtain ⟨before, w, rfl, hw, hbefore⟩ := xreadgroupRest_some hrest
      obtain ⟨hne, heven, rfl⟩ := streamKeys_some hkeys
      exact ⟨kw, group, consumer, before, w, rest, rfl, hkw, hw, hbefore, hne, heven, rfl⟩
    · cases hf
  · cases hf

theorem objectKey_some (h : objectKey args = some r) :
    ∃ sub key, args = [some sub, some key] ∧ reads sub "HELP" = false ∧ r = { keys := [key] } := by
  unfold objectKey at h
  split at h
  · rename_i sub key
    split at h
    · rename_i hsub
      refine ⟨sub, key, rfl, ?_, (some.inj h).symm⟩
      rcases hsub with hsub | hsub | hsub | hsub <;> exact reads_eq_false hsub (by decide)
    · cases h
  · cases h

theorem xinfoKey_some (h : xinfoKey args = some r) :
    ∃ sub key rest, args = some sub :: some key :: rest ∧ reads sub "HELP" = false ∧
      r = { keys := [key] } := by
  unfold xinfoKey at h
  split at h
  · rename_i sub key rest
    split at h
    · rename_i hsub
      refine ⟨sub, key, rest, rfl, ?_, (some.inj h).symm⟩
      rcases hsub with hsub | hsub | hsub <;> exact reads_eq_false hsub (by decide)
    · cases h
  · cases h

theorem xgroupKey_some (h : xgroupKey args = some r) :
    ∃ sub key group rest, args = some sub :: key :: some group :: rest ∧
      reads sub "HELP" = false ∧ r = { keys := [key.getD []] } := by
  unfold xgroupKey at h
  split at h
  · rename_i sub key group rest
    split at h
    · rename_i hsub
      obtain ⟨k, rfl, rfl⟩ := map_eq_some_iff.mp h
      refine ⟨sub, some k, group, rest, rfl, ?_, rfl⟩
      rcases hsub with hsub | hsub | hsub <;> exact reads_eq_false hsub (by decide)
    · split at h
      · rename_i hsub
        split at h
        · refine ⟨sub, key, group, _, rfl, ?_, (some.inj h).symm⟩
          rcases hsub with hsub | hsub <;> exact reads_eq_false hsub (by decide)
        · cases h
      · cases h
  · cases h

theorem memoryKey_some (h : memoryKey args = some r) :
    (∃ sub, args = [some sub] ∧ r = { keys := [] }) ∨
      ∃ sub key rest, args = (sub :: key :: rest).map some ∧ r = { keys := [key] } := by
  unfold memoryKey at h
  split at h
  · split at h
    · exact .inl ⟨_, rfl, (some.inj h).symm⟩
    · cases h
  · split at h
    · exact .inr ⟨_, _, [], rfl, (some.inj h).symm⟩
    · cases h
  · split at h
    · exact .inr ⟨_, _, [_, _], rfl, (some.inj h).symm⟩
    · cases h
  · cases h

theorem debugKey_some (h : debugKey args = some r) :
    r = { keys := [] } ∨ ∃ sub key, args = [some sub, some key] ∧ r = { keys := [key] } := by
  unfold debugKey at h
  split at h
  · split at h
    · exact .inl (some.inj h).symm
    · cases h
  · split at h
    · exact .inl (some.inj h).symm
    · split at h
      · obtain ⟨key, rfl, rfl⟩ := map_eq_some_iff.mp h
        exact .inr ⟨_, key, rfl, rfl⟩
      · cases h
  · cases h

theorem radiusKeys_some {optionsFrom : Nat} (h : radiusKeys optionsFrom args = some r) :
    ∃ key query store, args = (key :: query).map some ∧
      r = { keys := key :: Option.toList store } := by
  obtain ⟨ws, rfl, hf⟩ := bind_strings h
  split at hf
  · split at hf
    · cases hf
    · obtain ⟨store, -, hr⟩ := bind_eq_some_iff.mp hf
      exact ⟨_, _, store, rfl, (some.inj hr).symm⟩
  · cases hf

theorem sortKeys_some {readOnly : Bool} (h : sortKeys readOnly args = some r) :
    ∃ key options o, args = (key :: options).map some ∧
      parseSortOptions {} options = some o ∧ (readOnly = true → o.store = none) ∧
      r = {
        keys := key :: o.store.toList
        template := fun p => o.sortBy = some p ∨ (p ∈ o.gets ∧ o.Yields) } := by
  obtain ⟨ws, rfl, hf⟩ := bind_strings h
  split at hf
  · obtain ⟨o, ho, hr⟩ := bind_eq_some_iff.mp hf
    split at hr
    · cases hr
    · rename_i hstore
      refine ⟨_, _, o, rfl, ho, fun hro => ?_, (some.inj hr).symm⟩
      simpa [hro] using hstore
  · cases hf

end Accepted

@[simp] theorem touches_keys : ({ keys } : Reach).Touches key ↔ key ∈ keys := by
  simp [Reach.Touches]

/-- The key that a template of `SORT` stands for whatever the element: none if it has a `*` that
no `->` precedes. -/
def fixedKey : Bytes → Option Bytes
  | [] => some []
  | 45 :: 62 :: _ => some []
  | 42 :: _ => none
  | b :: bs => (fixedKey bs).map (b :: ·)

/-- The templates of `SORT` stand for the given keys only. -/
def TemplatesWithin (r : Reach) (keys : List Bytes) : Prop :=
  ∀ p, r.template p → p = [35] ∨ ∃ key ∈ keys, fixedKey p = some key

private theorem beforeArrow_cons {b : UInt8} {bs : Bytes} (h : ¬ (b = 45 ∧ bs.head? = some 62)) :
    beforeArrow (b :: bs) = b :: beforeArrow bs := by
  rw [beforeArrow]
  rintro bs' rfl rfl
  exact h ⟨rfl, rfl⟩

private theorem head?_fillStar {elem bs : Bytes} (h : bs.head? ≠ some 42) :
    (fillStar elem bs).head? = bs.head? := by
  cases bs with
  | nil => rfl
  | cons b =>
    have hb : b ≠ 42 := fun he => h (by rw [he]; rfl)
    rw [fillStar, if_neg hb]
    rfl

/-- A template without a free `*` stands for one key. -/
theorem beforeArrow_of_fixedKey (h : fixedKey p = some key) {elem : Bytes} :
    beforeArrow (fillStar elem p) = key := by
  fun_induction fixedKey p generalizing key with
  | case1 => exact some.inj h
  | case2 bs => exact some.inj h
  | case3 bs => cases h
  | case4 b bs harrow hb ih =>
    obtain ⟨key', hkey', rfl⟩ := map_eq_some_iff.mp h
    have hstar : bs.head? ≠ some 42 := by
      intro hhead
      obtain ⟨bs', rfl⟩ := head?_eq_some_iff.mp hhead
      cases hkey'
    rw [fillStar, if_neg hb, beforeArrow_cons, ih hkey']
    rw [head?_fillStar hstar]
    rintro ⟨rfl, hhead⟩
    obtain ⟨bs', rfl⟩ := head?_eq_some_iff.mp hhead
    exact harrow bs' rfl rfl

/-- A template with a free `*` keeps the element behind a fixed beginning. -/
theorem beforeArrow_of_free (h : fixedKey p = none) : ∃ start, ∀ c : UInt8, c ≠ 45 → c ≠ 62 →
      ∃ rest, beforeArrow (fillStar [c] p) = start ++ c :: rest := by
  fun_induction fixedKey p with
  | case1 => cases h
  | case2 bs => cases h
  | case3 bs =>
    refine ⟨[], fun c hc _ => ⟨beforeArrow bs, ?_⟩⟩
    exact beforeArrow_cons fun he => hc he.1
  | case4 b bs harrow hb ih =>
    obtain ⟨start, hstart⟩ := ih (map_eq_none_iff.mp h)
    refine ⟨b :: start, fun c hc hc' => ?_⟩
    obtain ⟨rest, hrest⟩ := hstart c hc hc'
    refine ⟨rest, ?_⟩
    rw [fillStar, if_neg hb, beforeArrow_cons, hrest]
    · rfl
    · rintro ⟨rfl, hhead⟩
      cases bs with
      | nil => cases hhead
      | cons d bs =>
        rw [fillStar] at hhead
        split at hhead
        · exact hc' (some.inj hhead)
        · obtain rfl : d = 62 := some.inj hhead
          exact harrow bs rfl rfl

/-- A template stays within at most two keys only if it is the element or stands for one of
them. -/
theorem template_within_iff (hlen : listed.length ≤ 2) :
    (∀ elem key, resolveSortPattern p elem = some key → key ∈ listed) ↔
      (p = [35] ∨ ∃ key ∈ listed, fixedKey p = some key) := by
  unfold resolveSortPattern
  by_cases hp : p = [35]
  · simp [hp]
  simp only [hp, ite_false, some.injEq, forall_eq', false_or]
  cases hfixed : fixedKey p with
  | some => simp [beforeArrow_of_fixedKey hfixed]
  | none =>
    simp only [reduceCtorEq, and_false, exists_false, iff_false]
    intro hall
    obtain ⟨start, hstart⟩ := beforeArrow_of_free hfixed
    obtain ⟨r₁, h₁⟩ := hstart 97 (by decide) (by decide)
    obtain ⟨r₂, h₂⟩ := hstart 98 (by decide) (by decide)
    obtain ⟨r₃, h₃⟩ := hstart 99 (by decide) (by decide)
    have hnodup : [start ++ 97 :: r₁, start ++ 98 :: r₂, start ++ 99 :: r₃].Nodup := by simp
    have hsub : [start ++ 97 :: r₁, start ++ 98 :: r₂, start ++ 99 :: r₃] ⊆ listed := by
      rw [← h₁, ← h₂, ← h₃]
      simp only [cons_subset, nil_subset, and_true]
      exact ⟨hall [97], hall [98], hall [99]⟩
    have hle := hnodup.length_le_of_subset hsub
    simp only [length_cons, length_nil] at hle
    omega

/-- What a sort visits is within at most two listed keys. -/
theorem sort_within_iff {store : Option Bytes} {template : Bytes → Prop} (hkey : key ∈ listed)
    (hlen : listed.length ≤ 2) :
    (∀ k, ({ keys := key :: store.toList, template } : Reach).Touches k → k ∈ listed) ↔
      (∀ dst ∈ store.toList, dst ∈ listed) ∧
        ∀ p, template p → p = [35] ∨ ∃ k ∈ listed, fixedKey p = some k := by
  simp only [← template_within_iff hlen, Reach.Touches]
  constructor
  · intro hall
    exact ⟨fun dst hdst => hall dst (.inl (mem_cons_of_mem _ hdst)),
      fun p hp elem k hk => hall k (.inr ⟨p, elem, hp, hk⟩)⟩
  · rintro ⟨hstore, htemplate⟩ k (hk | ⟨p, elem, hp, hk⟩)
    · rcases mem_cons.mp hk with rfl | hk
      · exact hkey
      · exact hstore k hk
    · exact htemplate p hp elem k hk

end Gedis.Commands.Grammar
