import Gedis.Commands.Effects

/-!
# Hash commands keep the records sound

Between the two writes of a hash command the field deadlines may name fields that the hash
has lost. A hash state says what holds there: every other key is sound and the hash has a
known set of fields. The second write, of the field deadlines, makes the key sound again.
-/

namespace Gedis.Commands

open Gedis.Core Datastruct Storage Std Prog

variable {S : Prop} {T : Int64 → Prop} {m m' : OrdMap Bytes Bytes} {key payload f field : Bytes}
  {fields exp sidecar : Fields} {expiry : Int64} {fs : List Bytes} {s : HexpireState}
  {pairs : List (Bytes × Bytes)} {cond : ExpireCond} {kind : ExpireKind}

/-- The fields named by the field deadlines of a key. -/
def sidecarFields (m : OrdMap Bytes Bytes) (key : Bytes) : Fields :=
  (entryAt m (hashExpKey key)).elim ∅ fieldsOf

theorem wp_readFieldExp {post : Fields → OrdMap Bytes Bytes → Prop} :
    (readFieldExp key).wp (Answers S T) post m ↔ post (sidecarFields m key) m := by
  rw [readFieldExp, wp_bind, wp_get, sidecarFields, entryAt]
  cases m[hashExpKey key]? with
  | none => rfl
  | some raw =>
    simp only [Option.bind_some]
    cases decode raw with
    | none => rfl
    | some e =>
      simp only [Option.elim_some, fieldsOf]
      cases decodeHash e.payload with
      | error => rfl
      | ok => rfl

/-- A hash is stored with known fields and all other keys are sound; the field deadlines name
something, but not necessarily fields of the hash. -/
structure HashState (S : Prop) (m : OrdMap Bytes Bytes) (key : Bytes) (fields : Fields) :
    Prop where
  others : ∀ key' ≠ key, Sound S m key'
  ofType : OfType m key typeHash
  named : S → ∃ e, entryAt m (hashKey key) = some e ∧ e.typ = typeHash ∧ fieldsOf e = fields
  nonempty : S → ∀ e, entryAt m (hashExpKey key) = some e → (fieldsOf e).isEmpty = false

/-- A hash state whose field deadlines name fields of the hash. -/
theorem HashState.inv (h : HashState S m key fields)
    (hsub : S → ∀ f ∈ sidecarFields m key, f ∈ fields) : Inv S m := by
  refine Inv.of_others h.others (fun _ _ _ => rfl) ⟨⟨_, h.ofType⟩, fun hS e he _ => ?_⟩
  obtain ⟨e', he', ht', rfl⟩ := h.named hS
  refine ⟨h.nonempty hS e he, e', he', ht', fun f hf => hsub hS f ?_⟩
  rw [sidecarFields, he]
  exact hf

/-- A sound key whose hash was read is in a hash state. -/
theorem Inv.hashState (h : Inv S m) {p : Prefix} {e : Entry} (hp : probe m key = some p)
    (he : entryAt m (rawKey p key) = some e) (ht : e.typ = typeHash) :
    HashState S m key (fieldsOf e) := by
  obtain ⟨hof, hfit, hx⟩ := h.first hp he
  rw [ht] at hof hfit
  refine ⟨fun key' _ => h key', hof, fun hS => ⟨e, ?_, ht, rfl⟩, fun hS x hxe => ?_⟩
  · -- under the stronger invariant the record found is the hash, not its field deadlines
    rcases fits_typeHash hfit with rfl | rfl
    · exact he
    · obtain ⟨-, e', he', -⟩ := (h key).covers hS e he ht
      rw [entryAt, hx rfl] at he'
      cases he'
  · exact ((h key).covers hS x hxe (hof.entry hxe).1).1

theorem length_lt_of_encode {t : UInt8} {n : Nat} (h : (encode t expiry payload).length < n) :
    payload.length < n := by
  simp only [encode, List.length_cons, List.length_append] at h
  omega

/-- The fields of an encoded hash of representable length. -/
theorem fieldsOf_encodeHash {t : UInt8} (h : (encode t expiry (encodeHash fields)).length < 2 ^ 64)
    : fieldsOf ⟨t, expiry, encodeHash fields⟩ = fields := by
  simp [fieldsOf, decodeHash_encodeHash (length_lt_of_encode h)]

/-- Field deadlines that name fields of the hash beside them make the key sound. -/
theorem Inv.insert_sidecar (hothers : ∀ key' ≠ key, Sound S m key') (hof : OfType m key typeHash)
    (hne : exp.isEmpty = false) (hlen : S → (encode typeHash 0 (encodeHash exp)).length < 2 ^ 64)
    (hsub : S → ∃ e, entryAt m (hashKey key) = some e ∧ e.typ = typeHash ∧ ∀ f ∈ exp, f ∈ fieldsOf
      e) : Inv S (m.insert (hashExpKey key) (encode typeHash 0 (encodeHash exp))) := by
  refine Inv.of_others hothers (insert_frame m .x key _)
    ⟨⟨_, hof.insert (by decide) (decode_encode ..) rfl⟩, fun hS e he _ => ?_⟩
  rw [entryAt_insert] at he
  simp only [ite_true, decode_encode, Option.some.injEq] at he
  subst he
  obtain ⟨e', he', ht', hsub⟩ := hsub hS
  rw [fieldsOf_encodeHash (hlen hS)]
  exact ⟨hne, e', (entryAt_insert_of_ne (by decide) ..).trans he', ht', hsub⟩

/-- Writing the field deadlines makes the key sound when they name fields of the hash, and
leaves the hash alone. -/
theorem writeFieldExp_spec (hothers : ∀ key' ≠ key, Sound S m key') (hof : OfType m key typeHash)
    (hsub : S → exp.isEmpty = false → ∃ e, entryAt m (hashKey key) = some e ∧ e.typ = typeHash ∧ ∀ f
      ∈ exp, f ∈ fieldsOf e) :
    (writeFieldExp key exp).wp (Answers S T) (fun a m' => Inv S m' ∧ OfType m' key typeHash ∧
      (a = .ok → S → ∀ e, entryAt m (hashKey key) = some e → entryAt m' (hashKey key) = some e))
      m := by
  rw [writeFieldExp]
  split
  · rw [wp_bind, wp_delete]
    have hof' := hof.shrinks (shrinks_erase (hashExpKey key))
    refine ⟨Inv.of_others hothers erase_frame ⟨⟨_, hof'⟩, fun _ e he => ?_⟩, hof',
      fun _ _ e he => (entryAt_erase_of_ne (by decide) ..).trans he⟩
    simp [entryAt, hashExpKey] at he
  · next hne =>
    have hne : exp.isEmpty = false := by simpa using hne
    refine wp_set (fun m' hl hv hlen => ?_) fun m' hl hrefused => ?_
    · have hofx : OfType (m.insert (hashExpKey key) (encode typeHash 0 (encodeHash exp))) key
          typeHash := hof.insert (by decide) (decode_encode ..) rfl
      have hinv := Inv.insert_sidecar hothers hof hne hlen fun hS => hsub hS hne
      refine ⟨hinv.loses hl, hofx.shrinks hl.1, fun _ hS e he => ?_⟩
      -- the hash is not lost while its field deadlines are there
      refine hl.entryAt_hash hS (ExtTreeMap.getElem?_eq_some_iff.mp hv).1 ?_
      exact (entryAt_insert_of_ne (by decide) ..).trans he
    · -- only without the stronger invariant may the write be refused
      have hS : ¬ S := by
        intro hS
        have hgranted := hrefused hS
        cases hgranted
      refine ⟨fun key' => ?_, hof.shrinks hl.1, fun h => absurd h (by decide)⟩
      by_cases he : key' = key
      · rw [he]
        exact ⟨⟨_, hof.shrinks hl.1⟩, fun h => absurd h hS⟩
      · exact (hothers key' he).loses hl

/-- Writing field deadlines that name fields of the hash. -/
theorem HashState.writeFieldExp (h : HashState S m key fields) (hsub : S → ∀ f ∈ exp, f ∈ fields) :
    (Commands.writeFieldExp key exp).wp (Answers S T)
      (fun a m' => Inv S m' ∧ (a = .ok → HashState S m' key fields)) m := by
  refine wp_mono (writeFieldExp_spec h.others h.ofType fun hS _ => ?_) ?_
  · obtain ⟨e, he, ht, rfl⟩ := h.named hS
    exact ⟨e, he, ht, hsub hS⟩
  · rintro a m' ⟨hi, hof, hkeep⟩
    refine ⟨hi, fun ha => ⟨fun key' _ => hi key', hof, fun hS => ?_, fun hS x hx => ?_⟩⟩
    · obtain ⟨e, he, ht, hf⟩ := h.named hS
      exact ⟨e, hkeep ha hS e he, ht, hf⟩
    · exact ((hi key).covers hS x hx (hof.entry hx).1).1

variable {α : Type} {post : α → OrdMap Bytes Bytes → Prop}

/-- A program that goes on after writing field deadlines, whether that was granted or not. -/
theorem HashState.wp_writeFieldExp {f : Outcome → Handler α} (h : HashState S m key fields)
    (hsub : S → ∀ f ∈ exp, f ∈ fields) (hnext : ∀ a m', Inv S m' → (f a).wp (Answers S T) post m') :
    (Commands.writeFieldExp key exp >>= f).wp (Answers S T) post m :=
  wp_bind_of (h.writeFieldExp hsub) fun a m' hi => hnext a m' hi.1

/-- The field deadlines of a sound key in a hash state name fields of the hash. -/
theorem HashState.sidecar_subset (h : HashState S m key fields) (hi : Inv S m) :
    S → ∀ f ∈ sidecarFields m key, f ∈ fields := by
  intro hS f hf
  obtain ⟨e, he, -, rfl⟩ := h.named hS
  rw [sidecarFields] at hf
  cases hx : entryAt m (hashExpKey key) with
  | none =>
    rw [hx] at hf
    exact absurd hf (by simp)
  | some x =>
    rw [hx] at hf
    obtain ⟨-, e', he', -, hsub⟩ := (hi key).covers hS x hx (h.ofType.entry hx).1
    rw [he] at he'
    cases he'
    exact hsub f hf

/-- Writing the fields of a hash. The field deadlines stay or are lost. -/
theorem wp_writeHash {f : Outcome → Handler α}
    (h : Inv S m) (hof : OfType m key typeHash) (hok : ∀ m', HashState S m' key fields → (∀ f ∈
      sidecarFields m' key, f ∈ sidecarFields m key) → (f .ok).wp (Answers S T) post m')
    (hoom : ∀ m', Inv S m' → (f .oom).wp (Answers S T) post m') :
    (writeHash key fields expiry >>= f).wp (Answers S T) post m := by
  refine wp_set (fun m' hl hv hlen => ?_) fun m' hl _ => hoom m' (h.loses hl)
  have hframe := insert_frame m .h key (encode typeHash expiry (encodeHash fields))
  have hx : ∀ e, entryAt m' (hashExpKey key) = some e → entryAt m (hashExpKey key) = some e := by
    intro e he
    have hold := entryAt_of_shrinks hl.1 he
    rwa [hashExpKey, hashKey, entryAt_insert_of_ne (by decide)] at hold
  refine hok m' ⟨fun key' hne => ?_, ?_, fun hS => ?_, fun hS e he => ?_⟩ fun f hf => ?_
  · exact ((h key').congr (hframe key' hne)).loses hl
  · exact (hof.insert (by decide) (decode_encode ..) rfl).shrinks hl.1
  · refine ⟨⟨typeHash, expiry, encodeHash fields⟩, ?_, rfl, fieldsOf_encodeHash (hlen hS)⟩
    rw [entryAt, hv]
    exact decode_encode ..
  · exact ((h key).covers hS e (hx e he) (hof.entry (hx e he)).1).1
  · cases he : entryAt m' (hashExpKey key) with
    | none =>
      rw [sidecarFields, he] at hf
      exact absurd hf (by simp)
    | some e =>
      rw [sidecarFields, he] at hf
      rw [sidecarFields, hx e he]
      exact hf

theorem mem_eraseAll : f ∈ eraseAll fields fs ↔ f ∈ fields ∧ f ∉ fs := by
  induction fs generalizing fields with
  | nil => simp [eraseAll]
  | cons g fs ih =>
    have hstep : eraseAll fields (g :: fs) = eraseAll (fields.erase g) fs := rfl
    rw [hstep, ih, ExtTreeMap.mem_erase, LawfulEqOrd.compare_eq_iff_eq.ne, List.mem_cons,
      not_or]
    constructor
    · rintro ⟨⟨hg, hf⟩, hfs⟩
      exact ⟨hf, fun h => hg h.symm, hfs⟩
    · rintro ⟨hf, hg, hfs⟩
      exact ⟨⟨fun h => hg h.symm, hf⟩, hfs⟩

theorem eraseAll_mono {fields' : Fields} (h : ∀ f ∈ fields, f ∈ fields') :
    ∀ f ∈ eraseAll fields fs, f ∈ eraseAll fields' fs := by
  intro f hf
  obtain ⟨hf, hn⟩ := mem_eraseAll.mp hf
  exact mem_eraseAll.mpr ⟨h f hf, hn⟩

/-- Reading a hash either finds nothing or leaves a sound key with the fields it returns. -/
theorem wp_readHash {f : Except Failure (Option (Fields × Int64)) → Handler α} (h : Inv S m)
    (herror : ∀ m' err, Inv S m' → (f (.error err)).wp (Answers S T) post m')
    (hnone : ∀ m', Inv S m' → Absent m' key → (f (.ok none)).wp (Answers S T) post m')
    (hsome : ∀ m' fields expiry, Inv S m' → HashState S m' key fields →
      (f (.ok (some (fields, expiry)))).wp (Answers S T) post m') :
    (readHash key >>= f).wp (Answers S T) post m := by
  rw [wp_bind]
  refine wp_lookup h (fun m' hi ha _ => hnone m' hi ha) fun p e hp he => ?_
  by_cases ht : e.typ = typeHash
  case neg =>
    simp only [ne_eq, ht, not_false_eq_true, ite_true]
    exact herror m _ h
  simp only [ne_eq, ht, not_true_eq_false, ite_false]
  cases hd : decodeHash e.payload with
  | error => exact herror m _ h
  | ok r =>
    obtain ⟨fields, enc⟩ := r
    have hstate := h.hashState hp he ht
    have hfields : fieldsOf e = fields := by simp [fieldsOf, hd]
    rw [hfields] at hstate
    have hsub := hstate.sidecar_subset h
    rw [wp_bind, wp_readFieldExp]
    split
    · exact hsome m fields _ h hstate
    · rw [wp_bind, wp_now]
      intro t _
      split
      · exact hsome m fields _ h hstate
      · refine wp_writeHash h hstate.ofType (fun m₁ h₁ hsc => ?_) fun m₁ hi => herror m₁ _ hi
        refine wp_bind_of (h₁.writeFieldExp fun hS f hf => ?_) ?_
        · exact eraseAll_mono (hsub hS) f hf
        · rintro a m₂ ⟨hi, hstate₂⟩
          cases a with
          | oom => exact herror m₂ _ hi
          | ok => exact hsome m₂ _ _ hi (hstate₂ rfl)

theorem Absent.sidecarFields (h : Absent m key) : f ∉ Commands.sidecarFields m key := by
  rw [Commands.sidecarFields, entryAt, hashExpKey, h .x]
  simp

/-- A command that only adds or overwrites fields. -/
theorem updateHash_keeps {f : Fields → Except Reply (Fields × Reply)}
    (hf : ∀ fields fields' reply, f fields = .ok (fields', reply) → ∀ x ∈ fields, x ∈ fields')
    (h : Inv S m) : Keeps S T m (updateHash key f) := by
  refine wp_readHash h (fun m' err hi => hi) (fun m₁ h₁ ha => ?_) fun m₁ fields expiry h₁ hs₁ => ?_
  · simp only [Option.getD_none]
    cases hr : f ∅ with
    | error => exact h₁
    | ok =>
      refine wp_writeHash h₁ ha.ofType (fun m₂ h₂ hsc => ?_) fun m₂ h₂ => h₂
      exact h₂.inv fun _ x hx => absurd (hsc x hx) ha.sidecarFields
  · simp only [Option.getD_some]
    cases hr : f fields with
    | error => exact h₁
    | ok =>
      refine wp_writeHash h₁ hs₁.ofType (fun m₂ h₂ hsc => ?_) fun m₂ h₂ => h₂
      exact h₂.inv fun hS x hx => hf fields _ _ hr x (hs₁.sidecar_subset h₁ hS x (hsc x hx))

private theorem mem_insert_of_mem {x : Bytes} (f v : Bytes) (h : x ∈ fields) :
    x ∈ fields.insert f v := ExtTreeMap.mem_insert.mpr (.inr h)

private theorem mem_foldl_fields {α β : Type} {g : β → Fields} {f : β → α → β} {x : Bytes}
    (hf : ∀ acc a, x ∈ g acc → x ∈ g (f acc a)) (as : List α) {acc : β}
    (h : x ∈ g acc) : x ∈ g (as.foldl f acc) := by
  induction as generalizing acc with
  | nil => exact h
  | cons a as ih => exact ih (hf acc a h)

theorem hset_keeps (h : Inv S m) : Keeps S T m (hset key pairs) := by
  refine updateHash_keeps (fun fields fields' reply hr x hx => ?_) h
  cases hr
  exact mem_foldl_fields (g := Prod.fst) (fun _ e => mem_insert_of_mem e.1 e.2) pairs hx

theorem hmset_keeps (h : Inv S m) : Keeps S T m (hmset key pairs) := by
  refine updateHash_keeps (fun fields fields' reply hr x hx => ?_) h
  cases hr
  exact mem_foldl_fields (g := id) (fun _ e => mem_insert_of_mem e.1 e.2) pairs hx

theorem hsetnx_keeps (h : Inv S m) {value : Bytes} : Keeps S T m (hsetnx key field value) := by
  refine updateHash_keeps (fun fields fields' reply hr x hx => ?_) h
  split at hr
  · cases hr
  · cases hr
    exact mem_insert_of_mem field value hx

theorem hincrby_keeps (h : Inv S m) {delta : Int64} : Keeps S T m (hincrby key field delta) := by
  refine updateHash_keeps (fun fields fields' reply hr x hx => ?_) h
  split at hr
  · cases hr
  · split at hr
    · cases hr
    · cases hr
      exact mem_insert_of_mem _ _ hx

theorem hincrbyfloat_keeps (h : Inv S m) {add : Option Bytes → Option Bytes} :
    Keeps S T m (hincrbyfloat key field add) := by
  refine updateHash_keeps (fun fields fields' reply hr x hx => ?_) h
  split at hr
  · cases hr
  · cases hr
    exact mem_insert_of_mem _ _ hx

private theorem isEmpty_iff_not_mem : fields.isEmpty = true ↔ ∀ f, f ∉ fields :=
  ExtTreeMap.isEmpty_iff.trans ExtTreeMap.eq_empty_iff_forall_not_mem

/-- Without field deadlines that name anything there are no field deadlines. -/
theorem HashState.no_sidecar (h : HashState S m key fields) (hS : S)
    (hempty : ∀ f, f ∉ sidecarFields m key) : entryAt m (hashExpKey key) = none := by
  cases hx : entryAt m (hashExpKey key) with
  | none => rfl
  | some x =>
    have hne := h.nonempty hS x hx
    have hnil : (fieldsOf x).isEmpty = true := by
      refine isEmpty_iff_not_mem.mpr fun f hf => hempty f ?_
      rw [sidecarFields, hx]
      exact hf
    rw [hnil] at hne
    cases hne

theorem hdel_keeps (h : Inv S m) : Keeps S T m (hdel key fs) := by
  refine wp_readHash h (fun m' err hi => hi) (fun m₁ h₁ _ => h₁) fun m₁ fields expiry h₁ hs₁ => ?_
  have hsub := hs₁.sidecar_subset h₁
  rw [wp_bind, wp_readFieldExp]
  -- after the write of the hash, its field deadlines lose the same fields
  have hrest : S → ∀ f ∈ eraseAll (sidecarFields m₁ key) fs, f ∈ eraseAll fields fs :=
    fun hS => eraseAll_mono (hsub hS)
  have hclean : ¬ fs.any (· ∈ sidecarFields m₁ key) → S → ∀ f ∈ sidecarFields m₁ key,
      f ∈ eraseAll fields fs := by
    intro hany hS f hf
    refine mem_eraseAll.mpr ⟨hsub hS f hf, fun hfs => hany ?_⟩
    exact List.any_eq_true.mpr ⟨f, hfs, by simpa using hf⟩
  by_cases hlast : (eraseAll fields fs).isEmpty ∧ 0 < fields.size - (eraseAll fields fs).size
  · -- the last field went, so the field deadlines go as well
    have hnil : ∀ f, f ∉ eraseAll fields fs := isEmpty_iff_not_mem.mp hlast.1
    simp only [hlast, and_self, ite_true]
    rw [wp_bind, wp_delete]
    split
    · refine wp_bind_of (writeFieldExp_spec
        (fun key' hne => (h₁ key').congr (erase_frame key' hne))
        (hs₁.ofType.shrinks (shrinks_erase _)) fun hS hne => ?_) fun a m₂ hi => ?_
      · rw [isEmpty_iff_not_mem.mpr fun f hf => hnil f (hrest hS f hf)] at hne
        cases hne
      · cases a <;> exact hi.1
    · next hany =>
      refine h₁.erase fun hS _ => ?_
      simp [hasSidecar, hs₁.no_sidecar hS fun f hf => hnil f (hclean hany hS f hf)]
  · simp only [hlast, ite_false]
    refine wp_writeHash h₁ hs₁.ofType (fun m₂ h₂ hsc => ?_) fun m₂ h₂ => h₂
    dsimp only
    split
    · exact h₂.wp_writeFieldExp hrest fun a m₃ hi => by cases a <;> exact hi
    · next hany => exact h₂.inv fun hS f hf => hclean hany hS f (hsc f hf)

/-- What `HEXPIRE` has done to a hash and its field deadlines: the deadlines name fields of the
hash, and what is not marked as changed is as it was. -/
structure HexpireState.Tracks (s : HexpireState) (fields sidecar : Fields) : Prop where
  subset : (∀ f ∈ sidecar, f ∈ fields) → ∀ f ∈ s.sidecar, f ∈ s.m
  main : s.dirtyMain = false → s.m = fields
  exp : s.dirtyExp = false → s.sidecar = sidecar ∧ s.dirtyMain = false

theorem hexpireField_tracks {exp now : Int64} (h : s.Tracks fields sidecar) :
    (hexpireField cond exp now s f).Tracks fields sidecar := by
  rw [hexpireField]
  split
  · exact ⟨h.subset, h.main, h.exp⟩
  next hf =>
  split
  · exact ⟨h.subset, h.main, h.exp⟩
  split
  · refine ⟨fun hsub g hg => ?_, nofun, nofun⟩
    rw [ExtTreeMap.mem_erase] at hg ⊢
    exact ⟨hg.1, h.subset hsub g hg.2⟩
  · refine ⟨fun hsub g hg => ?_, h.main, nofun⟩
    rcases ExtTreeMap.mem_insert.mp hg with hg | hg
    · rw [LawfulEqOrd.compare_eq_iff_eq] at hg
      rw [← hg]
      exact not_not.mp hf
    · exact h.subset hsub g hg

theorem hexpire_tracks (cond : ExpireCond) (exp now : Int64) (fs : List Bytes)
    (h : s.Tracks fields sidecar) :
    (fs.foldl (hexpireField cond exp now) s).Tracks fields sidecar := by
  induction fs generalizing s with
  | nil => exact h
  | cons f fs ih => exact ih (hexpireField_tracks h)

/-- The deadline of an expiry command is counted from a clock reading, where it is counted from
the current time at all. -/
theorem wp_readDeadline {n : Int64} {post : Int64 → OrdMap Bytes Bytes → Prop}
    (h : ∀ d, (∀ t', T t' → ∃ t, T t ∧ d = kind.deadline n t) → post d m) :
    (readDeadline kind n).wp (Answers S T) post m := by
  rw [readDeadline]
  split
  · rw [wp_bind, wp_now]
    exact fun t ht => h _ fun _ _ => ⟨t, ht, rfl⟩
  · next hrel =>
    refine h _ fun t' ht' => ⟨t', ht', ?_⟩
    cases kind with
    | relativeSec | relativeMs => exact absurd rfl hrel
    | absoluteSec => rfl
    | absoluteMs => rfl

theorem hexpire_keeps (h : Inv S m) {n : Int64} : Keeps S T m (hexpire kind key n cond fs) := by
  rw [hexpire, keeps_bind]
  refine wp_readDeadline fun d _ => ?_
  refine wp_readHash h (fun m' err hi => hi) (fun m₁ h₁ _ => h₁) fun m₁ fields expiry h₁ hs₁ => ?_
  rw [wp_bind, wp_readFieldExp, wp_bind, wp_now]
  intro now _
  have hstart : HexpireState.Tracks ⟨fields, sidecarFields m₁ key, false, false, []⟩ fields
      (sidecarFields m₁ key) := ⟨id, fun _ => rfl, fun _ => ⟨rfl, rfl⟩⟩
  have ht := hexpire_tracks cond d now fs hstart
  generalize fs.foldl (hexpireField cond d now)
    ⟨fields, sidecarFields m₁ key, false, false, []⟩ = s at ht
  have hsub : S → ∀ f ∈ s.sidecar, f ∈ s.m := fun hS => ht.subset (hs₁.sidecar_subset h₁ hS)
  by_cases hmain : s.dirtyMain
  · -- a change of the hash always comes with one of the field deadlines
    have hexp : s.dirtyExp = true := by
      by_contra hexp
      have hclean := (ht.exp (by simpa using hexp)).2
      rw [hmain] at hclean
      cases hclean
    simp only [hmain, hexp, ite_true]
    refine wp_writeHash h₁ hs₁.ofType (fun m₂ h₂ _ => ?_) fun m₂ h₂ => h₂
    exact h₂.wp_writeFieldExp hsub fun a m₃ hi => by cases a <;> exact hi
  · simp only [hmain, Bool.false_eq_true, ite_false]
    split
    · rw [ht.main (by simpa using hmain)] at hsub
      exact hs₁.wp_writeFieldExp hsub fun a m₃ hi => by cases a <;> exact hi
    · exact h₁

private theorem hpersist_subset (fields : Fields) (fs : List Bytes) (acc : Fields × List Int64) :
    ∀ f ∈ (fs.foldl (hpersistField fields) acc).1, f ∈ acc.1 := by
  induction fs generalizing acc with
  | nil => exact fun f hf => hf
  | cons g fs ih =>
    intro f hf
    have hstep := ih _ f hf
    rw [hpersistField] at hstep
    split at hstep
    · exact hstep
    · split at hstep
      · exact hstep
      · exact (ExtTreeMap.mem_erase.mp hstep).2

theorem hpersist_keeps (h : Inv S m) : Keeps S T m (hpersist key fs) := by
  refine wp_readHash h (fun m' err hi => hi) (fun m₁ h₁ _ => h₁) fun m₁ fields expiry h₁ hs₁ => ?_
  rw [wp_bind, wp_readFieldExp]
  split
  · refine hs₁.wp_writeFieldExp (fun hS f hf => ?_) fun a m₂ hi => by cases a <;> exact hi
    exact hs₁.sidecar_subset h₁ hS f (hpersist_subset fields fs (_, []) f hf)
  · exact h₁

end Gedis.Commands
