import Gedis.Commands.HashUpkeep

/-!
# Commands on keys of any type keep the records sound

Each handler is walked through once, for both forms of the invariant. The hypotheses say what
a handler does not check by itself: that the destination of an unchecked write holds no other
type, that what is replaced has a type with a known prefix, and, for the stronger form, that a
hash with field deadlines is not removed alone.
-/

namespace Gedis.Commands

open Gedis.Core Datastruct Storage

variable {S : Prop} {T : Int64 → Prop} {m m₀ : OrdMap Bytes Bytes} {key src dst : Bytes}
  {e se : Entry} {p q : Prefix}

/-- Removing the record of a key by `deleteByRaw` frees the key. -/
theorem wp_deleteByRaw {α : Type} {f : Unit → Handler α} {post : α → OrdMap Bytes Bytes → Prop}
    (h : Inv S m) (hof : OfType m key e.typ) (hq : fits q e.typ)
    (hhash : q = .x → m[hashKey key]? = none)
    (hnext : ∀ m', Inv S m' → Absent m' key → Removed key m m' → (f ()).wp (Answers S T) post m') :
    (deleteByRaw (rawKey q key) e key >>= f).wp (Answers S T) post m := by
  rw [Prog.wp_bind, deleteByRaw, Prog.wp_bind, wp_delete]
  split
  · rw [wp_delete]
    have hr : Removed key m ((m.erase (rawKey q key)).erase (hashExpKey key)) :=
      Removed.refl.erase.erase
    have ha := hof.freed hq hhash hr (by simp) fun _ => by simp
    exact hnext _ (h.removed hr ha) ha hr
  · next ht =>
    have hr : Removed key m (m.erase (rawKey q key)) := Removed.refl.erase
    have ha := hof.freed hq hhash hr (by simp) fun h => absurd h ht
    exact hnext _ (h.removed hr ha) ha hr

theorem del_keeps (h : Inv S m) {keys : List Bytes} (n : Int64) : Keeps S T m (del keys n) := by
  induction keys generalizing m n with
  | nil => exact h
  | cons key keys ih =>
    refine wp_lookup h (fun m' hi _ _ => ih hi n) fun p e hp he => ?_
    obtain ⟨hof, hfit, hhash⟩ := h.first hp he
    exact wp_deleteByRaw h hof hfit hhash fun m' hi _ _ => ih hi (n + 1)

theorem expire_keeps (h : Inv S m) {kind : ExpireKind} {n : Int64} {cond : ExpireCond}
    (hlate : S → hasSidecar m key = true → ∀ t t', T t → T t' → t' < kind.deadline n t) :
    Keeps S T m (expire kind key n cond) := by
  rw [expire, keeps_bind]
  refine wp_readDeadline fun d hd => ?_
  refine wp_lookup h (fun m' hi _ _ => hi) fun p e hp he => ?_
  refine wp_lookup h (fun m' hi _ _ => hi) fun p' e' hp' he' => ?_
  rw [hp] at hp'
  cases hp'
  rw [Prog.wp_bind, wp_now]
  intro t ht
  split
  · next hpast =>
    rw [Prog.wp_bind, wp_delete]
    refine h.erase fun hS _ => ?_
    by_contra hx
    obtain ⟨t₀, ht₀, rfl⟩ := hd t ht
    exact absurd hpast (Int64.not_le.mpr (hlate hS (by simpa using hx) t₀ t ht₀ ht))
  · split
    · rw [Prog.wp_bind]
      exact wp_set_inv h (h.touch he) fun a m' hi => hi
    · exact h

theorem persist_keeps (h : Inv S m) : Keeps S T m (persist key) := by
  refine wp_lookup h (fun m' hi _ _ => hi) fun p e hp he => ?_
  dsimp only
  split
  · exact h
  · refine wp_lookup h (fun m' hi _ _ => hi) fun p' e' hp' he' => ?_
    rw [hp] at hp'
    cases hp'
    exact wp_set_inv h (h.touch he) fun a m' hi => hi

/-- Every record of a key has a type that `prefixForType` knows. -/
def Replaceable (m : OrdMap Bytes Bytes) (key : Bytes) : Prop :=
  ∀ p e, entryAt m (rawKey p key) = some e → prefixForType e.typ ≠ none

theorem wp_deleteFor {α : Type} {f : Unit → Handler α} {post : α → OrdMap Bytes Bytes → Prop}
    (h : Inv S m) (he : entryAt m (rawKey p key) = some e) (hknown : prefixForType e.typ ≠ none)
    (hnext : ∀ m', Inv S m' → Absent m' key → Removed key m m' → (f ()).wp (Answers S T) post m') :
    (deleteByRaw (rawFor e.typ key) e key >>= f).wp (Answers S T) post m := by
  obtain ⟨q, hq⟩ := Option.ne_none_iff_exists'.mp hknown
  obtain ⟨hfit, hstream, -⟩ := fits_prefixForType hq
  have hraw : rawFor e.typ key = rawKey q key := by simp [rawFor, hq]
  rw [hraw]
  exact wp_deleteByRaw h (h.ofType he).1 hfit (fun hx => absurd hx hstream) hnext

/-- Adding a copy of field deadlines to a copy of their hash. -/
theorem Inv.copySidecar {v : Bytes} (h₀ : Inv S m₀) (he : entryAt m₀ (hashKey src) = some e)
    (ht : e.typ = typeHash) (h : Inv S m) (hv : m₀[hashExpKey src]? = some v)
    (hdst : OfType m dst typeHash) (hcopy : S → entryAt m (hashKey dst) = some e) :
    Inv S (m.insert (hashExpKey dst) v) := by
  have hof : OfType m₀ src typeHash := ht ▸ (h₀.ofType he).1
  obtain ⟨x, hx, htx, -⟩ := hof .x v hv
  refine h.of_frame (insert_frame m .x dst v) ⟨⟨_, hdst.insert (by decide) hx htx⟩, ?_⟩
  intro hS x' hx' _
  rw [entryAt_insert] at hx'
  simp only [ite_true, hx, Option.some.injEq] at hx'
  subst hx'
  obtain ⟨hne, e', he', -, hsub⟩ :=
    (h₀ src).covers hS x (entryAt_eq_some.mpr ⟨v, hv, hx⟩) htx
  rw [he] at he'
  cases he'
  exact ⟨hne, e, (entryAt_insert_of_ne (by decide) ..).trans (hcopy hS), ht, hsub⟩

/-- A record of a user key is not touched by writes to another one. -/
theorem getElem?_insert_of_ne (hne : src ≠ dst) {v : Bytes} :
    (m.insert (rawKey p dst) v)[rawKey q src]? = m[rawKey q src]? :=
  insert_frame m p dst v src hne q

/-- The writes of `COPY` to a free destination; the value was read in an earlier state. -/
theorem copyWrite_keeps {val : Bytes} (hne : src ≠ dst) (h₀ : Inv S m₀)
    (hsrc : OfType m₀ src se.typ) (hp : prefixForType se.typ = some p)
    (hval : m₀[rawKey p src]? = some val)
    (hx : ∀ v, m[hashExpKey src]? = some v → m₀[hashExpKey src]? = some v) (h : Inv S m)
    (ha : Absent m dst) : Keeps S T m (copyWrite src dst se p val) := by
  obtain ⟨hfit, -, hhash⟩ := fits_prefixForType hp
  obtain ⟨e, hd, ht, -⟩ := hsrc p val hval
  have hcreate : Inv S (m.insert (rawKey p dst) val) :=
    h.create ha hd (by rw [ht]; exact hfit) (by rw [ht]; exact hhash)
  rw [copyWrite, keeps_bind]
  refine wp_set (fun m₁ hl hv _ => ?_) fun m₁ hl _ => h.loses hl
  have h₁ := hcreate.loses hl
  dsimp only
  split
  · next hse =>
    obtain rfl := hhash hse
    rw [keeps_bind, wp_get]
    cases hexp : m₁[hashExpKey src]? with
    | none => exact h₁
    | some expRaw =>
      refine wp_set_inv h₁ ?_ fun a m' hi => hi
      have hexp₀ : m₀[hashExpKey src]? = some expRaw := by
        refine hx expRaw ?_
        rw [← hl.1.getElem? hexp]
        exact (getElem?_insert_of_ne hne).symm
      refine h₀.copySidecar (entryAt_eq_some.mpr ⟨val, hval, hd⟩) (ht.trans hse) h₁ hexp₀ ?_
        fun _ => entryAt_eq_some.mpr ⟨val, hv, hd⟩
      rw [← hse]
      exact (ha.ofType.insert hfit hd ht).shrinks hl.1
  · exact h₁

theorem copyRecord_keeps (hne : src ≠ dst) (h : Inv S m) (hsrc : OfType m src se.typ)
    (hdst : Replaceable m dst) : Keeps S T m (copyRecord src dst se) := by
  rw [copyRecord, keeps_bind, wp_get]
  cases hval : m[rawFor se.typ src]? with
  | none => exact h
  | some =>
    cases hp : prefixForType se.typ with
    | none => exact h
    | some =>
      rw [rawFor, hp] at hval
      refine wp_lookup h (fun m₁ h₁ ha hr => ?_) fun q de hq hde => ?_
      · refine copyWrite_keeps hne h hsrc hp hval (fun v hv => ?_) h₁ ha
        exact hr.shrinks.getElem? hv
      · refine wp_deleteFor h hde (hdst q de hde) fun m₁ h₁ ha hr => ?_
        refine copyWrite_keeps hne h hsrc hp hval (fun v hv => ?_) h₁ ha
        exact hr.shrinks.getElem? hv

theorem copy_keeps {replace : Bool} (h : Inv S m) (hdst : replace = true → Replaceable m dst) :
    Keeps S T m (copy src dst replace) := by
  rw [copy]
  split
  · exact h
  next hne =>
  refine wp_lookup h (fun m₁ h₁ _ _ => h₁) fun p se hp hse => ?_
  have hsrc := (h.ofType hse).1
  refine wp_lookup h (fun m₁ h₁ ha hr => ?_) fun q de hq hde => ?_
  · refine copyRecord_keeps hne h₁ (hsrc.shrinks hr.shrinks) fun q e he => ?_
    rw [entryAt, ha q] at he
    cases he
  · dsimp only
    split
    · next hrep => exact copyRecord_keeps hne h hsrc (hdst hrep)
    · exact h

theorem moveRecord_keeps {sp : Prefix} {reply : Reply} (hne : src ≠ dst) (h : Inv S m)
    (hse : entryAt m (rawKey sp src) = some se) (hhash : sp = .x → m[hashKey src]? = none)
    (ha : Absent m dst) : Keeps S T m (moveRecord src dst sp se reply) := by
  obtain ⟨hsrc, hfit⟩ := h.ofType hse
  obtain ⟨val, hval, hd⟩ := entryAt_eq_some.mp hse
  rw [moveRecord, keeps_bind, wp_get, hval]
  cases hp : prefixForType se.typ with
  | none => exact h
  | some =>
    obtain ⟨hpfit, -, hph⟩ := fits_prefixForType hp
    refine wp_set (fun m₁ hl hv _ => ?_) fun m₁ hl _ => h.loses hl
    have h₁ : Inv S m₁ := (h.create ha hd hpfit hph).loses hl
    have hsrc₁ : ∀ q v, m₁[rawKey q src]? = some v → m[rawKey q src]? = some v := by
      intro q v hv
      rw [← hl.1.getElem? hv]
      exact (getElem?_insert_of_ne hne).symm
    refine wp_deleteByRaw h₁ (fun q v hv => hsrc q v (hsrc₁ q v hv)) hfit (fun hx => ?_)
      fun m₂ h₂ ha₂ _ => ?_
    · cases hv : m₁[hashKey src]? with
      | none => rfl
      | some v =>
        have := hsrc₁ .h v hv
        rw [← this]
        exact hhash hx
    · split
      · rw [Prog.wp_bind, wp_get, hashExpKey, ha₂ .x]
        exact h₂
      · exact h₂

theorem rename_keeps {nx : Bool} (h : Inv S m) : Keeps S T m (rename src dst nx) := by
  rw [rename]
  split
  · split
    · exact h
    · exact wp_lookup h (fun m₁ h₁ _ _ => h₁) fun p se hp hse => h
  next hne =>
  refine wp_lookup h (fun m₁ h₁ _ _ => h₁) fun p se hp hse => ?_
  obtain ⟨-, -, hhash⟩ := h.first hp hse
  -- the destination loses its records, the source keeps its own
  have hkeep : ∀ {m₁}, Removed dst m m₁ → entryAt m₁ (rawKey p src) = some se ∧
      (p = .x → m₁[hashKey src]? = none) := by
    intro m₁ hr
    rw [entryAt_congr (hr.frame hne), hashKey, hr.frame hne]
    exact ⟨hse, hhash⟩
  refine wp_lookup h (fun m₁ h₁ ha hr => ?_) fun q de hq hde => ?_
  · exact moveRecord_keeps hne h₁ (hkeep hr).1 (hkeep hr).2 ha
  · dsimp only
    split
    · exact h
    · obtain ⟨hof, hfit, hh⟩ := h.first hq hde
      refine wp_deleteByRaw h hof hfit hh fun m₁ h₁ ha hr => ?_
      exact moveRecord_keeps hne h₁ (hkeep hr).1 (hkeep hr).2 ha

theorem restoreWrite_keeps {ttl : Int64} {absttl : Bool} (h : Inv S m) (hfit : fits p e.typ)
    (hhash : e.typ = typeHash → p = .h)
    (hfree : Absent m key ∨ OfType m key e.typ ∧ e.typ ≠ typeHash) :
    Keeps S T m (restoreWrite key p e ttl absttl) := by
  have hset : ∀ expiry, Inv S (m.insert (rawKey p key) (encode e.typ expiry e.payload)) := by
    intro expiry
    rcases hfree with ha | ⟨hof, hne⟩
    · exact h.create ha (decode_encode ..) hfit hhash
    · exact h.store hof hne hfit (decode_encode ..) rfl
  have hwrite : ∀ expiry, Keeps S T m (Kv.set (rawKey p key) (encode e.typ expiry e.payload) >>=
      fun r => pure (granted .ok r)) := by
    intro expiry
    exact wp_set_inv h (hset expiry) fun a m' hi => hi
  rw [restoreWrite, restoreDeadline]
  split
  · exact hwrite 0
  · split
    · exact hwrite _
    · rw [keeps_bind, Prog.wp_bind, wp_now]
      exact fun t _ => hwrite _

/-- A type without a prefix in the table may only be replaced by itself, and only where raw
keys without a prefix do not matter. -/
def MayReplace (S : Prop) (e de : Entry) : Prop :=
  prefixForType de.typ ≠ none ∨ ¬ S ∧ e.typ = de.typ

/-- Replacing a record: what was there is removed, or is overwritten by its own type. -/
theorem restoreOver_keeps {de : Entry} {ttl : Int64} {absttl : Bool} (h : Inv S m)
    (hfit : fits p e.typ) (hhash : e.typ = typeHash → p = .h)
    (hde : entryAt m (rawKey q key) = some de) (hmay : MayReplace S e de) :
    (do deleteByRaw (rawFor de.typ key) de key
        restoreWrite key p e ttl absttl : Handler Reply).wp (Answers S T)
      (fun _ m' => Inv S m') m := by
  by_cases hknown : prefixForType de.typ = none
  · -- the raw key without a prefix goes, the record itself is overwritten
    obtain ⟨hS, hty⟩ := hmay.resolve_left (absurd hknown)
    have hne : e.typ ≠ typeHash := by
      intro ht
      rw [← hty, ht] at hknown
      cases hknown
    have hloses : Loses S m (m.erase key) := ⟨shrinks_erase key, fun h => absurd h hS⟩
    have hraw : rawFor de.typ key = key := by simp [rawFor, hknown]
    rw [Prog.wp_bind, deleteByRaw, hraw, Prog.wp_bind, wp_delete,
      ite_cond_eq_false _ _ (eq_false (hty ▸ hne))]
    refine restoreWrite_keeps (h.loses hloses) hfit hhash (.inr ⟨?_, hne⟩)
    rw [hty]
    exact (h.ofType hde).1.shrinks hloses.1
  · exact wp_deleteFor h hde hknown fun m₁ h₁ ha _ =>
      restoreWrite_keeps h₁ hfit hhash (.inl ha)

theorem restore_keeps {ttl : Int64} {payload : Bytes} {replace absttl : Bool} (h : Inv S m)
    (hrep : replace = true → ∀ q de, entryAt m (rawKey q key) = some de →
      ∀ e, decode payload = some e → MayReplace S e de) :
    Keeps S T m (restore key ttl payload replace absttl) := by
  rw [restore]
  cases hd : decode payload with
  | none => exact h
  | some e =>
    dsimp only
    cases hp : restorePrefix e.typ with
    | none => exact h
    | some p =>
      obtain ⟨hfit, hhash⟩ := fits_restorePrefix hp
      have hfree : ∀ m₁, Inv S m₁ → Absent m₁ key → Removed key m m₁ →
          (restoreWrite key p e ttl absttl).wp (Answers S T) (fun _ m' => Inv S m') m₁ :=
        fun m₁ h₁ ha _ => restoreWrite_keeps h₁ hfit hhash (.inl ha)
      refine wp_lookup h hfree fun q de hq hde => ?_
      dsimp only
      split
      · next hr =>
        refine wp_lookup h hfree fun q de hq hde => ?_
        exact restoreOver_keeps h hfit hhash hde (hrep hr q de hde e hd)
      · exact h

theorem migrate_keeps {copy : Bool} {send : Bytes → Int64 → Option String} (h : Inv S m)
    (hkeep : S → copy = false → hasSidecar m key = false) :
    Keeps S T m (migrate key copy send) := by
  refine wp_lookup h (fun m₁ h₁ _ _ => h₁) fun p e hp he => ?_
  have hsent : ∀ r, (migrateSent (rawKey p key) copy r).wp (Answers S T)
      (fun _ m' => Inv S m') m := by
    intro r
    cases r with
    | some => exact h
    | none =>
      rw [migrateSent]
      split
      · exact h
      · next hc =>
        rw [Prog.wp_bind, wp_delete]
        exact h.erase fun hS _ => hkeep hS (by simpa using hc)
  dsimp only
  split
  · exact hsent _
  · rw [Prog.wp_bind, wp_now]
    exact fun t _ => hsent _

end Gedis.Commands
