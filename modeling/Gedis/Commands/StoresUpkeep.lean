import Gedis.Commands.Upkeep

/-!
# Passes over the store and computed results keep the records sound

Passes over the whole store remove the first record of some keys. Commands that write a result
remove what the destination held, require it to hold nothing, or rely on it to hold no other
type.
-/

namespace Gedis.Commands

open Gedis.Core Datastruct Storage List Prog

variable {S : Prop} {T : Int64 → Prop} {m m' : OrdMap Bytes Bytes} {key name : Bytes} {kind : Kind}
  {raws keys : List Bytes} {pairs : List (Bytes × Bytes)}

theorem wp_scanUserKeys {post : List (Bytes × Bytes) → OrdMap Bytes Bytes → Prop}
    {ps : List Prefix} {found : List (Bytes × Bytes)} :
    (scanUserKeys ps found).wp (Answers S T) post m ↔ post (ps.foldl (addType m) found) m := by
  induction ps generalizing found with
  | nil => rfl
  | cons p ps ih =>
    rw [scanUserKeys, wp_bind, wp_scan, ih]
    rfl

/-- The scanned raw keys belong to user keys. -/
theorem exists_of_mem_allUserKeys {raw : Bytes} (h : raw ∈ (allUserKeys m).map Prod.snd) :
    ∃ p key, raw = rawKey p key := by
  obtain ⟨⟨name, raw'⟩, hmem, rfl⟩ := mem_map.mp h
  obtain ⟨p, -, hraw⟩ := mem_allUserKeys.mp hmem
  exact ⟨p, name, hraw⟩

theorem deleteAll_keeps (hraws : ∀ raw ∈ raws, ∃ p key, raw = rawKey p key) (h : Inv S m)
    (hnone : S → ∀ key, hasSidecar m key = false) : Keeps S T m (deleteAll raws) := by
  induction raws generalizing m with
  | nil => exact h
  | cons raw raws ih =>
    obtain ⟨p, key, rfl⟩ := hraws raw (mem_cons_self ..)
    rw [deleteAll, keeps_bind, wp_delete]
    refine ih (fun raw hraw => hraws raw (mem_cons_of_mem _ hraw))
      (h.erase fun hS _ => hnone hS key) fun hS key' => ?_
    by_contra hx
    have hold := hasSidecar_shrinks (shrinks_erase _) (by simpa using hx)
    rw [hnone hS key'] at hold
    cases hold

theorem flush_keeps (h : Inv S m) (hnone : S → ∀ key, hasSidecar m key = false) :
    Keeps S T m flush := by
  rw [flush, keeps_bind, wp_scanUserKeys, keeps_bind]
  exact deleteAll_keeps (fun raw hraw => exists_of_mem_allUserKeys hraw) h hnone

/-- No hash with field deadlines has expired at a time. -/
def HashesLive (m : OrdMap Bytes Bytes) (now : Int64) : Prop :=
  ∀ key e, hasSidecar m key = true → entryAt m (hashKey key) = some e →
    e.expiry = 0 ∨ now < e.expiry

theorem HashesLive.shrinks {now : Int64} (h : HashesLive m now)
    (hs : Shrinks m m') : HashesLive m' now := by
  intro key e hx he
  exact h key e (hasSidecar_shrinks hs hx) (entryAt_of_shrinks hs he)

theorem sweepRaws_keeps {now : Int64} (hraws : ∀ raw ∈ raws, ∃ p key, raw = rawKey p key)
    (h : Inv S m) (hlive : S → HashesLive m now) (n : Int64) :
    Keeps S T m (sweepRaws now raws n) := by
  induction raws generalizing m n with
  | nil => exact h
  | cons raw raws ih =>
    obtain ⟨p, key, rfl⟩ := hraws raw (mem_cons_self ..)
    have ih := fun {m'} => @ih m' fun raw hraw => hraws raw (mem_cons_of_mem _ hraw)
    rw [sweepRaws, keeps_bind, wp_get]
    cases hv : m[rawKey p key]? with
    | none => exact ih h hlive n
    | some v =>
      dsimp only
      cases hd : decode v with
      | none => exact h
      | some e =>
        dsimp only
        split
        · exact ih h hlive n
        · next hexp =>
          rw [keeps_bind, wp_delete]
          refine ih (h.erase fun hS hp => ?_) (fun hS => (hlive hS).shrinks (shrinks_erase _))
            (n + 1)
          subst hp
          by_contra hx
          exact hexp (hlive hS key e (by simpa using hx) (entryAt_eq_some.mpr ⟨v, hv, hd⟩))

theorem sweepOnce_keeps (h : Inv S m) (hlive : S → ∀ t, T t → HashesLive m t) :
    Keeps S T m sweepOnce := by
  rw [sweepOnce, keeps_bind, wp_scanUserKeys, keeps_bind, wp_now]
  exact fun t ht => sweepRaws_keeps (fun raw hraw => exists_of_mem_allUserKeys hraw) h
    (fun hS => hlive hS t ht) 0

theorem Look.keeps (l : Look) (h : Inv S m) : Keeps S T m l.handler := by
  cases l with
  | key =>
    refine wp_mono (lookupRaw_spec h) fun found m' hl => ?_
    cases found with
    | missing => exact hl.1
    | failed => cases hl
    | record =>
      obtain ⟨rfl, -⟩ := hl
      exact h
  | hash name =>
    have hread : Keeps S T m (readHash name >>= pure) :=
      wp_readHash h (fun m' err hi => hi) (fun m' hi _ => hi) fun m' fields expiry hi _ => hi
    exact wp_bind.mp hread
  | record => exact wp_get.mpr h
  | userKeys => exact wp_scanUserKeys.mpr h
  | now => exact wp_now.mpr fun _ _ => h

theorem Reader.keeps {α : Type} (r : Reader α) (h : Inv S m) : Keeps S T m r.handler :=
  wp_interpret (fun l _ hi => l.keeps hi) h

section

variable (h : Inv S m)
include h

theorem wp_removeOld {α : Type} {f : Option Failure → Handler α}
    {post : α → OrdMap Bytes Bytes → Prop}
    (hnext : ∀ m', Inv S m' → Absent m' key → (f none).wp (Answers S T) post m') :
    (removeOld key >>= f).wp (Answers S T) post m := by
  rw [wp_bind]
  refine wp_lookup h (fun m₁ h₁ ha _ => hnext m₁ h₁ ha) fun p e hp he => ?_
  obtain ⟨hof, hfit, hhash⟩ := h.first hp he
  exact wp_deleteByRaw h hof hfit hhash fun m₁ h₁ ha _ => hnext m₁ h₁ ha

/-- A typed write to a key that holds the kind, if anything. -/
theorem writeKind_keeps {α : Type} {f : Outcome → α} (hof : OfType m key kind.tag) {expiry : Int64}
    {payload : Bytes} :
    (writeKind kind key expiry payload >>= fun r => pure (f r)).wp (Answers S T)
      (fun _ m' => Inv S m') m := by
  exact wp_set_inv h (h.writeKind hof) fun a m' hi => hi

theorem sortStore_keeps {sorted : Reader (Except Reply (Bytes × Int64))} :
    Keeps S T m (sortStore key sorted) := by
  refine wp_bind_of (sorted.keeps h) fun r m₁ h₁ => ?_
  cases r with
  | error => exact h₁
  | ok => exact wp_removeOld h₁ fun m₂ h₂ ha => writeKind_keeps h₂ ha.ofType

theorem readStrings_keeps (acc : List Bytes) : Keeps S T m (readStrings keys acc) := by
  induction keys generalizing m acc with
  | nil => exact h
  | cons key keys ih =>
    exact wp_readKind h (fun m₁ old h₁ _ _ _ => ih h₁ _) fun err => h

theorem bitop_keeps {op : BitOp} : Keeps S T m (bitop op key keys) := by
  refine wp_bind_of (readStrings_keeps h []) fun r m₁ h₁ => ?_
  cases r with
  | error => exact h₁
  | ok =>
    refine wp_removeOld h₁ fun m₂ h₂ ha => ?_
    dsimp only
    split
    · exact h₂
    · exact writeKind_keeps h₂ ha.ofType

theorem msetnxCheck_spec :
    (msetnxCheck keys).wp (Answers S T) (fun r m' => Inv S m' ∧ Shrinks m m' ∧
      (r = none → ∀ k ∈ keys, OfType m' k typeString)) m := by
  induction keys generalizing m with
  | nil => exact ⟨h, Shrinks.refl, fun _ k hk => absurd hk not_mem_nil⟩
  | cons key keys ih =>
    refine wp_readKind h (fun m₁ old h₁ hof hs _ => ?_) fun err =>
      ⟨h, Shrinks.refl, fun hr => by cases hr⟩
    cases old with
    | some => exact ⟨h₁, hs, fun hr => by cases hr⟩
    | none =>
      refine wp_mono (ih h₁) ?_
      rintro r m₂ ⟨h₂, hs₂, hkeys⟩
      refine ⟨h₂, hs.trans hs₂, fun hr k hk => ?_⟩
      rcases mem_cons.mp hk with rfl | hk
      · exact hof.shrinks hs₂
      · exact hkeys hr k hk

theorem msetnxWrite_keeps (hof : ∀ k ∈ pairs.map Prod.fst, OfType m k typeString) :
    Keeps S T m (msetnxWrite pairs) := by
  induction pairs generalizing m with
  | nil => exact h
  | cons e pairs ih =>
    have hfirst : OfType m e.1 Kind.string.tag := hof e.1 (mem_cons_self ..)
    refine wp_set (fun m₁ hl _ _ => ?_) fun m₁ hl _ => h.loses hl
    refine ih ((h.writeKind hfirst).loses hl) fun k hk => ?_
    have hk : OfType m k Kind.string.tag := hof k (mem_cons_of_mem _ hk)
    exact hk.writeKind.shrinks hl.1

theorem msetnx_keeps : Keeps S T m (msetnx pairs) := by
  refine wp_bind_of (msetnxCheck_spec h) fun r m₁ h₁ => ?_
  cases r with
  | some => exact h₁.1
  | none => exact msetnxWrite_keeps h₁.1 (h₁.2.2 rfl)

end

/-- A key has no record under a prefix other than that of a kind. -/
def Clear (m : OrdMap Bytes Bytes) (kind : Kind) (key : Bytes) : Prop :=
  ∀ p, rawKey p key ∈ m → p = kind.pre

/-- Only the prefix of streams does not tell the type. -/
theorem Inv.clear (h : Inv S m) (hkind : kind ≠ .stream) (hc : Clear m kind key) :
    OfType m key kind.tag := by
  obtain ⟨t, ht⟩ := (h key).ofType
  intro p v hv
  obtain ⟨e, hd, rfl, hfit⟩ := ht p v hv
  have hp : p = kind.pre := hc p (Std.ExtTreeMap.getElem?_eq_some_iff.mp hv).1
  have htag : e.typ = kind.tag := by
    rw [hp] at hfit
    cases kind <;> first | exact hfit | exact absurd rfl hkind
  exact ⟨e, hd, htag, by rw [hp]; exact kind.fits_tag⟩

theorem Clear.shrinks (h : Clear m kind key) (hs : Shrinks m m') :
    Clear m' kind key := fun p hp => h p (hs.mem hp)

theorem setWithTTL_keeps {name : String} {unit n : Int64} {value : Bytes} (h : Inv S m)
    (hc : 0 < n → Clear m .string key) : Keeps S T m (setWithTTL name unit key n value) := by
  rw [setWithTTL]
  split
  · exact h
  · next hn =>
    rw [keeps_bind, wp_now]
    have hof := h.clear (by decide) (hc (Int64.not_le.mp hn))
    exact fun t _ => writeKind_keeps h hof

theorem mset_keeps (h : Inv S m) (hc : ∀ k ∈ pairs.map Prod.fst, Clear m .string k) :
    Keeps S T m (mset pairs) := by
  have hof : ∀ k ∈ pairs.map Prod.fst, OfType m k Kind.string.tag :=
    fun k hk => h.clear (by decide) (hc k hk)
  have hall : Inv S (replay m
      ((pairs.map fun e => Kind.string.batchOp e.1 (some (0, e.2))).map BatchOp.write)) := by
    clear hc
    induction pairs generalizing m with
    | nil => exact h
    | cons e pairs ih =>
      refine ih (h.writeKind (hof e.1 (mem_cons_self ..))) fun k hk => ?_
      exact (hof k (mem_cons_of_mem _ hk)).writeKind
  refine wp_writeBatch fun a m₁ hl => ?_
  rcases hl with hl | hl
  · exact h.loses hl
  · exact hall.loses hl

theorem readAll_spec {β : Type} {dec : Bytes → Except Reply β} (h : Inv S m) (acc : List (Option β))
    : (readAll kind dec keys acc).wp (Answers S T) (fun _ m' => Inv S m' ∧ Shrinks m m') m := by
  induction keys generalizing m acc with
  | nil => exact ⟨h, Shrinks.refl⟩
  | cons key keys ih =>
    have hrest : ∀ {m₁} acc, Inv S m₁ → Shrinks m m₁ → (readAll kind dec keys acc).wp
        (Answers S T) (fun _ m' => Inv S m' ∧ Shrinks m m') m₁ := by
      intro m₁ acc h₁ hs
      exact wp_mono (ih h₁ acc) fun _ m₂ h₂ => ⟨h₂.1, hs.trans h₂.2⟩
    refine wp_readKind h (fun m₁ old h₁ _ hs _ => ?_) fun err => ⟨h, Shrinks.refl⟩
    cases old with
    | none => exact hrest _ h₁ hs
    | some e =>
      dsimp only
      cases dec e.payload with
      | error => exact ⟨h₁, hs⟩
      | ok => exact hrest _ h₁ hs

theorem storeResult_keeps (hkind : kind ≠ .stream) (h : Inv S m) (hc : Clear m kind key)
    {payload : Option Bytes} {n : Int64} : Keeps S T m (storeResult kind key payload n) := by
  cases payload with
  | none =>
    rw [storeResult, keeps_bind, wp_delete]
    exact h.dropKind
  | some =>
    exact writeKind_keeps h (h.clear hkind hc)

theorem storeSetOp_keeps {β : Type} {dec : Bytes → Except Reply β}
    {op : List (Option β) → Option Bytes × Int64} (h : Inv S m) (hc : Clear m .set key) :
    Keeps S T m (storeSetOp key keys dec op) := by
  refine wp_bind_of (readAll_spec h []) fun r m₁ h₁ => ?_
  cases r with
  | error => exact h₁.1
  | ok =>
    refine wp_lookup h₁.1 (fun m₂ h₂ _ hr => ?_) fun p e _ _ => ?_
    · exact storeResult_keeps (by decide) h₂ ((hc.shrinks h₁.2).shrinks hr.shrinks)
    · exact storeResult_keeps (by decide) h₁.1 (hc.shrinks h₁.2)

theorem storeSearch_keeps {src : Bytes}
    {search : Option Bytes → Except Reply (Option Bytes × Int64)} (h : Inv S m)
    (hc : Clear m .zset key) : Keeps S T m (storeSearch key src search) := by
  refine wp_readKind h (fun m₁ old h₁ _ hs _ => ?_) fun err => h
  dsimp only
  cases search (old.map Entry.payload) with
  | error => exact h₁
  | ok => exact storeResult_keeps (by decide) h₁ (hc.shrinks hs)

theorem fnKey_ne {p : Prefix} : fnKey name ≠ rawKey p key := by
  cases p <;> simp [fnKey, rawKey, Prefix.bytes, ascii]

/-- A raw key of no user key does not matter. -/
theorem Inv.of_fn (h : Inv S m) (heq : ∀ raw, (∀ name, raw ≠ fnKey name) → m'[raw]? = m[raw]?) :
    Inv S m' :=
  fun key => (h key).congr fun p => heq _ fun name he => fnKey_ne he.symm

theorem Inv.insert_fn (h : Inv S m) {code : Bytes} : Inv S (m.insert (fnKey name) code) := by
  refine h.of_fn fun raw hraw => ?_
  rw [OrdMap.getElem?_insert, ite_cond_eq_false _ _ (eq_false fun he => hraw name he.symm)]

theorem Inv.erase_fn (h : Inv S m) : Inv S (m.erase (fnKey name)) := by
  refine h.of_fn fun raw hraw => ?_
  rw [OrdMap.getElem?_erase, ite_cond_eq_false _ _ (eq_false fun he => hraw name he.symm)]

theorem functionFlush_keeps (h : Inv S m) : Keeps S T m functionFlush := by
  have hscan : ∀ raw ∈ scanKeys m (fnKey []), ∃ name, raw = fnKey name := by
    intro raw hraw
    obtain ⟨t, ht⟩ := (mem_scanKeys.mp hraw).2
    exact ⟨t, ht.symm⟩
  rw [functionFlush, keeps_bind, wp_scan, keeps_bind]
  generalize scanKeys m (fnKey []) = raws at hscan
  induction raws generalizing m with
  | nil => exact h
  | cons raw raws ih =>
    obtain ⟨name, rfl⟩ := hscan raw (mem_cons_self ..)
    rw [deleteAll, wp_bind, wp_delete]
    exact ih h.erase_fn fun raw hraw => hscan raw (mem_cons_of_mem _ hraw)

end Gedis.Commands
