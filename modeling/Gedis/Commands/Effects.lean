import Gedis.Commands.Records

/-!
# What handlers do to the records

Weakest preconditions of the handlers over a store that may lose records whenever something
is written. Where field deadlines are required to stay with their hash, the store is assumed
to keep that up while it loses records, to grant every write of field deadlines and to hold
values of a representable length.
-/

namespace Gedis.Commands

open Gedis.Core Datastruct Storage Std

variable {post : Outcome → OrdMap Bytes Bytes → Prop} {kind : Kind}

/-- A write of field deadlines. -/
def sidecarWrite (key value : Bytes) : Bool :=
  Prefix.x.bytes.isPrefixOf key && (decode value).any fun e => e.typ = typeHash

/-- Values have a representable length and writes of field deadlines are granted. -/
def Granted : (q : Request) → q.Answer → Prop
  | .set key value, a => value.length < 2 ^ 64 ∧ (sidecarWrite key value = true → a = .ok)
  | _, _ => True

/-- The answers of the store, with the clock readings that may occur. -/
def Answers (S : Prop) (T : Int64 → Prop) (m : OrdMap Bytes Bytes) (q : Request)
    (m' : OrdMap Bytes Bytes) (a : q.Answer) : Prop :=
  Lossy (Loses S) T m q m' a ∧ (S → Granted q a)

variable {S : Prop} {T : Int64 → Prop} {m : OrdMap Bytes Bytes} {key value : Bytes}

/-- The handler ends with the records in order, whatever it answers. -/
abbrev Keeps (S : Prop) (T : Int64 → Prop) (m : OrdMap Bytes Bytes) {α : Type} (p : Handler α) :
    Prop :=
  p.wp (Answers S T) (fun _ m' => Inv S m') m

theorem keeps_bind {α β : Type} {p : Handler α} {f : α → Handler β} : Keeps S T m (p >>= f) ↔
    p.wp (Answers S T) (fun a m' => Keeps S T m' (f a)) m :=
  Prog.wp_bind

theorem wp_get {post : Option Bytes → OrdMap Bytes Bytes → Prop} :
    (Kv.get key).wp (Answers S T) post m ↔ post m[key]? m := by
  constructor
  · exact fun h => h m m[key]? ⟨⟨rfl, rfl⟩, fun _ => trivial⟩
  · rintro h m' a ⟨⟨rfl, rfl⟩, -⟩
    exact h

theorem wp_delete {post : Unit → OrdMap Bytes Bytes → Prop} :
    (Kv.delete key).wp (Answers S T) post m ↔ post () (m.erase key) := by
  constructor
  · exact fun h => h _ () ⟨rfl, fun _ => trivial⟩
  · rintro h m' a ⟨rfl, -⟩
    exact h

theorem wp_scan {p : Bytes} {post : List Bytes → OrdMap Bytes Bytes → Prop} :
    (Kv.scan p).wp (Answers S T) post m ↔ post (scanKeys m p) m := by
  constructor
  · exact fun h => h m (scanKeys m p) ⟨⟨rfl, rfl⟩, fun _ => trivial⟩
  · rintro h m' a ⟨⟨rfl, rfl⟩, -⟩
    exact h

theorem wp_now {post : Int64 → OrdMap Bytes Bytes → Prop} :
    Kv.now.wp (Answers S T) post m ↔ ∀ t, T t → post t m := by
  constructor
  · exact fun h t ht => h m t ⟨⟨rfl, ht⟩, fun _ => trivial⟩
  · rintro h m' t ⟨⟨rfl, ht⟩, -⟩
    exact h t ht

theorem wp_set (hok : ∀ m', Loses S (m.insert key value) m' → m'[key]? = some value → (S →
      value.length < 2 ^ 64) → post .ok m')
    (hoom : ∀ m', Loses S m m' → (S → sidecarWrite key value = false) → post .oom m') :
    (Kv.set key value).wp (Answers S T) post m := by
  rintro m' a ⟨⟨rfl, hl⟩ | ⟨rfl, hl, hv⟩, hgranted⟩
  · refine hoom m' hl fun hS => ?_
    by_contra hw
    have := (hgranted hS).2 (by simpa using hw)
    cases this
  · exact hok m' hl hv fun hS => (hgranted hS).1

theorem wp_writeBatch {ops : List BatchOp}
    (h : ∀ a m', Loses S m m' ∨ Loses S (replay m (ops.map BatchOp.write)) m' → post a m') :
    (Kv.writeBatch ops).wp (Answers S T) post m := by
  rintro m' a ⟨⟨-, hl⟩ | hl, -⟩
  · exact h a m' (.inl hl)
  · exact h a m' (.inr hl)

/-- A write after which the invariant holds; nothing else is needed of the store. -/
theorem wp_set_inv (h : Inv S m) (hset : Inv S (m.insert key value))
    (hpost : ∀ a m', Inv S m' → post a m') : (Kv.set key value).wp (Answers S T) post m :=
  wp_set (fun m' hl _ _ => hpost .ok m' (hset.loses hl)) fun m' hl _ => hpost .oom m' (h.loses hl)

/-- Looking up a key finds the record that probing finds; when it has expired, it and the
field deadlines are removed. -/
theorem wp_lookupFrom {post : Found → OrdMap Bytes Bytes → Prop} {ps : List Prefix}
    (hmissing : ps.find? (fun p => decide (rawKey p key ∈ m)) = none → post .missing m)
    (hfound : ∀ p v, ps.find? (fun p => decide (rawKey p key ∈ m)) = some p →
      m[rawKey p key]? = some v →
        (decode v = none → post (.failed (.truncatedEntry v.length)) m) ∧
          ∀ e, decode v = some e → post (.record p e) m ∧
            post .missing ((m.erase (rawKey p key)).erase (hashExpKey key))) :
    (lookupFrom key ps).wp (Answers S T) post m := by
  induction ps with
  | nil => exact hmissing rfl
  | cons p ps ih =>
    rw [lookupFrom, Prog.wp_bind, wp_get]
    cases hv : m[rawKey p key]? with
    | none =>
      have hp : rawKey p key ∉ m := by
        rw [ExtTreeMap.mem_iff_isSome_getElem?, hv]
        exact Bool.false_ne_true
      simp only [hp, decide_false, Bool.false_eq_true, not_false_eq_true,
        List.find?_cons_of_neg] at hmissing hfound
      exact ih hmissing hfound
    | some v =>
      have hp : rawKey p key ∈ m := (ExtTreeMap.getElem?_eq_some_iff.mp hv).1
      have hfind : (p :: ps).find? (fun p => decide (rawKey p key ∈ m)) = some p :=
        List.find?_cons_of_pos (by simpa using hp)
      obtain ⟨hnone, hsome⟩ := hfound p v hfind hv
      cases hd : decode v with
      | none =>
        simp only [hd]
        exact hnone hd
      | some e =>
        obtain ⟨hrecord, hexpired⟩ := hsome e hd
        simp only [hd]
        split
        · exact hrecord
        · rw [Prog.wp_bind, wp_now]
          intro t _
          split
          · simp only [Prog.wp_bind, wp_delete]
            exact hexpired
          · exact hrecord

/-- The record found first, with the invariant, tells the type of all records of the key. -/
theorem Inv.ofType (h : Inv S m) {p : Prefix} {e : Entry}
    (he : entryAt m (rawKey p key) = some e) : OfType m key e.typ ∧ fits p e.typ := by
  obtain ⟨t, ht⟩ := (h key).ofType
  obtain ⟨rfl, hp⟩ := ht.entry he
  exact ⟨ht, hp⟩

/-- Records before the first one found are missing. -/
theorem probe_hash (h : probe m key = some .x) : m[hashKey key]? = none := by
  by_contra hne
  have hmem : rawKey .h key ∈ m := by
    rw [ExtTreeMap.mem_iff_isSome_getElem?]
    exact Option.isSome_iff_ne_none.mpr hne
  simp only [probe, typePrefixes, List.find?_cons, hmem, decide_true] at h
  split at h <;> cases h

/-- What the record found first says about the key. -/
theorem Inv.first (h : Inv S m) {p : Prefix} {e : Entry} (hp : probe m key = some p)
    (he : entryAt m (rawKey p key) = some e) :
    OfType m key e.typ ∧ fits p e.typ ∧ (p = .x → m[hashKey key]? = none) := by
  obtain ⟨hof, hfit⟩ := h.ofType he
  exact ⟨hof, hfit, fun hx => probe_hash (hx ▸ hp)⟩

/-- Removing the record of a key, for a hash with its field deadlines, frees the key. -/
theorem OfType.freed {m m' : OrdMap Bytes Bytes} {t : UInt8} (h : OfType m key t) {q : Prefix}
    (hq : fits q t) (hhash : q = .x → m[hashKey key]? = none) (hr : Removed key m m')
    (hrem : m'[rawKey q key]? = none) (hx : t = typeHash → m'[hashExpKey key]? = none) :
    Absent m' key := by
  refine h.absent hr.shrinks hq hrem fun ht => ⟨?_, hx ht⟩
  -- either the hash itself was removed, or only field deadlines had been there
  rw [ht] at hq
  rcases fits_typeHash hq with rfl | rfl
  · exact hrem
  · rcases hr.shrinks (hashKey key) with heq | hnone
    · rw [heq, hhash rfl]
    · exact hnone

/-- What a lookup leaves behind; it never fails, since every record can be decoded. -/
def Looked (S : Prop) (m : OrdMap Bytes Bytes) (key : Bytes) : Found → OrdMap Bytes Bytes → Prop
  | .missing, m' => Inv S m' ∧ Absent m' key ∧ Removed key m m'
  | .failed _, _ => False
  | .record p e, m' => m' = m ∧ probe m key = some p ∧ entryAt m (rawKey p key) = some e

theorem lookupRaw_spec (h : Inv S m) : (lookupRaw key).wp (Answers S T) (Looked S m key) m := by
  refine wp_lookupFrom (fun hnone => ?_) fun p v hp hv => ?_
  · refine ⟨h, fun p => ?_, Removed.refl⟩
    have hp := List.find?_eq_none.mp hnone p mem_typePrefixes
    rw [decide_eq_true_eq] at hp
    exact ExtTreeMap.getElem?_eq_none hp
  · obtain ⟨t, ht⟩ := (h key).ofType
    obtain ⟨e₀, hd₀, -⟩ := ht p v hv
    refine ⟨fun hd => absurd hd (by simp [hd₀]), fun e hd => ?_⟩
    have he : entryAt m (rawKey p key) = some e := entryAt_eq_some.mpr ⟨v, hv, hd⟩
    have hr : Removed key m ((m.erase (rawKey p key)).erase (hashExpKey key)) :=
      Removed.refl.erase.erase
    obtain ⟨hof, hfit, hhash⟩ := h.first hp he
    have ha : Absent ((m.erase (rawKey p key)).erase (hashExpKey key)) key :=
      hof.freed hfit hhash hr (by simp) fun _ => by simp
    exact ⟨⟨rfl, hp, he⟩, h.removed hr ha, ha, hr⟩

/-- A program that starts with a lookup. -/
theorem wp_lookup {α : Type} {f : Found → Handler α} {post : α → OrdMap Bytes Bytes → Prop}
    (h : Inv S m)
    (hmissing : ∀ m', Inv S m' → Absent m' key → Removed key m m' →
      (f .missing).wp (Answers S T) post m')
    (hrecord : ∀ p e, probe m key = some p → entryAt m (rawKey p key) = some e →
      (f (.record p e)).wp (Answers S T) post m) :
    (lookupRaw key >>= f).wp (Answers S T) post m := by
  refine Prog.wp_bind_of (lookupRaw_spec h) fun found m' hl => ?_
  cases found with
  | missing => exact hmissing m' hl.1 hl.2.1 hl.2.2
  | failed => cases hl
  | record p e =>
    obtain ⟨rfl, hp, he⟩ := hl
    exact hrecord p e hp he

/-- A typed read leaves the key with the kind, if anything. -/
theorem wp_readKind {α : Type} {f : Except Failure (Option Entry) → Handler α}
    {post : α → OrdMap Bytes Bytes → Prop} (h : Inv S m) (hok : ∀ m' old, Inv S m' → OfType m' key
      kind.tag → Shrinks m m' → (old = none → Absent m' key) → (f (.ok old)).wp (Answers S T) post
      m') (herror : ∀ err, (f (.error err)).wp (Answers S T) post m) :
    (readKind kind key >>= f).wp (Answers S T) post m := by
  rw [Prog.wp_bind]
  refine wp_lookup h (fun m' hi ha hr => ?_) fun p e _ he => ?_
  · exact hok m' none hi ha.ofType hr.shrinks fun _ => ha
  · simp only [Prog.pure_eq, Prog.wp_ret]
    split
    · next ht => exact hok m (some e) h (ht ▸ (h.ofType he).1) Shrinks.refl (by simp)
    · exact herror kind.mismatch

/-- A typed write to a key that holds the kind, if anything. -/
theorem Inv.writeKind (h : Inv S m) (ht : OfType m key kind.tag) {expiry : Int64} {payload : Bytes}
    : Inv S (m.insert (rawKey kind.pre key) (encode kind.tag expiry payload)) :=
  h.store ht kind.tag_ne kind.fits_tag (decode_encode ..) rfl

/-- It leaves other keys of the kind with the kind. -/
theorem OfType.writeKind {key' : Bytes} (h : OfType m key kind.tag) {expiry : Int64}
    {payload : Bytes} :
    OfType (m.insert (rawKey kind.pre key') (encode kind.tag expiry payload)) key kind.tag :=
  h.insert kind.fits_tag (decode_encode ..) rfl

theorem Inv.dropKind (h : Inv S m) : Inv S (m.erase (rawKey kind.pre key)) :=
  h.erase fun _ hk => by cases kind <;> cases hk

/-- A session keeps the invariant when the keys it may write hold its kind, if anything. -/
theorem Session.keeps {α : Type} {seen : List Bytes} (s : Session kind α seen) (h : Inv S m)
    (hseen : ∀ k ∈ seen, OfType m k kind.tag) : Keeps S T m s.handler := by
  induction s generalizing m with
  | done => exact h
  | now next ih =>
    rw [handler, keeps_bind, wp_now]
    exact fun t _ => ih t h hseen
  | look key next ih =>
    refine wp_lookup h (fun m' hi _ hr => ih _ hi fun k hk => ?_) fun p e _ _ => ih _ h hseen
    exact (hseen k hk).shrinks hr.shrinks
  | load key failed next ihf ihn =>
    rw [handler]
    refine wp_readKind h (fun m' old hi ht hs _ => ?_) fun err => ?_
    · refine ihn old hi fun k hk => ?_
      rcases List.mem_cons.mp hk with rfl | hk
      · exact ht
      · exact (hseen k hk).shrinks hs
    · exact ihf err h hseen
  | store key hkey expiry payload next ih =>
    refine wp_set (fun m' hl _ _ => ?_) fun m' hl _ => ?_
    · refine ih .ok ((h.writeKind (hseen key hkey)).loses hl) fun k hk => ?_
      exact ((hseen k hk).writeKind).shrinks hl.1
    · exact ih .oom (h.loses hl) fun k hk => (hseen k hk).shrinks hl.1
  | commit key hkey value next ih =>
    refine wp_writeBatch fun a m' hl => ?_
    rcases hl with hl | hl
    · exact ih a (h.loses hl) fun k hk => (hseen k hk).shrinks hl.1
    · cases value with
      | none =>
        refine ih a (h.dropKind.loses hl) fun k hk => ?_
        exact ((hseen k hk).shrinks (shrinks_erase _)).shrinks hl.1
      | some =>
        refine ih a ((h.writeKind (hseen key hkey)).loses hl) fun k hk => ?_
        exact ((hseen k hk).writeKind).shrinks hl.1
  | drop key next ih =>
    rw [handler, keeps_bind, wp_delete]
    exact ih h.dropKind fun k hk => (hseen k hk).shrinks (shrinks_erase _)

end Gedis.Commands
