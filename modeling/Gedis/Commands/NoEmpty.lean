import Gedis.Commands.Sort
import Gedis.Datastruct.Emptiness

/-!
# No empty container is stored

Every write of a list, set or sorted set stores elements or removes the record. A hash is different:
reading it drops the fields whose deadline has passed and writes back what is left, and `HEXPIRE`
with a deadline in the past does the same. `SORT ... STORE` writes its result whatever it is. As long
as something is left in these cases, no record is decoded to an empty container.
-/

namespace Gedis.Commands

open Gedis.Core Datastruct Storage Std Prog OrdMap Session

variable {maxAlloc : Nat} {U : Prop} {T : Int64 → Prop} {m m' : OrdMap Bytes Bytes}
  {key raw v src dst field : Bytes} {post : Outcome → OrdMap Bytes Bytes → Prop} {fields : Fields}
  {names keys : List Bytes} {pair : Bytes × Bytes} {pairs : List (Bytes × Bytes)}

/-- No record is decoded to an empty container. -/
def NoEmpty (maxAlloc : Nat) (m : OrdMap Bytes Bytes) : Prop :=
  ∀ raw v : Bytes, m[raw]? = some v → Filled maxAlloc v

/-- No record but the given one is. -/
def NoEmptyBut (maxAlloc : Nat) (raw : Bytes) (m : OrdMap Bytes Bytes) : Prop :=
  ∀ raw' v : Bytes, raw' ≠ raw → m[raw']? = some v → Filled maxAlloc v

theorem NoEmpty.but (h : NoEmpty maxAlloc m) : NoEmptyBut maxAlloc raw m :=
  fun raw' v _ hv => h raw' v hv

theorem NoEmpty.shrinks (h : NoEmpty maxAlloc m) (hs : Shrinks m m') : NoEmpty maxAlloc m' :=
  fun raw v hv => h raw v (hs.getElem? hv)

theorem NoEmptyBut.shrinks (h : NoEmptyBut maxAlloc raw m) (hs : Shrinks m m') :
    NoEmptyBut maxAlloc raw m' :=
  fun raw' v hne hv => h raw' v hne (hs.getElem? hv)

theorem NoEmpty.erase (h : NoEmpty maxAlloc m) : NoEmpty maxAlloc (m.erase raw) :=
  h.shrinks (shrinks_erase raw)

/-- Writing the record in question. -/
theorem NoEmptyBut.insert (h : NoEmptyBut maxAlloc raw m) (hv : Filled maxAlloc v) :
    NoEmpty maxAlloc (m.insert raw v) := by
  intro raw' v' hv'
  rw [getElem?_insert] at hv'
  split at hv'
  · cases hv'
    exact hv
  · next hne => exact h raw' v' (Ne.symm hne) hv'

/-- Every record that is new has elements. -/
def FillsOnly (maxAlloc : Nat) (m m' : OrdMap Bytes Bytes) : Prop :=
  ∀ raw v : Bytes, m'[raw]? = some v → m[raw]? = some v ∨ Filled maxAlloc v

theorem NoEmpty.fills (h : NoEmpty maxAlloc m) (hf : FillsOnly maxAlloc m m') :
    NoEmpty maxAlloc m' :=
  fun raw v hv => (hf raw v hv).elim (h raw v) id

theorem NoEmptyBut.fills (h : NoEmptyBut maxAlloc raw m) (hf : FillsOnly maxAlloc m m') :
    NoEmptyBut maxAlloc raw m' :=
  fun raw' v hne hv => (hf raw' v hv).elim (h raw' v hne) id

theorem fillsOnly_of_shrinks (h : Shrinks m m') : FillsOnly maxAlloc m m' :=
  fun _ _ hv => .inl (h.getElem? hv)

theorem fillsOnly_insert (hv : Filled maxAlloc v) (hs : Shrinks (m.insert raw v) m') :
    FillsOnly maxAlloc m m' := by
  intro raw' v' hv'
  have hget := hs.getElem? hv'
  rw [getElem?_insert] at hget
  split at hget
  · cases hget
    exact .inr hv
  · exact .inl hget

/-- A write is accepted. -/
def Accepted : (q : Request) → q.Answer → Prop
  | .set _ _, a => a = .ok
  | _, _ => True

/-- The answers of a store that may lose records; it accepts every write where that is asked for. -/
def Stores (U : Prop) (T : Int64 → Prop) (m : OrdMap Bytes Bytes) (q : Request)
    (m' : OrdMap Bytes Bytes) (a : q.Answer) : Prop :=
  Answers False T m q m' a ∧ (U → Accepted q a)

variable {α : Type}

theorem wp_stores {p : Handler α} {post : α → OrdMap Bytes Bytes → Prop}
    (h : p.wp (Answers False T) post m) : p.wp (Stores U T) post m :=
  wp_of_le (fun _ _ _ _ hr => hr.1) h

/-- A write goes in, after which other records may be lost, or it is refused. -/
theorem wp_set_stores (hok : ∀ m', Shrinks (m.insert raw v) m' → post .ok m')
    (hoom : ¬ U → ∀ m', Shrinks m m' → post .oom m') : (Kv.set raw v).wp (Stores U T) post m := by
  rintro m' a ⟨⟨⟨rfl, hl⟩ | ⟨rfl, hl, -⟩, -⟩, haccepted⟩
  · exact hoom (fun hU => nomatch haccepted hU) m' hl.1
  · exact hok m' hl.1

/-- Writing a record with elements, or being refused. -/
theorem wp_set_filled (h : NoEmpty maxAlloc m) (hv : Filled maxAlloc v)
    (hpost : ∀ a m', NoEmpty maxAlloc m' → post a m') : (Kv.set raw v).wp (Stores U T) post m :=
  wp_set_stores (fun m' hs => hpost .ok m' ((h.but.insert hv).shrinks hs))
    fun _ m' hs => hpost .oom m' (h.shrinks hs)

/-- Looking up a key may only lose records. -/
theorem wp_lookup_stores {f : Found → Handler α} {post : α → OrdMap Bytes Bytes → Prop}
    (hmissing : ∀ m', Shrinks m m' → (f .missing).wp (Stores U T) post m')
    (hfailed : ∀ err, (f (.failed err)).wp (Stores U T) post m)
    (hrecord : ∀ p e, probe m key = some p → entryAt m (rawKey p key) = some e →
      (f (.record p e)).wp (Stores U T) post m) : (lookupRaw key >>= f).wp (Stores U T) post m := by
  rw [wp_bind]
  apply wp_stores
  refine wp_lookupFrom (fun _ => hmissing m Shrinks.refl) fun p v hp hv => ?_
  refine ⟨fun _ => hfailed _, fun e hd => ⟨?_, ?_⟩⟩
  · exact hrecord p e hp (entryAt_eq_some.mpr ⟨v, hv, hd⟩)
  · exact hmissing _ ((shrinks_erase _).trans (shrinks_erase _))

theorem wp_readKind_stores {kind : Kind} {f : Except Failure (Option Entry) → Handler α}
    {post : α → OrdMap Bytes Bytes → Prop}
    (h : ∀ r m', Shrinks m m' → (f r).wp (Stores U T) post m') :
    (readKind kind key >>= f).wp (Stores U T) post m := by
  rw [wp_bind]
  refine wp_lookup_stores (fun m' hs => h _ m' hs) (fun err => h _ m Shrinks.refl) ?_
  exact fun p e _ _ => h _ m Shrinks.refl

/-- Every payload that a session writes announces elements. -/
def Session.Fills {kind : Kind} {α : Type} : {seen : List Bytes} → Session kind α seen → Prop
  | _, .done _ => True
  | _, .now next => ∀ t, (next t).Fills
  | _, .look _ next => ∀ found, (next found).Fills
  | _, .load _ failed next => (∀ err, (failed err).Fills) ∧ ∀ old, (next old).Fills
  | _, .store _ _ _ payload next => Announces payload ∧ ∀ r, (next r).Fills
  | _, .commit _ _ value next => (∀ p ∈ value, Announces p.2) ∧ ∀ r, (next r).Fills
  | _, .drop _ next => next.Fills

/-- Such a session stores no empty container. -/
theorem Session.Fills.keeps {kind : Kind} {seen : List Bytes} {s : Session kind α seen}
    (hs : s.Fills) (h : NoEmpty maxAlloc m) :
    s.handler.wp (Stores U T) (fun _ m' => NoEmpty maxAlloc m') m := by
  induction s generalizing m with
  | done => exact h
  | now next ih =>
    rw [handler, wp_bind]
    exact wp_stores (wp_now.mpr fun t _ => ih t (hs t) h)
  | look key next ih =>
    refine wp_lookup_stores (fun m' hsh => ih _ (hs _) (h.shrinks hsh)) ?_ ?_
    · exact fun err => ih _ (hs _) h
    · exact fun p e _ _ => ih _ (hs _) h
  | load key failed next ihf ihn =>
    rw [handler]
    refine wp_readKind_stores fun r m' hsh => ?_
    cases r with
    | error err => exact ihf err (hs.1 err) (h.shrinks hsh)
    | ok old => exact ihn old (hs.2 old) (h.shrinks hsh)
  | store key hkey expiry payload next ih =>
    exact wp_set_filled h (filled_encode maxAlloc _ expiry hs.1) fun a m' hm => ih a (hs.2 a) hm
  | commit key hkey value next ih =>
    rw [handler, wp_bind]
    apply wp_stores
    refine wp_writeBatch fun a m' hl => ih a (hs.2 a) ?_
    rcases hl with hl | hl
    · exact h.shrinks hl.1
    · cases value with
      | none => exact h.erase.shrinks hl.1
      | some p =>
        have hfilled := filled_encode maxAlloc kind.tag p.1 (hs.1 p rfl)
        exact (h.but.insert hfilled).shrinks hl.1
  | drop key next ih =>
    rw [handler, wp_bind]
    exact wp_stores (wp_delete.mpr (ih hs h.erase))

section Fills

variable {kind : Kind} {seen : List Bytes} {β : Type}

theorem Session.fills_orOom {next : Session kind Reply seen} (h : next.Fills) (a : Outcome) :
    (Session.orOom next a).Fills := by
  cases a with
  | oom => trivial
  | ok => exact h

variable {dec : Entry → Except Reply β}

theorem Session.fills_decoded {old : Option Entry}
    {next : Option β → Session kind Reply seen} (h : ∀ b, (next b).Fills) :
    (Session.decoded dec old next).Fills := by
  cases old with
  | none => exact h none
  | some e =>
    rw [decoded]
    cases dec e with
    | error => trivial
    | ok b => exact h (some b)

theorem Session.fills_gather
    {next : List (Option β) → Session kind Reply seen} (h : ∀ bs, (next bs).Fills)
    (acc : List (Option β)) : (Session.gather dec next acc keys).Fills := by
  induction keys generalizing acc with
  | nil => exact h acc.reverse
  | cons key keys ih =>
    intro found
    cases found with
    | missing => exact ih _
    | failed => trivial
    | record p e =>
      dsimp only
      cases dec e with
      | error => trivial
      | ok => exact ih _

/-- A payload that is written announces elements. -/
def Update.Fills : Update → Prop
  | .write _ payload _ => Announces payload
  | .keep _ | .remove _ => True

theorem modify_fills {f : Option Entry → Update} (h : ∀ old, (f old).Fills) :
    (modify kind key f).Fills := by
  refine ⟨fun err => trivial, fun old => ?_⟩
  have hold := h old
  dsimp only
  cases hf : f old with
  | keep => trivial
  | remove => trivial
  | write =>
    rw [hf] at hold
    exact ⟨hold, fills_orOom trivial⟩

theorem modifyDecoded_fills {dec : Bytes → Decoder β} {f : Option (β × Int64) → Update}
    (h : ∀ old, (f old).Fills) : (modifyDecoded kind dec key f).Fills := by
  apply modify_fills
  intro old
  cases old with
  | none => exact h none
  | some e =>
    dsimp only
    cases decoded dec e with
    | error => trivial
    | ok b => exact h (some (b, e.expiry))

/-- Nothing comes of a missing key, as with most commands that remove. -/
theorem modifyStored_fills {dec : Bytes → Decoder β} {f : Option (β × Int64) → Update}
    (hnone : (f none).Fills) (hsome : ∀ old, (f (some old)).Fills) :
    (modifyDecoded kind dec key f).Fills :=
  modifyDecoded_fills fun old => by
    cases old with
    | none => exact hnone
    | some old => exact hsome old

theorem popRound_fills {dec : Bytes → Decoder β} {take : β → Option (List Bytes × Option Bytes)}
    {reply : Bytes → List Bytes → Reply} {failed : Reply → Reply}
    (h : ∀ b out payload, take b = some (out, some payload) → Announces payload) :
    (popRound dec take reply failed keys : Session kind Reply seen).Fills := by
  induction keys generalizing seen with
  | nil => trivial
  | cons key keys ih =>
    refine ⟨fun err => trivial, fun old => ?_⟩
    cases old with
    | none => exact ih
    | some e =>
      dsimp only
      cases decoded dec e with
      | error => trivial
      | ok b =>
        dsimp only
        split
        · exact ih
        · trivial
        · next out payload htake =>
          refine ⟨h b out payload htake, fun a => ?_⟩
          cases a <;> trivial

theorem checkKinds_fills {dec : Bytes → Decoder β}
    {next : {seen : List Bytes} → Session kind Reply seen}
    (h : ∀ seen, (next : Session kind Reply seen).Fills) :
    (checkKinds dec next keys : Session kind Reply seen).Fills := by
  induction keys generalizing seen with
  | nil => exact h seen
  | cons key keys ih => exact ⟨fun err => trivial, fun old => fills_decoded fun _ => ih⟩

theorem moveCore_fills {pop : Bytes → Except Reply (Option (Bytes × Option Bytes))}
    {push : Option Bytes → Bytes → Except Reply Bytes}
    (hpop : ∀ payload elem rest, pop payload = .ok (some (elem, some rest)) → Announces rest)
    (hpush : ∀ old elem payload, push old elem = .ok payload → Announces payload) :
    (moveCore src dst pop push).Fills := by
  refine ⟨fun err => trivial, fun old => ?_⟩
  cases old with
  | none => trivial
  | some e =>
    dsimp only
    split
    · trivial
    · trivial
    · next elem rest hp =>
      refine ⟨fun err => trivial, fun oldDst => ?_⟩
      dsimp only
      split
      · trivial
      · next payload hq =>
        have hfill := hpush _ _ _ hq
        split
        · exact ⟨hfill, fills_orOom trivial⟩
        · refine ⟨hfill, fills_orOom ?_⟩
          cases rest with
          | none => trivial
          | some => exact ⟨hpop _ _ _ hp, fills_orOom trivial⟩

theorem smove_fills {remove : Bytes → Except Reply (Option (Option Bytes))}
    {add : Option Bytes → Except Reply Bytes}
    (hremove : ∀ payload rest, remove payload = .ok (some (some rest)) → Announces rest)
    (hadd : ∀ old payload, add old = .ok payload → Announces payload) :
    (smove src dst remove add).Fills := by
  refine ⟨fun err => trivial, fun old => ?_⟩
  cases old with
  | none => trivial
  | some e =>
    dsimp only
    split
    · trivial
    · trivial
    · next rest hr =>
      split
      · trivial
      · refine ⟨fun err => trivial, fun oldDst => ?_⟩
        dsimp only
        split
        · trivial
        · next payload ha =>
          have hfill := hadd _ _ ha
          cases rest with
          | none => exact ⟨hfill, fills_orOom trivial⟩
          | some =>
            refine ⟨hremove _ _ hr, fills_orOom ?_⟩
            exact ⟨hfill, fills_orOom trivial⟩

theorem writeZSet_fills {hkey : key ∈ seen} {payload : Option Bytes} {reply : Reply}
    (h : ∀ bytes ∈ payload, Announces bytes) : (writeZSet key hkey payload reply).Fills := by
  cases payload with
  | none => trivial
  | some bytes => exact ⟨h bytes rfl, fills_orOom trivial⟩

theorem zrangestore_fills {range : β → Option Bytes × Int64}
    (h : ∀ z, ∀ payload ∈ (range z).1, Announces payload) :
    (zrangestore dst src dec range).Fills := by
  refine ⟨fun err => trivial, fun old => fills_decoded fun b => ?_⟩
  cases b with
  | none => trivial
  | some z =>
    refine ⟨fun err => trivial, fun oldDst => fills_decoded fun _ => ?_⟩
    exact writeZSet_fills (h z)

theorem storeZSetOp_fills {op : List (Option β) → Option Bytes × Int64}
    (h : ∀ sets, ∀ payload ∈ (op sets).1, Announces payload) :
    (storeZSetOp dst keys dec op).Fills := by
  refine ⟨fun err => trivial, fun old => fills_decoded fun _ => ?_⟩
  apply fills_gather
  intro sets
  refine ⟨fun p hp => ?_, fills_orOom trivial⟩
  obtain ⟨payload, hpayload, rfl⟩ := Option.mem_map.mp hp
  exact h sets payload hpayload

end Fills

/-- What is left of the hash of a key when it is read at a given time. -/
def hashLeft (m : OrdMap Bytes Bytes) (key : Bytes) (now : Int64) : Option Fields :=
  match (probe m key).bind fun p => entryAt m (rawKey p key) with
  | none => none
  | some e =>
    if e.typ = typeHash then
      match decodeHash e.payload with
      | .error _ => none
      | .ok (fields, _) => some (eraseAll fields (staleFields (sidecarFields m key) now))
    else none

/-- Reading the hash of a key at any of the times leaves a field. -/
def HashSurvives (T : Int64 → Prop) (m : OrdMap Bytes Bytes) (key : Bytes) : Prop :=
  ∀ t, T t → ∀ fields ∈ hashLeft m key t, fields.isEmpty = false

theorem hashLeft_eq {p : Prefix} {e : Entry} {enc : UInt8} (hp : probe m key = some p)
    (he : entryAt m (rawKey p key) = some e) (ht : e.typ = typeHash)
    (hd : decodeHash e.payload = .ok (fields, enc)) (now : Int64) :
    hashLeft m key now = some (eraseAll fields (staleFields (sidecarFields m key) now)) := by
  simp [hashLeft, hp, Option.bind_some, he, ht, ite_true, hd]

theorem wp_writeHash_stores {expiry : Int64} (h : NoEmptyBut maxAlloc (hashKey key) m) (hok : ∀ m',
      NoEmptyBut maxAlloc (hashKey key) m' → (fields.isEmpty = false → NoEmpty maxAlloc m') → post
      .ok m') (hoom : ¬ U → ∀ m', Shrinks m m' → post .oom m') :
    (writeHash key fields expiry).wp (Stores U T) post m := by
  refine wp_set_stores (fun m' hs => hok m' ?_ fun hne => ?_) hoom
  · refine NoEmptyBut.shrinks (fun raw v hne hv => ?_) hs
    rw [getElem?_insert, if_neg (Ne.symm hne)] at hv
    exact h raw v hne hv
  · exact (h.insert (filled_encode maxAlloc _ expiry (announces_encodeHash hne))).shrinks hs

/-- Field deadlines are written only when there are some. -/
theorem wp_writeFieldExp_stores {exp : Fields} (hok : ∀ m', FillsOnly maxAlloc m m' → post .ok m')
    (hoom : ¬ U → ∀ m', Shrinks m m' → post .oom m') :
    (writeFieldExp key exp).wp (Stores U T) post m := by
  rw [writeFieldExp]
  split
  · rw [wp_bind]
    exact wp_stores (wp_delete.mpr (hok _ (fillsOnly_of_shrinks (shrinks_erase _))))
  · next hne =>
    have hfilled := filled_encode maxAlloc typeHash 0 (announces_encodeHash (by simpa using hne))
    exact wp_set_stores (fun m' hs => hok m' (fillsOnly_insert hfilled hs)) hoom

/-- Reading a hash. What is left is written back; when that is nothing, only an unlimited store may
go on from there. -/
theorem wp_readHash_stores {f : Except Failure (Option (Fields × Int64)) → Handler α}
    {post : α → OrdMap Bytes Bytes → Prop} (hT : ∃ t, T t) (h : NoEmpty maxAlloc m)
    (hleft : U ∨ HashSurvives T m key)
    (herror : ∀ err m', NoEmpty maxAlloc m' → (f (.error err)).wp (Stores U T) post m')
    (hnone : ∀ m', NoEmpty maxAlloc m' → (f (.ok none)).wp (Stores U T) post m')
    (hsome : ∀ t fields expiry m', T t → hashLeft m key t = some fields →
      NoEmptyBut maxAlloc (hashKey key) m' → (fields.isEmpty = false → NoEmpty maxAlloc m') →
        (f (.ok (some (fields, expiry)))).wp (Stores U T) post m') :
    (readHash key >>= f).wp (Stores U T) post m := by
  obtain ⟨t₀, ht₀⟩ := hT
  rw [wp_bind]
  refine wp_lookup_stores (fun m' hs => hnone m' (h.shrinks hs)) (fun err => herror err m h) ?_
  intro p e hp he
  dsimp only
  split
  · exact herror _ m h
  · next ht =>
    have ht : e.typ = typeHash := by simpa using ht
    cases hd : decodeHash e.payload with
    | error => exact herror _ m h
    | ok r =>
      obtain ⟨fields, enc⟩ := r
      have hread := hashLeft_eq hp he ht hd
      rw [wp_bind]
      refine wp_stores (wp_readFieldExp.mpr ?_)
      split
      · next hexp =>
        have hsame := hread t₀
        rw [ExtTreeMap.isEmpty_iff.mp hexp] at hsame
        exact hsome t₀ fields _ m ht₀ hsame h.but fun _ => h
      · rw [wp_bind]
        refine wp_stores (wp_now.mpr fun t htime => ?_)
        split
        · next hstale =>
          have hsame := hread t
          rw [hstale] at hsame
          exact hsome t fields _ m htime hsame h.but fun _ => h
        · rw [wp_bind]
          apply wp_writeHash_stores h.but
          · intro m₁ hbut hfull
            rw [wp_bind]
            apply wp_writeFieldExp_stores
            · intro m₂ hf
              exact hsome t _ _ m₂ htime (hread t) (hbut.fills hf) fun hne => (hfull hne).fills hf
            · -- a refused write: then something was left, so the record just written has fields
              intro hU m₂ hs
              have hne := (hleft.resolve_left hU) t htime _ (hread t)
              exact herror _ m₂ ((hfull hne).shrinks hs)
          · exact fun _ m₁ hs => herror _ m₁ (h.shrinks hs)

/-- A command that writes a hash with fields whenever it writes. It may start from what reading left
when that is nothing, if it is sure to write. -/
theorem updateHash_noEmpty {f : Fields → Except Reply (Fields × Reply)} (hT : ∃ t, T t)
    (h : NoEmpty maxAlloc m)
    (hf : ∀ fields fields' reply, f fields = .ok (fields', reply) → fields'.isEmpty = false)
    (hleft : HashSurvives T m key ∨ U ∧ ∃ r, f ∅ = .ok r) :
    (updateHash key f).wp (Stores U T) (fun _ m' => NoEmpty maxAlloc m') m := by
  refine wp_readHash_stores hT h (hleft.symm.imp_left And.left) (fun err m' h' => h') ?_ ?_
  · intro m' h'
    dsimp only [Option.getD_none]
    cases hr : f ∅ with
    | error => exact h'
    | ok =>
      refine wp_writeHash_stores h'.but (fun m₁ _ hfull => hfull (hf _ _ _ hr)) ?_
      exact fun _ m₁ hs => h'.shrinks hs
  · intro t fields expiry m' ht hread hbut hfull
    dsimp only [Option.getD_some]
    have hkept : HashSurvives T m key → NoEmpty maxAlloc m' := fun hs => hfull (hs t ht fields hread)
    cases hr : f fields with
    | error =>
      rcases hleft with hs | ⟨-, r, hr₀⟩
      · exact hkept hs
      · apply hfull
        rw [← Bool.not_eq_true]
        intro hempty
        rw [ExtTreeMap.isEmpty_iff.mp hempty, hr₀] at hr
        cases hr
    | ok =>
      refine wp_writeHash_stores hbut (fun m₁ _ hfull => hfull (hf _ _ _ hr)) fun hU m₁ hs => ?_
      exact (hkept (hleft.resolve_right fun hr => hU hr.1)).shrinks hs

/-- Field deadlines may be written beside anything. -/
theorem writeFieldExp_noEmpty {exp : Fields} {reply : Reply} (h : NoEmpty maxAlloc m) :
    (do
      match ← writeFieldExp key exp with
      | .oom => pure Failure.oom.reply
      | .ok => pure reply : Handler Reply).wp (Stores U T) (fun _ m' => NoEmpty maxAlloc m') m := by
  rw [wp_bind]
  apply wp_writeFieldExp_stores
  · exact fun m' hf => h.fills hf
  · exact fun _ m' hs => h.shrinks hs

/-- What every step establishes holds after at least one of them. -/
theorem foldl_cons_of_step {σ ε : Type} {P : σ → Prop} {g : σ → ε → σ} (hg : ∀ s e, P (g s e))
    (s : σ) (e : ε) (es : List ε) : P ((e :: es).foldl g s) := by
  induction es generalizing s e with
  | nil => exact hg s e
  | cons e' es ih => exact ih (g s e) e'

/-- Zero can be changed by any amount. -/
theorem no_overflow_from_zero {delta : Int64} :
    ¬ ((0 < delta ∧ 9223372036854775807 - delta < 0) ∨
      (delta < 0 ∧ 0 < -9223372036854775808 - delta)) := by
  have hlo := delta.le_toInt
  have hhi := delta.toInt_lt
  have hzero : (0 : Int64).toInt = 0 := rfl
  have hmax : (9223372036854775807 : Int64).toInt = 9223372036854775807 := rfl
  have hmin : (-9223372036854775808 : Int64).toInt = -9223372036854775808 := rfl
  simp only [Int64.lt_iff_toInt_lt, Int64.toInt_sub, hzero, hmax, hmin]
  rintro (⟨hpos, hlt⟩ | ⟨hneg, hlt⟩)
  · rw [Int.bmod_eq_of_le (by omega) (by omega)] at hlt
    omega
  · rw [Int.bmod_eq_of_le (by omega) (by omega)] at hlt
    omega

section

variable (hT : ∃ t, T t) (h : NoEmpty maxAlloc m) (hleft : HashSurvives T m key ∨ U)
include hT h hleft

theorem hset_noEmpty :
    (hset key (pair :: pairs)).wp (Stores U T) (fun _ m' => NoEmpty maxAlloc m') m := by
  refine updateHash_noEmpty hT h (fun fields fields' reply hr => ?_)
    (hleft.imp_right fun hU => ⟨hU, _, rfl⟩)
  cases hr
  exact foldl_cons_of_step (P := fun acc : Fields × Int64 => acc.1.isEmpty = false)
    (fun acc e => isEmpty_insert) _ pair pairs

theorem hmset_noEmpty :
    (hmset key (pair :: pairs)).wp (Stores U T) (fun _ m' => NoEmpty maxAlloc m') m := by
  refine updateHash_noEmpty hT h (fun fields fields' reply hr => ?_)
    (hleft.imp_right fun hU => ⟨hU, _, rfl⟩)
  cases hr
  exact foldl_cons_of_step (P := fun acc : Fields => acc.isEmpty = false)
    (fun acc e => isEmpty_insert) _ pair pairs

theorem hsetnx_noEmpty {value : Bytes} :
    (hsetnx key field value).wp (Stores U T) (fun _ m' => NoEmpty maxAlloc m') m := by
  refine updateHash_noEmpty hT h (fun fields fields' reply hr => ?_)
    (hleft.imp_right fun hU => ⟨hU, _, if_neg (by simp)⟩)
  split at hr
  · cases hr
  · cases hr
    exact isEmpty_insert

theorem hincrby_noEmpty {delta : Int64} :
    (hincrby key field delta).wp (Stores U T) (fun _ m' => NoEmpty maxAlloc m') m := by
  refine updateHash_noEmpty hT h (fun fields fields' reply hr => ?_)
    (hleft.imp_right fun hU => ⟨hU, _, if_neg no_overflow_from_zero⟩)
  split at hr
  · cases hr
  · split at hr
    · cases hr
    · cases hr
      exact isEmpty_insert

end

theorem hincrbyfloat_noEmpty (hT : ∃ t, T t) (h : NoEmpty maxAlloc m)
    {add : Option Bytes → Option Bytes} (hleft : HashSurvives T m key ∨ U ∧ (add none).isSome) :
    (hincrbyfloat key field add).wp (Stores U T) (fun _ m' => NoEmpty maxAlloc m') m := by
  refine updateHash_noEmpty hT h (fun fields fields' reply hr => ?_)
    (hleft.imp_right fun hU => ⟨hU.1, ?_⟩)
  · split at hr
    · cases hr
    · cases hr
      exact isEmpty_insert
  · obtain ⟨out, hout⟩ := Option.isSome_iff_exists.mp hU.2
    refine ⟨((∅ : Fields).insert field out, .bulk out), ?_⟩
    rw [ExtTreeMap.getElem?_empty, hout]

/-- Erasing fields leaves an empty hash only when one of them was there, or none was there at all. -/
theorem isEmpty_eraseAll (h : fields.isEmpty = false)
    (hsize : ¬ ((eraseAll fields names).isEmpty ∧ 0 < fields.size - (eraseAll fields names).size)) :
    (eraseAll fields names).isEmpty = false := by
  rw [← Bool.not_eq_true]
  intro hempty
  rw [ExtTreeMap.isEmpty_iff.mp hempty] at hsize
  have hpos : 0 < fields.size := by
    rw [← ExtTreeMap.length_toList]
    exact List.length_pos_iff.mpr (toList_ne_nil h)
  exact hsize ⟨ExtTreeMap.isEmpty_empty, hpos⟩

theorem hdel_noEmpty (hT : ∃ t, T t) (h : NoEmpty maxAlloc m) (hleft : HashSurvives T m key) :
    (hdel key names).wp (Stores U T) (fun _ m' => NoEmpty maxAlloc m') m := by
  refine wp_readHash_stores hT h (.inr hleft) (fun err m' h' => h') (fun m' h' => h') ?_
  intro t fields expiry m' ht hread _ hfull
  have hne := hleft t ht fields hread
  have h' := hfull hne
  dsimp only
  rw [wp_bind]
  refine wp_stores (wp_readFieldExp.mpr ?_)
  split
  · rw [wp_bind]
    refine wp_stores (wp_delete.mpr ?_)
    split
    · exact writeFieldExp_noEmpty h'.erase
    · exact h'.erase
  · next hsize =>
    refine wp_writeHash_stores h'.but (fun m₁ _ hfull => ?_) fun _ m₁ hs => h'.shrinks hs
    have h₁ := hfull (isEmpty_eraseAll hne hsize)
    dsimp only
    split
    · exact writeFieldExp_noEmpty h₁
    · exact h₁

theorem hpersist_noEmpty (hT : ∃ t, T t) (h : NoEmpty maxAlloc m) (hleft : HashSurvives T m key) :
    (hpersist key names).wp (Stores U T) (fun _ m' => NoEmpty maxAlloc m') m := by
  refine wp_readHash_stores hT h (.inr hleft) (fun err m' h' => h') (fun m' h' => h') ?_
  intro t fields expiry m' ht hread _ hfull
  have h' := hfull (hleft t ht fields hread)
  rw [wp_bind]
  refine wp_stores (wp_readFieldExp.mpr ?_)
  split
  · exact writeFieldExp_noEmpty h'
  · exact h'

/-- A field that is not named stays, and no field goes for a deadline in the future. -/
theorem hexpire_keeps_field (cond : ExpireCond) {exp now : Int64} {f : Bytes}
    (h : now < exp ∨ f ∉ names) (s : HexpireState) (hf : f ∈ s.m) :
    f ∈ (names.foldl (hexpireField cond exp now) s).m := by
  induction names generalizing s with
  | nil => exact hf
  | cons name names ih =>
    refine ih (h.imp_right List.not_mem_of_not_mem_cons) _ ?_
    rw [hexpireField]
    split
    · exact hf
    · split
      · exact hf
      · split
        · next hpast =>
          rcases h with h | h
          · exact absurd hpast (Int64.not_le.mpr h)
          · exact ExtTreeMap.mem_erase.mpr ⟨by simpa using (List.ne_of_not_mem_cons h).symm, hf⟩
        · exact hf

/-- Setting deadlines leaves a field: the deadline lies in the future, or a field that is left by
reading is not named. -/
def HexpireSurvives (T : Int64 → Prop) (m : OrdMap Bytes Bytes) (kind : ExpireKind) (key : Bytes)
    (n : Int64) (names : List Bytes) : Prop :=
  ∀ t t' t'', T t → T t' → T t'' → ∀ fields ∈ hashLeft m key t',
    ∃ f ∈ fields, t'' < kind.deadline n t ∨ f ∉ names

theorem HexpireSurvives.hash {kind : ExpireKind} {n : Int64}
    (h : HexpireSurvives T m kind key n names) : HashSurvives T m key := by
  intro t ht fields hread
  obtain ⟨f, hf, -⟩ := h t t t ht ht ht fields hread
  exact isEmpty_eq_false_iff.mpr ⟨f, hf⟩

theorem hexpire_noEmpty (hT : ∃ t, T t) (h : NoEmpty maxAlloc m) {kind : ExpireKind} {n : Int64}
    (hleft : HexpireSurvives T m kind key n names) {cond : ExpireCond} :
    (hexpire kind key n cond names).wp (Stores U T) (fun _ m' => NoEmpty maxAlloc m') m := by
  rw [hexpire, wp_bind]
  refine wp_stores (wp_readDeadline fun d hd => ?_)
  obtain ⟨t₀, ht₀⟩ := hT
  obtain ⟨t, ht, rfl⟩ := hd t₀ ht₀
  refine wp_readHash_stores ⟨t₀, ht₀⟩ h (.inr hleft.hash) (fun err m' h' => h') (fun m' h' => h') ?_
  intro t' fields expiry m' ht' hread _ hfull
  have h' := hfull (hleft.hash t' ht' fields hread)
  dsimp only
  rw [wp_bind]
  refine wp_stores (wp_readFieldExp.mpr ?_)
  rw [wp_bind]
  refine wp_stores (wp_now.mpr fun t'' ht'' => ?_)
  obtain ⟨f, hf, hstays⟩ := hleft t t' t'' ht ht' ht'' fields hread
  have hkept := hexpire_keeps_field cond hstays ⟨fields, sidecarFields m' key, false, false, []⟩ hf
  split
  · rw [wp_bind]
    refine wp_writeHash_stores h'.but (fun m₁ _ hfull => ?_) fun _ m₁ hs => h'.shrinks hs
    have h₁ := hfull (isEmpty_eq_false_iff.mpr ⟨f, hkept⟩)
    dsimp only
    split
    · exact writeFieldExp_noEmpty h₁
    · exact h₁
  · split
    · exact writeFieldExp_noEmpty h'
    · exact h'

end Gedis.Commands
