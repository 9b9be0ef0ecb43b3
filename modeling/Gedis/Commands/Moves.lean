import Gedis.Commands.Lists
import Gedis.Commands.OneRecord
import Gedis.Commands.Running
import Gedis.Datastruct.Emptiness

/-!
# Moving elements between lists

`LMOVE` reads the source, then the destination, and writes the destination before the source. With
two different keys the elements are conserved as long as making room for the rest of the source
spares the destination. With one key the second read still finds the element that is moved.
-/

namespace Gedis.Commands.Lists

open Gedis.Core Datastruct Storage Std List Option

variable {elems rest : List Bytes} {w' : World} {tail : Bool} {x : Bytes}

/-- Add an element at one end. -/
def attach (tail : Bool) (x : Bytes) (elems : List Bytes) : List Bytes :=
  if tail then elems ++ [x] else x :: elems

theorem takeEnd_attach (tail : Bool) (x : Bytes) (rest : List Bytes) :
    takeEnd tail 1 (attach tail x rest) = ([x], rest) := by
  cases tail <;> simp [takeEnd, attach]

theorem exists_attach (tail : Bool) (h : elems ≠ []) : ∃ x rest, elems = attach tail x rest := by
  cases tail with
  | false =>
    obtain ⟨x, rest, rfl⟩ := exists_cons_of_ne_nil h
    exact ⟨x, rest, rfl⟩
  | true => exact ⟨elems.getLast h, elems.dropLast, (dropLast_append_getLast h).symm⟩

theorem attach_inj {y : Bytes} {rest' : List Bytes} :
    attach tail x rest = attach tail y rest' ↔ x = y ∧ rest = rest' := by
  constructor
  · intro h
    have he := takeEnd_attach tail x rest
    rw [h, takeEnd_attach] at he
    simp only [Prod.mk.injEq, cons.injEq, and_true] at he
    exact ⟨he.1.symm, he.2.symm⟩
  · rintro ⟨rfl, rfl⟩
    rfl

theorem attach_ne_nil : attach tail x rest ≠ [] := by
  cases tail <;> simp [attach]

theorem attach_perm : (attach tail x rest).Perm (x :: rest) := by
  cases tail with
  | false => rfl
  | true => exact perm_append_singleton ..

/-- The count in front of the elements tells lists of neighbouring lengths apart. -/
theorem length_of_encodeList_eq {xs ys : List Bytes} (h : encodeList xs = encodeList ys) :
    xs.length % 2 ^ 64 = ys.length % 2 ^ 64 := by
  have hcount (n : Nat) (rest : Bytes) :
      (uvarint (appendUvarint n ++ rest)).map Prod.fst = some (n % 2 ^ 64) := by
    have hmod : appendUvarint n = appendUvarint (n % 2 ^ 64) := by simp [appendUvarint]
    rw [hmod, uvarint_appendUvarint (Nat.mod_lt _ (by decide))]
    rfl
  have htail : appendUvarint xs.length ++ xs.flatMap prefixed =
      appendUvarint ys.length ++ ys.flatMap prefixed := (cons.inj h).2
  have he := hcount xs.length (xs.flatMap prefixed)
  rw [htail, hcount] at he
  exact (some.inj he).symm

theorem length_of_decodeList {maxAlloc : Nat} {raw : Bytes}
    (h : (decodeList maxAlloc raw).result = .ok elems) : elems.length < 2 ^ 64 := by
  obtain ⟨adv, hadv⟩ := announced_decodeList h
  cases raw with
  | nil => cases hadv
  | cons => exact (uvarint_bounds hadv).2.2.2.1

section Move

variable (maxAlloc : Nat)

/-- The elements of the list that a lookup finds; none when the key is missing. -/
def listOf : Found → Option (List Bytes)
  | .missing => some []
  | .failed _ => none
  | .record p e =>
    if p = .l ∧ e.typ = typeList then
      match (decodeList maxAlloc e.payload).result with
      | .ok elems => some elems
      | .error _ => none
    else none

/-- The deadline of what a lookup finds. -/
def expiryOf : Found → Int64
  | .record _ e => e.expiry
  | _ => 0

/-- The record of a list. -/
def listRecord (expiry : Int64) (elems : List Bytes) : Bytes :=
  encode typeList expiry (encodeList elems)

/-- A key holds a list with the given elements; an empty list has no record. -/
def ListAt (m : OrdMap Bytes Bytes) (key : Bytes) (elems : List Bytes) : Prop :=
  if elems = [] then m[rawKey .l key]? = none
  else ∃ expiry, m[rawKey .l key]? = some (listRecord expiry elems)

/-- The store once the elements of the destination have been written. -/
def pushed (w : World) (src dst : Bytes) (elems : List Bytes) : Pebble :=
  (((w.seen src).seen dst).store.set (rawKey .l dst)
    (listRecord (expiryOf ((w.seen src).found dst)) elems)).1

/-- The store once it has made room for what is left of the source. -/
def cleared (w : World) (src dst : Bytes) (elems rest : List Bytes) : Pebble :=
  ((pushed w src dst elems).makeRoom (rawKey .l src) (listRecord (expiryOf (w.found src)) rest)).1

theorem listOf_record {found : Found} (h : listOf maxAlloc found = some elems) :
    found = .missing ∧ elems = [] ∨ ∃ e, found = .record .l e ∧ e.typ = typeList ∧
      (decodeList maxAlloc e.payload).result = .ok elems := by
  cases found with
  | missing => exact .inl ⟨rfl, (some.inj h).symm⟩
  | failed => cases h
  | record p e =>
    rw [listOf] at h
    split at h
    · next hl =>
      obtain ⟨rfl, ht⟩ := hl
      split at h
      · next hd => exact .inr ⟨e, rfl, ht, by rw [hd, ← some.inj h]⟩
      · cases h
    · cases h

theorem decoded_list {payload : Bytes} (h : (decodeList maxAlloc payload).result = .ok elems) :
    decoded (decodeList maxAlloc) ⟨typeList, 0, payload⟩ = .ok elems := by
  rw [decoded, h]

variable {maxAlloc} {w : World} {src dst x : Bytes} {fromTail toTail : Bool}
  {srcElems dstElems : List Bytes}

/-- What the second half of a move does: the destination has been read and is written first. -/
theorem exec_move {e : Entry} (he : w.found src = .record .l e) (htyp : e.typ = typeList)
    (hd : (decodeList maxAlloc e.payload).result = .ok (attach fromTail x rest))
    (hdst : listOf maxAlloc ((w.seen src).found dst) = some dstElems) :
    (move maxAlloc src dst fromTail toTail).handler.exec World.answer w =
      let w₂ := (w.seen src).seen dst
      let found := (w.seen src).found dst
      let record := listRecord (if src = dst then e.expiry else expiryOf found)
        (attach toTail x dstElems)
      let w₃ := w₂.next (.set (rawKey .l dst) record)
      match (w₂.store.set (rawKey .l dst) record).2 with
      | .oom => (w₃, Failure.oom.reply)
      | .ok =>
        if src = dst then (w₃, .bulk x)
        else if rest = [] then (w₃.next (.delete (rawKey .l src)), .bulk x)
        else (w₃.next (.set (rawKey .l src) (listRecord e.expiry rest)),
          granted (.bulk x) (w₃.store.set (rawKey .l src) (listRecord e.expiry rest)).2) := by
  have hread : Kind.list.read (w.found src) = .ok (some e) := by
    rw [he]
    exact if_pos htyp
  have hold : ∃ old : Option Entry, Kind.list.read ((w.seen src).found dst) = .ok old ∧
      oldExpiry old = expiryOf ((w.seen src).found dst) ∧
      (old.map Entry.payload).elim (.ok []) (fun payload =>
        decoded (decodeList maxAlloc) ⟨typeList, 0, payload⟩) = .ok dstElems := by
    rcases listOf_record maxAlloc hdst with ⟨hfound, rfl⟩ | ⟨e', hfound, htyp', hd'⟩
    · rw [hfound]
      exact ⟨none, rfl, rfl, rfl⟩
    · rw [hfound]
      exact ⟨some e', if_pos htyp', rfl, decoded_list maxAlloc hd'⟩
  obtain ⟨old, hload, hexpiry, hpush⟩ := hold
  rw [move, moveCore, exec_load, hread]
  dsimp only
  rw [decoded_list maxAlloc hd]
  simp only [bind, Except.bind, pure, Except.pure, takeEnd_attach, head?_cons, map_some]
  rw [exec_load, hload]
  dsimp only
  rw [hpush]
  rw [hexpiry]
  by_cases hsame : src = dst
  · simp only [if_pos hsame]
    rw [exec_store_orOom]
    rfl
  · simp only [if_neg hsame]
    rw [exec_store_orOom]
    by_cases hrest : rest = []
    · simp only [if_pos hrest]
      rfl
    · simp only [if_neg hrest]
      have hlast (w' : World) : (w'.next (.set (rawKey .l src) (listRecord e.expiry rest)),
          granted (.bulk x) (w'.store.set (rawKey .l src) (listRecord e.expiry rest)).2) =
          match (w'.store.set (rawKey .l src) (listRecord e.expiry rest)).2 with
          | .oom => (w'.next (.set (rawKey .l src) (listRecord e.expiry rest)), Failure.oom.reply)
          | .ok => (w'.next (.set (rawKey .l src) (listRecord e.expiry rest)), .bulk x) := by
        cases (w'.store.set (rawKey .l src) (listRecord e.expiry rest)).2 <;> rfl
      rw [exec_store_orOom, hlast]
      rfl

/-- What a move that replies with an element has written. -/
theorem move_wrote (hsrc : listOf maxAlloc (w.found src) = some srcElems)
    (hdst : listOf maxAlloc ((w.seen src).found dst) = some dstElems)
    (hrun : (move maxAlloc src dst fromTail toTail).handler.exec World.answer w = (w', .bulk x)) :
    ∃ rest, srcElems = attach fromTail x rest ∧
      (src = dst ∧ (∃ expiry, w'.store.db[rawKey .l dst]? =
          some (listRecord expiry (attach toTail x dstElems))) ∨
        src ≠ dst ∧ (∃ expiry, (pushed w src dst (attach toTail x dstElems)).db[rawKey .l dst]? =
            some (listRecord expiry (attach toTail x dstElems))) ∧
          w'.store.db =
            if rest = [] then (pushed w src dst (attach toTail x dstElems)).db.erase (rawKey .l src)
            else (cleared w src dst (attach toTail x dstElems) rest).db.insert (rawKey .l src)
              (listRecord (expiryOf (w.found src)) rest)) := by
  rcases listOf_record maxAlloc hsrc with ⟨hfound, -⟩ | ⟨e, hfound, htyp, hd⟩
  · rw [move, moveCore, exec_load, hfound] at hrun
    cases hrun
  by_cases hempty : srcElems = []
  · have hread : Kind.list.read (w.found src) = .ok (some e) := by
      rw [hfound]
      exact if_pos htyp
    rw [move, moveCore, exec_load, hread] at hrun
    dsimp only at hrun
    rw [decoded_list maxAlloc hd, hempty] at hrun
    cases fromTail <;> cases hrun
  obtain ⟨y, rest, rfl⟩ := exists_attach fromTail hempty
  rw [exec_move hfound htyp hd hdst] at hrun
  by_cases hsame : src = dst
  · simp only [if_pos hsame] at hrun
    split at hrun
    · cases hrun
    · next hset =>
      cases hrun
      refine ⟨rest, rfl, .inl ⟨hsame, e.expiry, ?_⟩⟩
      rw [World.store_next_set, db_set_of_ok hset]
      exact ExtTreeMap.getElem?_insert_self
  · simp only [if_neg hsame] at hrun
    split at hrun
    · cases hrun
    · next hset =>
      have hexpiry : expiryOf (w.found src) = e.expiry := by rw [hfound]; rfl
      have hpushed : ∃ expiry, (pushed w src dst (attach toTail y dstElems)).db[rawKey .l dst]? =
          some (listRecord expiry (attach toTail y dstElems)) := by
        refine ⟨expiryOf ((w.seen src).found dst), ?_⟩
        rw [pushed, db_set_of_ok hset]
        exact ExtTreeMap.getElem?_insert_self
      by_cases hrest : rest = []
      · rw [if_pos hrest] at hrun
        cases hrun
        refine ⟨rest, rfl, .inr ⟨hsame, hpushed, ?_⟩⟩
        rw [if_pos hrest, World.db_next_delete]
        rfl
      · rw [if_neg hrest] at hrun
        obtain ⟨hworld, hreply⟩ := Prod.mk.inj hrun
        obtain ⟨hlast, hx⟩ := ok_of_granted hreply nofun
        cases hx
        refine ⟨rest, rfl, .inr ⟨hsame, hpushed, ?_⟩⟩
        rw [if_neg hrest, ← hworld, World.store_next_set, db_set_of_ok hlast, hexpiry]
        rfl

/-- The element went from the chosen end of the source to the chosen end of the destination, and
both lists together hold what they held before. -/
def Conserved (m : OrdMap Bytes Bytes) (src dst : Bytes) (fromTail toTail : Bool) (x : Bytes)
    (srcElems dstElems : List Bytes) : Prop :=
  ∃ rest, srcElems = attach fromTail x rest ∧
    if src = dst then
      ListAt m src (attach toTail x rest) ∧ (attach toTail x rest).Perm srcElems
    else
      ListAt m dst (attach toTail x dstElems) ∧ ListAt m src rest ∧
        (rest ++ attach toTail x dstElems).Perm (srcElems ++ dstElems)

theorem listAt_attach {m : OrdMap Bytes Bytes} {key : Bytes} : ListAt m key (attach tail x elems) ↔
      ∃ expiry, m[rawKey .l key]? = some (listRecord expiry (attach tail x elems)) := by
  rw [ListAt, if_neg attach_ne_nil]

theorem length_attach : (attach tail x rest).length = rest.length + 1 := attach_perm.length_eq

section

variable (hsrc : listOf maxAlloc (w.found src) = some srcElems)
include hsrc

/-- A key that is read twice holds the same list the second time, unless it has expired. -/
theorem reread (hne : srcElems ≠ [])
    (hdst : listOf maxAlloc ((w.seen src).found src) = some dstElems) :
    (w.seen src).found src = .missing ∧ dstElems = [] ∨
      (w.seen src).found src ≠ .missing ∧ dstElems = srcElems := by
  rcases listOf_record maxAlloc hdst with hmissing | ⟨e', hfound', -, hd'⟩
  · exact .inl hmissing
  rcases listOf_record maxAlloc hsrc with ⟨-, hnil⟩ | ⟨e, hfound, -, hd⟩
  · exact absurd hnil hne
  obtain ⟨-, he, -, hdb⟩ := World.found_record hfound
  obtain ⟨-, he', -, -⟩ := World.found_record hfound'
  rw [hdb, he] at he'
  cases he'
  rw [hd] at hd'
  cases hd'
  exact .inr ⟨by rw [hfound']; nofun, rfl⟩

/-- With one key the element is written next to what the second read has found. -/
theorem conserved_same_iff (hdst : listOf maxAlloc ((w.seen src).found src) = some dstElems)
    (hrun : (move maxAlloc src src fromTail toTail).handler.exec World.answer w = (w', .bulk x)) :
    Conserved w'.store.db src src fromTail toTail x srcElems dstElems ↔
      (w.seen src).found src = .missing ∧ srcElems.length = 1 := by
  obtain ⟨rest, rfl, ⟨-, expiry, hstored⟩ | ⟨hne, -⟩⟩ := move_wrote hsrc hdst hrun
  swap
  · exact absurd rfl hne
  have hne : attach fromTail x rest ≠ [] := attach_ne_nil
  have hshort : rest.length + 1 < 2 ^ 64 := by
    rcases listOf_record maxAlloc hsrc with ⟨-, hnil⟩ | ⟨e, -, -, hd⟩
    · exact absurd hnil hne
    · rw [← length_attach]
      exact length_of_decodeList hd
  have hlist : Conserved w'.store.db src src fromTail toTail x (attach fromTail x rest) dstElems ↔
      encodeList (attach toTail x dstElems) = encodeList (attach toTail x rest) := by
    constructor
    · rintro ⟨rest', hrest, hafter⟩
      rw [if_pos rfl] at hafter
      obtain ⟨-, rfl⟩ := attach_inj.mp hrest
      obtain ⟨expiry', hstored'⟩ := listAt_attach.mp hafter.1
      rw [hstored, some.injEq] at hstored'
      have hentry := congrArg decode hstored'
      rw [listRecord, listRecord, decode_encode, decode_encode, some.injEq] at hentry
      exact congrArg Entry.payload hentry
    · intro he
      refine ⟨rest, rfl, ?_⟩
      rw [if_pos rfl, listAt_attach]
      refine ⟨⟨expiry, ?_⟩, attach_perm.trans attach_perm.symm⟩
      rw [hstored, listRecord, he, listRecord]
  rw [hlist, length_attach]
  rcases reread hsrc hne hdst with ⟨hmissing, rfl⟩ | ⟨hfound, rfl⟩
  · constructor
    · intro he
      have hlen := length_of_encodeList_eq he
      rw [length_attach, length_attach, length_nil] at hlen
      exact ⟨hmissing, by omega⟩
    · rintro ⟨-, hone⟩
      rw [eq_nil_of_length_eq_zero (by omega : rest.length = 0)]
  · constructor
    · intro he
      have hlen := length_of_encodeList_eq he
      rw [length_attach, length_attach, length_attach] at hlen
      omega
    · rintro ⟨hmissing, -⟩
      exact absurd hmissing hfound

/-- With two keys the destination has to outlast the room made for the rest of the source. -/
theorem conserved_other_iff (hdst : listOf maxAlloc ((w.seen src).found dst) = some dstElems)
    (hother : src ≠ dst)
    (hrun : (move maxAlloc src dst fromTail toTail).handler.exec World.answer w = (w', .bulk x)) :
    Conserved w'.store.db src dst fromTail toTail x srcElems dstElems ↔
      srcElems.length = 1 ∨ rawKey .l dst ∈ (cleared w src dst (attach toTail x dstElems)
        (takeEnd fromTail 1 srcElems).2).db := by
  obtain ⟨rest, rfl, ⟨hsame, -⟩ | ⟨-, ⟨expiry, hpushed⟩, hdb⟩⟩ := move_wrote hsrc hdst hrun
  · exact absurd hsame hother
  have hraw : rawKey .l src ≠ rawKey .l dst := fun he => hother (rawKey_inj.mp he).2
  have hperm : (rest ++ attach toTail x dstElems).Perm (attach fromTail x rest ++ dstElems) :=
    calc (rest ++ attach toTail x dstElems).Perm (rest ++ x :: dstElems) :=
          attach_perm.append_left rest
      List.Perm _ (x :: rest ++ dstElems) := perm_middle
      List.Perm _ (attach fromTail x rest ++ dstElems) :=
          attach_perm.symm.append_right dstElems
  have hafter : Conserved w'.store.db src dst fromTail toTail x (attach fromTail x rest) dstElems ↔
      ListAt w'.store.db dst (attach toTail x dstElems) ∧ ListAt w'.store.db src rest := by
    constructor
    · rintro ⟨rest', hrest, hafter⟩
      rw [if_neg hother] at hafter
      obtain ⟨-, rfl⟩ := attach_inj.mp hrest
      exact ⟨hafter.1, hafter.2.1⟩
    · rintro ⟨hd, hs⟩
      refine ⟨rest, rfl, ?_⟩
      rw [if_neg hother]
      exact ⟨hd, hs, hperm⟩
  rw [hafter, listAt_attach, takeEnd_attach, length_attach, hdb]
  by_cases hrest : rest = []
  · rw [if_pos hrest, OrdMap.getElem?_erase, if_neg hraw, hpushed, ListAt, if_pos hrest,
      OrdMap.getElem?_erase, if_pos rfl]
    exact iff_of_true ⟨⟨expiry, rfl⟩, rfl⟩ (.inl (by rw [hrest]; rfl))
  · have hlong : rest.length + 1 ≠ 1 := fun h => hrest (eq_nil_of_length_eq_zero (by omega))
    rw [if_neg hrest, OrdMap.getElem?_insert, if_neg hraw, ListAt, if_neg hrest,
      OrdMap.getElem?_insert, if_pos rfl, or_iff_right hlong, ExtTreeMap.mem_iff_isSome_getElem?]
    -- what making room leaves of the destination is the record just written
    rcases makeRoom_shrinks (pushed w src dst (attach toTail x dstElems)) (rawKey .l src)
      (listRecord (expiryOf (w.found src)) rest) (rawKey .l dst) with hkept | hgone
    · rw [cleared, hkept, hpushed]
      exact iff_of_true ⟨⟨expiry, rfl⟩, _, rfl⟩ rfl
    · rw [cleared, hgone]
      exact iff_of_false (fun h => nomatch h.1.choose_spec) Bool.false_ne_true

end

/-- A move conserves the elements exactly when it goes to another key whose list outlasts the room
made for the rest of the source; with one key it only does so for a single element that has
expired when it is read again. -/
theorem move_conserves_iff (hsrc : listOf maxAlloc (w.found src) = some srcElems)
    (hdst : listOf maxAlloc ((w.seen src).found dst) = some dstElems)
    (hreply : ((move maxAlloc src dst fromTail toTail).handler.exec World.answer w).2 = .bulk x) :
    Conserved ((move maxAlloc src dst fromTail toTail).handler.exec World.answer w).1.store.db
        src dst fromTail toTail x srcElems dstElems ↔
      if src = dst then (w.seen src).found dst = .missing ∧ srcElems.length = 1
      else srcElems.length = 1 ∨ rawKey .l dst ∈ (cleared w src dst (attach toTail x dstElems)
        (takeEnd fromTail 1 srcElems).2).db := by
  have hrun : (move maxAlloc src dst fromTail toTail).handler.exec World.answer w =
      (_, .bulk x) := Prod.ext rfl hreply
  by_cases hsame : src = dst
  · subst hsame
    rw [if_pos rfl]
    exact conserved_same_iff hsrc hdst hrun
  · rw [if_neg hsame]
    exact conserved_other_iff hsrc hdst hsame hrun

end Move

/-- `RPUSH a 1 2`, then `RPUSH b 3`, in a store without a memory limit. -/
def twoLists : World :=
  let w : World := ⟨emptyStore, fun _ => 1⟩
  let w := ((push 4096 false [97] [49] [[50]]).handler.exec World.answer w).1
  ((push 4096 false [98] [51] []).handler.exec World.answer w).1

theorem move_conserves_two_lists :
    listOf 4096 (twoLists.found [97]) = some [[49], [50]] ∧
      listOf 4096 ((twoLists.seen [97]).found [98]) = some [[51]] ∧
      ((move 4096 [97] [98] true false).handler.exec World.answer twoLists).2 = .bulk [50] ∧
      Conserved ((move 4096 [97] [98] true false).handler.exec World.answer twoLists).1.store.db
        [97] [98] true false [50] [[49], [50]] [[51]] := by
  have hsrc : listOf 4096 (twoLists.found [97]) = some [[49], [50]] := by decide +kernel
  have hdst : listOf 4096 ((twoLists.seen [97]).found [98]) = some [[51]] := by decide +kernel
  have hreply : ((move 4096 [97] [98] true false).handler.exec World.answer twoLists).2 =
      .bulk [50] := by decide +kernel
  exact ⟨hsrc, hdst, hreply, (move_conserves_iff hsrc hdst hreply).mpr (by decide +kernel)⟩

/-- `RPOPLPUSH a a` leaves the moved element at both ends. -/
theorem move_same_duplicates :
    listOf 4096 (twoLists.found [97]) = some [[49], [50]] ∧
      ((move 4096 [97] [97] true false).handler.exec World.answer twoLists).2 = .bulk [50] ∧
      ListAt ((move 4096 [97] [97] true false).handler.exec World.answer twoLists).1.store.db [97]
        [[50], [49], [50]] ∧
      ¬ Conserved ((move 4096 [97] [97] true false).handler.exec World.answer twoLists).1.store.db
        [97] [97] true false [50] [[49], [50]] [[49], [50]] := by
  have hsrc : listOf 4096 (twoLists.found [97]) = some [[49], [50]] := by decide +kernel
  have hdst : listOf 4096 ((twoLists.seen [97]).found [97]) = some [[49], [50]] := by
    decide +kernel
  have hreply : ((move 4096 [97] [97] true false).handler.exec World.answer twoLists).2 =
      .bulk [50] := by decide +kernel
  refine ⟨hsrc, hreply, ⟨0, by decide +kernel⟩, fun h => ?_⟩
  have hone := ((conserved_same_iff hsrc hdst (Prod.ext rfl hreply)).mp h).2
  exact absurd hone (by decide)

end Gedis.Commands.Lists
