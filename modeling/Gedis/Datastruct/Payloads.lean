import Gedis.Datastruct.Stream

/-!
# Payloads are read back

Every value that a container can have in memory is encoded, and the stored record is decoded to the
same tag, deadline and value. Texts are shorter than `2 ^ 63` bytes and slices are within what can be
allocated, as in every running program.
-/

namespace Gedis.Datastruct

open Gedis.Core Meter Std List

variable {maxAlloc : Nat} {rest : Bytes} {members : List Bytes} {p : Bytes × UInt64}
  {order : List Nat}

/-- A text that exists in memory. -/
def Fits (text : Bytes) : Prop := text.length < 2 ^ 63

instance (text : Bytes) : Decidable (Fits text) := inferInstanceAs (Decidable (_ < _))

theorem asInt_of_lt {n : Nat} (h : n < 2 ^ 63) : asInt n = n := if_pos h

/-- A text in memory is read back in front of any further input. -/
theorem result_readStr {text : Bytes} (h : Fits text) :
    (readStr (prefixed text ++ rest)).result = .ok (some (text, rest)) := by
  have hlt : text.length < 2 ^ 64 := Nat.lt_trans h (by decide)
  have hsplit : prefixed text ++ rest = appendUvarint text.length ++ (text ++ rest) := by
    rw [prefixed, append_assoc]
  rw [hsplit, readStr, uvarint_appendUvarint hlt]
  simp only [drop_left]
  rw [if_neg (by simp), asInt_of_lt h, slice_between _ _ _ rfl rfl,
    pure_bind, result_bind_ok result_alloc, ← append_assoc,
    slice_behind (by simp) rfl, pure_bind, result_pure]

/-- What a decoder reads back in front of any further input. -/
def ReadsBack {α : Type} (read : Bytes → Decoder (α × Bytes)) (put : α → Bytes) (x : α) : Prop :=
  ∀ rest, (read (put x ++ rest)).result = .ok (x, rest)

theorem readsBack_uint {n : UInt64} : ReadsBack readUvarint putUint n := by
  intro rest
  rw [readUvarint, putUint, uvarint_appendUvarint n.toNat_lt]
  simp

theorem readsBack_str {text : Bytes} (h : Fits text) : ReadsBack readStreamStr prefixed text := by
  intro rest
  rw [readStreamStr, result_bind_ok (result_readStr h), result_pure]

theorem readsBack_bool {b : Bool} : ReadsBack readBool putBool b := by
  intro rest
  have hn : putBool b = putUint (if b then 1 else 0) := by cases b <;> rfl
  cases b <;> rfl

theorem readsBack_id (id : StreamID) : ReadsBack readID putID id := by
  intro rest
  rw [readID, putID, append_assoc, result_bind_ok (readsBack_uint _)]
  rw [result_bind_ok (readsBack_uint rest), result_pure]

theorem foldl_append_singleton {α : Type} {xs acc : List α} :
    xs.foldl (fun acc x => acc ++ [x]) acc = acc ++ xs := by
  induction xs generalizing acc with
  | nil => rw [foldl_nil, append_nil]
  | cons x xs ih => rw [foldl_cons, ih, append_assoc, singleton_append]

/-- A list whose elements are all read back. -/
theorem readsBack_all {α : Type} {width : Nat} {read : Bytes → Decoder (α × Bytes)}
    {put : α → Bytes} {xs : List α} (hlen : xs.length < 2 ^ 63)
    (hxs : ∀ x ∈ xs, ReadsBack read put x) : ReadsBack (readAll width read) (putAll put) xs := by
  intro rest
  have hnat : (UInt64.ofNat xs.length).toNat = xs.length :=
    UInt64.toNat_ofNat_of_lt' (Nat.lt_trans hlen (by decide))
  have hcount : putAll put xs ++ rest = putUint (UInt64.ofNat xs.length) ++ (xs.flatMap put ++ rest) := by
    rw [putAll, putUint, hnat, append_assoc]
  have hbody : ∀ i (acc : List α) x rest, True → ReadsBack read put x →
      (appendBody width read i (acc, put x ++ rest)).result = .ok (acc ++ [x], rest) ∧ True := by
    intro i acc x rest _ hx
    refine ⟨?_, trivial⟩
    rw [appendBody, result_bind_ok (hx rest)]
    rw [result_bind_ok result_grow, result_pure]
  rw [readAll, hcount, result_bind_ok (readsBack_uint _)]
  dsimp only
  rw [hnat, result_loop_flatMap _ hbody hxs 0 [] trivial rest, foldl_append_singleton, nil_append]

/-- The texts and lists of a stream exist in memory. -/
structure Stream.InMemory (s : Stream) : Prop where
  entries : s.entries.length < 2 ^ 63
  fields : ∀ e ∈ s.entries, e.fields.length < 2 ^ 63 ∧ ∀ f ∈ e.fields, Fits f
  groups : s.groups.length < 2 ^ 63
  names : ∀ g ∈ s.groups, Fits g.name
  consumers : ∀ g ∈ s.groups, g.consumers.length < 2 ^ 63 ∧ ∀ c ∈ g.consumers, Fits c.name
  pel : ∀ g ∈ s.groups, g.pel.length < 2 ^ 63 ∧ ∀ p ∈ g.pel, Fits p.consumer

theorem readsBack_entry {e : StreamEntry} (hlen : e.fields.length < 2 ^ 63)
    (hfields : ∀ f ∈ e.fields, Fits f) : ReadsBack readEntry putEntry e := by
  intro rest
  rw [readEntry, putEntry, append_assoc, result_bind_ok (readsBack_id e.id _)]
  rw [result_bind_ok (readsBack_all hlen (fun f hf => readsBack_str (hfields f hf)) rest)]
  dsimp only
  rw [dif_pos e.even, result_pure]

theorem readsBack_consumer {c : StreamConsumer} (hname : Fits c.name) :
    ReadsBack readConsumer putConsumer c := by
  intro rest
  simp only [putConsumer, append_assoc]
  rw [readConsumer, result_bind_ok (readsBack_str hname _)]
  rw [result_bind_ok (readsBack_uint _)]
  rw [result_bind_ok (readsBack_bool _)]
  rw [result_bind_ok (readsBack_uint rest), result_pure]

theorem readsBack_pel {p : StreamPEL} (hname : Fits p.consumer) : ReadsBack readPEL putPEL p := by
  intro rest
  simp only [putPEL, append_assoc]
  rw [readPEL, result_bind_ok (readsBack_id p.id _)]
  rw [result_bind_ok (readsBack_str hname _)]
  rw [result_bind_ok (readsBack_uint _)]
  rw [result_bind_ok (readsBack_uint rest), result_pure]

theorem readsBack_group {g : StreamGroup} (hname : Fits g.name)
    (hconsumers : g.consumers.length < 2 ^ 63 ∧ ∀ c ∈ g.consumers, Fits c.name)
    (hpel : g.pel.length < 2 ^ 63 ∧ ∀ p ∈ g.pel, Fits p.consumer) :
    ReadsBack readGroup putGroup g := by
  intro rest
  simp only [putGroup, append_assoc]
  rw [readGroup, result_bind_ok (readsBack_str hname _)]
  rw [result_bind_ok (readsBack_id g.lastID _)]
  rw [result_bind_ok (readsBack_bool _)]
  rw [result_bind_ok (readsBack_uint _)]
  rw [result_bind_ok (readsBack_all hconsumers.1
    (fun c hc => readsBack_consumer (hconsumers.2 c hc)) _)]
  rw [result_bind_ok (readsBack_all hpel.1 (fun p hp => readsBack_pel (hpel.2 p hp)) rest),
    result_pure]

/-- A number that is there is read also where its absence would go unnoticed. -/
theorem readsBack_uintOrZero {n : UInt64} : ReadsBack readUvarintOrZero putUint n := by
  intro rest
  rw [readUvarintOrZero, putUint, uvarint_appendUvarint n.toNat_lt]
  simp

theorem decodeStream_encodeStream {s : Stream} (h : s.InMemory) :
    (decodeStream (encodeStream s)).result = .ok s := by
  have hgroups : (readAll 8 readGroup (putAll putGroup s.groups ++ [])).result = _ :=
    readsBack_all h.groups (fun g hg =>
      readsBack_group (h.names g hg) (h.consumers g hg) (h.pel g hg)) []
  rw [append_nil] at hgroups
  simp only [encodeStream, putID, append_assoc]
  rw [decodeStream, result_bind_ok (readsBack_all h.entries
    (fun e he => readsBack_entry (h.fields e he).1 (h.fields e he).2) _)]
  rw [result_bind_ok (readsBack_uintOrZero _)]
  rw [result_bind_ok (readsBack_uintOrZero _)]
  rw [result_bind_ok (readsBack_bool _)]
  rw [result_bind_ok (readsBack_uint _)]
  have hid := readsBack_id s.maxDeleted (putAll putGroup s.groups)
  rw [putID, append_assoc] at hid
  rw [result_bind_ok hid]
  rw [result_bind_ok hgroups, result_pure]

theorem uvarint_count {n : Nat} (h : n < 2 ^ 63) :
    uvarint (appendUvarint n ++ rest) = some (n, (appendUvarint n).length) :=
  uvarint_appendUvarint (Nat.lt_trans h (by decide)) rest

theorem meterHash_encodeHash {m : Fields} (hsize : m.size < 2 ^ 63)
    (hfits : ∀ e ∈ m.toList, Fits e.1 ∧ Fits e.2) :
    (meterHash maxAlloc (encodeHash m)).result = .ok (m, hashEncoding m) := by
  have hbody : ∀ i (acc : Fields) e rest, True → Fits e.1 ∧ Fits e.2 →
      (hashBody i (acc, encodePair e ++ rest)).result = .ok (acc.insert e.1 e.2, rest) ∧ True := by
    rintro i acc e rest - ⟨hf, hv⟩
    refine ⟨?_, trivial⟩
    rw [hashBody, readHashStr, encodePair, append_assoc, result_bind_ok (result_readStr hf)]
    dsimp only
    rw [readHashStr, result_bind_ok (result_readStr hv)]
    rw [result_bind_ok result_grow, result_pure]
  have hloop := result_loop_flatMap _ hbody hfits 0 ∅ trivial []
  rw [ExtTreeMap.length_toList, OrdMap.foldl_insert_toList, append_nil] at hloop
  rw [encodeHash, meterHash, uvarint_count hsize]
  simp only [drop_left]
  rw [result_bind_ok result_makeMap, result_bind_ok hloop, result_pure]

theorem decodeList_encodeList {elems : List Bytes} (hmax : maxAlloc < 2 ^ 63)
    (hlen : elems.length * 16 ≤ maxAlloc) (hfits : ∀ e ∈ elems, Fits e) :
    (decodeList maxAlloc (encodeList elems)).result = .ok elems := by
  have hbody : ∀ i (acc : List Bytes) e rest, True → Fits e →
      (listBody i (acc, prefixed e ++ rest)).result = .ok (acc ++ [e], rest) ∧ True := by
    intro i acc e rest _ he
    refine ⟨?_, trivial⟩
    rw [listBody, readListStr, result_bind_ok (result_readStr he), result_pure]
  have hloop := result_loop_flatMap _ hbody hfits 0 [] trivial []
  rw [foldl_append_singleton, append_nil, nil_append] at hloop
  have hmake : (makeSlice maxAlloc 16 elems.length : Decoder Unit).result = .ok () := by
    rw [makeSlice, if_neg (by omega), result_alloc]
  rw [encodeList, decodeList, uvarint_count (by omega)]
  simp only [drop_left]
  rw [result_bind_ok hmake, result_bind_ok hloop, result_pure]

/-- The members of a set in any order make the set again. -/
theorem uniq_keys {m : Members} (h : members.Perm (m.toList.map (·.1))) :
    members.foldl (fun (acc : Members) x => acc.insert x ()) ∅ = m := by
  have hperm : (members.map fun x => (x, ())).Perm m.toList := by
    have hmap := h.map fun x => (x, ())
    rw [map_map] at hmap
    simpa [Function.comp_def] using hmap
  have hfold := OrdMap.foldl_insert_of_perm hperm
  rwa [foldl_map] at hfold

theorem decodeSet_encodeSet {m : Members} (hperm : members.Perm (m.toList.map (·.1)))
    (hsize : m.size < 2 ^ 63) (hfits : ∀ e ∈ m.toList, Fits e.1) :
    (decodeSet maxAlloc (encodeSet members)).result =
      .ok (m, setEncoding (m.toList.map (·.1))) := by
  have hbody : ∀ i (acc : Members) e rest, True → Fits e →
      (setBody i (acc, prefixed e ++ rest)).result = .ok (acc.insert e (), rest) ∧ True := by
    intro i acc e rest _ he
    refine ⟨?_, trivial⟩
    rw [setBody, readSetStr, result_bind_ok (result_readStr he)]
    rw [result_bind_ok result_grow, result_pure]
  have hkeys : ∀ k ∈ m.toList.map (·.1), Fits k := by
    intro k hk
    obtain ⟨e, he, rfl⟩ := mem_map.mp hk
    exact hfits e he
  have hloop := result_loop_flatMap _ hbody hkeys 0 ∅ trivial []
  rw [uniq_keys (List.Perm.refl _), append_nil] at hloop
  have hlen : (m.toList.map (·.1)).length < 2 ^ 63 := by
    rwa [length_map, ExtTreeMap.length_toList]
  simp only [encodeSet, uniq_keys hperm]
  rw [decodeSet, uvarint_count hlen]
  simp only [drop_left]
  rw [result_bind_ok result_makeMap, result_bind_ok hloop, result_pure]

theorem siftPair_perm {sorted : List (Bytes × UInt64)} :
    (siftPair p sorted).Perm (p :: sorted) := by
  induction sorted with
  | nil => exact .refl _
  | cons q qs ih =>
    rw [siftPair]
    split
    · exact (ih.cons q).trans (.swap p q qs)
    · exact .refl _

theorem sortZSetPairs_perm {pairs : List (Bytes × UInt64)} : (sortZSetPairs pairs).Perm pairs := by
  have hfold : ∀ (acc : List (Bytes × UInt64)),
      (pairs.foldl (fun sorted p => siftPair p sorted) acc).Perm (pairs ++ acc) := by
    induction pairs with
    | nil => exact fun acc => .refl acc
    | cons p pairs ih =>
      intro acc
      refine (ih (siftPair p acc)).trans ?_
      refine (siftPair_perm.append_left pairs).trans ?_
      exact perm_middle
  have h := hfold []
  rw [append_nil] at h
  exact (reverse_perm _).trans h

theorem result_zsetBody (i : Nat) {acc : Scores} (h : Fits p.1) :
    (zsetBody i (acc, encodeScore p ++ rest)).result = .ok (acc.insert p.1 p.2, rest) := by
  have hlt : p.1.length < 2 ^ 63 := h
  have hlt' : p.1.length < 2 ^ 64 := Nat.lt_trans h (by decide)
  have hsplit : encodeScore p ++ rest =
      appendUvarint p.1.length ++ (p.1 ++ (beBytes 8 p.2.toNat ++ rest)) := by
    simp [encodeScore, prefixed]
  have hmod : (p.1.length + 8) % 2 ^ 64 = p.1.length + 8 := Nat.mod_eq_of_lt (by omega)
  rw [hsplit, zsetBody]
  rw [uvarint_appendUvarint hlt']
  rw [result_bind_ok result_addLength, drop_left, hmod]
  have hlong : ¬ (p.1 ++ (beBytes 8 p.2.toNat ++ rest)).length < p.1.length + 8 := by
    simp only [length_append, length_beBytes]
    omega
  have hbits : UInt64.ofNat (beNat (beBytes 8 p.2.toNat)) = p.2 := by
    have hword : p.2.toNat < 256 ^ 8 := p.2.toNat_lt
    rw [beNat_beBytes, Nat.mod_eq_of_lt hword, UInt64.ofNat_toNat]
  rw [if_neg hlong, asInt_of_lt h, slice_between _ _ _ rfl rfl, pure_bind,
    result_bind_ok result_alloc, ← append_assoc (appendUvarint _),
    slice_behind (by simp) rfl, pure_bind]
  rw [slice_front (by simp), pure_bind, slice_behind (by simp) rfl,
    pure_bind, result_bind_ok result_grow, result_pure, hbits]

theorem decodeZSet_encodeZSet {z : Scores} (hsize : z.size < 2 ^ 63)
    (hfits : ∀ e ∈ z.toList, Fits e.1) :
    (decodeZSet maxAlloc (encodeZSet order z)).result = .ok (z, zsetEncoding z) := by
  have hperm : (sortZSetPairs (arrange order z.toList)).Perm z.toList :=
    sortZSetPairs_perm.trans (arrange_perm order _)
  have hlen : (sortZSetPairs (arrange order z.toList)).length < 2 ^ 63 := by
    rwa [hperm.length_eq, ExtTreeMap.length_toList]
  have hloop := result_loop_flatMap (fun _ => True)
    (fun i (acc : Scores) p rest _ hp => ⟨result_zsetBody i hp, trivial⟩)
    (fun p hp => hfits p (hperm.mem_iff.mp hp)) 0 ∅ trivial []
  rw [OrdMap.foldl_insert_of_perm hperm, append_nil] at hloop
  rw [encodeZSet, decodeZSet, uvarint_count hlen]
  simp only [drop_left]
  rw [result_bind_ok result_makeMap, result_bind_ok hloop, result_pure]

/-- Equal dimensions are no mismatch. -/
theorem dimMismatch_of_forall {d : Nat} {ds : List Nat} (h : ∀ e ∈ ds, e = d) {dim : Int}
    (hdim : dim < 0 ∨ dim = d) : dimMismatch dim ds = none := by
  induction ds generalizing dim with
  | nil => rfl
  | cons e ds ih =>
    obtain rfl : e = d := h e (mem_cons_self ..)
    have hrest : ∀ e' ∈ ds, e' = e := fun e' he' => h e' (mem_cons_of_mem _ he')
    rw [dimMismatch]
    split
    · exact ih hrest (.inr rfl)
    · next hneg =>
      have heq : dim = e := hdim.resolve_left hneg
      rw [if_neg (by simp [heq])]
      exact ih hrest (.inr heq)

theorem result_vecBody {vec : List UInt64} :
    (loop vecBody 0 vec.length ([], (vec.flatMap fun v => appendUvarint v.toNat) ++ rest)).result =
      .ok (vec, rest) := by
  have hbody : ∀ i (acc : List UInt64) v rest, True → True →
      (vecBody i (acc, appendUvarint v.toNat ++ rest)).result = .ok (acc ++ [v], rest) ∧ True := by
    intro i acc v rest _ _
    refine ⟨?_, trivial⟩
    rw [vecBody]
    rw [uvarint_appendUvarint v.toNat_lt]
    simp
  rw [result_loop_flatMap (fun _ => True) hbody (fun _ _ => trivial) 0 [] trivial,
    foldl_append_singleton, nil_append]

theorem result_vectorBody (hmax : maxAlloc < 2 ^ 63) {i : Nat} {dim : Int} {acc : Vectors}
    {e : Bytes × VEntry} (hdim : dim < 0 ∨ dim = e.2.vec.length)
    (hvec : e.2.vec.length * 8 ≤ maxAlloc) (hname : Fits e.1) (hattr : Fits e.2.attr) :
    (vectorBody maxAlloc i ((dim, acc), encodeVEntry e ++ rest)).result =
      .ok ((e.2.vec.length, acc.insert e.1 e.2), rest) := by
  have hlt : e.2.vec.length < 2 ^ 63 := by omega
  have hmake : (makeSlice maxAlloc 8 e.2.vec.length : Decoder Unit).result = .ok () := by
    rw [makeSlice, if_neg (by omega), result_alloc]
  have hnew : (if dim < 0 then (e.2.vec.length : Int) else dim) = e.2.vec.length := by
    split
    · rfl
    · next hneg => exact hdim.resolve_left hneg
  simp only [encodeVEntry, append_assoc]
  rw [vectorBody]
  rw [uvarint_count hlt]
  simp only [asInt_of_lt hlt, hnew, drop_left, ne_eq, not_true_eq_false, if_false]
  have hentry : (readVEntry e.2.vec.length ((e.2.vec.flatMap fun v => appendUvarint v.toNat) ++
      (prefixed e.1 ++ (prefixed e.2.attr ++ rest)))).result = .ok (e, rest) := by
    rw [readVEntry, result_bind_ok result_vecBody]
    rw [result_bind_ok (result_readStr hname)]
    rw [result_bind_ok (result_readStr hattr), result_pure]
  rw [result_bind_ok hmake, result_bind_ok hentry]
  rw [result_bind_ok result_grow, result_pure]

/-- The vectors of a set that exists in memory: they have one dimension. -/
structure Vectors.InMemory (maxAlloc : Nat) (m : Vectors) : Prop where
  size : m.size < 2 ^ 63
  dim : ∃ d, d * 8 ≤ maxAlloc ∧ ∀ e ∈ m.toList, e.2.vec.length = d
  fits : ∀ e ∈ m.toList, Fits e.1 ∧ Fits e.2.attr

theorem encodeVector_ok {m : Vectors} (h : m.InMemory maxAlloc) :
    encodeVector m = .ok (appendUvarint m.size ++ m.toList.flatMap encodeVEntry) := by
  obtain ⟨d, -, hd⟩ := h.dim
  rw [encodeVector, dimMismatch_of_forall (d := d) _ (.inl (by decide))]
  intro e he
  obtain ⟨x, hx, rfl⟩ := mem_map.mp he
  exact hd x hx

theorem decodeVector_encodeVector {m : Vectors} (hmax : maxAlloc < 2 ^ 63) (h : m.InMemory maxAlloc)
    : (decodeVector maxAlloc (appendUvarint m.size ++ m.toList.flatMap encodeVEntry)).result =
      .ok m := by
  obtain ⟨d, hd, hvec⟩ := h.dim
  have hbody : ∀ i (acc : Int × Vectors) e rest, acc.1 < 0 ∨ acc.1 = d →
      e.2.vec.length = d ∧ Fits e.1 ∧ Fits e.2.attr →
      (vectorBody maxAlloc i (acc, encodeVEntry e ++ rest)).result =
          .ok (((d : Int), acc.2.insert e.1 e.2), rest) ∧ ((d : Int) < 0 ∨ (d : Int) = d) := by
    rintro i ⟨dim, acc⟩ e rest hacc ⟨hlen, hname, hattr⟩
    subst hlen
    exact ⟨result_vectorBody hmax hacc hd hname hattr, .inr rfl⟩
  have hloop := result_loop_flatMap (fun acc : Int × Vectors => acc.1 < 0 ∨ acc.1 = d) hbody
    (fun e he => ⟨hvec e he, h.fits e he⟩) 0 (-1, ∅) (.inl (by decide)) []
  have hsnd : ∀ (l : List (Bytes × VEntry)) (acc : Int × Vectors),
      (l.foldl (fun acc e => ((d : Int), acc.2.insert e.1 e.2)) acc).2 =
        l.foldl (fun m e => m.insert e.1 e.2) acc.2 := by
    intro l
    induction l with
    | nil => exact fun _ => rfl
    | cons e l ih => exact fun acc => ih _
  rw [ExtTreeMap.length_toList, append_nil] at hloop
  rw [decodeVector, uvarint_count h.size]
  simp only [drop_left]
  rw [result_bind_ok hloop, result_pure, hsnd, OrdMap.foldl_insert_toList]

theorem decodeHLL_encodeHLL {r : Registers} :
    (decodeHLL (encodeHLL r.inMemory)).result = .ok r.inMemory := by
  have hpayload : encodeHLL r.inMemory = hllHeader ++ r.bytes := by
    have hlen := r.length_bytes
    rw [encodeHLL, Registers.inMemory, take_left' hlen, length_append, hlen]
    simp
  have hlen : (hllHeader ++ r.bytes).length = hllHdrSize + hllDenseRegs := by
    rw [length_append, r.length_bytes]
    rfl
  have hmagic : (hllHeader ++ r.bytes).take 4 = ascii ['H', 'Y', 'L', 'L'] := rfl
  have htag : (hllHeader ++ r.bytes)[4]? = some 0 := rfl
  have hdrop : (hllHeader ++ r.bytes).drop hllHdrSize = r.bytes := rfl
  rw [hpayload, decodeHLL, if_neg (by simp [hlen]), if_neg (by simp [hmagic]),
    if_neg (by simp [htag]), result_bind_ok result_alloc, result_pure, hdrop,
    Registers.inMemory]

/-- A value that can exist in memory: texts and lists are within what can be allocated, the vectors
of a set have one dimension, and a sketch has all its registers and the spare byte. -/
def Content.InMemory (maxAlloc : Nat) : Content → Prop
  | .hash m => m.size < 2 ^ 63 ∧ ∀ e ∈ m.toList, Fits e.1 ∧ Fits e.2
  | .list elems => elems.length * 16 ≤ maxAlloc ∧ ∀ e ∈ elems, Fits e
  | .set m => m.size < 2 ^ 63 ∧ ∀ e ∈ m.toList, Fits e.1
  | .zset z => z.size < 2 ^ 63 ∧ ∀ e ∈ z.toList, Fits e.1
  | .stream s => s.InMemory
  | .vector m => m.InMemory maxAlloc
  | .hll registers => ∃ r : Registers, registers = r.inMemory

/-- Every value in memory is encoded, and its payload is decoded to the value. -/
theorem exists_payload (hmax : maxAlloc < 2 ^ 63) {v : Content} (h : v.InMemory maxAlloc) :
    ∃ payload, encodeContent order v = .ok payload ∧
      (decodeContent maxAlloc v.container payload).result = .ok v := by
  cases v with
  | hash =>
    refine ⟨_, rfl, ?_⟩
    exact result_bind_ok (meterHash_encodeHash h.1 h.2)
  | list =>
    refine ⟨_, rfl, ?_⟩
    exact result_bind_ok (decodeList_encodeList hmax h.1 h.2)
  | set =>
    refine ⟨_, rfl, ?_⟩
    exact result_bind_ok (decodeSet_encodeSet (arrange_perm order _) h.1 h.2)
  | zset =>
    refine ⟨_, rfl, ?_⟩
    exact result_bind_ok (decodeZSet_encodeZSet h.1 h.2)
  | stream =>
    refine ⟨_, rfl, ?_⟩
    exact result_bind_ok (decodeStream_encodeStream h)
  | vector =>
    refine ⟨_, encodeVector_ok h, ?_⟩
    exact result_bind_ok (decodeVector_encodeVector hmax h)
  | hll =>
    obtain ⟨r, rfl⟩ := h
    refine ⟨_, rfl, ?_⟩
    exact result_bind_ok decodeHLL_encodeHLL

/-- For every value of a container in memory, every tag and every deadline, the stored record is
decoded to the same tag, deadline and value. -/
theorem record_read_back {maxAlloc : Nat} (hmax : maxAlloc < 2 ^ 63) (order : List Nat)
    (typ : UInt8) (expiry : Int64) {v : Content} (h : v.InMemory maxAlloc) :
    ∃ payload, encodeContent order v = .ok payload ∧
      decode (encode typ expiry payload) = some ⟨typ, expiry, payload⟩ ∧
      (decodeContent maxAlloc v.container payload).result = .ok v := by
  obtain ⟨payload, henc, hdec⟩ := exists_payload hmax h
  exact ⟨payload, henc, decode_encode typ expiry payload, hdec⟩

/-- A stream with one entry that is pending in a group. -/
def pendingStream : Stream where
  entries := [⟨⟨5, 1⟩, [[102], []], rfl⟩]
  last := ⟨5, 1⟩
  hasLast := true
  added := 1
  maxDeleted := ⟨0, 0⟩
  groups := [⟨[103], ⟨5, 1⟩, 1, true, [⟨[99], 9, 9, true⟩], [⟨⟨5, 1⟩, [99], 9, 1⟩]⟩]

theorem record_read_back_pending :
    ∃ payload, encodeContent [] (.stream pendingStream) = .ok payload ∧
      decode (encode typeStream (-7) payload) = some ⟨typeStream, -7, payload⟩ ∧
      (decodeContent 1048576 .stream payload).result = .ok (.stream pendingStream) := by
  have hmem : (Content.stream pendingStream).InMemory 1048576 :=
    ⟨by decide, by decide, by decide, by decide, by decide, by decide⟩
  exact record_read_back (by decide) [] typeStream (-7) hmem

end Gedis.Datastruct
