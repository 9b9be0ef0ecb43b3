import Gedis.Commands.NoEmpty
import Gedis.Commands.OneRecord

/-!
# Runs of container commands

The commands on lists, sets, hashes and sorted sets together with `SORT ... STORE`. From the empty
store on, no record is decoded to an empty container as long as reading a hash leaves a field of it
and a sorted result has elements.
-/

namespace Gedis.Commands

open Gedis.Core Datastruct Storage Prog SortedSets

variable {kind : Kind} {dst key value src member : Bytes} {U : Prop} {T : Int64 → Prop} {w : World}
  {m : OrdMap Bytes Bytes} {expiry : Int64} {reply : Reply} {tail rev : Bool} {count : Nat}
  {keys members : List Bytes} {s : Members}

theorem exists_of_bind_ok {ε α β : Type} {x : Except ε α} {f : α → Except ε β} {b : β}
    (h : (x >>= f) = .ok b) : ∃ a, x = .ok a ∧ f a = .ok b := by
  cases x with
  | error => cases h
  | ok a => exact ⟨a, rfl, h⟩

namespace Lists

variable {maxAlloc : Nat}

theorem writeOrRemove_fills {elems : List Bytes} : (writeOrRemove elems expiry reply).Fills := by
  rw [writeOrRemove]
  split
  · trivial
  · next hne => exact announces_encodeList hne

theorem push_fills {head : Bool} {values : List Bytes} :
    (push maxAlloc head key value values).Fills := by
  apply modifyDecoded_fills
  intro old
  refine announces_encodeList (foldl_cons_of_step (P := fun elems => elems ≠ []) ?_ _ value values)
  intro elems v
  cases head <;> simp

theorem popOne_fills {count : Option Nat} : (popOne maxAlloc tail key count).Fills :=
  modifyStored_fills trivial fun _ => writeOrRemove_fills

theorem lt_of_normalizeIndex {idx : Int64} {n pos : Nat} (h : normalizeIndex idx n = some pos) :
    pos < n := by
  rw [normalizeIndex] at h
  generalize (if idx.toInt < 0 then idx.toInt + n else idx.toInt) = i at h
  split at h
  · cases h
  · cases h
    omega

theorem lset_fills {idx : Int64} : (lset maxAlloc key idx value).Fills := by
  refine modifyStored_fills trivial fun old => ?_
  dsimp only
  cases hpos : normalizeIndex idx old.1.length with
  | none => trivial
  | some pos =>
    -- an empty list has no position
    refine announces_encodeList fun hnil => ?_
    rw [List.set_eq_nil_iff] at hnil
    rw [hnil] at hpos
    exact absurd (lt_of_normalizeIndex hpos) (Nat.not_lt_zero pos)

theorem linsert_fills {after : Bool} {pivot : Bytes} :
    (linsert maxAlloc key after pivot value).Fills := by
  refine modifyStored_fills trivial fun old => ?_
  dsimp only
  split
  · next hmem =>
    generalize (if after then _ else _ : Nat) = pos
    refine announces_encodeList fun hnil => ?_
    have hlen := congrArg List.length hnil
    rw [List.length_insertIdx, List.length_nil] at hlen
    have hpos := List.length_pos_of_mem hmem
    split at hlen <;> omega
  · trivial

theorem lrem_fills {count : Int64} : (lrem maxAlloc key count value).Fills := by
  refine modifyStored_fills trivial fun old => ?_
  dsimp only
  generalize (if count < 0 then _ else _ : List Bytes) = kept
  split
  · trivial
  · exact writeOrRemove_fills

theorem ltrim_fills {start stop : Int64} : (ltrim maxAlloc key start stop).Fills :=
  modifyStored_fills trivial fun _ => writeOrRemove_fills

theorem move_fills {fromTail toTail : Bool} : (move maxAlloc src dst fromTail toTail).Fills := by
  rw [move]
  apply moveCore_fills
  · intro payload elem rest hpop
    obtain ⟨elems, -, hpop⟩ := exists_of_bind_ok hpop
    injection hpop with hpop
    obtain ⟨elem', -, hrest⟩ := Option.map_eq_some_iff.mp hpop
    injection hrest with _ hrest
    split at hrest
    · cases hrest
    · next hne =>
      cases hrest
      exact announces_encodeList hne
  · intro old elem payload hpush
    obtain ⟨elems, -, hpush⟩ := exists_of_bind_ok hpush
    cases hpush
    apply announces_encodeList
    cases toTail <;> simp

theorem takeCount_fills (elems out : List Bytes) (payload : Bytes)
    (h : takeCount tail count elems = some (out, some payload)) : Announces payload := by
  rw [takeCount] at h
  split at h
  · cases h
  · injection h with h
    injection h with _ h
    split at h
    · cases h
    · next hne =>
      cases h
      exact announces_encodeList hne

theorem lmpop_fills : (lmpop maxAlloc keys tail count).Fills :=
  checkKinds_fills (fun _ => popRound_fills takeCount_fills)

theorem bpop_fills : (bpop maxAlloc keys tail).Fills :=
  checkKinds_fills (fun _ => popRound_fills takeCount_fills)

end Lists

namespace Sets

variable {maxAlloc : Nat}

theorem announces_encodeMembers (h : s.isEmpty = false) : Announces (encodeMembers s) :=
  announces_encodeSet fun hnil => toList_ne_nil h (List.map_eq_nil_iff.mp hnil)

theorem announces_of_ite {payload : Bytes}
    (h : (if s.isEmpty then none else some (encodeMembers s)) = some payload) :
    Announces payload := by
  split at h
  · cases h
  · next hne =>
    cases h
    exact announces_encodeMembers (by simpa using hne)

theorem writeOrRemove_fills : (writeOrRemove s expiry reply).Fills := by
  rw [writeOrRemove]
  split
  · trivial
  · next hne => exact announces_encodeMembers (by simpa using hne)

theorem sadd_fills : (sadd maxAlloc key member members).Fills := by
  apply modifyDecoded_fills
  intro old
  refine announces_encodeMembers ?_
  exact foldl_cons_of_step (P := fun s : Members => s.isEmpty = false)
    (fun s m => OrdMap.isEmpty_insert) _ member members

theorem srem_fills : (srem maxAlloc key members).Fills :=
  modifyStored_fills trivial fun _ => writeOrRemove_fills

theorem spop_fills {order : List Nat} {count : Option Nat} :
    (spop maxAlloc order key count).Fills :=
  modifyStored_fills trivial fun _ => writeOrRemove_fills

theorem move_fills : (move maxAlloc src dst member).Fills := by
  rw [move]
  apply smove_fills
  · intro payload rest hremove
    obtain ⟨s, -, hremove⟩ := exists_of_bind_ok hremove
    injection hremove with hremove
    split at hremove
    · injection hremove with hremove
      exact announces_of_ite hremove
    · cases hremove
  · intro old payload hadd
    obtain ⟨s, -, hadd⟩ := exists_of_bind_ok hadd
    cases hadd
    exact announces_encodeMembers OrdMap.isEmpty_insert

end Sets

section Stores

variable {maxAlloc : Nat} {U : Prop} {T : Int64 → Prop} {m : OrdMap Bytes Bytes}

theorem readAll_shrinks {β : Type} {dec : Bytes → Except Reply β} (acc : List (Option β)) :
    (readAll kind dec keys acc).wp (Stores U T) (fun _ m' => Shrinks m m') m := by
  induction keys generalizing m acc with
  | nil => exact Shrinks.refl
  | cons key keys ih =>
    have hrest : ∀ m₁ acc, Shrinks m m₁ →
        (readAll kind dec keys acc).wp (Stores U T) (fun _ m' => Shrinks m m') m₁ :=
      fun m₁ acc hs => wp_mono (ih acc) fun _ m' hs' => hs.trans hs'
    refine wp_readKind_stores fun r m₁ hs => ?_
    cases r with
    | error => exact hs
    | ok old =>
      cases old with
      | none => exact hrest m₁ _ hs
      | some e =>
        dsimp only
        cases dec e.payload with
        | error => exact hs
        | ok => exact hrest m₁ _ hs

theorem storeResult_noEmpty {payload : Option Bytes} {n : Int64} (h : NoEmpty maxAlloc m)
    (hp : ∀ bytes ∈ payload, Announces bytes) :
    (storeResult kind dst payload n).wp (Stores U T) (fun _ m' => NoEmpty maxAlloc m') m := by
  cases payload with
  | none =>
    exact wp_stores (wp_delete.mpr h.erase)
  | some bytes =>
    exact wp_set_filled h (filled_encode maxAlloc _ 0 (hp bytes rfl)) fun a m' h' => h'

theorem setStore_noEmpty (h : NoEmpty maxAlloc m) {op : Sets.Op} :
    (Sets.store maxAlloc op dst keys).wp (Stores U T) (fun _ m' => NoEmpty maxAlloc m') m := by
  refine wp_bind_of (readAll_shrinks []) fun r m₁ hs => ?_
  have h₁ := h.shrinks hs
  cases r with
  | error => exact h₁
  | ok =>
    apply wp_lookup_stores
    · exact fun m₂ hs₂ => storeResult_noEmpty (h₁.shrinks hs₂) fun _ => Sets.announces_of_ite
    · exact fun err => storeResult_noEmpty h₁ fun _ => Sets.announces_of_ite
    · exact fun p e _ _ => storeResult_noEmpty h₁ fun _ => Sets.announces_of_ite

end Stores

namespace SortedSets

variable {lib : ScoreLibrary} {maxAlloc : Nat} {order : List Nat}

theorem announces_payload {z : Scores} {bytes : Bytes} (h : payload order z = some bytes) :
    Announces bytes := by
  rw [payload] at h
  split at h
  · cases h
  · next hne =>
    cases h
    exact announces_encodeZSet (by simpa using hne)

theorem writeScores_fills {z : Scores} : (writeScores order z expiry reply).Fills := by
  rw [writeScores]
  split
  · trivial
  · next hp => exact announces_payload hp

theorem incrMember_fills {old : Option (Scores × Int64)} {delta : UInt64} :
    (incrMember lib order old delta member).Fills := by
  rw [incrMember]
  dsimp only
  split
  · trivial
  · exact writeScores_fills

theorem zadd_fills {fl : ZAddFlags} {pair : UInt64 × Bytes} {pairs : List (UInt64 × Bytes)} :
    (zadd lib maxAlloc order fl key pair pairs).Fills := by
  apply modifyDecoded_fills
  intro old
  dsimp only
  split
  · split
    · split
      · trivial
      · exact incrMember_fills
    · split
      · trivial
      · exact incrMember_fills
  · exact writeScores_fills

theorem zincrby_fills {delta : UInt64} : (zincrby lib maxAlloc order key delta member).Fills :=
  modifyDecoded_fills fun old => incrMember_fills

theorem zrem_fills : (zrem maxAlloc order key members).Fills :=
  modifyStored_fills trivial fun _ => writeScores_fills

theorem zremrange_fills {range : List (Bytes × UInt64) → Option (List Bytes)} :
    (zremrange maxAlloc order key range).Fills := by
  refine modifyStored_fills trivial fun old => ?_
  dsimp only
  split
  · trivial
  · exact writeScores_fills

theorem zpop_fills : (zpop lib maxAlloc order rev key count).Fills :=
  modifyStored_fills trivial fun _ => writeScores_fills

theorem takeLowest_fills (z : Scores) (out : List Bytes) (bytes : Bytes)
    (h : takeLowest lib order rev count z = some (out, some bytes)) : Announces bytes := by
  rw [takeLowest] at h
  split at h
  · cases h
  · injection h with h
    injection h with _ h
    exact announces_payload h

theorem zmpop_fills {blocking : Bool} : (zmpop lib maxAlloc order blocking keys rev count).Fills :=
  checkKinds_fills (fun _ => popRound_fills takeLowest_fills)

theorem bzpop_fills : (bzpop lib maxAlloc order keys rev).Fills :=
  checkKinds_fills (fun _ => popRound_fills takeLowest_fills)

theorem rangestore_fills {range : List (Bytes × UInt64) → List (Bytes × UInt64)} :
    (rangestore maxAlloc order dst src range).Fills :=
  zrangestore_fills fun _ _ h => announces_payload h

theorem store_fills {op : Sets.Op} {agg : Aggregate} {weights : List UInt64} :
    (store lib maxAlloc order op agg dst keys weights).Fills :=
  storeZSetOp_fills fun _ _ h => announces_payload h

end SortedSets

/-- The readings that a clock gives. -/
def World.Reading (w : World) (t : Int64) : Prop := ∃ i, w.clock i = t

/-- A world answers within the relation; a store without a limit accepts every write. -/
theorem World.stores (hT : ∀ i, T (w.clock i)) (hU : U → w.store.maxBytes ≤ 0) (q : Request) :
    Stores U T w.store.db q (w.answer q).1.store.db (w.answer q).2 := by
  refine ⟨World.answers hT False.elim, fun hu => ?_⟩
  obtain ⟨-, hreply, -⟩ := Pebble.answer_unlimited (hU hu) q
  cases q with
  | set => exact hreply
  | get => trivial
  | delete => trivial
  | scan => trivial
  | now => trivial
  | writeBatch => trivial

/-- What a handler establishes over the relation, it establishes when it runs. -/
theorem exec_stores {α : Type} {p : Handler α} {post : α → OrdMap Bytes Bytes → Prop}
    (hT : ∀ i, T (w.clock i)) (hU : U → w.store.maxBytes ≤ 0)
    (h : p.wp (Stores U T) post w.store.db) :
    post (p.exec World.answer w).2 (p.exec World.answer w).1.store.db := by
  refine exec_of_wp (fun w => w.store.db)
    (I := fun w => (∀ i, T (w.clock i)) ∧ (U → w.store.maxBytes ≤ 0))
    (fun w q hw _ => World.stores hw.1 hw.2 q) (fun w q hw => ⟨World.answer_clock hw.1 q, ?_⟩)
    ⟨hT, hU⟩ h (Prog.During.of_forall _ (fun _ _ => trivial) w)
  intro hu
  obtain ⟨-, -, hmax⟩ := Pebble.answer_unlimited (hw.2 hu) q
  exact hmax.trans_le (hw.2 hu)

/-- The answer to a read. -/
def Look.answer (w : World) (l : Look) : World × l.Answer := l.handler.exec World.answer w

/-- A read of a hash leaves a field of it. -/
def Look.Survives (w : World) : Look → Prop
  | .hash name => HashSurvives w.Reading w.store.db name
  | _ => True

variable {maxAlloc : Nat} {w : World}

theorem Look.noEmpty (h : NoEmpty maxAlloc w.store.db) {l : Look} (hs : l.Survives w) :
    NoEmpty maxAlloc (l.answer w).1.store.db := by
  have hwp : l.handler.wp (Stores False w.Reading) (fun _ m' => NoEmpty maxAlloc m')
      w.store.db := by
    cases l with
    | key name =>
      have hlook : (lookupRaw name >>= pure).wp (Stores False w.Reading)
          (fun _ m' => NoEmpty maxAlloc m') w.store.db :=
        wp_lookup_stores (fun m' hs => h.shrinks hs) (fun err => h) fun p e _ _ => h
      exact wp_bind.mp hlook
    | hash name =>
      have hread : (readHash name >>= pure).wp (Stores False w.Reading)
          (fun _ m' => NoEmpty maxAlloc m') w.store.db := by
        refine wp_readHash_stores ⟨w.clock 0, 0, rfl⟩ h (.inr hs) (fun err m' h' => h')
          (fun m' h' => h') ?_
        exact fun t fields expiry m' ht hread _ hfull => hfull (hs t ht fields hread)
      exact wp_bind.mp hread
    | record => exact wp_stores (wp_get.mpr h)
    | userKeys => exact wp_stores (wp_scanUserKeys.mpr h)
    | now => exact wp_stores (wp_now.mpr fun _ _ => h)
  exact exec_stores (fun i => ⟨i, rfl⟩) False.elim hwp

theorem Reader.noEmpty {α : Type} {r : Reader α} (h : NoEmpty maxAlloc w.store.db)
    (hs : r.During Look.answer Look.Survives w) :
    NoEmpty maxAlloc (r.exec Look.answer w).1.store.db := by
  induction r generalizing w with
  | ret => exact h
  | ask l next ih => exact ih _ (Look.noEmpty h hs.1) hs.2

theorem Reader.exec_handler {α : Type} {r : Reader α} :
    r.handler.exec World.answer w = r.exec Look.answer w :=
  exec_interpret w

theorem removeOld_shrinks : (removeOld key).wp (Stores U T) (fun _ m' => Shrinks m m') m := by
  apply wp_lookup_stores
  · exact fun m' hs => hs
  · exact fun err => Shrinks.refl
  · intro p e _ _
    rw [wp_bind, deleteByRaw, wp_bind]
    refine wp_stores (wp_delete.mpr ?_)
    split
    · exact wp_stores (wp_delete.mpr ((shrinks_erase _).trans (shrinks_erase _)))
    · exact shrinks_erase _

/-- A list with elements takes the place of what a key holds. -/
theorem replace_noEmpty {payload : Bytes} {count : Int64} (h : NoEmpty maxAlloc m)
    (hp : Announces payload) : (do
      match ← removeOld dst with
      | some f => pure f.reply
      | none => do
        let r ← writeKind .list dst 0 payload
        pure (granted (.int count) r) : Handler Reply).wp (Stores U T)
      (fun _ m' => NoEmpty maxAlloc m') m := by
  refine wp_bind_of removeOld_shrinks fun err m₁ hs => ?_
  cases err with
  | some => exact h.shrinks hs
  | none =>
    exact wp_set_filled (h.shrinks hs) (filled_encode maxAlloc _ 0 hp) fun a m' h' => h'

theorem sortStore_noEmpty {sorted : Reader (Except Reply (Bytes × Int64))}
    (h : NoEmpty maxAlloc (sorted.exec Look.answer w).1.store.db)
    (hne : ∀ payload n, (sorted.exec Look.answer w).2 = .ok (payload, n) → Announces payload) :
    NoEmpty maxAlloc ((sortStore dst sorted).exec World.answer w).1.store.db := by
  rw [sortStore, exec_bind, Reader.exec_handler]
  cases hr : (sorted.exec Look.answer w).2 with
  | error => exact h
  | ok r =>
    exact exec_stores (T := fun _ => True) (fun _ => trivial) False.elim
      (replace_noEmpty h (hne r.1 r.2 hr))

/-- The commands on containers with parsed arguments. Those that enumerate a map come with the order
in which Go does so; the commands that only read are readers. -/
inductive ContainerCommand where
  | push (head : Bool) (key value : Bytes) (values : List Bytes)
  | pop (tail : Bool) (key : Bytes) (count : Option Nat)
  | lset (key : Bytes) (idx : Int64) (value : Bytes)
  | linsert (key : Bytes) (after : Bool) (pivot value : Bytes)
  | lrem (key : Bytes) (count : Int64) (value : Bytes)
  | ltrim (key : Bytes) (start stop : Int64)
  | lmove (src dst : Bytes) (fromTail toTail : Bool)
  | lmpop (keys : List Bytes) (tail : Bool) (count : Nat)
  | bpop (keys : List Bytes) (tail : Bool)
  | sadd (key member : Bytes) (members : List Bytes)
  | srem (key : Bytes) (members : List Bytes)
  | spop (order : List Nat) (key : Bytes) (count : Option Nat)
  | smove (src dst member : Bytes)
  | sstore (op : Sets.Op) (dst : Bytes) (keys : List Bytes)
  | zadd (order : List Nat) (fl : SortedSets.ZAddFlags) (key : Bytes) (pair : UInt64 × Bytes)
      (pairs : List (UInt64 × Bytes))
  | zincrby (order : List Nat) (key : Bytes) (delta : UInt64) (member : Bytes)
  | zrem (order : List Nat) (key : Bytes) (members : List Bytes)
  | zremrange (order : List Nat) (key : Bytes)
      (range : List (Bytes × UInt64) → Option (List Bytes))
  | zpop (order : List Nat) (rev : Bool) (key : Bytes) (count : Nat)
  | zmpop (order : List Nat) (blocking : Bool) (keys : List Bytes) (rev : Bool) (count : Nat)
  | bzpop (order : List Nat) (keys : List Bytes) (rev : Bool)
  | zrangestore (order : List Nat) (dst src : Bytes)
      (range : List (Bytes × UInt64) → List (Bytes × UInt64))
  | zstore (order : List Nat) (op : Sets.Op) (agg : SortedSets.Aggregate) (dst : Bytes)
      (keys : List Bytes) (weights : List UInt64)
  | hset (key : Bytes) (pair : Bytes × Bytes) (pairs : List (Bytes × Bytes))
  | hmset (key : Bytes) (pair : Bytes × Bytes) (pairs : List (Bytes × Bytes))
  | hsetnx (key field value : Bytes)
  | hincrby (key field : Bytes) (delta : Int64)
  | hincrbyfloat (key field : Bytes) (add : Option Bytes → Option Bytes)
  | hdel (key : Bytes) (names : List Bytes)
  | hexpire (kind : ExpireKind) (key : Bytes) (n : Int64) (cond : ExpireCond) (names : List Bytes)
  | hpersist (key : Bytes) (names : List Bytes)
  | sortStore (order : List Nat) (o : Sort.SortOptions) (key dst : Bytes)
  | read (r : Reader Reply)

/-- What the commands take from their surroundings: the arithmetic of scores, reading a decimal
number, and the size of the largest allocation. -/
structure ContainerLibrary where
  scores : ScoreLibrary
  parseFloat : Bytes → Option UInt64
  maxAlloc : Nat

variable (lib : ContainerLibrary)

def ContainerCommand.handler : ContainerCommand → Handler Reply
  | push head key value values => (Lists.push lib.maxAlloc head key value values).handler
  | pop tail key count => (Lists.popOne lib.maxAlloc tail key count).handler
  | lset key idx value => (Lists.lset lib.maxAlloc key idx value).handler
  | linsert key after pivot value => (Lists.linsert lib.maxAlloc key after pivot value).handler
  | lrem key count value => (Lists.lrem lib.maxAlloc key count value).handler
  | ltrim key start stop => (Lists.ltrim lib.maxAlloc key start stop).handler
  | lmove src dst fromTail toTail => (Lists.move lib.maxAlloc src dst fromTail toTail).handler
  | lmpop keys tail count => (Lists.lmpop lib.maxAlloc keys tail count).handler
  | bpop keys tail => (Lists.bpop lib.maxAlloc keys tail).handler
  | sadd key member members => (Sets.sadd lib.maxAlloc key member members).handler
  | srem key members => (Sets.srem lib.maxAlloc key members).handler
  | spop order key count => (Sets.spop lib.maxAlloc order key count).handler
  | smove src dst member => (Sets.move lib.maxAlloc src dst member).handler
  | sstore op dst keys => Sets.store lib.maxAlloc op dst keys
  | zadd order fl key pair pairs =>
    (SortedSets.zadd lib.scores lib.maxAlloc order fl key pair pairs).handler
  | zincrby order key delta member =>
    (SortedSets.zincrby lib.scores lib.maxAlloc order key delta member).handler
  | zrem order key members => (SortedSets.zrem lib.maxAlloc order key members).handler
  | zremrange order key range => (SortedSets.zremrange lib.maxAlloc order key range).handler
  | zpop order rev key count => (SortedSets.zpop lib.scores lib.maxAlloc order rev key count).handler
  | zmpop order blocking keys rev count =>
    (SortedSets.zmpop lib.scores lib.maxAlloc order blocking keys rev count).handler
  | bzpop order keys rev => (SortedSets.bzpop lib.scores lib.maxAlloc order keys rev).handler
  | zrangestore order dst src range =>
    (SortedSets.rangestore lib.maxAlloc order dst src range).handler
  | zstore order op agg dst keys weights =>
    (SortedSets.store lib.scores lib.maxAlloc order op agg dst keys weights).handler
  | hset key pair pairs => Commands.hset key (pair :: pairs)
  | hmset key pair pairs => Commands.hmset key (pair :: pairs)
  | hsetnx key field value => Commands.hsetnx key field value
  | hincrby key field delta => Commands.hincrby key field delta
  | hincrbyfloat key field add => Commands.hincrbyfloat key field add
  | hdel key names => Commands.hdel key names
  | hexpire kind key n cond names => Commands.hexpire kind key n cond names
  | hpersist key names => Commands.hpersist key names
  | sortStore order o key dst =>
    Commands.sortStore dst (Sort.sortedPayload lib.parseFloat lib.maxAlloc order o key)
  | read r => r.handler

/-- A command leaves something in the containers it writes without looking. A hash keeps a field
when it is read; a command that adds a field afterwards needs that only when its writes may be
refused. A sorted result has elements. -/
def ContainerCommand.Survives (w : World) : ContainerCommand → Prop
  | hset key _ _ | hmset key _ _ | hsetnx key _ _ | hincrby key _ _ =>
    HashSurvives w.Reading w.store.db key ∨ w.store.maxBytes ≤ 0
  | hincrbyfloat key _ add =>
    HashSurvives w.Reading w.store.db key ∨ w.store.maxBytes ≤ 0 ∧ (add none).isSome
  | hdel key _ | hpersist key _ => HashSurvives w.Reading w.store.db key
  | hexpire kind key n _ names => HexpireSurvives w.Reading w.store.db kind key n names
  | sortStore order o key _ =>
    let sorted := Sort.sorted lib.parseFloat lib.maxAlloc order o key
    sorted.During Look.answer Look.Survives w ∧ (sorted.exec Look.answer w).2 ≠ .ok []
  | read r => r.During Look.answer Look.Survives w
  | _ => True

variable {lib}

theorem Session.Fills.exec {s : Session kind Reply []} (hs : s.Fills)
    (h : NoEmpty maxAlloc w.store.db) :
    NoEmpty maxAlloc (s.handler.exec World.answer w).1.store.db :=
  exec_stores (T := w.Reading) (fun i => ⟨i, rfl⟩) False.elim (hs.keeps h)

/-- Writes are accepted when the store has no limit. -/
theorem exec_noEmpty {p : Handler Reply}
    (h : (∃ t, w.Reading t) → p.wp (Stores (w.store.maxBytes ≤ 0) w.Reading)
      (fun _ m' => NoEmpty maxAlloc m') w.store.db) :
    NoEmpty maxAlloc (p.exec World.answer w).1.store.db :=
  exec_stores (fun i => ⟨i, rfl⟩) id (h ⟨w.clock 0, 0, rfl⟩)

/-- One command stores no empty container. -/
theorem ContainerCommand.noEmpty (c : ContainerCommand) (h : NoEmpty lib.maxAlloc w.store.db)
    (hs : c.Survives lib w) :
    NoEmpty lib.maxAlloc ((c.handler lib).exec World.answer w).1.store.db := by
  cases c with
  | push => exact Lists.push_fills.exec h
  | pop => exact Lists.popOne_fills.exec h
  | lset => exact Lists.lset_fills.exec h
  | linsert => exact Lists.linsert_fills.exec h
  | lrem => exact Lists.lrem_fills.exec h
  | ltrim => exact Lists.ltrim_fills.exec h
  | lmove => exact Lists.move_fills.exec h
  | lmpop => exact Lists.lmpop_fills.exec h
  | bpop => exact Lists.bpop_fills.exec h
  | sadd => exact Sets.sadd_fills.exec h
  | srem => exact Sets.srem_fills.exec h
  | spop => exact Sets.spop_fills.exec h
  | smove => exact Sets.move_fills.exec h
  | sstore => exact exec_noEmpty fun _ => setStore_noEmpty h
  | zadd => exact zadd_fills.exec h
  | zincrby => exact zincrby_fills.exec h
  | zrem => exact zrem_fills.exec h
  | zremrange => exact zremrange_fills.exec h
  | zpop => exact zpop_fills.exec h
  | zmpop =>
    exact zmpop_fills.exec h
  | bzpop => exact bzpop_fills.exec h
  | zrangestore => exact rangestore_fills.exec h
  | zstore =>
    exact store_fills.exec h
  | hset => exact exec_noEmpty fun hT => hset_noEmpty hT h hs
  | hmset => exact exec_noEmpty fun hT => hmset_noEmpty hT h hs
  | hsetnx => exact exec_noEmpty fun hT => hsetnx_noEmpty hT h hs
  | hincrby => exact exec_noEmpty fun hT => hincrby_noEmpty hT h hs
  | hincrbyfloat => exact exec_noEmpty fun hT => hincrbyfloat_noEmpty hT h hs
  | hdel => exact exec_noEmpty fun hT => hdel_noEmpty hT h hs
  | hexpire => exact exec_noEmpty fun hT => hexpire_noEmpty hT h hs
  | hpersist => exact exec_noEmpty fun hT => hpersist_noEmpty hT h hs
  | sortStore order o key =>
    have hread := Reader.noEmpty h hs.1
    refine sortStore_noEmpty ?_ fun payload n hr => ?_
    · rw [Sort.sortedPayload, exec_bind]
      exact hread
    · rw [Sort.sortedPayload, exec_bind] at hr
      have hne := hs.2
      cases hout : ((Sort.sorted lib.parseFloat lib.maxAlloc order o key).exec Look.answer w).2 with
      | error =>
        rw [hout] at hr
        cases hr
      | ok =>
        rw [hout] at hr hne
        cases hr
        exact announces_encodeList fun hnil => hne (hnil ▸ rfl)
  | read =>
    rw [handler, Reader.exec_handler]
    exact Reader.noEmpty h hs

/-- A command with the clock readings that it gets. -/
structure ContainerEvent where
  command : ContainerCommand
  clock : Nat → Int64

variable (lib)

def containerStep (s : Pebble) (e : ContainerEvent) : Pebble :=
  ((e.command.handler lib).exec World.answer ⟨s, e.clock⟩).1.store

def ContainerEvent.Survives (s : Pebble) (e : ContainerEvent) : Prop :=
  e.command.Survives lib ⟨s, e.clock⟩

/-- `EXISTS key ...`: keys that are missing are not counted. -/
def existing : List Bytes → Int64 → Reader Reply
  | [], n => pure (.int n)
  | key :: keys, n => do
    match ← Sort.look key with
    | .missing => existing keys n
    | .failed f => pure f.reply
    | .record _ _ => existing keys (n + 1)

/-- A key that `EXISTS` finds has a record. -/
theorem entry_of_existing (h : ((existing [key] 0).handler.exec World.answer w).2 = .int 1) :
    ∃ p v e, w.store.db[rawKey p key]? = some v ∧ decode v = some e := by
  have hwp : (existing [key] 0).handler.wp (Answers False fun _ => True)
      (fun r _ => r = .int 1 → ∃ p v e, w.store.db[rawKey p key]? = some v ∧ decode v = some e)
      w.store.db := by
    refine wp_bind.mpr ?_
    refine wp_lookupFrom (fun _ => nofun) fun p v _ hv => ⟨fun _ => nofun, ?_⟩
    exact fun e he => ⟨fun _ => ⟨p, v, e, hv, he⟩, nofun⟩
  exact exec_world (fun _ => trivial) hwp (Prog.During.of_forall _ (fun _ _ h => h.elim) _) h

/-- From the empty store on, in every run whose steps leave something in what they write without
looking, no record is decoded to an empty container, so a key that `EXISTS` finds has elements. -/
theorem run_noEmpty {s : Pebble} (hs : s.db = ∅) {events : List ContainerEvent}
    (h : Along (containerStep lib) (fun s e => e.Survives lib s) s events) :
    NoEmpty lib.maxAlloc (run (containerStep lib) s events).db ∧
      ∀ key clock, ((existing [key] 0).handler.exec World.answer
          ⟨run (containerStep lib) s events, clock⟩).2 = .int 1 →
        ∃ p v e, (run (containerStep lib) s events).db[rawKey p key]? = some v ∧
          decode v = some e ∧ (v.length < 2 ^ 64 → isEmptyEntry lib.maxAlloc e = false) := by
  have hinv : NoEmpty lib.maxAlloc (run (containerStep lib) s events).db := by
    refine run_induction (I := fun s => NoEmpty lib.maxAlloc s.db) (fun s e hi hg => ?_) ?_ h
    · exact e.command.noEmpty hi hg
    · rw [hs]
      intro raw v hv
      cases hv
  refine ⟨hinv, fun key clock hone => ?_⟩
  obtain ⟨p, v, e, hv, he⟩ := entry_of_existing hone
  exact ⟨p, v, e, hv, he, fun hlen => hinv (rawKey p key) v hv hlen e he⟩

/-- Surroundings without arithmetic, enough for commands that need none. -/
def bareLibrary : ContainerLibrary :=
  ⟨⟨fun a _ => a, fun a _ => a, fun _ => []⟩, fun _ => none, 1024⟩

/-- `HSET k f v g v`, then `HPEXPIREAT k 1 FIELDS 1 f` one second later, then `RPUSH l a` and
`LPOP l`. -/
def expireOneField : List ContainerEvent :=
  [⟨.hset [107] ([102], [118]) [([103], [118])], fun _ => 1000000000⟩,
    ⟨.hexpire .absoluteMs [107] 1 .none [[102]], fun _ => 2000000000⟩,
    ⟨.push false [108] [97] [], fun _ => 2000000000⟩,
    ⟨.pop false [108] none, fun _ => 2000000000⟩]

theorem along_expireOneField :
    Along (containerStep bareLibrary) (fun s e => e.Survives bareLibrary s) emptyStore
      expireOneField := by
  refine ⟨.inr (by decide), ?_, trivial, trivial, trivial⟩
  rintro t t' t'' ⟨_, rfl⟩ ⟨_, rfl⟩ ⟨_, rfl⟩ fields hread
  have hleft : hashLeft (containerStep bareLibrary emptyStore
      ⟨.hset [107] ([102], [118]) [([103], [118])], fun _ => 1000000000⟩).db [107] 2000000000 =
        some ((∅ : Fields).insert [102] [118] |>.insert [103] [118]) := by
    decide +kernel
  rw [hleft] at hread
  cases hread
  exact ⟨[103], by decide, .inr (by decide)⟩

theorem run_noEmpty_expireOneField :
    Along (containerStep bareLibrary) (fun s e => e.Survives bareLibrary s) emptyStore
        expireOneField ∧
      NoEmpty 1024 (run (containerStep bareLibrary) emptyStore expireOneField).db :=
  ⟨along_expireOneField, (run_noEmpty bareLibrary rfl along_expireOneField).1⟩

theorem not_noEmpty_of_record {raw v : Bytes} {e : Entry} (hv : m[raw]? = some v)
    (hlen : v.length < 2 ^ 64) (hd : decode v = some e) (he : isEmptyEntry maxAlloc e = true) :
    ¬ NoEmpty maxAlloc m := by
  intro h
  have hfilled := h raw v hv hlen e hd
  rw [he] at hfilled
  cases hfilled

/-- `HSET k f v`, then `HPEXPIREAT k 1 FIELDS 1 f` one second later. -/
def expireAllFields : List ContainerEvent :=
  [⟨.hset [107] ([102], [118]) [], fun _ => 1000000000⟩,
    ⟨.hexpire .absoluteMs [107] 1 .none [[102]], fun _ => 2000000000⟩]

/-- `HSET k f v` and `HPEXPIREAT k 2000 FIELDS 1 f`, then `HLEN k` after the deadline. -/
def readExpired : List ContainerEvent :=
  [⟨.hset [107] ([102], [118]) [], fun _ => 1000000000⟩,
    ⟨.hexpire .absoluteMs [107] 2000 .none [[102]], fun _ => 1000000000⟩,
    ⟨.read (do
      let _ ← Sort.lookHash [107]
      pure (.int 0)), fun _ => 3000000000⟩]

/-- `RPUSH l a`, then `SORT l ALPHA LIMIT 0 0 STORE d`. -/
def sortNothing : List ContainerEvent :=
  [⟨.push false [108] [97] [], fun _ => 1⟩,
    ⟨.sortStore [] { limit := some (0, 0), alpha := true } [108] [100], fun _ => 1⟩]

/-- A hash that loses its last field to a deadline stays as an empty record, and so does the list of
a sorted result without elements. -/
theorem run_stores_empty :
    ¬ NoEmpty 1024 (run (containerStep bareLibrary) emptyStore expireAllFields).db ∧
      ¬ NoEmpty 1024 (run (containerStep bareLibrary) emptyStore readExpired).db ∧
      ¬ NoEmpty 1024 (run (containerStep bareLibrary) emptyStore sortNothing).db := by
  have hhash : isEmptyEntry 1024 ⟨typeHash, 0, encodeHash ∅⟩ = true := by decide +kernel
  have hlist : isEmptyEntry 1024 ⟨typeList, 0, encodeList []⟩ = true := by decide +kernel
  refine ⟨?_, ?_, ?_⟩
  · have hv : (run (containerStep bareLibrary) emptyStore expireAllFields).db[hashKey [107]]? =
        some (encode typeHash 0 (encodeHash ∅)) := by decide +kernel
    exact not_noEmpty_of_record hv (by decide +kernel) (decode_encode ..) hhash
  · have hv : (run (containerStep bareLibrary) emptyStore readExpired).db[hashKey [107]]? =
        some (encode typeHash 0 (encodeHash ∅)) := by decide +kernel
    exact not_noEmpty_of_record hv (by decide +kernel) (decode_encode ..) hhash
  · have hv : (run (containerStep bareLibrary) emptyStore sortNothing).db[rawKey .l [100]]? =
        some (encode typeList 0 (encodeList [])) := by decide +kernel
    exact not_noEmpty_of_record hv (by decide +kernel) (decode_encode ..) hlist

end Gedis.Commands
