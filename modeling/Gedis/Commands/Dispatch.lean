import Gedis.Commands.StoresUpkeep
import Gedis.Commands.Evictions

/-!
# Dispatched commands

The commands that touch records, one handler each, and the steps of the server: a command
runs to its end, with the clock readings it gets on the way, or the storage layer evicts a
record or is configured. One lemma covers what all commands do to the records.
-/

namespace Gedis.Commands

open Gedis.Core Datastruct Storage

/-- The commands and background passes, with parsed arguments. Commands without writes of their
own are readers; those that check before they write are sessions. -/
inductive DataCommand where
  | read (r : Reader Reply)
  | typed (kind : Kind) (s : Session kind Reply [])
  | hset (key : Bytes) (pairs : List (Bytes × Bytes))
  | hmset (key : Bytes) (pairs : List (Bytes × Bytes))
  | hsetnx (key field value : Bytes)
  | hincrby (key field : Bytes) (delta : Int64)
  | hincrbyfloat (key field : Bytes) (add : Option Bytes → Option Bytes)
  | hdel (key : Bytes) (fields : List Bytes)
  | hexpire (kind : ExpireKind) (key : Bytes) (n : Int64) (cond : ExpireCond)
      (fields : List Bytes)
  | hpersist (key : Bytes) (fields : List Bytes)
  | del (keys : List Bytes)
  | expire (kind : ExpireKind) (key : Bytes) (n : Int64) (cond : ExpireCond)
  | persist (key : Bytes)
  | copy (src dst : Bytes) (replace : Bool)
  | rename (src dst : Bytes) (nx : Bool)
  | restore (key : Bytes) (ttl : Int64) (payload : Bytes) (replace absttl : Bool)
  | migrate (key : Bytes) (keep : Bool) (send : Bytes → Int64 → Option String)
  | flush
  | sweep
  | sortStore (dst : Bytes) (sorted : Reader (Except Reply (Bytes × Int64)))
  | bitop (op : BitOp) (dst : Bytes) (keys : List Bytes)
  | msetnx (pairs : List (Bytes × Bytes))
  | setex (key : Bytes) (n : Int64) (value : Bytes)
  | psetex (key : Bytes) (n : Int64) (value : Bytes)
  | mset (pairs : List (Bytes × Bytes))
  | storeSetOp (dst : Bytes) (keys : List Bytes) (dec : Bytes → Except Reply (List Bytes))
      (op : List (Option (List Bytes)) → Option Bytes × Int64)
  | storeSearch (dst src : Bytes) (search : Option Bytes → Except Reply (Option Bytes × Int64))
  | functionLoad (name code : Bytes)
  | functionDelete (name : Bytes)
  | functionFlush

/-- The handler of a command. -/
def DataCommand.handler : DataCommand → Handler Reply
  | .read r => r.handler
  | .typed _ s => s.handler
  | .hset key pairs => Commands.hset key pairs
  | .hmset key pairs => Commands.hmset key pairs
  | .hsetnx key field value => Commands.hsetnx key field value
  | .hincrby key field delta => Commands.hincrby key field delta
  | .hincrbyfloat key field add => Commands.hincrbyfloat key field add
  | .hdel key fields => Commands.hdel key fields
  | .hexpire kind key n cond fields => Commands.hexpire kind key n cond fields
  | .hpersist key fields => Commands.hpersist key fields
  | .del keys => Commands.del keys 0
  | .expire kind key n cond => Commands.expire kind key n cond
  | .persist key => Commands.persist key
  | .copy src dst replace => Commands.copy src dst replace
  | .rename src dst nx => Commands.rename src dst nx
  | .restore key ttl payload replace absttl => Commands.restore key ttl payload replace absttl
  | .migrate key keep send => Commands.migrate key keep send
  | .flush => Commands.flush
  | .sweep => do
    -- the number of removed records is only counted in the statistics
    let _ ← sweepOnce
    pure .ok
  | .sortStore dst sorted => Commands.sortStore dst sorted
  | .bitop op dst keys => Commands.bitop op dst keys
  | .msetnx pairs => Commands.msetnx pairs
  | .setex key n value => Commands.setex key n value
  | .psetex key n value => Commands.psetex key n value
  | .mset pairs => Commands.mset pairs
  | .storeSetOp dst keys dec op => Commands.storeSetOp dst keys dec op
  | .storeSearch dst src search => Commands.storeSearch dst src search
  | .functionLoad name code => Commands.functionLoad name code
  | .functionDelete name => Commands.functionDelete name
  | .functionFlush => Commands.functionFlush

/-- The store with the clock readings to come. -/
structure World where
  store : Pebble
  clock : Nat → Int64

/-- A request is answered by the store; asking for the time uses up a reading. -/
def World.answer (w : World) (q : Request) : World × q.Answer :=
  let r := w.store.answer (w.clock 0) q
  (⟨r.1, if q = .now then fun i => w.clock (i + 1) else w.clock⟩, r.2)

/-- What can happen to the store. -/
inductive Event where
  /-- A command runs to its end, reading the clock as given. -/
  | dispatch (c : DataCommand) (clock : Nat → Int64)
  | evict
  | setMaxBytes (n : Int)
  | setPolicy (policy : Policy)

/-- One step. -/
def step (s : Pebble) : Event → Pebble
  | .dispatch c clock => (c.handler.exec World.answer ⟨s, clock⟩).1.store
  | .evict => s.evictOne.1
  | .setMaxBytes n => { s with maxBytes := max 0 n }
  | .setPolicy policy => { s with policy }

/-- The writes that a command does not check by itself meet keys they can be made to: results
written without a look at the destination find no other type there, and what is replaced has a
type with a known prefix or is a sketch or stream replaced by its own type. -/
def DataCommand.Guarded (m : OrdMap Bytes Bytes) : DataCommand → Prop
  | .setex key n _ => 0 < n → Clear m .string key
  | .psetex key n _ => 0 < n → Clear m .string key
  | .mset pairs => ∀ key ∈ pairs.map Prod.fst, Clear m .string key
  | .storeSetOp dst _ _ _ => Clear m .set dst
  | .storeSearch dst _ _ => Clear m .zset dst
  | .copy _ dst replace => replace = true → Replaceable m dst
  | .restore key _ payload replace _ =>
    replace = true → ∀ p, ∀ e ∈ entryAt m (rawKey p key),
      prefixForType e.typ ≠ none ∨ ∀ e' ∈ decode payload, e'.typ = e.typ
  | _ => True

/-- A command does not remove a hash from beside its field deadlines. -/
def DataCommand.Whole (T : Int64 → Prop) (m : OrdMap Bytes Bytes) : DataCommand → Prop
  | .expire kind key n _ => hasSidecar m key = true → ∀ t t', T t → T t' → t' < kind.deadline n t
  | .migrate key keep _ => keep = false → hasSidecar m key = false
  | .flush => ∀ key, hasSidecar m key = false
  | .sweep => ∀ t, T t → HashesLive m t
  | .restore key _ _ replace _ => replace = true → Replaceable m key
  | _ => True

variable {S : Prop} {T : Int64 → Prop} {m : OrdMap Bytes Bytes}

/-- Every guarded command keeps the records sound. -/
theorem DataCommand.keeps (c : DataCommand) (h : Inv S m) (hg : c.Guarded m) (hw : S → c.Whole T m) :
    Keeps S T m c.handler := by
  cases c with
  | read r => exact r.keeps h
  | typed kind s => exact s.keeps h fun k hk => absurd hk List.not_mem_nil
  | hset => exact hset_keeps h
  | hmset => exact hmset_keeps h
  | hsetnx => exact hsetnx_keeps h
  | hincrby => exact hincrby_keeps h
  | hincrbyfloat => exact hincrbyfloat_keeps h
  | hdel => exact hdel_keeps h
  | hexpire => exact hexpire_keeps h
  | hpersist => exact hpersist_keeps h
  | del => exact del_keeps h 0
  | expire => exact expire_keeps h hw
  | persist => exact persist_keeps h
  | copy => exact copy_keeps h hg
  | rename => exact rename_keeps h
  | restore =>
    refine restore_keeps h fun hr p de hde e he => ?_
    by_cases hS : S
    · exact .inl (hw hS hr p de hde)
    · exact (hg hr p de hde).imp_right fun hsame => ⟨hS, hsame e he⟩
  | migrate => exact migrate_keeps h hw
  | flush => exact flush_keeps h hw
  | sweep =>
    rw [handler, keeps_bind]
    exact Prog.wp_mono (sweepOnce_keeps h hw) fun _ m' hi => hi
  | sortStore => exact sortStore_keeps h
  | bitop => exact bitop_keeps h
  | msetnx => exact msetnx_keeps h
  | setex key n value | psetex key n value => exact setWithTTL_keeps h hg
  | mset => exact mset_keeps h hg
  | storeSetOp => exact storeSetOp_keeps h hg
  | storeSearch => exact storeSearch_keeps h hg
  | functionLoad =>
    exact wp_set_inv h h.insert_fn fun a m' hi => hi
  | functionDelete =>
    rw [handler, Commands.functionDelete, keeps_bind, wp_delete]
    exact h.erase_fn
  | functionFlush => exact functionFlush_keeps h

/-- The store answers within the relation, with readings from its clock. -/
theorem World.answers {w : World} (hT : ∀ i, T (w.clock i)) {q : Request}
    (h : S → Undivided w.store q) :
    Answers S T w.store.db q (w.answer q).1.store.db (w.answer q).2 :=
  ⟨Pebble.answer_lossy Loses.refl (hT 0) (drops_of_undivided h),
    fun hS => granted_of_undivided (h hS)⟩

theorem World.answer_clock {w : World} (hT : ∀ i, T (w.clock i)) (q : Request) (i : Nat) :
    T ((w.answer q).1.clock i) := by
  simp only [answer]
  split
  · exact hT (i + 1)
  · exact hT i

/-- What a handler establishes over the relation, it establishes when it runs. -/
theorem exec_world {α : Type} {p : Handler α} {post : α → OrdMap Bytes Bytes → Prop}
    {s : Pebble} {clock : Nat → Int64} (hT : ∀ i, T (clock i))
    (h : p.wp (Answers S T) post s.db)
    (hwhole : p.During World.answer (fun w q => S → Undivided w.store q) ⟨s, clock⟩) :
    post (p.exec World.answer ⟨s, clock⟩).2 (p.exec World.answer ⟨s, clock⟩).1.store.db :=
  Prog.exec_of_wp (fun w => w.store.db)
    (fun _ _ hw hs => World.answers hw hs) (fun _ q hw => World.answer_clock hw q) hT h hwhole

/-- The condition on a step under which the records of a key keep one type. -/
def Event.Guarded (s : Pebble) : Event → Prop
  | .dispatch c _ => c.Guarded s.db
  | .evict | .setMaxBytes _ | .setPolicy _ => True

/-- The further condition under which field deadlines stay with their hash: neither a command
nor an eviction takes the hash away from them, their writes are granted and values have a
representable length. -/
def Event.Whole (s : Pebble) : Event → Prop
  | .dispatch c clock =>
    c.Whole (fun t => ∃ i, clock i = t) s.db ∧
      c.handler.During World.answer (fun w q => Undivided w.store q) ⟨s, clock⟩
  | .evict => ∀ raw ∈ s.nextVictim, Evictable [] s.db raw
  | .setMaxBytes _ | .setPolicy _ => True

/-- A step that meets its conditions keeps the records sound. -/
theorem step_keeps {s : Pebble} (h : Inv S s.db) {e : Event} (hg : e.Guarded s)
    (hw : S → e.Whole s) : Inv S (step s e).db := by
  cases e with
  | dispatch c clock =>
    have hkeeps := c.keeps h hg fun hS => (hw hS).1
    refine exec_world (fun i => ⟨i, rfl⟩) hkeeps ?_
    by_cases hS : S
    · simpa [hS] using (hw hS).2
    · exact Prog.During.of_forall _ (fun _ _ hS' => absurd hS' hS) _
  | evict => exact h.loses (loses_evictOne hw)
  | setMaxBytes => exact h
  | setPolicy => exact h

end Gedis.Commands
