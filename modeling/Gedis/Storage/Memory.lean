import Gedis.Datastruct.Codec
import Gedis.Replication.Hub

/-!
# The store's state, its memory accounting and eviction

The store keeps an engine map, a table with the size and access data of every tracked key,
and a running total of the tracked sizes. Eviction chooses a victim by policy from an
enumeration of the table in arbitrary order, with arbitrary random numbers, and repeats
until a requested amount fits. Every eviction removes a tracked key, so the loop ends.
-/

namespace Gedis.Storage

open Gedis.Core Datastruct Replication Std List

variable {P : OrdMap Bytes Bytes → Bytes → Prop} {coins : List Nat} {ws : List (Write Bytes Bytes)}
  {key : Bytes} {delta : Int}

/-- The eight eviction policies; the empty policy text means `allkeysLru`. -/
inductive Policy where
  | noeviction | allkeysRandom | volatileRandom | volatileTtl
  | allkeysLru | volatileLru | allkeysLfu | volatileLfu
  deriving DecidableEq, Repr

/-- Only keys with a deadline are candidates. -/
def Policy.volatileOnly : Policy → Bool
  | .volatileRandom | .volatileTtl | .volatileLru | .volatileLfu => true
  | _ => false

/-- What the store remembers about a tracked key. -/
structure LruEntry where
  /-- Second of the last access. -/
  atSec : UInt32
  /-- Length of the key and of its value. -/
  size : Int
  expires : Bool
  /-- Deadline in nanoseconds, zero for none. -/
  expAt : Int64
  /-- Access counter, starting at one and saturating at 255. -/
  freq : UInt8
  deriving DecidableEq, Repr, Inhabited

/-- One answer of the environment: the clock, the iteration order of the table and the
random numbers drawn meanwhile. -/
structure Draw where
  nowSec : UInt32
  order : List Nat
  coins : List Nat
  deriving DecidableEq, Repr, Inhabited

/-- A call of one of the two hooks. -/
inductive Notice where
  | set | delete | evict
  deriving DecidableEq, Repr

/-- The outcome of a storage call. -/
inductive Outcome where
  | ok | oom
  deriving DecidableEq, Repr

/-- The state of the storage layer. -/
structure Pebble where
  /-- Contents of the underlying engine. -/
  db : OrdMap Bytes Bytes
  /-- Every write and removal the engine was given; the program itself does not keep it. -/
  journal : List (Write Bytes Bytes)
  lru : OrdMap Bytes LruEntry
  usedBytes : Int
  /-- Memory limit, zero for none. -/
  maxBytes : Int
  policy : Policy
  evicted : Nat
  hub : Hub
  /-- Hook calls so far. -/
  notices : List (Notice × Bytes)
  /-- The environment's answers still to come; afterwards it answers with the default. -/
  draws : List Draw

/-- The table entries a policy may evict. -/
def Policy.candidates (policy : Policy) (entries : List (Bytes × LruEntry)) :
    List (Bytes × LruEntry) :=
  if policy.volatileOnly then entries.filter fun e => e.2.expires else entries

/-- A scan that keeps a current choice and replaces it by an entry that beats it. -/
def scan (beats : LruEntry → LruEntry → Bool) : List (Bytes × LruEntry) → Option (Bytes × LruEntry)
  | [] => none
  | e :: es => some (es.foldl (fun v c => if beats c.2 v.2 then c else v) e)

/-- Reservoir sampling: the `n`-th candidate replaces the choice when a number drawn below
`n` is zero. -/
def reservoir : Nat → Option Bytes → List (Bytes × LruEntry) → List Nat → Option Bytes
  | _, choice, [], _ => choice
  | n, choice, e :: es, coins =>
    reservoir (n + 1) (if coins.headD 0 % (n + 1) = 0 then some e.1 else choice) es coins.tail

/-- Number of candidates sampled per eviction. -/
def evictSampleN : Nat := 5

/-- An earlier deadline. -/
def ttlBeats (c v : LruEntry) : Bool := c.expAt < v.expAt

/-- A less recent access. -/
def lruBeats (c v : LruEntry) : Bool := c.atSec < v.atSec

/-- Fewer accesses, then a less recent one. -/
def lfuBeats (c v : LruEntry) : Bool :=
  c.freq < v.freq || (c.freq == v.freq && c.atSec < v.atSec)

/-- The key a policy evicts, given the table in iteration order and the random numbers. -/
def victim (policy : Policy) (entries : List (Bytes × LruEntry)) (coins : List Nat) :
    Option Bytes :=
  match policy with
  | .noeviction => none
  | .volatileTtl => (scan ttlBeats (policy.candidates entries)).map Prod.fst
  | .allkeysRandom | .volatileRandom => reservoir 0 none (policy.candidates entries) coins
  | .allkeysLfu | .volatileLfu =>
    (scan lfuBeats ((policy.candidates entries).take evictSampleN)).map Prod.fst
  | .allkeysLru | .volatileLru =>
    (scan lruBeats ((policy.candidates entries).take evictSampleN)).map Prod.fst

theorem Policy.candidates_subset (policy : Policy) (entries : List (Bytes × LruEntry)) :
    policy.candidates entries ⊆ entries := by
  unfold Policy.candidates
  split
  · exact filter_subset_self _
  · exact List.Subset.refl _

variable {entries : List (Bytes × LruEntry)}

theorem mem_of_scan {beats : LruEntry → LruEntry → Bool}
    {e : Bytes × LruEntry} (h : scan beats entries = some e) : e ∈ entries := by
  cases entries with
  | nil => cases h
  | cons first rest =>
    simp only [scan, Option.some.injEq] at h
    subst h
    -- the running choice is the first entry or one of those already scanned
    induction rest generalizing first with
    | nil => exact mem_cons_self ..
    | cons c rest ih =>
      rw [foldl_cons]
      split
      · exact mem_cons_of_mem _ (ih c)
      · rcases mem_cons.mp (ih first) with h | h
        · rw [h]
          exact mem_cons_self ..
        · exact mem_cons_of_mem _ (mem_cons_of_mem _ h)

theorem mem_of_reservoir {n : Nat} {choice : Option Bytes}
    {k : Bytes} (h : reservoir n choice entries coins = some k) :
    choice = some k ∨ k ∈ entries.map Prod.fst := by
  induction entries generalizing n choice coins with
  | nil => exact .inl h
  | cons e entries ih =>
    rcases ih h with hc | hm
    · split at hc
      · refine .inr ?_
        rw [← Option.some.inj hc]
        exact mem_cons_self ..
      · exact .inl hc
    · exact .inr (mem_cons_of_mem _ hm)

/-- Whatever the policy, order and random numbers, a victim is an entry of the table. -/
theorem mem_of_victim {policy : Policy} {k : Bytes}
    (h : victim policy entries coins = some k) : k ∈ entries.map Prod.fst := by
  have hcand := policy.candidates_subset entries
  have hscan : ∀ (beats : LruEntry → LruEntry → Bool) (es : List (Bytes × LruEntry)),
      es ⊆ entries → (scan beats es).map Prod.fst = some k → k ∈ entries.map Prod.fst := by
    intro beats es hes he
    obtain ⟨e, hs, hk⟩ := Option.map_eq_some_iff.mp he
    exact mem_map.mpr ⟨e, hes (mem_of_scan hs), hk⟩
  have hsample : (policy.candidates entries).take evictSampleN ⊆ entries :=
    fun _ he => hcand (take_subset _ _ he)
  have hrandom : reservoir 0 none (policy.candidates entries) coins = some k →
      k ∈ entries.map Prod.fst := by
    intro hr
    rcases mem_of_reservoir hr with hn | hm
    · cases hn
    · exact map_subset _ hcand hm
  cases policy with
  | noeviction => cases h
  | volatileTtl => exact hscan _ _ hcand h
  | allkeysRandom => exact hrandom h
  | volatileRandom => exact hrandom h
  | allkeysLfu | volatileLfu | allkeysLru | volatileLru => exact hscan _ _ hsample h

theorem Policy.candidates_perm {policy : Policy} {entries' : List (Bytes × LruEntry)}
    (h : entries.Perm entries') : (policy.candidates entries).Perm (policy.candidates entries') := by
  unfold Policy.candidates
  split
  · exact h.filter _
  · exact h

/-- Sampling keeps having a choice. -/
theorem isSome_reservoir {n : Nat} {choice : Option Bytes} (h : choice.isSome) :
    (reservoir n choice entries coins).isSome := by
  induction entries generalizing n choice coins with
  | nil => exact h
  | cons e entries ih =>
    refine ih ?_
    split
    · rfl
    · exact h

/-- A policy that evicts finds a victim whenever there is a candidate. -/
theorem candidates_of_victim {policy : Policy} (h : victim policy entries coins = none) :
    policy = .noeviction ∨ policy.candidates entries = [] := by
  cases hcands : policy.candidates entries with
  | nil => exact .inr rfl
  | cons e es =>
    have hsome := @isSome_reservoir coins.tail es 1 (some e.1) rfl
    rw [Option.isSome_iff_ne_none] at hsome
    refine .inl ?_
    cases policy <;> simp_all [victim, scan, reservoir, Nat.mod_one, evictSampleN]

namespace Pebble

/-- Record a written key: its size, its deadline and one more access. -/
def trackSet (s : Pebble) (key value : Bytes) : Pebble :=
  let expAt := (decode value).elim 0 Entry.expiry
  let size : Int := key.length + value.length
  let old := s.lru[key]?
  let freq := old.elim 1 fun e => if e.freq < 255 then e.freq + 1 else e.freq
  { s with
    usedBytes := s.usedBytes + old.elim size fun e => size - e.size
    lru := s.lru.insert key ⟨(s.draws.headD default).nowSec, size, decide (expAt ≠ 0), expAt, freq⟩
    draws := s.draws.tail }

/-- Record a read of a tracked key. -/
def trackGet (s : Pebble) (key : Bytes) : Pebble :=
  match s.lru[key]? with
  | none => s
  | some e =>
    let freq := if e.freq < 255 then e.freq + 1 else e.freq
    { s with
      lru := s.lru.insert key { e with atSec := (s.draws.headD default).nowSec, freq }
      draws := s.draws.tail }

/-- Forget a removed key. -/
def trackDelete (s : Pebble) (key : Bytes) : Pebble :=
  match s.lru[key]? with
  | none => s
  | some e => { s with usedBytes := s.usedBytes - e.size, lru := s.lru.erase key }

/-- How much a write of the given total size adds to the used bytes. -/
def deltaFor (s : Pebble) (key : Bytes) (size : Int) : Int :=
  s.lru[key]?.elim size fun e => size - e.size

/-- Hand an operation to the replication hub. -/
def publish (s : Pebble) (op : Op) : Pebble := { s with hub := s.hub.publish op }

/-- Record a hook call. -/
def notify (s : Pebble) (n : Notice) (key : Bytes) : Pebble :=
  { s with notices := s.notices ++ [(n, key)] }

/-- Give the engine writes and removals to carry out. -/
def engine (s : Pebble) (ws : List (Write Bytes Bytes)) : Pebble :=
  { s with db := replay s.db ws, journal := s.journal ++ ws }

variable {s : Pebble}

@[simp] theorem engine_db : (s.engine ws).db = replay s.db ws := rfl

@[simp] theorem engine_lru : (s.engine ws).lru = s.lru := rfl

@[simp] theorem engine_usedBytes : (s.engine ws).usedBytes = s.usedBytes := rfl

@[simp] theorem engine_maxBytes : (s.engine ws).maxBytes = s.maxBytes := rfl

@[simp] theorem engine_hub : (s.engine ws).hub = s.hub := rfl

/-- Remove a key from the engine and the table and publish the removal. -/
def deleteInternal (s : Pebble) (key : Bytes) : Pebble :=
  ((s.engine [⟨key, none⟩]).trackDelete key).publish ⟨0, true, key, []⟩

/-- Remove a chosen victim. -/
def evictKey (s : Pebble) (key : Bytes) : Pebble :=
  { s.deleteInternal key with evicted := s.evicted + 1 }.notify .evict key

/-- The key that the next eviction picks, if there is a candidate. -/
def nextVictim (s : Pebble) : Option Bytes :=
  let d := s.draws.headD default
  victim s.policy (arrange d.order s.lru.toList) d.coins

/-- Evict one key by policy; `false` when there is no candidate. -/
def evictOne (s : Pebble) : Pebble × Bool :=
  let key := s.nextVictim
  let s := { s with draws := s.draws.tail }
  match key with
  | none => (s, false)
  | some key => (s.evictKey key, true)

/-- The eviction loop with a bound on its iterations. -/
def evictLoop : Nat → Int → Pebble → Pebble × Outcome
  | 0, _, s => (s, .oom)
  | fuel + 1, delta, s =>
    if s.maxBytes < s.usedBytes + delta then
      match s.evictOne with
      | (s, true) => evictLoop fuel delta s
      | (s, false) => (s, .oom)
    else (s, .ok)

/-- Evict until `delta` more bytes fit under the limit, if there is one. -/
def evictForDelta (s : Pebble) (delta : Int) : Pebble × Outcome :=
  if 0 < s.maxBytes then evictLoop (s.lru.size + 1) delta s else (s, .ok)

/-- Evict until the used bytes fit under the limit. -/
def evictIfNeeded (s : Pebble) : Pebble × Outcome := s.evictForDelta 0

/-- Every victim of the eviction loop meets a condition, judged on the engine before it goes. -/
def EvictLoopOnly (P : OrdMap Bytes Bytes → Bytes → Prop) : Nat → Int → Pebble → Prop
  | 0, _, _ => True
  | fuel + 1, delta, s =>
    s.maxBytes < s.usedBytes + delta →
      ∀ key ∈ s.nextVictim, P s.db key ∧ EvictLoopOnly P fuel delta s.evictOne.1

/-- The victims of a loop can be checked. -/
def EvictLoopOnly.decide (P : OrdMap Bytes Bytes → Bytes → Prop) [∀ m key, Decidable (P m key)] :
    ∀ (fuel : Nat) (delta : Int) (s : Pebble), Decidable (EvictLoopOnly P fuel delta s)
  | 0, _, _ => .isTrue trivial
  | fuel + 1, delta, s =>
    haveI := EvictLoopOnly.decide P fuel delta s.evictOne.1
    inferInstanceAs (Decidable (s.maxBytes < s.usedBytes + delta →
      ∀ key ∈ s.nextVictim, P s.db key ∧ EvictLoopOnly P fuel delta s.evictOne.1))

/-- Making room for `delta` more bytes only evicts records that meet a condition. -/
def EvictsOnly (P : OrdMap Bytes Bytes → Bytes → Prop) (s : Pebble) (delta : Int) : Prop :=
  0 < s.maxBytes → EvictLoopOnly P (s.lru.size + 1) delta s

instance (P : OrdMap Bytes Bytes → Bytes → Prop) [∀ m key, Decidable (P m key)] (s : Pebble)
    (delta : Int) : Decidable (s.EvictsOnly P delta) :=
  haveI := EvictLoopOnly.decide P (s.lru.size + 1) delta s
  inferInstanceAs (Decidable (0 < s.maxBytes → EvictLoopOnly P (s.lru.size + 1) delta s))

@[simp] theorem trackDelete_lru : (s.trackDelete key).lru = s.lru.erase key := by
  unfold trackDelete
  split
  · next h => rw [OrdMap.erase_of_getElem?_none h]
  · rfl

@[simp] theorem trackDelete_db : (s.trackDelete key).db = s.db := by
  unfold trackDelete
  split <;> rfl

@[simp] theorem trackDelete_maxBytes : (s.trackDelete key).maxBytes = s.maxBytes := by
  unfold trackDelete
  split <;> rfl

@[simp] theorem trackDelete_hub : (s.trackDelete key).hub = s.hub := by
  unfold trackDelete
  split <;> rfl

@[simp] theorem trackDelete_journal : (s.trackDelete key).journal = s.journal := by
  unfold trackDelete
  split <;> rfl

@[simp] theorem deleteInternal_lru : (s.deleteInternal key).lru = s.lru.erase key := by
  simp [deleteInternal, publish]

@[simp] theorem deleteInternal_db : (s.deleteInternal key).db = s.db.erase key := by
  simp [deleteInternal, publish, Write.apply]

@[simp] theorem deleteInternal_journal :
    (s.deleteInternal key).journal = s.journal ++ [⟨key, none⟩] := by
  simp [deleteInternal, publish, engine]

@[simp] theorem deleteInternal_maxBytes : (s.deleteInternal key).maxBytes = s.maxBytes := by
  simp [deleteInternal, publish]

@[simp] theorem deleteInternal_hub :
    (s.deleteInternal key).hub = s.hub.publish ⟨0, true, key, []⟩ := by
  simp [deleteInternal, publish]

theorem mem_of_nextVictim (h : s.nextVictim = some key) : key ∈ s.lru := by
  have hmem := ((arrange_perm _ s.lru.toList).map Prod.fst).subset (mem_of_victim h)
  rw [ExtTreeMap.map_fst_toList_eq_keys] at hmem
  exact ExtTreeMap.mem_keys.mp hmem

/-- One eviction removes its victim, or finds no candidate and only consumes a draw. -/
theorem evictOne_cases (s : Pebble) :
    (∃ key, s.nextVictim = some key ∧
      s.evictOne = ({ s with draws := s.draws.tail }.evictKey key, true)) ∨
      s.nextVictim = none ∧ s.evictOne = ({ s with draws := s.draws.tail }, false) := by
  cases h : s.nextVictim with
  | none => exact .inr ⟨rfl, by simp [evictOne, h]⟩
  | some key => exact .inl ⟨key, rfl, by simp [evictOne, h]⟩

private theorem size_evictKey (h : key ∈ s.lru) : (s.evictKey key).lru.size < s.lru.size := by
  have hpos : s.lru.size ≠ 0 := by
    intro h0
    rw [ExtTreeMap.eq_empty_iff_size_eq_zero.mpr h0] at h
    exact ExtTreeMap.not_mem_empty h
  have hc : s.lru.contains key = true := ExtTreeMap.contains_iff_mem.mpr h
  simp only [evictKey, notify, deleteInternal_lru, ExtTreeMap.size_erase, hc, ite_true]
  omega

private theorem evictLoop_fuel (delta : Int) (n : Nat) :
    ∀ (m : Nat) (s : Pebble), s.lru.size < n → s.lru.size < m →
      evictLoop n delta s = evictLoop m delta s := by
  induction n with
  | zero => intro m s hn; omega
  | succ n ih =>
    intro m s hn hm
    obtain ⟨m, rfl⟩ : ∃ m', m = m' + 1 := ⟨m - 1, by omega⟩
    unfold evictLoop
    split
    · rcases evictOne_cases s with ⟨key, hkey, he⟩ | ⟨-, he⟩
      · rw [he]
        have hmem : key ∈ s.lru := mem_of_nextVictim hkey
        have hless : ({ s with draws := s.draws.tail }.evictKey key).lru.size < s.lru.size :=
          size_evictKey hmem
        exact ih m _ (by omega) (by omega)
      · rw [he]
    · rfl

/-- The eviction loop as the program runs it: while the amount does not fit, evict. -/
theorem evictForDelta_eq : s.evictForDelta delta =
      if 0 < s.maxBytes ∧ s.maxBytes < s.usedBytes + delta then
        match s.evictOne with
        | (s, true) => s.evictForDelta delta
        | (s, false) => (s, .oom)
      else (s, .ok) := by
  by_cases hmax : 0 < s.maxBytes
  · simp only [evictForDelta, hmax, ite_true, true_and]
    rw [evictLoop]
    split
    · rcases evictOne_cases s with ⟨key, hkey, he⟩ | ⟨-, he⟩
      · rw [he]
        have hmem : key ∈ s.lru := mem_of_nextVictim hkey
        have hm : 0 < ({ s with draws := s.draws.tail }.evictKey key).maxBytes := by
          simpa [evictKey, notify] using hmax
        simp only [hm, ite_true]
        exact evictLoop_fuel delta _ _ _ (size_evictKey hmem) (Nat.lt_succ_self _)
      · rw [he]
    · rfl
  · simp [evictForDelta, hmax]

/-- Making room succeeds exactly with enough room, and fails only when the policy has nothing left to
evict. -/
theorem evictForDelta_outcome (s : Pebble) (delta : Int) :
    let made := s.evictForDelta delta
    (made.2 = .ok ↔ (0 < made.1.maxBytes → made.1.usedBytes + delta ≤ made.1.maxBytes)) ∧
      (made.2 = .oom →
        made.1.policy = .noeviction ∨ made.1.policy.candidates made.1.lru.toList = []) := by
  induction hsize : s.lru.size using Nat.strong_induction_on generalizing s with
  | _ n ih =>
    dsimp only
    rw [evictForDelta_eq]
    split
    case isTrue hfull =>
      obtain ⟨key, hkey, he⟩ | ⟨hnone, he⟩ := evictOne_cases s <;> rw [he]
      · have hmem : key ∈ s.lru := mem_of_nextVictim hkey
        exact ih _ (hsize ▸ size_evictKey hmem) _ rfl
      · refine ⟨⟨by rintro ⟨⟩, fun h => absurd (h hfull.1) (Int.not_le.mpr hfull.2)⟩, fun _ => ?_⟩
        refine (candidates_of_victim hnone).imp_right fun hnil => ?_
        exact ((Policy.candidates_perm (arrange_perm _ _)).symm.trans (.of_eq hnil)).eq_nil
    case isFalse hfits =>
      exact ⟨⟨fun _ hmax => Int.not_lt.mp fun h => hfits ⟨hmax, h⟩, fun _ => rfl⟩, by rintro ⟨⟩⟩

private theorem evictLoopOnly_of_forall (h : ∀ m key, P m key) (delta : Int) (fuel : Nat) :
    ∀ s : Pebble, EvictLoopOnly P fuel delta s := by
  induction fuel with
  | zero => intro s; trivial
  | succ fuel ih => exact fun s _ key _ => ⟨h s.db key, ih _⟩

private theorem evictLoop_induction {I : Pebble → Prop}
    (hdraw : ∀ s ds, I s → I { s with draws := ds })
    (hevict : ∀ s key, key ∈ s.lru → P s.db key → I s → I (s.evictKey key)) (delta : Int)
    (fuel : Nat) : ∀ s, EvictLoopOnly P fuel delta s → I s → I (evictLoop fuel delta s).1 := by
  induction fuel with
  | zero => intro s _ hs; exact hs
  | succ fuel ih =>
    intro s honly hs
    unfold evictLoop
    split
    · next hfull =>
      rcases evictOne_cases s with ⟨key, hkey, he⟩ | ⟨-, he⟩
      · obtain ⟨hP, hrest⟩ := honly hfull key hkey
        have hmem : key ∈ s.lru := mem_of_nextVictim hkey
        rw [he] at hrest ⊢
        exact ih _ hrest (hevict _ key hmem hP (hdraw s _ hs))
      · rw [he]
        exact hdraw s _ hs
    · exact hs

/-- What drawing and the removal of a tracked key that meets the condition preserve, making room
that only evicts such records preserves. -/
theorem EvictsOnly.induction {I : Pebble → Prop} (h : s.EvictsOnly P delta)
    (hdraw : ∀ s ds, I s → I { s with draws := ds })
    (hevict : ∀ s key, key ∈ s.lru → P s.db key → I s → I (s.evictKey key)) (hs : I s) :
    I (s.evictForDelta delta).1 := by
  unfold evictForDelta
  split
  · next hmax => exact evictLoop_induction hdraw hevict delta _ s (h hmax) hs
  · exact hs

theorem evictForDelta_induction {P : Pebble → Prop} (hdraw : ∀ s ds, P s → P { s with draws := ds })
    (hevict : ∀ s key, key ∈ s.lru → P s → P (s.evictKey key)) (hs : P s)
    (delta : Int) : P (s.evictForDelta delta).1 := by
  have h : s.EvictsOnly (fun _ _ => True) delta :=
    fun _ => evictLoopOnly_of_forall (fun _ _ => trivial) delta _ s
  exact h.induction hdraw (fun s key hkey _ => hevict s key hkey) hs

@[simp] theorem evictForDelta_maxBytes (s : Pebble) (delta : Int) :
    (s.evictForDelta delta).1.maxBytes = s.maxBytes := by
  refine evictForDelta_induction (P := fun s' => s'.maxBytes = s.maxBytes) ?_ ?_ rfl delta
  · intro s' ds h
    exact h
  · intro s' key _ h
    simpa [evictKey, notify] using h

/-- A key that making room left alone. -/
structure Spared (s s' : Pebble) (key : Bytes) : Prop where
  db_eq : s'.db[key]? = s.db[key]?
  lru_eq : s'.lru[key]? = s.lru[key]?
  contents_eq : (contents s'.hub.log)[key]? = (contents s.hub.log)[key]?

/-- A tracked key that making room removed. -/
structure Gone (s s' : Pebble) (key : Bytes) : Prop where
  tracked : key ∈ s.lru
  lru_none : s'.lru[key]? = none
  db_none : s'.db[key]? = none
  contents_none : (contents s'.hub.log)[key]? = none

/-- Making room decides for every key separately: it is left alone, or it was tracked and is
removed from the engine, the table and the published contents alike. -/
theorem evictForDelta_key :
    Spared s (s.evictForDelta delta).1 key ∨ Gone s (s.evictForDelta delta).1 key := by
  refine evictForDelta_induction (P := fun s' => Spared s s' key ∨ Gone s s' key) ?_ ?_
    (.inl ⟨rfl, rfl, rfl⟩) delta
  · rintro s' ds (h | h)
    · exact .inl ⟨h.db_eq, h.lru_eq, h.contents_eq⟩
    · exact .inr ⟨h.tracked, h.lru_none, h.db_none, h.contents_none⟩
  · intro s' victim hvictim h
    have hdb : (s'.evictKey victim).db = s'.db.erase victim := by simp [evictKey, notify]
    have hlru : (s'.evictKey victim).lru = s'.lru.erase victim := by simp [evictKey, notify]
    have hlog : contents (s'.evictKey victim).hub.log = (contents s'.hub.log).erase victim := by
      simp only [evictKey, notify, deleteInternal_hub, Hub.contents_publish]
      rfl
    by_cases he : victim = key
    · -- the victim of this round
      subst he
      refine .inr ⟨?_, ?_, ?_, ?_⟩
      · rcases h with h | h
        · rw [ExtTreeMap.mem_iff_isSome_getElem?] at hvictim ⊢
          rwa [h.lru_eq] at hvictim
        · exact h.tracked
      · simp [hlru]
      · simp [hdb]
      · simp [hlog]
    · rcases h with h | h
      · refine .inl ⟨?_, ?_, ?_⟩
        · simpa [hdb, OrdMap.getElem?_erase, he] using h.db_eq
        · simpa [hlru, OrdMap.getElem?_erase, he] using h.lru_eq
        · simpa [hlog, OrdMap.getElem?_erase, he] using h.contents_eq
      · refine .inr ⟨h.tracked, ?_, ?_, ?_⟩
        · simpa [hlru, OrdMap.getElem?_erase, he] using h.lru_none
        · simpa [hdb, OrdMap.getElem?_erase, he] using h.db_none
        · simpa [hlog, OrdMap.getElem?_erase, he] using h.contents_none

private theorem evictLoop_ok (delta : Int) (fuel : Nat) :
    ∀ s : Pebble, (evictLoop fuel delta s).2 = .ok →
      (evictLoop fuel delta s).1.usedBytes + delta ≤ (evictLoop fuel delta s).1.maxBytes := by
  induction fuel with
  | zero => intro s h; cases h
  | succ fuel ih =>
    intro s h
    unfold evictLoop at h ⊢
    split at h
    · next hfull =>
      rw [ite_cond_eq_true _ _ (by simpa using hfull)]
      rcases evictOne_cases s with ⟨key, -, he⟩ | ⟨-, he⟩
      · rw [he] at h ⊢
        exact ih _ h
      · rw [he] at h
        cases h
    · next hfull =>
      rw [ite_cond_eq_false _ _ (by simpa using hfull)]
      exact Int.not_lt.mp hfull

/-- When the loop reports success, the requested amount fits. -/
theorem evictForDelta_ok (hmax : 0 < s.maxBytes) (h : (s.evictForDelta delta).2 = .ok) :
    (s.evictForDelta delta).1.usedBytes + delta ≤ s.maxBytes := by
  have hm := evictForDelta_maxBytes s delta
  simp only [evictForDelta, hmax, ite_true] at h hm ⊢
  rw [← hm]
  exact evictLoop_ok delta _ s h

end Pebble

end Gedis.Storage
