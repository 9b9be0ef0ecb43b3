import Gedis.Storage.Pebble

/-!
# Memory accounting

The running total of used bytes is the total size of the tracked records in every
reachable state. A successful batch leaves the store within its limit. A successful write
does so exactly when making room did not evict the record that is being replaced, or left
room for the whole new record.
-/

namespace Gedis.Storage

open Gedis.Core Replication OrdMap

variable {s : Pebble} {key : Bytes} {ops : List BatchOp}

namespace Pebble

/-- The length of a key together with the value stored under it. -/
def recordSize (s : Pebble) (key : Bytes) : Int :=
  key.length + (s.db[key]?.elim 0 List.length : Nat)

/-- The total size of all tracked records. -/
def trackedBytes (s : Pebble) : Int := OrdMap.weight (fun key _ => s.recordSize key) s.lru

/-- Every tracked key is stored, with its size on record, and the sizes add up. -/
structure Accounts (s : Pebble) : Prop where
  total : s.usedBytes = OrdMap.weight (fun _ e => e.size) s.lru
  sizes : ∀ (key : Bytes) (e : LruEntry), s.lru[key]? = some e →
    ∃ value, s.db[key]? = some value ∧ e.size = key.length + value.length

theorem accounts_opened {db : OrdMap Bytes Bytes} {maxBytes : Int} {policy : Policy} {hub : Hub}
    {draws : List Draw} : (opened db maxBytes policy hub draws).Accounts :=
  ⟨rfl, fun key e h => by simp [opened] at h⟩

theorem Accounts.usedBytes_eq (h : s.Accounts) : s.usedBytes = s.trackedBytes := by
  rw [h.total]
  refine weight_congr fun key e he => ?_
  obtain ⟨value, hv, hsize⟩ := h.sizes key e he
  simp [recordSize, hv, hsize]

/-- The accounts do not depend on the hub, the hooks or the environment. -/
theorem Accounts.of_eq {s' : Pebble} (h : s.Accounts) (hdb : s'.db = s.db) (hlru : s'.lru = s.lru)
    (hused : s'.usedBytes = s.usedBytes) : s'.Accounts := by
  refine ⟨?_, ?_⟩
  · rw [hused, hlru]
    exact h.total
  · rw [hdb, hlru]
    exact h.sizes

/-- The recorded size of a key, zero when it is not tracked. -/
theorem deltaFor_eq (s : Pebble) (key : Bytes) (size : Int) :
    s.deltaFor key size = size - OrdMap.weightAt (fun _ e => e.size) s.lru key := by
  unfold deltaFor weightAt
  cases s.lru[key]? <;> simp

theorem deltaFor_congr {s' : Pebble} (h : s'.lru[key]? = s.lru[key]?) {size : Int} :
    s'.deltaFor key size = s.deltaFor key size := by
  simp [deltaFor, h]

theorem deltaFor_of_untracked (h : s.lru[key]? = none) {size : Int} :
    s.deltaFor key size = size := by
  simp [deltaFor, h]

/-- Storing a record and tracking it keeps the accounts. -/
theorem Accounts.store (h : s.Accounts) {key value : Bytes} :
    ((s.engine [⟨key, some value⟩]).trackSet key value).Accounts := by
  refine ⟨?_, ?_⟩
  · have hd := deltaFor_eq s key (key.length + value.length)
    have ht := h.total
    simp only [deltaFor] at hd
    simp only [trackSet, engine_lru, engine_usedBytes, weight_insert]
    omega
  · intro a e ha
    have hdb : ((s.engine [⟨key, some value⟩]).trackSet key value).db[a]? =
        if key = a then some value else s.db[a]? := Write.getElem?_apply ⟨key, some value⟩
    rw [hdb]
    simp only [trackSet, engine_lru, getElem?_insert] at ha
    by_cases he : key = a
    · subst he
      rw [ite_cond_eq_true _ _ (eq_self key)] at ha ⊢
      exact ⟨value, rfl, by rw [← Option.some.inj ha]⟩
    · rw [ite_cond_eq_false _ _ (eq_false he)] at ha ⊢
      exact h.sizes a e ha

theorem Accounts.remove (h : s.Accounts) : ((s.engine [⟨key, none⟩]).trackDelete key).Accounts := by
  refine ⟨?_, ?_⟩
  · have ht := h.total
    rw [trackDelete_lru, engine_lru, weight_erase, ← ht]
    unfold trackDelete weightAt
    rw [engine_lru]
    cases s.lru[key]? <;> simp
  · intro a e ha
    have hdb : ((s.engine [⟨key, none⟩]).trackDelete key).db[a]? =
        if key = a then none else s.db[a]? := by
      rw [trackDelete_db]
      exact Write.getElem?_apply ⟨key, none⟩
    rw [hdb]
    rw [trackDelete_lru, getElem?_erase] at ha
    by_cases he : key = a
    · simp [he] at ha
    · rw [ite_cond_eq_false _ _ (eq_false he)] at ha ⊢
      exact h.sizes a e ha

theorem Accounts.deleteInternal (h : s.Accounts) : (s.deleteInternal key).Accounts :=
  h.remove.of_eq rfl rfl rfl

theorem Accounts.trackGet (h : s.Accounts) : (s.trackGet key).Accounts := by
  unfold Pebble.trackGet
  cases he : s.lru[key]? with
  | none => exact h
  | some e =>
    refine ⟨?_, ?_⟩
    · have ht := h.total
      simp only [weight_insert, weightAt, he, Option.elim_some]
      omega
    · intro a e' ha
      simp only [getElem?_insert] at ha
      by_cases hk : key = a
      · subst hk
        rw [ite_cond_eq_true _ _ (eq_self key)] at ha
        rw [← Option.some.inj ha]
        exact h.sizes key e he
      · rw [ite_cond_eq_false _ _ (eq_false hk)] at ha
        exact h.sizes a e' ha

/-- Making room keeps the accounts. -/
theorem Accounts.evictForDelta (h : s.Accounts) {delta : Int} :
    (s.evictForDelta delta).1.Accounts :=
  evictForDelta_induction (fun _ _ h => h.of_eq rfl rfl rfl)
    (fun _ key _ h => h.deleteInternal.of_eq rfl rfl rfl) h delta

/-- Commit and account for a single operation. -/
def commitOne (s : Pebble) (op : BatchOp) : Pebble := (s.engine [op.write]).trackOp op

theorem Accounts.commitOne (h : s.Accounts) {op : BatchOp} : (s.commitOne op).Accounts := by
  unfold Pebble.commitOne trackOp BatchOp.write
  cases hd : op.delete with
  | true => exact h.remove.of_eq rfl rfl rfl
  | false => exact h.store.of_eq rfl rfl rfl

private theorem trackOp_engine (s : Pebble) (ws : List (Write Bytes Bytes)) (op : BatchOp) :
    (s.engine ws).trackOp op = (s.trackOp op).engine ws := by
  unfold trackOp trackDelete
  cases op.delete with
  | false => rfl
  | true =>
    rw [engine_lru]
    cases s.lru[op.key]? <;> rfl

/-- Committing a batch at once and accounting for it afterwards comes to the same as
committing its operations one by one. -/
theorem commit_eq_foldl (s : Pebble) : s.commit ops = ops.foldl commitOne s := by
  induction ops generalizing s with
  | nil => simp [commit, engine]
  | cons op ops ih =>
    have hsplit : s.engine ((op :: ops).map BatchOp.write) =
        (s.engine [op.write]).engine (ops.map BatchOp.write) := by
      simp [engine]
    rw [List.foldl_cons, ← ih (s.commitOne op)]
    simp only [commit, List.foldl_cons, hsplit, trackOp_engine _ (ops.map BatchOp.write), commitOne]

theorem Accounts.commit (h : s.Accounts) : (s.commit ops).Accounts := by
  rw [commit_eq_foldl]
  induction ops generalizing s with
  | nil => exact h
  | cons op ops ih => exact ih h.commitOne

theorem Accounts.publishAll (h : s.Accounts) : (s.publishAll ops).Accounts := by
  obtain ⟨hub, he⟩ := publishAll_eq s
  rw [he]
  exact h.of_eq rfl rfl rfl

theorem Accounts.step (h : s.Accounts) {c : Call} : (s.step c).Accounts :=
  step_induction (fun _ key h => h.trackGet) (fun _ delta h => h.evictForDelta)
    (fun _ key value h => h.store.of_eq rfl rfl rfl)
    (fun _ key h => h.deleteInternal.of_eq rfl rfl rfl) (fun _ ops h => h.commit)
    (fun _ ops h => h.publishAll) h c

@[simp] theorem step_maxBytes {c : Call} : (s.step c).maxBytes = s.maxBytes := by
  refine step_induction (I := fun s' => s'.maxBytes = s.maxBytes) ?_ ?_ ?_ ?_ ?_ ?_ rfl c
  all_goals intros
  all_goals simp_all [put, publish, notify, trackSet, delete]

/-- A successful write ends within the limit exactly when making room did not evict the
record being replaced, or left room for the whole new record. -/
theorem set_within_iff {value : Bytes} (hmax : 0 < s.maxBytes) (hok : (s.set key value).2 = .ok) :
    (s.set key value).1.usedBytes ≤ s.maxBytes ↔
      ((key ∈ s.lru → key ∈ (s.makeRoom key value).1.lru) ∨
        (s.makeRoom key value).1.usedBytes + (key.length + value.length) ≤ s.maxBytes) := by
  rcases set_cases s key value with ⟨-, he⟩ | ⟨hloop, he⟩
  · rw [he] at hok
    cases hok
  · have hroom := evictForDelta_ok hmax hloop
    have hused : (s.set key value).1.usedBytes = (s.makeRoom key value).1.usedBytes +
        (s.makeRoom key value).1.deltaFor key (key.length + value.length) := by
      rw [he]
      rfl
    rw [hused]
    have hkey : Spared s (s.makeRoom key value).1 key ∨ Gone s (s.makeRoom key value).1 key :=
      evictForDelta_key
    rcases hkey with hs | hg
    · -- the record is still the one the growth was computed for
      rw [deltaFor_congr hs.lru_eq]
      refine iff_of_true hroom (.inl fun hm => ?_)
      rw [Std.ExtTreeMap.mem_iff_isSome_getElem?] at hm ⊢
      rwa [← hs.lru_eq] at hm
    · rw [deltaFor_of_untracked hg.lru_none]
      refine ⟨.inr, ?_⟩
      rintro (hkeep | hfit)
      · have hm := hkeep hg.tracked
        rw [Std.ExtTreeMap.mem_iff_isSome_getElem?, hg.lru_none] at hm
        cases hm
      · exact hfit

/-- A successful batch ends within the limit unless it is empty and the store was over it. -/
theorem writeBatch_within_iff (hmax : 0 < s.maxBytes) (hok : (s.writeBatch ops).2 = .ok) :
    (s.writeBatch ops).1.usedBytes ≤ s.maxBytes ↔ (ops ≠ [] ∨ s.usedBytes ≤ s.maxBytes) := by
  rcases writeBatch_cases s ops with
    ⟨hops, he⟩ | ⟨-, -, he⟩ | ⟨-, -, -, he⟩ | ⟨hops, -, hsettle, he⟩
  · rw [he]
    simp [hops]
  · rw [he] at hok
    cases hok
  · rw [he] at hok
    cases hok
  · have hm : 0 < ((s.reserve ops).1.commit ops).maxBytes := by simpa using hmax
    have hroom := evictForDelta_ok hm hsettle
    refine iff_of_true ?_ (.inl hops)
    rw [he]
    simpa [settle, evictIfNeeded] using hroom

/-- What a call needs to end within the limit: a write that replaces a record must not make
room by evicting that very record, unless the room suffices all the same; an empty batch
must find the store within the limit. -/
def RoomFor (s : Pebble) : Call → Prop
  | .set key value =>
    (key ∈ s.lru → key ∈ (s.makeRoom key value).1.lru) ∨
      (s.makeRoom key value).1.usedBytes + (key.length + value.length) ≤ s.maxBytes
  | .writeBatch ops => ops ≠ [] ∨ s.usedBytes ≤ s.maxBytes
  | _ => True

end Pebble

open Pebble in
/-- In every state that a run of calls reaches, the running total is the total size of the
tracked records, and a call that reports success ends within a positive limit exactly when
the store had room for it. -/
theorem memory_accounted (db : OrdMap Bytes Bytes) (maxBytes : Int) (policy : Policy)
    (hub : Hub) (draws : List Draw) (calls : List Call) :
    let s := run Pebble.step (opened db maxBytes policy hub draws) calls
    s.usedBytes = s.trackedBytes ∧
      ∀ c : Call, c.grows → 0 < maxBytes → (s.exec c).2 = .ok →
        ((s.exec c).1.usedBytes ≤ maxBytes ↔ s.RoomFor c) := by
  intro s
  have haccounts : s.Accounts :=
    run_invariant (fun _ c h => h.step) accounts_opened calls
  have hmax : s.maxBytes = maxBytes :=
    run_invariant (I := fun s : Pebble => s.maxBytes = maxBytes)
      (fun s c h => by rw [step_maxBytes, h]) rfl calls
  refine ⟨haccounts.usedBytes_eq, ?_⟩
  intro c hgrows hpos hok
  rw [← hmax] at hpos ⊢
  cases c with
  | get => cases hgrows
  | set => exact set_within_iff hpos hok
  | delete => cases hgrows
  | writeBatch => exact writeBatch_within_iff hpos hok

open Pebble in
/-- Two records under a limit of 14 bytes; replacing the first by one of 10 bytes. -/
theorem memory_accounted_replace :
    let s := run Pebble.step (opened ∅ 14 .allkeysLru (newHub 4096) [])
      [.set [97] [0, 0, 0, 0, 0], .set [98] [0, 0, 0, 0, 0]]
    let c := Call.set [97] [0, 0, 0, 0, 0, 0, 0, 0, 0]
    (s.exec c).2 = .ok ∧ ((s.exec c).1.usedBytes ≤ 14 ↔ s.RoomFor c) :=
  ⟨by decide, (memory_accounted ∅ 14 .allkeysLru (newHub 4096) []
    [.set [97] [0, 0, 0, 0, 0], .set [98] [0, 0, 0, 0, 0]]).2 _ rfl (by decide) (by decide)⟩

open Pebble in
/-- Making room for the larger record evicts the record it replaces, whose size was counted
as a saving, and the write succeeds two bytes over the limit. -/
theorem replace_exceeds_limit :
    let s := run Pebble.step (opened ∅ 14 .allkeysLru (newHub 4096) [])
      [.set [97] [0, 0, 0, 0, 0], .set [98] [0, 0, 0, 0, 0]]
    let c := Call.set [97] [0, 0, 0, 0, 0, 0, 0, 0, 0]
    (s.exec c).2 = .ok ∧ (s.exec c).1.usedBytes = 16 ∧ ¬ (s.exec c).1.usedBytes ≤ 14 := by
  decide

end Gedis.Storage
