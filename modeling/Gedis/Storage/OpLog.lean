import Gedis.Storage.Pebble

/-!
# The published operation log

Every change of the engine is handed to the replication hub. Writes, removals and
evictions publish as they happen. A batch publishes after its second eviction round, so
the log agrees with the engine as long as that round succeeds and spares the keys of the
batch.
-/

namespace Gedis.Storage

open Gedis.Core Replication

variable {s : Pebble}

namespace Pebble

/-- Replaying the published operations gives the engine's contents. -/
def Reproduces (s : Pebble) : Prop := contents s.hub.log = s.db

theorem Reproduces.deleteInternal (h : s.Reproduces) {key : Bytes} :
    (s.deleteInternal key).Reproduces := by
  rw [Reproduces, deleteInternal_hub, deleteInternal_db, Hub.contents_publish, h]
  rfl

theorem Reproduces.put (h : s.Reproduces) {key value : Bytes} : (s.put key value).Reproduces := by
  have hdb : (s.put key value).db = s.db.insert key value := rfl
  have hhub : (s.put key value).hub = s.hub.publish ⟨0, false, key, value⟩ := rfl
  rw [Reproduces, hhub, Hub.contents_publish, h]
  rfl

/-- Evictions publish their removals. -/
theorem Reproduces.evictForDelta (h : s.Reproduces) {delta : Int} :
    (s.evictForDelta delta).1.Reproduces :=
  evictForDelta_induction (fun _ _ h => h) (fun _ key _ h => h.deleteInternal) h delta

/-- The second eviction round of a batch succeeds and spares every key of the batch. -/
def SparesBatch (s : Pebble) (ops : List BatchOp) : Prop :=
  (s.settle ops).2 = .ok ∧ ∀ op ∈ ops, op.key ∈ (s.commit ops).lru → op.key ∈ (s.settle ops).1.lru

instance (s : Pebble) (ops : List BatchOp) : Decidable (s.SparesBatch ops) :=
  inferInstanceAs (Decidable (_ ∧ _))

/-- A batch whose keys the second eviction round spares is published as it was committed. -/
theorem Reproduces.publishAll_settle (h : s.Reproduces) {ops : List BatchOp}
    (hspare : s.SparesBatch ops) : ((s.settle ops).1.publishAll ops).Reproduces := by
  rw [Reproduces, contents_publishAll, publishAll_db]
  apply Std.ExtTreeMap.ext_getElem?
  intro key
  have hkey : Spared (s.commit ops) (s.settle ops).1 key ∨ Gone (s.commit ops) (s.settle ops).1 key :=
    evictForDelta_key
  by_cases hu : Untouched (ops.map BatchOp.write) key
  · -- the batch does not mention the key: the eviction round treats log and engine alike
    rw [getElem?_replay_of_untouched hu]
    rcases hkey with hs | hg
    · rw [hs.contents_eq, hs.db_eq, commit_hub, commit_db, getElem?_replay_of_untouched hu, h]
    · rw [hg.contents_none, hg.db_none]
  · -- the batch decides the key in the log, and the key survives in the engine
    have hspared : Spared (s.commit ops) (s.settle ops).1 key := by
      rcases hkey with hs | hg
      · exact hs
      · obtain ⟨op, hop, hk⟩ : ∃ op ∈ ops, op.key = key := by
          by_contra hne
          refine hu fun w hw he => hne ?_
          obtain ⟨op, hop, rfl⟩ := List.mem_map.mp hw
          exact ⟨op, hop, he⟩
        have hm := hspare.2 op hop (by rw [hk]; exact hg.tracked)
        rw [hk, Std.ExtTreeMap.mem_iff_isSome_getElem?, hg.lru_none] at hm
        cases hm
    rw [hspared.db_eq, commit_db]
    exact getElem?_replay_of_touched hu _ _

/-- A batch that commits must be published as committed; other calls always are. -/
def PublishesCommitted (s : Pebble) : Call → Prop
  | .writeBatch ops => (s.reserve ops).2 = .ok → (s.reserve ops).1.SparesBatch ops
  | _ => True

instance (s : Pebble) : (c : Call) → Decidable (s.PublishesCommitted c)
  | .writeBatch _ => inferInstanceAs (Decidable (_ → _))
  | .get _ | .set .. | .delete _ => .isTrue trivial

/-- One call keeps the log in step with the engine. -/
theorem Reproduces.step (h : s.Reproduces) {c : Call} (hc : s.PublishesCommitted c) :
    (s.step c).Reproduces := by
  cases c with
  | get key =>
    simp only [Pebble.step, exec, get]
    cases s.db[key]? with
    | none => exact h
    | some => simpa [Reproduces] using h
  | set key value =>
    simp only [Pebble.step, exec]
    have hroom : (s.makeRoom key value).1.Reproduces := h.evictForDelta
    rcases set_cases s key value with ⟨-, he⟩ | ⟨-, he⟩
    · rw [he]
      exact hroom
    · rw [he]
      exact hroom.put
  | delete => exact h.deleteInternal
  | writeBatch ops =>
    simp only [Pebble.step, exec]
    have hreserve : (s.reserve ops).1.Reproduces := h.evictForDelta
    rcases writeBatch_cases s ops with
      ⟨-, he⟩ | ⟨-, -, he⟩ | ⟨-, hok, hfail, -⟩ | ⟨-, hok, -, he⟩
    · rw [he]
      exact h
    · rw [he]
      exact hreserve
    · rw [(hc hok).1] at hfail
      cases hfail
    · rw [he]
      exact hreserve.publishAll_settle (hc hok)

/-- What every publication preserves of the hub, every call preserves. -/
theorem hub_step {J : Hub → Prop} (hpublish : ∀ hub op, J hub → J (hub.publish op))
    (h : J s.hub) (c : Call) : J (s.step c).hub := by
  have hdelete : ∀ (s : Pebble) key, J s.hub → J (s.deleteInternal key).hub := by
    intro s key h
    rw [deleteInternal_hub]
    exact hpublish _ _ h
  refine step_induction (fun s key h => ?_) (fun s delta h => ?_)
    (fun s _ _ h => hpublish _ _ h) hdelete (fun s ops h => ?_) (fun s ops h => ?_) h c
  · rwa [trackGet_hub]
  · exact evictForDelta_induction (fun _ _ h => h) (fun s key _ h => hdelete s key h) h delta
  · rwa [commit_hub]
  · induction ops generalizing s with
    | nil => exact h
    | cons op ops ih => exact ih _ (hpublish _ _ h)

theorem ordered_step (h : s.hub.Ordered) {c : Call} : (s.step c).hub.Ordered :=
  hub_step (fun _ op h => h.publish) h c

theorem log_step {s : Pebble} {c : Call} : ∃ new, (s.step c).hub.log = s.hub.log ++ new := by
  refine hub_step (J := fun hub => ∃ new, hub.log = s.hub.log ++ new) ?_
    ⟨[], (List.append_nil _).symm⟩ c
  rintro hub op ⟨new, h⟩
  rw [Hub.publish_log, h, List.append_assoc]
  exact ⟨_, rfl⟩

end Pebble

open Pebble in
/-- From an empty store, in every run whose batches are published as they were committed, the
published operations are numbered from one in publication order, and replaying them in that
order gives exactly the engine's contents. -/
theorem published_reproduces (maxBytes : Int) (policy : Policy) (maxOps : Int)
    (draws : List Draw) (calls : List Call)
    (h : Along Pebble.step PublishesCommitted
      (opened ∅ maxBytes policy (newHub maxOps) draws) calls) :
    let s := run Pebble.step (opened ∅ maxBytes policy (newHub maxOps) draws) calls
    s.hub.log.map Op.offset = List.range' 1 s.hub.log.length ∧ contents s.hub.log = s.db := by
  intro s
  have hordered : s.hub.Ordered :=
    run_invariant (I := fun s : Pebble => s.hub.Ordered) (fun _ c h => ordered_step h)
      Hub.ordered_newHub calls
  have hreproduces : s.Reproduces :=
    run_induction (fun _ _ h hc => h.step hc) rfl h
  exact ⟨hordered.numbered, hreproduces⟩

open Pebble in
/-- A batch that makes room by evicting a key it does not mention. -/
theorem published_reproduces_evicting :
    let calls : List Call := [.set [97] [0, 0, 0, 0, 0], .set [98] [0, 0, 0, 0, 0],
      .writeBatch [⟨[99], [0, 0, 0, 0, 0], false⟩, ⟨[98], [], true⟩, ⟨[98], [1, 1, 1, 1], false⟩]]
    let s := run Pebble.step (opened ∅ 14 .allkeysLru (newHub 4096) []) calls
    s.evicted = 1 ∧ s.hub.log.map Op.offset = List.range' 1 s.hub.log.length ∧
      contents s.hub.log = s.db :=
  ⟨by decide, published_reproduces 14 .allkeysLru 4096 [] _ (by decide)⟩

open Pebble in
/-- A batch grows the record that its first eviction round removed, so the second round
evicts it again, and its deletion is published before the batch's own write. -/
theorem published_diverges :
    let s := run Pebble.step (opened ∅ 14 .allkeysLru (newHub 4096) [])
      [.set [97] [0, 0, 0, 0, 0], .set [98] [0, 0, 0, 0, 0],
        .writeBatch [⟨[97], [0, 0, 0, 0, 0, 0, 0, 0, 0], false⟩]]
    s.db[([97] : Bytes)]? = none ∧
      (contents s.hub.log)[([97] : Bytes)]? = some [0, 0, 0, 0, 0, 0, 0, 0, 0] ∧
      contents s.hub.log ≠ s.db := by
  decide

end Gedis.Storage
