import Gedis.Commands.OneRecord
import Gedis.Commands.Tracking

/-!
# Tracking misses no change

Between the read of a key and its change nothing takes the key out of the table while the tracking of
the connection goes on. So the change finds the connection, unless the key is the empty string, which
the hook takes for no key at all.
-/

namespace Gedis.Commands

open Gedis.Core Datastruct Storage Protocol Acl List ConnRegistry

variable {f : ConnState → ConnState} {key raw : Bytes} {s : TrackServer × Bool}
  {writer : Option Nat} {conn id : Nat} {c : ConnRegistry} {keys args : List Bytes}
  {st : TrackServer} {muted : Option Nat} {notices : List (Notice × Bytes)} {call : Call}
  {ops : List BatchOp} {events : List TrackEvent}

namespace ConnRegistry

variable {c : ConnRegistry} {conn conn' : Nat}

/-- The numbers of connections differ and have been given out. -/
structure Numbered (c : ConnRegistry) : Prop where
  le : ∀ (conn : Nat) (cs : ConnState), c.m[conn]? = some cs → cs.id ≤ c.nextID
  distinct : ∀ (conn conn' : Nat) (cs cs' : ConnState), c.m[conn]? = some cs →
    c.m[conn']? = some cs' → cs.id = cs'.id → conn = conn'

theorem state_of_some {cs : ConnState} (h : c.m[conn]? = some cs) : c.state conn = (c, cs) := by
  rw [state, h]

theorem getElem?_state_self : (c.state conn).1.m[conn]? = some (c.state conn).2 := by
  rw [state]
  cases h : c.m[conn]? with
  | some => exact h
  | none => simp

theorem getElem?_state_of_ne (h : conn ≠ conn') : (c.state conn).1.m[conn']? = c.m[conn']? := by
  rw [state]
  cases c.m[conn]? with
  | some => rfl
  | none => simp [OrdMap.getElem?_insert, h]

theorem tracking_state (h : c.m[conn]? = none) : (c.state conn).2.tracking = {} := by
  rw [state, h]

theorem Numbered.state (h : c.Numbered) : (c.state conn).1.Numbered := by
  rw [ConnRegistry.state]
  cases hm : c.m[conn]? with
  | some => exact h
  | none =>
    have hnew {conn' : Nat} {cs : ConnState} (hcs : c.m[conn']? = some cs) :
        cs.id ≠ c.nextID + 1 := by
      have hle := h.le conn' cs hcs
      omega
    constructor
    · intro conn' cs hcs
      rw [OrdMap.getElem?_insert] at hcs
      split at hcs
      · cases hcs
        exact Nat.le_refl _
      · exact Nat.le_succ_of_le (h.le conn' cs hcs)
    · intro conn₁ conn₂ cs₁ cs₂ h₁ h₂ hid
      rw [OrdMap.getElem?_insert] at h₁ h₂
      split at h₁ <;> split at h₂
      · next he₁ he₂ => rw [← he₁, ← he₂]
      · cases h₁
        exact absurd hid.symm (hnew h₂)
      · cases h₂
        exact absurd hid (hnew h₁)
      · exact h.distinct _ _ _ _ h₁ h₂ hid

theorem getElem?_modify : (c.modify conn f).m[conn']? =
      if conn = conn' then some (f (c.state conn).2) else c.m[conn']? := by
  rw [modify, OrdMap.getElem?_insert]
  split
  · rfl
  · next h => exact getElem?_state_of_ne h

theorem state_modify : (c.modify conn f).state conn = (c.modify conn f, f (c.state conn).2) :=
  state_of_some (getElem?_modify.trans (if_pos rfl))

/-- Numbers that were given out before stay distinct. -/
theorem Numbered.of_back {c' : ConnRegistry} (h : c.Numbered) (hnext : c.nextID ≤ c'.nextID)
    (hback : ∀ {conn : Nat} {cs : ConnState}, c'.m[conn]? = some cs →
      ∃ cs', c.m[conn]? = some cs' ∧ cs'.id = cs.id) : c'.Numbered := by
  constructor
  · intro conn' cs hcs
    obtain ⟨cs', hcs', hid⟩ := hback hcs
    rw [← hid]
    exact (h.le conn' cs' hcs').trans hnext
  · intro conn₁ conn₂ cs₁ cs₂ h₁ h₂ hid
    obtain ⟨cs₁', h₁', hid₁⟩ := hback h₁
    obtain ⟨cs₂', h₂', hid₂⟩ := hback h₂
    exact h.distinct _ _ _ _ h₁' h₂' (by rw [hid₁, hid₂, hid])

theorem Numbered.erase (h : c.Numbered) : ConnRegistry.Numbered { c with m := c.m.erase conn } := by
  refine h.of_back (Nat.le_refl _) fun hcs => ?_
  rw [OrdMap.getElem?_erase] at hcs
  split at hcs
  · cases hcs
  · exact ⟨_, hcs, rfl⟩

/-- The number of a connection leads back to it. -/
theorem Numbered.connByID (h : c.Numbered) {cs : ConnState} (hcs : c.m[conn]? = some cs) :
    c.connByID cs.id = some (conn, cs) := by
  have hmem : (conn, cs) ∈ c.m.toList := Std.ExtTreeMap.mem_toList_iff_getElem?_eq_some.mpr hcs
  have hsome : (c.connByID cs.id).isSome := by
    rw [ConnRegistry.connByID, find?_isSome]
    exact ⟨_, hmem, by simp⟩
  obtain ⟨⟨conn', cs'⟩, hfound⟩ := Option.isSome_iff_exists.mp hsome
  have hid : cs'.id = cs.id := by simpa using find?_some hfound
  have hcs' : c.m[conn']? = some cs' :=
    Std.ExtTreeMap.mem_toList_iff_getElem?_eq_some.mp (mem_of_find?_eq_some hfound)
  obtain rfl := h.distinct _ _ _ _ hcs' hcs hid
  rw [hcs] at hcs'
  cases hcs'
  exact hfound

/-- Connections stay and keep their numbers. -/
def Keeps (c c' : ConnRegistry) : Prop :=
  ∀ (conn : Nat) (cs : ConnState), c.m[conn]? = some cs →
    ∃ cs', c'.m[conn]? = some cs' ∧ cs'.id = cs.id

/-- Connections stay, and their numbers stay distinct. -/
structure Evolves (c c' : ConnRegistry) : Prop where
  keeps : c.Keeps c'
  numbered : c.Numbered → c'.Numbered

theorem Evolves.trans {c₁ c₂ c₃ : ConnRegistry} (h : c₁.Evolves c₂) (h' : c₂.Evolves c₃) :
    c₁.Evolves c₃ := by
  refine ⟨fun conn cs hcs => ?_, fun hn => h'.numbered (h.numbered hn)⟩
  obtain ⟨cs', hcs', hid⟩ := h.keeps conn cs hcs
  obtain ⟨cs'', hcs'', hid'⟩ := h'.keeps conn cs' hcs'
  exact ⟨cs'', hcs'', hid'.trans hid⟩

theorem evolves_state (c : ConnRegistry) (conn : Nat) : c.Evolves (c.state conn).1 := by
  refine ⟨fun conn' cs hcs => ?_, fun h => h.state⟩
  by_cases he : conn = conn'
  · subst he
    rw [state_of_some hcs]
    exact ⟨cs, hcs, rfl⟩
  · exact ⟨cs, by rwa [getElem?_state_of_ne he], rfl⟩

theorem evolves_modify (hf : ∀ cs, (f cs).id = cs.id) : c.Evolves (c.modify conn f) := by
  refine ⟨fun conn' cs hcs => ?_, fun h => h.state.of_back (Nat.le_refl _) fun hcs => ?_⟩
  · rw [getElem?_modify]
    split
    · next he =>
      subst he
      rw [state_of_some hcs]
      exact ⟨_, rfl, hf cs⟩
    · exact ⟨cs, hcs, rfl⟩
  · rw [getElem?_modify] at hcs
    split at hcs
    · next he =>
      cases hcs
      exact ⟨_, he ▸ getElem?_state_self, (hf _).symm⟩
    · next he => exact ⟨_, by rwa [getElem?_state_of_ne he], rfl⟩

theorem evolves_setCaching {v : Bool} :
    c.Evolves (c.setCaching conn v) := evolves_modify fun _ => rfl

/-- The changes of connections that begin or end tracking. -/
theorem evolves_setTracking (c : ConnRegistry) (conn : Nat) (cfg : TrackingCfg) :
    c.Evolves ((c.setTracking conn cfg).setCaching conn false) :=
  have h : c.Evolves (c.setTracking conn cfg) := evolves_modify fun _ => rfl
  h.trans evolves_setCaching

theorem numbered_empty : ConnRegistry.Numbered {} :=
  ⟨fun _ _ h => by simp at h, fun _ _ _ _ h => by simp at h⟩

end ConnRegistry

namespace TrackTable

variable {t : TrackTable}

/-- The indexes of the table are inverse relations. -/
def Inverse (t : TrackTable) : Prop := ∀ k id, t.fwd.Linked k id ↔ t.rev.Linked id k

theorem linked_rev_register {id' : Nat} {k : Bytes} :
    (t.register id keys).rev.Linked id' k ↔ t.rev.Linked id' k ∨ id = id' ∧ k ∈ keys :=
  Links.linked_foldl_link_right

theorem linked_rev_removeConn {id' : Nat} {k : Bytes} :
    (t.removeConn id).rev.Linked id' k ↔ t.rev.Linked id' k ∧ id ≠ id' :=
  Links.linked_erase

theorem Inverse.register (h : t.Inverse) : (t.register id keys).Inverse := by
  intro k id'
  rw [linked_rev_register, TrackTable.register, Links.linked_foldl_link, h k id', and_comm]

theorem Inverse.removeConn (h : t.Inverse) : (t.removeConn id).Inverse := by
  intro k id'
  rw [linked_rev_removeConn, TrackTable.removeConn, Links.linked_foldl_unlink, Links.mem_linksOf,
    h k id']
  constructor
  · rintro ⟨hlinked, hnot⟩
    refine ⟨hlinked, ?_⟩
    rintro rfl
    exact hnot ⟨hlinked, rfl⟩
  · rintro ⟨hlinked, hne⟩
    exact ⟨hlinked, fun hcontra => hne hcontra.2⟩

theorem inverse_empty : TrackTable.Inverse {} := by
  intro k id
  simp [Links.Linked]

end TrackTable

namespace TrackServer

variable {st st₁ st₂ st₃ : TrackServer} {conn id : Nat} {k : Bytes}

/-- What holds in every state: numbers lead to one connection, the indexes are inverse, and frames
name keys that are not empty. -/
structure Sound (st : TrackServer) : Prop where
  numbered : st.conns.Numbered
  inverse : st.tracks.Inverse
  frames : ∀ x ∈ st.pushed, ∃ key, key ≠ [] ∧ x.2 = invalidate key

/-- A connection of the newer protocol tracks without options. -/
def Plain (st : TrackServer) (conn : Nat) : Prop :=
  ∃ cs : ConnState, st.conns.m[conn]? = some cs ∧ 3 ≤ cs.proto ∧ cs.tracking = { on := true }

instance (st : TrackServer) (conn : Nat) : Decidable (st.Plain conn) :=
  decidable_of_iff (∃ cs ∈ st.conns.m[conn]?, 3 ≤ cs.proto ∧ cs.tracking = { on := true }) Iff.rfl

/-- Such a connection is registered for a key, under its number. -/
def Watching (st : TrackServer) (conn id : Nat) (k : Bytes) : Prop :=
  ∃ cs : ConnState, st.conns.m[conn]? = some cs ∧ 3 ≤ cs.proto ∧ cs.tracking = { on := true } ∧
    cs.id = id ∧ st.tracks.rev.Linked id k

/-- A part of a step that starts no tracking, does not touch the keys of connections that go on
tracking and takes no frame back. -/
structure Gentle (st st' : TrackServer) : Prop where
  plain : ∀ conn, st'.Plain conn → st.Plain conn
  watching : ∀ conn id k, st.Watching conn id k → st'.Plain conn → st'.Watching conn id k
  pushed : st.pushed <+: st'.pushed

theorem Gentle.refl : Gentle st st :=
  ⟨fun _ h => h, fun _ _ _ h _ => h, prefix_refl _⟩

theorem Gentle.trans (h : Gentle st₁ st₂) (h' : Gentle st₂ st₃) : Gentle st₁ st₃ :=
  ⟨fun conn hp => h.plain conn (h'.plain conn hp),
    fun conn id k hw hp => h'.watching conn id k (h.watching conn id k hw (h'.plain conn hp)) hp,
    h.pushed.trans h'.pushed⟩

/-- A part of a step that keeps what always holds and is gentle. -/
def Mild (st st' : TrackServer) : Prop := st.Sound → st'.Sound ∧ Gentle st st'

theorem Mild.refl : Mild st st := fun h => ⟨h, Gentle.refl⟩

theorem Mild.trans (h : Mild st₁ st₂) (h' : Mild st₂ st₃) : Mild st₁ st₃ := by
  intro hs
  obtain ⟨hs₂, hgentle⟩ := h hs
  obtain ⟨hs₃, hgentle'⟩ := h' hs₂
  exact ⟨hs₃, hgentle.trans hgentle'⟩

/-- A step that leaves the connections and the table alone is gentle. -/
theorem gentle_of_eq (hconns : st₂.conns = st₁.conns) (htracks : st₂.tracks = st₁.tracks)
    (hpushed : st₁.pushed <+: st₂.pushed) : Gentle st₁ st₂ := by
  refine ⟨fun conn h => ?_, fun conn id k h _ => ?_, hpushed⟩
  · rwa [Plain, hconns] at h
  · rwa [Watching, hconns, htracks]

theorem mild_of_eq (hconns : st₂.conns = st₁.conns) (htracks : st₂.tracks = st₁.tracks)
    (hpushed : st₂.pushed = st₁.pushed) : Mild st₁ st₂ := by
  refine fun h => ⟨⟨?_, ?_, ?_⟩, gentle_of_eq hconns htracks (hpushed ▸ prefix_refl _)⟩
  · rw [hconns]
    exact h.numbered
  · rw [htracks]
    exact h.inverse
  · rw [hpushed]
    exact h.frames

theorem gentle_state : Gentle st { st with conns := (st.conns.state conn).1 } := by
  have hback {conn' : Nat} {cs : ConnState} (hcs : (st.conns.state conn).1.m[conn']? = some cs)
      (hon : cs.tracking = { on := true }) : st.conns.m[conn']? = some cs := by
    by_cases he : conn = conn'
    · subst he
      cases hm : st.conns.m[conn]? with
      | some => rwa [state_of_some hm, hm] at hcs
      | none =>
        rw [getElem?_state_self] at hcs
        cases hcs
        rw [tracking_state hm] at hon
        cases hon
    · rwa [getElem?_state_of_ne he] at hcs
  refine ⟨fun conn' h => ?_, fun conn' id k h hp => ?_, prefix_refl _⟩
  · obtain ⟨cs, hcs, hproto, hon⟩ := h
    exact ⟨cs, hback hcs hon, hproto, hon⟩
  · obtain ⟨cs, hcs, hproto, hon⟩ := hp
    obtain ⟨cs', hcs', -, -, hid, hlinked⟩ := h
    rw [hback hcs hon] at hcs'
    cases hcs'
    exact ⟨cs, hcs, hproto, hon, hid, hlinked⟩

theorem untrack_eq :
    (st.untrack conn).conns = (st.conns.setTracking conn {}).setCaching conn false ∧
      (st.untrack conn).tracks = st.tracks.removeConn (st.conns.state conn).2.id := by
  have hself : ((st.conns.setTracking conn {}).setCaching conn false).m[conn]? =
      some { (st.conns.state conn).2 with tracking := {}, cachingYes := false } := by
    rw [ConnRegistry.setCaching, ConnRegistry.getElem?_modify, if_pos rfl, ConnRegistry.setTracking,
      state_modify]
  constructor
  · rw [untrack, state_of_some hself]
  · rw [untrack, state_of_some hself]

theorem getElem?_untrack_of_ne {conn' : Nat} (h : conn ≠ conn') :
    (st.untrack conn).conns.m[conn']? = st.conns.m[conn']? := by
  rw [untrack_eq.1, ConnRegistry.setCaching, ConnRegistry.getElem?_modify, if_neg h,
    ConnRegistry.setTracking, ConnRegistry.getElem?_modify, if_neg h]

theorem not_plain_untrack : ¬ (st.untrack conn).Plain conn := by
  rintro ⟨cs, hcs, -, hon⟩
  rw [untrack_eq.1, ConnRegistry.setCaching, ConnRegistry.getElem?_modify, if_pos rfl,
    ConnRegistry.setTracking, ConnRegistry.state_modify] at hcs
  cases hcs
  cases hon

theorem mild_untrack : Mild st (st.untrack conn) := by
  intro h
  obtain ⟨hconns, htracks⟩ := untrack_eq
  have hother {conn' : Nat} (hp : (st.untrack conn).Plain conn') : conn ≠ conn' := by
    rintro rfl
    exact not_plain_untrack hp
  refine ⟨⟨?_, ?_, h.frames⟩, fun conn' hp => ?_, fun conn' id k hw hp => ?_, prefix_refl _⟩
  · rw [hconns]
    exact (evolves_setTracking _ conn {}).numbered h.numbered
  · rw [htracks]
    exact h.inverse.removeConn
  · have hne := hother hp
    rwa [Plain, getElem?_untrack_of_ne hne] at hp
  · have hne := hother hp
    obtain ⟨cs, hcs, hproto, hon, rfl, hlinked⟩ := hw
    refine ⟨cs, by rwa [getElem?_untrack_of_ne hne], hproto, hon, rfl, ?_⟩
    rw [htracks, TrackTable.linked_rev_removeConn]
    refine ⟨hlinked, fun hid => hne ?_⟩
    refine h.numbered.state.distinct _ _ _ _ getElem?_state_self ?_ hid
    rwa [getElem?_state_of_ne hne]

/-- A frame is new in the second state. -/
def Pushes (st st' : TrackServer) (x : Nat × Value) : Prop :=
  ∃ frames, st'.pushed = st.pushed ++ frames ∧ x ∈ frames

theorem Pushes.mono {x : Nat × Value} (h : Pushes st₁ st₂ x) {st₀ : TrackServer}
    (h₀ : st₀.pushed <+: st₁.pushed) (h₂ : st₂.pushed <+: st₃.pushed) : Pushes st₀ st₃ x := by
  obtain ⟨frames, heq, hx⟩ := h
  obtain ⟨before, h₀⟩ := h₀
  obtain ⟨after, h₂⟩ := h₂
  refine ⟨before ++ frames ++ after, ?_, by simp [hx]⟩
  rw [← h₂, heq, ← h₀]
  simp

theorem push_cases {frame : Value} : (∃ p, st.push conn frame =
        { st with pipes := st.pipes.insert conn p, pushed := st.pushed ++ [(conn, frame)] }) ∨
      st.push conn frame = { st with pipes := st.pipes.erase conn }.untrack conn := by
  rw [push]
  rcases ((st.pipes[conn]?).getD {}).enqueue frame with ⟨p, ok⟩
  cases ok with
  | true => exact .inl ⟨p, rfl⟩
  | false => exact .inr rfl

theorem mild_push (hkey : key ≠ []) : Mild st (st.push conn (invalidate key)) := by
  rcases push_cases with ⟨p, he⟩ | he
  · rw [he]
    refine fun h => ⟨⟨h.numbered, h.inverse, ?_⟩, gentle_of_eq rfl rfl (prefix_append ..)⟩
    intro x hx
    rcases mem_append.mp hx with hx | hx
    · exact h.frames x hx
    · rw [mem_singleton.mp hx]
      exact ⟨key, hkey, rfl⟩
  · rw [he]
    have herase : Mild st { st with pipes := st.pipes.erase conn } := mild_of_eq rfl rfl rfl
    exact herase.trans mild_untrack

/-- A connection that goes on tracking has taken the frame. -/
theorem pushes_push {frame : Value} (hp : (st.push conn frame).Plain conn) :
    Pushes st (st.push conn frame) (conn, frame) := by
  rcases push_cases with ⟨p, he⟩ | he
  · rw [he]
    exact ⟨[(conn, frame)], rfl, mem_singleton.mpr rfl⟩
  · rw [he] at hp
    exact absurd hp not_plain_untrack

theorem mild_tell (hkey : key ≠ []) : Mild s.1 (tell muted (invalidate key) s id).1 := by
  rw [tell]
  split
  · exact Mild.refl
  · split
    · exact Mild.refl
    · next conn cs _ =>
      split
      · exact mild_push hkey
      · exact Mild.refl

/-- Telling several observers. -/
theorem mild_tellAll (muted : Option Nat) (hkey : key ≠ []) (ids : List Nat)
    (s : TrackServer × Bool) : Mild s.1 (ids.foldl (tell muted (invalidate key)) s).1 := by
  induction ids generalizing s with
  | nil => exact Mild.refl
  | cons id ids ih => exact (mild_tell hkey).trans (ih _)

/-- An observer that goes on tracking takes the frame. -/
theorem pushes_tellAll (h : s.1.Sound) (hkey : key ≠ []) {ids : List Nat} (hid : id ∈ ids)
    (hmuted : muted ≠ some id) (hw : s.1.Watching conn id k)
    (hp : (ids.foldl (TrackServer.tell muted (invalidate key)) s).1.Plain conn) :
    Pushes s.1 (ids.foldl (TrackServer.tell muted (invalidate key)) s).1 (conn, invalidate key) := by
  induction ids generalizing s with
  | nil => cases hid
  | cons first ids ih =>
    obtain ⟨hsound, hgentle⟩ := mild_tell hkey h
    obtain ⟨-, hrest⟩ := mild_tellAll muted hkey ids _ hsound
    have hp₁ := hrest.plain conn hp
    by_cases hfirst : first = id
    · subst hfirst
      obtain ⟨cs, hcs, hproto, -, rfl, -⟩ := hw
      have htell : (TrackServer.tell muted (invalidate key) s cs.id).1 =
          s.1.push conn (invalidate key) := by
        rw [TrackServer.tell, if_neg hmuted, h.numbered.connByID hcs]
        dsimp only
        rw [if_pos hproto]
      rw [htell] at hp₁
      refine (pushes_push hp₁).mono (prefix_refl _) ?_
      rw [← htell]
      exact hrest.pushed
    · have hid : id ∈ ids := (mem_cons.mp hid).resolve_left (Ne.symm hfirst)
      have hlater := ih hsound hid (hgentle.watching conn id k hw hp₁) hp
      exact hlater.mono hgentle.pushed (prefix_refl _)

theorem mild_mutedWriter : Mild st (st.mutedWriter writer).1 := by
  cases writer with
  | none => exact Mild.refl
  | some => exact fun h => ⟨⟨h.numbered.state, h.inverse, h.frames⟩, gentle_state⟩

/-- A connection that tracks without options hears of its own writes. -/
theorem not_muted (h : st.Sound) (hw : st.Watching conn id k) :
    (st.mutedWriter writer).2 ≠ some id := by
  cases writer with
  | none => nofun
  | some wconn =>
    obtain ⟨cs, hcs, -, hon, rfl, -⟩ := hw
    rw [TrackServer.mutedWriter]
    dsimp only
    split
    · next hloop =>
      intro hid
      have hsame : wconn = conn := by
        by_contra hne
        refine hne (h.numbered.state.distinct _ _ _ _ getElem?_state_self ?_
          (Option.some.inj hid))
        rwa [getElem?_state_of_ne hne]
      subst hsame
      rw [state_of_some hcs, hon] at hloop
      cases hloop
    · nofun

/-- What the hook does for a key that is not empty. -/
theorem emit_eq (hkey : userKeyFromRaw raw ≠ [])
    (hobs : st.observers (userKeyFromRaw raw) ≠ []) : ∃ published, st.emit writer raw =
      { ((st.observers (userKeyFromRaw raw)).foldl
          (tell (st.mutedWriter writer).2 (invalidate (userKeyFromRaw raw)))
          ((st.mutedWriter writer).1, false)).1 with published } := by
  rw [emit]
  dsimp only
  rw [if_neg hkey, if_neg hobs]
  split
  · exact ⟨_, rfl⟩
  · exact ⟨_, rfl⟩

theorem mild_emit : Mild st (st.emit writer raw) := by
  by_cases hkey : userKeyFromRaw raw = []
  · rw [emit]
    rw [if_pos hkey]
    exact Mild.refl
  · by_cases hobs : st.observers (userKeyFromRaw raw) = []
    · rw [emit]
      rw [if_neg hkey, if_pos hobs]
      exact Mild.refl
    · obtain ⟨published, he⟩ := emit_eq hkey hobs
      rw [he]
      have htell := mild_mutedWriter.trans (mild_tellAll (st.mutedWriter writer).2 hkey
        (st.observers (userKeyFromRaw raw)) ((st.mutedWriter writer).1, false))
      exact htell.trans (mild_of_eq rfl rfl rfl)

/-- The hook reaches a connection that goes on watching the key. -/
theorem pushes_emit (h : st.Sound) (hraw : userKeyFromRaw raw = k) (hk : k ≠ [])
    (hw : st.Watching conn id k) (hp : (st.emit writer raw).Plain conn) :
    Pushes st (st.emit writer raw) (conn, invalidate k) := by
  subst hraw
  have hid : id ∈ st.observers (userKeyFromRaw raw) := by
    obtain ⟨cs, -, -, -, -, hlinked⟩ := hw
    rw [observers, mem_eraseDups, mem_append]
    exact .inl (Links.mem_linksOf.mpr ((h.inverse _ _).mpr hlinked))
  obtain ⟨published, he⟩ := emit_eq hk (ne_nil_of_mem hid)
  rw [he] at hp ⊢
  obtain ⟨hsound, hgentle⟩ := mild_mutedWriter h
  have hplain := (gentle_of_eq rfl rfl (prefix_refl _) : Gentle _ _).plain conn hp
  obtain ⟨-, htell⟩ := mild_tellAll (st.mutedWriter writer).2 hk
    (st.observers (userKeyFromRaw raw)) ((st.mutedWriter writer).1, false) hsound
  have hw' := hgentle.watching conn id _ hw (htell.plain conn hplain)
  have hpushes := pushes_tellAll hsound hk hid (not_muted h hw) hw' hplain
  exact hpushes.mono hgentle.pushed (prefix_refl _)

theorem mild_emitAll : Mild st (st.emitAll writer notices) := by
  induction notices generalizing st with
  | nil => exact Mild.refl
  | cons n notices ih => exact mild_emit.trans ih

theorem pushes_emitAll (h : st.Sound) {n : Notice × Bytes} (hn : n ∈ notices)
    (hraw : userKeyFromRaw n.2 = k) (hk : k ≠ []) (hw : st.Watching conn id k)
    (hp : (st.emitAll writer notices).Plain conn) :
    Pushes st (st.emitAll writer notices) (conn, invalidate k) := by
  induction notices generalizing st with
  | nil => cases hn
  | cons first notices ih =>
    obtain ⟨hsound, hgentle⟩ := mild_emit h
    obtain ⟨-, hrest⟩ := mild_emitAll hsound
    have hp₁ := hrest.plain conn hp
    rcases mem_cons.mp hn with rfl | hn
    · exact (pushes_emit h hraw hk hw hp₁).mono (prefix_refl _) hrest.pushed
    · have hlater := ih hsound hn (hgentle.watching conn id k hw hp₁) hp
      exact hlater.mono hgentle.pushed (prefix_refl _)

/-- Where connections stay and no key is taken out of the table, a connection that tracks goes on
watching. -/
theorem Watching.of_keeps (hw : st₁.Watching conn id k) (hp : st₂.Plain conn)
    (hkeeps : st₁.conns.Keeps st₂.conns)
    (hrev : ∀ id k, st₁.tracks.rev.Linked id k → st₂.tracks.rev.Linked id k) :
    st₂.Watching conn id k := by
  obtain ⟨cs₁, hcs₁, -, -, rfl, hlinked⟩ := hw
  obtain ⟨cs₂, hcs₂, hproto, hon⟩ := hp
  obtain ⟨cs, hcs, hid⟩ := hkeeps conn cs₁ hcs₁
  rw [hcs₂] at hcs
  cases hcs
  exact ⟨cs₂, hcs₂, hproto, hon, hid, hrev _ _ hlinked⟩

/-- A step or a part of one: what always holds is kept, and a connection that tracks afterwards goes
on watching its keys. -/
structure Safe (st st' : TrackServer) : Prop where
  sound : st.Sound → st'.Sound
  watching : st.Sound → ∀ conn id k, st.Watching conn id k → st'.Plain conn → st'.Watching conn id k

theorem Mild.safe (h : Mild st₁ st₂) : Safe st₁ st₂ :=
  ⟨fun hs => (h hs).1, fun hs => (h hs).2.watching⟩

theorem safe_refl : Safe st st := Mild.refl.safe

theorem safe_of_evolves (hconns : st₁.conns.Evolves st₂.conns)
    (hrev : ∀ id k, st₁.tracks.rev.Linked id k → st₂.tracks.rev.Linked id k)
    (hinverse : st₁.tracks.Inverse → st₂.tracks.Inverse) (hpushed : st₂.pushed = st₁.pushed) :
    Safe st₁ st₂ :=
  ⟨fun h => ⟨hconns.numbered h.numbered, hinverse h.inverse, by rw [hpushed]; exact h.frames⟩,
    fun _ _ _ _ hw hp => hw.of_keeps hp hconns.keeps hrev⟩

theorem safe_conns (h : st.conns.Evolves c) : Safe st { st with conns := c } :=
  safe_of_evolves h (fun _ _ h => h) (fun h => h) rfl

theorem mild_change : Mild st (st.change writer call) := by
  have hstore : Mild st { st with store := st.store.step call } := mild_of_eq rfl rfl rfl
  exact hstore.trans mild_emitAll

theorem safe_readHook : Safe st (st.readHook conn keys) := by
  have hstate := st.conns.evolves_state conn
  rw [readHook]
  dsimp only
  split
  · exact safe_conns hstate
  · -- the connections after a permission has been used up
    have hused : st.conns.Evolves (if (st.conns.state conn).2.tracking.optIn then
        (st.conns.state conn).1.setCaching conn false else (st.conns.state conn).1) := by
      split
      · exact hstate.trans evolves_setCaching
      · exact hstate
    split
    · exact safe_conns hused
    · split
      · exact safe_conns hused
      · exact safe_of_evolves hused (fun _ _ h => TrackTable.linked_rev_register.mpr (.inl h))
          (fun h => h.register) rfl

theorem safe_dispatched {cmd : Cmd} {failed : Bool} :
    Safe st (st.dispatched conn cmd args failed) := by
  rw [dispatched]
  split
  · exact safe_refl
  · split
    · exact safe_refl
    · split
      · exact safe_refl
      · exact safe_readHook

theorem safe_tracking {args : List Arg} : Safe st (st.tracking conn args) := by
  rw [tracking]
  split
  · exact safe_refl
  · next cfg _ =>
    split
    · exact mild_untrack.safe
    · have hconns := (st.conns.evolves_setTracking conn cfg).trans
        (evolves_state _ conn)
      dsimp only
      split
      · rw [TrackTable.registerBcast]
        split <;> exact safe_of_evolves hconns (fun _ _ h => h) (fun h => h) rfl
      · exact safe_of_evolves hconns (fun _ _ h => h) (fun h => h) rfl

theorem safe_caching {args : List Arg} : Safe st (st.caching conn args) := by
  have hstate := st.conns.evolves_state conn
  have hset (v : Bool) : Safe st { st with conns := (st.conns.state conn).1.setCaching conn v } :=
    safe_conns (hstate.trans evolves_setCaching)
  rw [caching]
  dsimp only
  split
  · exact safe_conns hstate
  · split
    · split
      · exact hset true
      · split
        · exact hset false
        · exact safe_conns hstate
    · exact safe_conns hstate

theorem safe_connClosed : Safe st (st.connClosed conn) := by
  have hfirst : Safe st (if conn ∈ st.conns.m then st.untrack conn else st) := by
    split
    · exact mild_untrack.safe
    · exact safe_refl
  rw [connClosed]
  generalize (if conn ∈ st.conns.m then st.untrack conn else st) = st' at hfirst
  have hplain {conn' : Nat} (hp : Plain { st' with
      pipes := st'.pipes.erase conn,
      conns := { st'.conns with m := st'.conns.m.erase conn } } conn') :
      conn ≠ conn' ∧ st'.Plain conn' := by
    obtain ⟨cs, hcs, hrest⟩ := hp
    rw [OrdMap.getElem?_erase] at hcs
    split at hcs
    · cases hcs
    · next hne => exact ⟨hne, cs, hcs, hrest⟩
  refine ⟨fun h => ?_, fun h conn' id k hw hp => ?_⟩
  · have hs := hfirst.sound h
    exact ⟨hs.numbered.erase, hs.inverse, hs.frames⟩
  · obtain ⟨hne, hp⟩ := hplain hp
    obtain ⟨cs, hcs, hrest⟩ := hfirst.watching h conn' id k hw hp
    exact ⟨cs, by rwa [OrdMap.getElem?_erase, if_neg hne], hrest⟩

theorem safe_step {e : TrackEvent} : Safe st (st.step e) := by
  cases e with
  | change => exact mild_change.safe
  | dispatched => exact safe_dispatched
  | tracking => exact safe_tracking
  | caching => exact safe_caching
  | hello => exact safe_conns (evolves_modify fun _ => rfl)
  | connClosed => exact safe_connClosed
  | written =>
    rw [step, written]
    split
    · exact safe_refl
    · exact Mild.safe (mild_of_eq rfl rfl rfl)
  | writeError =>
    rw [step, writeError]
    split
    · exact safe_refl
    · exact Mild.safe (mild_of_eq rfl rfl rfl)

end TrackServer

end Gedis.Commands

namespace Gedis.Storage.Pebble

open Gedis.Core Datastruct List

variable {raw : Bytes} {ops : List BatchOp} {call : Call}

/-- A call writes or removes a record, in the state before it. -/
def Changes (s : Pebble) (call : Call) (raw : Bytes) : Prop :=
  match call with
  | .get _ => False
  | .set key value => key = raw ∧ (s.makeRoom key value).2 = .ok
  | .delete key => key = raw
  | .writeBatch ops => raw ∈ ops.map BatchOp.key ∧ (s.reserve ops).2 = .ok

instance (s : Pebble) (raw : Bytes) : (call : Call) → Decidable (s.Changes call raw)
  | .get _ => .isFalse id
  | .set .. => inferInstanceAs (Decidable (_ ∧ _))
  | .delete _ => inferInstanceAs (Decidable (_ = _))
  | .writeBatch _ => inferInstanceAs (Decidable (_ ∧ _))

theorem trackDelete_notices {s : Pebble} {key : Bytes} : (s.trackDelete key).notices = s.notices := by
  unfold trackDelete
  split <;> rfl

theorem deleteInternal_notices {s : Pebble} {key : Bytes} :
    (s.deleteInternal key).notices = s.notices := trackDelete_notices

theorem evictForDelta_notices {s : Pebble} (delta : Int) :
    s.notices <+: (s.evictForDelta delta).1.notices := by
  refine evictForDelta_induction (P := fun s' => s.notices <+: s'.notices) ?_ ?_
    (prefix_refl _) delta
  · exact fun _ _ h => h
  · intro s' key _ h
    have hkey : (s'.evictKey key).notices = s'.notices ++ [(.evict, key)] :=
      congrArg (· ++ [(Notice.evict, key)]) deleteInternal_notices
    rw [hkey]
    exact h.trans (prefix_append ..)

theorem commit_notices {s : Pebble} : ∃ kind : BatchOp → Notice,
      (s.commit ops).notices = s.notices ++ ops.map fun op => (kind op, op.key) := by
  refine ⟨fun op => if op.delete then .delete else .set, ?_⟩
  have hfold (s : Pebble) : (ops.foldl trackOp s).notices =
      s.notices ++ ops.map fun op => (if op.delete then Notice.delete else .set, op.key) := by
    induction ops generalizing s with
    | nil => simp
    | cons op ops ih =>
      have hop : (s.trackOp op).notices =
          s.notices ++ [(if op.delete then Notice.delete else .set, op.key)] := by
        rw [trackOp]
        split
        · exact congrArg (· ++ [(Notice.delete, op.key)]) trackDelete_notices
        · rfl
      rw [foldl_cons, ih, hop, append_assoc, map_cons, singleton_append]
  exact hfold _

theorem publishAll_notices {s : Pebble} : (s.publishAll ops).notices = s.notices := by
  obtain ⟨hub, h⟩ := publishAll_eq s
  rw [h]

/-- The hook is called for every record that a call writes or removes. -/
theorem exists_notice {s : Pebble} (h : s.Changes call raw) :
    ∃ n, (n, raw) ∈ (s.step call).notices.drop s.notices.length := by
  -- it is enough that the calls after the first ones contain the record
  have hnew {s' : Pebble} {before : List (Notice × Bytes)} {n : Notice}
      (hbefore : s.notices <+: before) (hs' : before ++ [(n, raw)] <+: s'.notices) :
      ∃ n, (n, raw) ∈ s'.notices.drop s.notices.length := by
    obtain ⟨mid, rfl⟩ := hbefore
    obtain ⟨after, hs'⟩ := hs'
    refine ⟨n, ?_⟩
    rw [← hs', append_assoc, append_assoc]
    simp
  cases call with
  | get => exact h.elim
  | set key value =>
    obtain ⟨rfl, hok⟩ := h
    rcases s.set_cases key value with ⟨hoom, -⟩ | ⟨-, he⟩
    · rw [hok] at hoom
      cases hoom
    · have hroom : s.notices <+: (s.makeRoom key value).1.notices := evictForDelta_notices _
      refine hnew (n := .set) hroom ?_
      rw [step, exec, he]
      exact prefix_refl _
  | delete key =>
    subst h
    refine hnew (n := .delete) (prefix_refl _) ?_
    exact (congrArg (· ++ [(Notice.delete, key)]) deleteInternal_notices) ▸ prefix_refl _
  | writeBatch ops =>
    obtain ⟨hraw, hok⟩ := h
    obtain ⟨op, hop, rfl⟩ := mem_map.mp hraw
    obtain ⟨kind, hcommit⟩ := commit_notices
    obtain ⟨ops₁, ops₂, hsplit⟩ := append_of_mem hop
    have hcommitted : (s.reserve ops).1.notices ++ (ops₁.map fun op => (kind op, op.key)) ++
        [(kind op, op.key)] <+: ((s.reserve ops).1.commit ops).notices := by
      rw [hcommit, hsplit, map_append]
      exact ⟨ops₂.map fun op => (kind op, op.key), by simp⟩
    have hsettled := hcommitted.trans (evictForDelta_notices 0)
    refine hnew ((evictForDelta_notices _).trans (prefix_append ..)) (hsettled.trans ?_)
    rcases s.writeBatch_cases ops with ⟨rfl, -⟩ | ⟨-, hoom, -⟩ | ⟨-, -, -, he⟩ | ⟨-, -, -, he⟩
    · cases hop
    · rw [hok] at hoom
      cases hoom
    · rw [step, exec, he]
      exact prefix_refl _
    · rw [step, exec, he, publishAll_notices]
      exact prefix_refl _

end Gedis.Storage.Pebble

namespace Gedis.Commands

open Gedis.Core Datastruct Storage Protocol Acl List ConnRegistry

namespace TrackServer

variable {keys args : List Bytes} {events : List TrackEvent} {call : Call}
  {st st₁ st₂ : TrackServer} {conn id : Nat} {key k : Bytes} {writer : Option Nat}

theorem userKeyFromRaw_rawKey {p : Prefix} : userKeyFromRaw (rawKey p key) = key := by
  cases p <;> simp [userKeyFromRaw, typePrefixes, rawKey, Prefix.bytes, ascii]

theorem invalidate_inj {key' : Bytes} (h : invalidate key = invalidate key') : key = key' := by
  simpa [invalidate, bulkOf, arrayOf] using h

theorem sound_start {store : Pebble} : Sound { store } :=
  ⟨numbered_empty, TrackTable.inverse_empty, nofun⟩

theorem sound_run {store : Pebble} : (run step { store } events).Sound :=
  run_invariant (fun st e h => safe_step.sound h) sound_start events

/-- A read command that ends well registers its keys. -/
theorem watching_dispatched (hp : st.Plain conn) {cmd : Cmd} (hcmd : cmd ∉ writeCommandSet)
    (hkeys : extractKeys cmd args = .ok keys) (hk : k ∈ keys) :
    ∃ id, (st.dispatched conn cmd args false).Watching conn id k := by
  obtain ⟨cs, hcs, hproto, hon⟩ := hp
  have hne : keys ≠ [] := ne_nil_of_mem hk
  have hhook : st.dispatched conn cmd args false =
      { st with tracks := st.tracks.register cs.id keys } := by
    rw [dispatched, if_neg (by simp [hcmd]), hkeys]
    dsimp only
    rw [readHook, state_of_some hcs]
    simp [hon, TrackingCfg.registered, hne]
  rw [hhook]
  exact ⟨cs.id, cs, hcs, hproto, hon, rfl, TrackTable.linked_rev_register.mpr (.inr ⟨rfl, hk⟩)⟩

/-- A registration lasts as long as the tracking of its connection. -/
theorem Watching.run (h : st.Sound) (hw : st.Watching conn id k)
    (hon : Along step (fun st e => (st.step e).Plain conn) st events) :
    (run step st events).Watching conn id k := by
  have hlast := run_induction (I := fun st => st.Sound ∧ st.Watching conn id k)
    (fun st e hI hp => ⟨safe_step.sound hI.1, safe_step.watching hI.1 _ _ _ hI.2 hp⟩)
    ⟨h, hw⟩ hon
  exact hlast.2

/-- The change of a record tells the connections that watch its key. -/
theorem pushes_change (h : st.Sound) (hw : st.Watching conn id k) (hk : k ≠ []) {p : Prefix}
    (hcall : st.store.Changes call (rawKey p k)) (hp : (st.change writer call).Plain conn) :
    Pushes st (st.change writer call) (conn, invalidate k) := by
  obtain ⟨n, hn⟩ := Pebble.exists_notice hcall
  have hsound : Sound { st with store := st.store.step call } := ⟨h.numbered, h.inverse, h.frames⟩
  exact pushes_emitAll hsound hn userKeyFromRaw_rawKey hk hw hp

theorem not_pushes_nil (h : st₂.Sound) : ¬ Pushes st₁ st₂ (conn, invalidate []) := by
  rintro ⟨frames, heq, hx⟩
  obtain ⟨key, hkey, hframe⟩ := h.frames (conn, invalidate []) (heq ▸ mem_append_right _ hx)
  exact hkey (invalidate_inj hframe).symm

/-- The two indexes of the table are inverse in every state. After a connection that tracks without
options has read a key, each write or removal of one of its records tells the connection, while it
goes on tracking, exactly when the key is not the empty string. -/
theorem tracking_tells_iff (store : Pebble) :
    (∀ events, (run step { store } events).tracks.Inverse) ∧
      ∀ (before events : List TrackEvent) (conn : Nat) (cmd : Cmd) (args keys : List Bytes)
        (k : Bytes) (p : Prefix) (writer : Option Nat) (call : Call),
        let reading := run step { store } before
        let read := reading.step (.dispatched conn cmd args false)
        let last := run step read events
        let changed := last.step (.change writer call)
        reading.Plain conn → cmd ∉ writeCommandSet → extractKeys cmd args = .ok keys → k ∈ keys →
          Along step (fun st e => (st.step e).Plain conn) read events →
          last.store.Changes call (rawKey p k) → changed.Plain conn →
          (Pushes last changed (conn, invalidate k) ↔ k ≠ []) := by
  refine ⟨fun events => sound_run.inverse, ?_⟩
  intro before events conn cmd args keys k p writer call reading read last changed hreading hcmd
    hkeys hk hon hcall hp
  have hread : read.Sound := safe_step.sound sound_run
  have hlast : last.Sound := run_invariant (fun st e h => safe_step.sound h) hread events
  constructor
  · rintro hpushes rfl
    exact not_pushes_nil (safe_step.sound hlast) hpushes
  · intro hne
    obtain ⟨id, hw⟩ := watching_dispatched hreading hcmd hkeys hk
    exact pushes_change hlast (Watching.run hread hw hon) hne hcall hp

/-- `HELLO 3` and `CLIENT TRACKING on` of connection 1. -/
def trackingOn : List TrackEvent := [.hello 1 3, .tracking 1 [some (ascii "on".toList)]]

/-- Connection 1 has read a key with `GET`, and connection 2 has done so too. -/
def afterGet (key : Bytes) : TrackServer :=
  run step { store := emptyStore }
    (trackingOn ++ [.dispatched 1 .GET [key] false, .dispatched 2 .GET [key] false])

/-- Connection 2 writes the string. -/
def writesString (key : Bytes) : TrackEvent := .change (some 2) (.set (rawKey .s key) [118])

theorem tracking_tells_reader :
    Pushes (afterGet [107]) ((afterGet [107]).step (writesString [107])) (1, invalidate [107]) :=
  ((tracking_tells_iff emptyStore).2 trackingOn [.dispatched 2 .GET [[107]] false] 1 .GET [[107]]
    [[107]] [107] .s (some 2) (.set (rawKey .s [107]) [118]) (by decide +kernel) (by decide) rfl
    (by decide) (by decide +kernel) (by decide +kernel) (by decide +kernel)).mpr (by decide)

/-- The empty string is a key like any other for `GET` and `SET`, but its change is not told. -/
theorem tracking_misses_empty_key :
    (run step { store := emptyStore } trackingOn).Plain 1 ∧ Cmd.GET ∉ writeCommandSet ∧
      extractKeys .GET [[]] = .ok [[]] ∧
      (afterGet []).store.Changes (.set (rawKey .s []) [118]) (rawKey .s []) ∧
      ((afterGet []).step (writesString [])).Plain 1 ∧
      ¬ Pushes (afterGet []) ((afterGet []).step (writesString [])) (1, invalidate []) := by
  refine ⟨by decide +kernel, by decide, rfl, by decide +kernel, by decide +kernel, ?_⟩
  exact not_pushes_nil (safe_step.sound sound_run)

end TrackServer

end Gedis.Commands
