import Gedis.Commands.Dispatch

/-!
# Running a handler request by request

The state of the store after each kind of request, and what a lookup finds and leaves behind. A
handler that looks up a few keys and then writes is run by rewriting with these facts; how much room
a write finds stays the store's own function of the state it is made in.
-/

namespace Gedis.Commands

open Gedis.Core Datastruct Storage Option

variable {p : Prefix} {e : Entry} {expiry : Int64} {payload : Bytes}

/-- The world after a request. -/
def World.next (w : World) (q : Request) : World := (w.answer q).1

namespace World

variable (w : World) (raw value : Bytes)

@[simp] theorem db_next_get : (w.next (.get raw)).store.db = w.store.db := by
  change (w.store.get raw).1.db = w.store.db
  unfold Pebble.get
  split
  · rfl
  · exact Pebble.trackGet_db

@[simp] theorem clock_next_get : (w.next (.get raw)).clock = w.clock := rfl

@[simp] theorem db_next_delete : (w.next (.delete raw)).store.db = w.store.db.erase raw :=
  Pebble.deleteInternal_db

@[simp] theorem store_next_now : (w.next .now).store = w.store := rfl

@[simp] theorem clock_next_now : (w.next .now).clock = fun i => w.clock (i + 1) := rfl

theorem next_set : w.next (.set raw value) = ⟨(w.store.set raw value).1, w.clock⟩ := rfl

@[simp] theorem store_next_set : (w.next (.set raw value)).store = (w.store.set raw value).1 := rfl

@[simp] theorem clock_next_set : (w.next (.set raw value)).clock = w.clock := rfl

end World

section Exec

variable {α : Type} (w : World) (raw value : Bytes)

theorem exec_get {next : Option Bytes → Handler α} :
    (Kv.get raw >>= next).exec World.answer w =
      (next w.store.db[raw]?).exec World.answer (w.next (.get raw)) := by
  have hresult : (w.store.get raw).2 = w.store.db[raw]? := by
    unfold Pebble.get
    split <;> simp_all
  rw [← hresult]
  rfl

theorem exec_delete {next : Unit → Handler α} :
    (Kv.delete raw >>= next).exec World.answer w =
      (next ()).exec World.answer (w.next (.delete raw)) := rfl

theorem exec_now {next : Int64 → Handler α} :
    (Kv.now >>= next).exec World.answer w =
      (next (w.clock 0)).exec World.answer (w.next .now) := rfl

theorem exec_set {next : Outcome → Handler α} :
    (Kv.set raw value >>= next).exec World.answer w =
      (next (w.store.set raw value).2).exec World.answer (w.next (.set raw value)) := rfl

end Exec

/-- The records after a write: the store makes room and, when there is enough, adds the record. -/
theorem db_set (s : Pebble) (raw value : Bytes) :
    (s.set raw value).2 = (s.makeRoom raw value).2 ∧
      (s.set raw value).1.db = match (s.makeRoom raw value).2 with
        | .oom => (s.makeRoom raw value).1.db
        | .ok => (s.makeRoom raw value).1.db.insert raw value := by
  rcases Pebble.set_cases s raw value with ⟨hroom, he⟩ | ⟨hroom, he⟩
  · rw [he, hroom]
    exact ⟨rfl, rfl⟩
  · rw [he, hroom]
    exact ⟨rfl, rfl⟩

/-- A write that was granted adds the record to what making room has left. -/
theorem db_set_of_ok {s : Pebble} {raw value : Bytes} (h : (s.set raw value).2 = .ok) :
    (s.set raw value).1.db = (s.makeRoom raw value).1.db.insert raw value := by
  obtain ⟨houtcome, hdb⟩ := db_set s raw value
  rw [hdb, ← houtcome, h]

/-- A reply other than the refusal comes from a write that was granted. -/
theorem ok_of_granted {reply reply' : Reply} {r : Outcome} (h : granted reply r = reply')
    (hne : reply' ≠ Failure.oom.reply) : r = .ok ∧ reply = reply' := by
  cases r with
  | oom => exact absurd h.symm hne
  | ok => exact ⟨rfl, h⟩

theorem encode_inj {t t' : UInt8} {expiry' : Int64} {payload' : Bytes} :
    encode t expiry payload = encode t' expiry' payload' ↔
      t = t' ∧ expiry = expiry' ∧ payload = payload' := by
  constructor
  · intro h
    have hentry := congrArg decode h
    rw [decode_encode, decode_encode, some.injEq, Entry.mk.injEq] at hentry
    exact hentry
  · rintro ⟨rfl, rfl, rfl⟩
    rfl

theorem length_encode {t : UInt8} : (encode t expiry payload).length = payload.length + 9 := by
  simp [encode]
  omega

/-- How much room is made depends on the length of the record only. -/
theorem makeRoom_congr {s : Pebble} {raw value value' : Bytes}
    (h : value.length = value'.length) : s.makeRoom raw value = s.makeRoom raw value' := by
  rw [Pebble.makeRoom, Pebble.makeRoom, h]

/-- Making room takes records away and changes none. -/
theorem makeRoom_shrinks (s : Pebble) (raw value : Bytes) :
    Shrinks s.db (s.makeRoom raw value).1.db := s.shrinks_evictForDelta

/-- The world after a lookup. -/
def World.seen (w : World) (key : Bytes) : World := ((lookupRaw key).exec World.answer w).1

/-- What a lookup finds. -/
def World.found (w : World) (key : Bytes) : Found := ((lookupRaw key).exec World.answer w).2

theorem exec_lookup {α : Type} {w : World} {key : Bytes} {next : Found → Handler α} :
    (lookupRaw key >>= next).exec World.answer w =
      (next (w.found key)).exec World.answer (w.seen key) := Prog.exec_bind ..

/-- What a lookup at a given time finds among the records, and the records it leaves. -/
inductive Sought (m : OrdMap Bytes Bytes) (now : Int64) (key : Bytes) :
    Found → OrdMap Bytes Bytes → Prop where
  | missing (hp : probe m key = none) : Sought m now key .missing m
  | broken {p : Prefix} {v : Bytes} (hp : probe m key = some p) (hv : m[rawKey p key]? = some v)
      (hd : decode v = none) : Sought m now key (.failed (.truncatedEntry v.length)) m
  | live {p : Prefix} {e : Entry} (hp : probe m key = some p)
      (he : entryAt m (rawKey p key) = some e) (hx : expired e now = false) :
      Sought m now key (.record p e) m
  | expired {p : Prefix} {e : Entry} (hp : probe m key = some p)
      (he : entryAt m (rawKey p key) = some e) (hx : expired e now = true) :
      Sought m now key .missing ((m.erase (rawKey p key)).erase (hashExpKey key))

namespace Sought

variable {m m' : OrdMap Bytes Bytes} {now : Int64} {key : Bytes} {found : Found}

theorem record (h : Sought m now key (.record p e) m') :
    probe m key = some p ∧ entryAt m (rawKey p key) = some e ∧ Commands.expired e now = false ∧
      m' = m := by
  cases h with
  | live hp he hx => exact ⟨hp, he, hx, rfl⟩

section

variable (h : Sought m now key found m')
include h

theorem of_live (hp : probe m key = some p) (he : entryAt m (rawKey p key) = some e)
    (hx : Commands.expired e now = false) : found = .record p e ∧ m' = m := by
  cases h with
  | missing hp' =>
    rw [hp] at hp'
    cases hp'
  | broken hp' hv hd =>
    rw [hp] at hp'
    cases hp'
    rw [entryAt, hv, bind_some, hd] at he
    cases he
  | live hp' he' =>
    rw [hp] at hp'
    cases hp'
    rw [he] at he'
    cases he'
    exact ⟨rfl, rfl⟩
  | expired hp' he' hx' =>
    rw [hp] at hp'
    cases hp'
    rw [he] at he'
    cases he'
    rw [hx] at hx'
    cases hx'

/-- What is found depends on the records and the time only. -/
theorem unique {found₂ : Found} {m₂ : OrdMap Bytes Bytes} (h₂ : Sought m now key found₂ m₂) :
    found₂ = found ∧ m₂ = m' := by
  cases h with
  | missing =>
    cases h₂ with
    | missing => exact ⟨rfl, rfl⟩
    | _ => simp_all
  | broken hp hv hd =>
    cases h₂ with
    | missing => simp_all
    | broken hp₂ hv₂ =>
      rw [hp] at hp₂
      cases hp₂
      rw [hv] at hv₂
      cases hv₂
      exact ⟨rfl, rfl⟩
    | live hp₂ he₂ _ | expired hp₂ he₂ _ =>
      rw [hp] at hp₂
      cases hp₂
      rw [entryAt, hv, bind_some, hd] at he₂
      cases he₂
  | live hp he hx => exact h₂.of_live hp he hx
  | expired hp he =>
    cases h₂ with
    | missing => simp_all
    | broken hp₂ hv₂ hd₂ =>
      rw [hp] at hp₂
      cases hp₂
      rw [entryAt, hv₂, bind_some, hd₂] at he
      cases he
    | live hp₂ he₂ hx₂ | expired hp₂ he₂ hx₂ =>
      rw [hp] at hp₂
      cases hp₂
      rw [he] at he₂
      cases he₂
      simp_all

/-- Nothing is found when the record that probing comes to, if any, has expired. -/
theorem missing_iff :
    found = .missing ↔ ∀ p, probe m key = some p →
      ∃ e, entryAt m (rawKey p key) = some e ∧ Commands.expired e now = true := by
  cases h with
  | missing hp =>
    refine iff_of_true rfl fun p hp' => ?_
    rw [hp] at hp'
    cases hp'
  | broken hp hv hd =>
    refine iff_of_false (fun h => by cases h) fun h => ?_
    obtain ⟨e, he, -⟩ := h _ hp
    rw [entryAt, hv, bind_some, hd] at he
    cases he
  | live hp he hx =>
    refine iff_of_false (fun h => by cases h) fun h => ?_
    obtain ⟨e', he', hx'⟩ := h _ hp
    rw [he] at he'
    cases he'
    rw [hx] at hx'
    cases hx'
  | expired hp he hx =>
    refine iff_of_true rfl fun p hp' => ?_
    rw [hp] at hp'
    cases hp'
    exact ⟨_, he, hx⟩

theorem removed : Removed key m m' := by
  cases h with
  | missing => exact .refl
  | broken => exact .refl
  | live => exact .refl
  | expired => exact Removed.refl.erase.erase

end

end Sought

private theorem sought_lookupFrom {m : OrdMap Bytes Bytes} {key : Bytes} (ps : List Prefix) {w : World}
    (hm : w.store.db = m) (hprobe : probe m key = ps.find? fun p => decide (rawKey p key ∈ m)) :
    Sought m (w.clock 0) key ((lookupFrom key ps).exec World.answer w).2
        ((lookupFrom key ps).exec World.answer w).1.store.db ∧
      ((lookupFrom key ps).exec World.answer w).1.clock =
        match probe m key with
        | none => w.clock
        | some p =>
          if ∃ e ∈ entryAt m (rawKey p key), e.expiry ≠ 0 then fun i => w.clock (i + 1)
          else w.clock := by
  induction ps generalizing w with
  | nil =>
    have hnone : probe m key = none := hprobe
    rw [hnone]
    exact ⟨hm ▸ .missing (hm ▸ hnone), rfl⟩
  | cons p ps ih =>
    rw [lookupFrom, exec_get, hm]
    have hm' : (w.next (.get (rawKey p key))).store.db = m := by rw [World.db_next_get, hm]
    cases hv : m[rawKey p key]? with
    | none =>
      have hnot : rawKey p key ∉ m := fun hmem => by
        rw [Std.ExtTreeMap.getElem?_eq_some_getElem hmem] at hv
        cases hv
      rw [List.find?_cons_of_neg (by simpa using hnot)] at hprobe
      exact ih hm' hprobe
    | some v =>
      have hmem : rawKey p key ∈ m := (Std.ExtTreeMap.getElem?_eq_some_iff.mp hv).1
      rw [List.find?_cons_of_pos (by simpa using hmem)] at hprobe
      rw [hprobe]
      dsimp only
      cases hd : decode v with
      | none =>
        have hentry : entryAt m (rawKey p key) = none := by rw [entryAt, hv, bind_some, hd]
        rw [hentry]
        exact ⟨hm' ▸ .broken (hm' ▸ hprobe) (hm' ▸ hv) hd, rfl⟩
      | some e =>
        have hentry : entryAt m (rawKey p key) = some e := by
          rw [entryAt, hv, bind_some, hd]
        dsimp only
        rw [hentry]
        by_cases hzero : e.expiry = 0
        · rw [if_pos hzero, if_neg (by simpa using hzero)]
          refine ⟨?_, rfl⟩
          exact hm' ▸ .live (hm' ▸ hprobe) (hm' ▸ hentry) (by simp [expired, hzero])
        · rw [if_neg hzero, if_pos (by simpa using hzero), exec_now]
          by_cases hpast : e.expiry ≤ w.clock 0
          · rw [World.clock_next_get, if_pos hpast]
            refine ⟨?_, rfl⟩
            have hdb : ((((w.next (.get (rawKey p key))).next .now).next
                (.delete (rawKey p key))).next (.delete (hashExpKey key))).store.db =
                (m.erase (rawKey p key)).erase (hashExpKey key) := by simp [hm]
            exact hdb ▸ .expired hprobe hentry (by simp [expired, hzero, hpast])
          · rw [World.clock_next_get, if_neg hpast]
            refine ⟨?_, rfl⟩
            have hdb : ((w.next (.get (rawKey p key))).next .now).store.db = m := by simp [hm]
            exact hdb ▸ .live (hdb ▸ hprobe) (hdb ▸ hentry) (by simp [expired, hpast])

namespace World

variable (w : World) (key : Bytes)

theorem sought : Sought w.store.db (w.clock 0) key (w.found key) (w.seen key).store.db :=
  (sought_lookupFrom typePrefixes rfl rfl).1

/-- A lookup reads the clock when the record it comes to has a deadline. -/
theorem clock_seen : (w.seen key).clock =
    match probe w.store.db key with
    | none => w.clock
    | some p =>
      if ∃ e ∈ entryAt w.store.db (rawKey p key), e.expiry ≠ 0 then fun i => w.clock (i + 1)
      else w.clock :=
  (sought_lookupFrom typePrefixes rfl rfl).2

variable {w key}

theorem clock_seen_mem {i : Nat} : ∃ j, (w.seen key).clock i = w.clock j := by
  rw [clock_seen]
  split
  · exact ⟨i, rfl⟩
  · split
    · exact ⟨i + 1, rfl⟩
    · exact ⟨i, rfl⟩

/-- A record is found where probing comes to it, and nothing changes. -/
theorem found_record (h : w.found key = .record p e) :
    probe w.store.db key = some p ∧ entryAt w.store.db (rawKey p key) = some e ∧
      expired e (w.clock 0) = false ∧ (w.seen key).store.db = w.store.db :=
  (h ▸ w.sought key).record

/-- Looking up a key depends on the records and the clock only. -/
theorem seen_congr {w' : World} (hdb : w'.store.db = w.store.db) (hclock : w'.clock = w.clock)
    {key : Bytes} :
    w'.found key = w.found key ∧ (w'.seen key).store.db = (w.seen key).store.db := by
  have h := w'.sought key
  rw [hdb, hclock] at h
  exact (w.sought key).unique h

theorem shrinks_seen (w : World) (key : Bytes) : Shrinks w.store.db (w.seen key).store.db :=
  (w.sought key).removed.shrinks

/-- A live record that probing comes to is found. -/
theorem found_of_live (hp : probe w.store.db key = some p)
    (he : entryAt w.store.db (rawKey p key) = some e) (hx : expired e (w.clock 0) = false) :
    w.found key = .record p e ∧ (w.seen key).store.db = w.store.db :=
  (w.sought key).of_live hp he hx

end World

/-- Probing comes to a record of the key that no clock reading finds expired. -/
structure Live (w : World) (key : Bytes) (p : Prefix) (e : Entry) : Prop where
  probe : probe w.store.db key = some p
  entry : entryAt w.store.db (rawKey p key) = some e
  fresh : ∀ i, expired e (w.clock i) = false

namespace Live

variable {w : World} {key : Bytes} {p : Prefix} {e : Entry}

section

variable (h : Live w key p e)
include h

theorem found : w.found key = .record p e :=
  (World.found_of_live h.probe h.entry (h.fresh 0)).1

theorem db_seen : (w.seen key).store.db = w.store.db :=
  (World.found_of_live h.probe h.entry (h.fresh 0)).2

theorem clock_seen :
    (w.seen key).clock = if e.expiry = 0 then w.clock else fun i => w.clock (i + 1) := by
  rw [World.clock_seen, h.probe]
  dsimp only
  rw [h.entry]
  by_cases hzero : e.expiry = 0
  · rw [if_neg (by simpa using hzero), if_pos hzero]
  · rw [if_pos (by simpa using hzero), if_neg hzero]

/-- The record stays live in a world with the same records and some of the readings. -/
theorem mono {w' : World} (hdb : w'.store.db = w.store.db)
    (hclock : ∀ i, ∃ j, w'.clock i = w.clock j) : Live w' key p e where
  probe := hdb ▸ h.probe
  entry := hdb ▸ h.entry
  fresh i := by
    obtain ⟨j, hj⟩ := hclock i
    rw [hj]
    exact h.fresh j

theorem seen : Live (w.seen key) key p e :=
  h.mono h.db_seen fun _ => World.clock_seen_mem

end

end Live

/-- What a typed read makes of a lookup. -/
def Kind.read (kind : Kind) : Found → Except Failure (Option Entry)
  | .missing => .ok none
  | .failed f => .error f
  | .record _ e => if e.typ = kind.tag then .ok (some e) else .error kind.mismatch

section Session

variable {kind : Kind} {α : Type} {seen : List Bytes} (w : World) (key : Bytes)

theorem exec_readKind : (readKind kind key).exec World.answer w =
    (w.seen key, kind.read (w.found key)) := by
  rw [readKind, exec_lookup]
  cases w.found key <;> rfl

theorem exec_load {failed : Failure → Session kind α seen}
    {next : Option Entry → Session kind α (key :: seen)} :
    (Session.load key failed next).handler.exec World.answer w =
      match kind.read (w.found key) with
      | .error f => (failed f).handler.exec World.answer (w.seen key)
      | .ok old => (next old).handler.exec World.answer (w.seen key) := by
  rw [Session.handler, Prog.exec_bind, exec_readKind]
  cases kind.read (w.found key) <;> rfl

theorem exec_store (h : key ∈ seen) {next : Outcome → Session kind α seen} :
    (Session.store key h expiry payload next).handler.exec World.answer w =
      (next (w.store.set (rawKey kind.pre key) (encode kind.tag expiry payload)).2).handler.exec
        World.answer (w.next (.set (rawKey kind.pre key) (encode kind.tag expiry payload))) := rfl

theorem exec_store_orOom (h : key ∈ seen) {next : Session kind Reply seen} :
    (Session.store key h expiry payload (Session.orOom next)).handler.exec World.answer w =
      match (w.store.set (rawKey kind.pre key) (encode kind.tag expiry payload)).2 with
      | .oom => (w.next (.set (rawKey kind.pre key) (encode kind.tag expiry payload)),
          Failure.oom.reply)
      | .ok => next.handler.exec World.answer
          (w.next (.set (rawKey kind.pre key) (encode kind.tag expiry payload))) := by
  rw [exec_store]
  cases (w.store.set (rawKey kind.pre key) (encode kind.tag expiry payload)).2 <;> rfl

/-- A command on one key: the read, then at most one request. -/
theorem exec_modify {f : Option Entry → Update} :
    (modify kind key f).handler.exec World.answer w =
      match kind.read (w.found key) with
      | .error err => (w.seen key, err.reply)
      | .ok old =>
        match f old with
        | .keep reply => (w.seen key, reply)
        | .write expiry payload reply =>
          let record := encode kind.tag expiry payload
          ((w.seen key).next (.set (rawKey kind.pre key) record),
            granted reply ((w.seen key).store.set (rawKey kind.pre key) record).2)
        | .remove reply => ((w.seen key).next (.delete (rawKey kind.pre key)), reply) := by
  rw [modify, exec_load]
  cases kind.read (w.found key) with
  | error => rfl
  | ok old =>
    dsimp only
    cases f old with
    | keep => rfl
    | write expiry payload =>
      dsimp only
      rw [exec_store_orOom]
      cases ((w.seen key).store.set (rawKey kind.pre key) (encode kind.tag expiry payload)).2 <;> rfl
    | remove => rfl

end Session

end Gedis.Commands
