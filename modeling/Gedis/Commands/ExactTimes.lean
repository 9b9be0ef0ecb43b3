import Gedis.Commands.SetCommand

/-!
# Which times are stored as they were given

Every command with a time argument computes a deadline in 64-bit nanoseconds, where the exact instant
may not fit, and a deadline of zero in a record stands for none. For each command this is the
condition under which what it leaves is what the time argument says.
-/

namespace Gedis.Commands

open Gedis.Core Datastruct Storage Protocol Std List World

variable {expiry now : Int64} {w : World} {key f payload : Bytes} {out : List Int64} {s : Pebble}
  {fields : List Bytes} {cond : ExpireCond}

/-- `RESTORE` with its check of the time argument. -/
def restoreCommand (key : Bytes) (n : Int64) (payload : Bytes) (replace absttl : Bool) :
    Handler Reply :=
  if n < 0 then pure (.error "ERR invalid expire time in 'restore' command")
  else restore key n payload replace absttl

/-- The commands with a time argument. `SET` is given with its last time option, the `HEXPIRE`
family with one of its fields. -/
inductive TimedCommand where
  | set (key : Arg) (value : Bytes) (options : List Arg) (capitals : Bool) (kind : ExpireKind)
      (n : Int64)
  | setex (key : Bytes) (n : Int64) (value : Bytes)
  | psetex (key : Bytes) (n : Int64) (value : Bytes)
  | expire (kind : ExpireKind) (key : Bytes) (n : Int64) (cond : ExpireCond)
  | restore (key : Bytes) (n : Int64) (payload : Bytes) (replace absttl : Bool)
  | hexpire (kind : ExpireKind) (key : Bytes) (n : Int64) (cond : ExpireCond) (fields : List Bytes)
      (field : Bytes)

namespace TimedCommand

def handler : TimedCommand → Handler Reply
  | .set key value options _ _ _ => setCommand (key :: some value :: options)
  | .setex key n value => Commands.setex key n value
  | .psetex key n value => Commands.psetex key n value
  | .expire kind key n cond => Commands.expire kind key n cond
  | .restore key n payload replace absttl => restoreCommand key n payload replace absttl
  | .hexpire kind key n cond fields _ => Commands.hexpire kind key n cond fields

/-- How the time argument is read. -/
def kind : TimedCommand → ExpireKind
  | .set _ _ _ _ kind _ | .expire kind .. | .hexpire kind .. => kind
  | .setex .. => .relativeSec
  | .psetex .. => .relativeMs
  | .restore _ _ _ _ absttl => if absttl then .absoluteMs else .relativeMs

/-- The time argument. -/
def n : TimedCommand → Int64
  | .set _ _ _ _ _ n | .setex _ n _ | .psetex _ n _ | .expire _ _ n _ | .restore _ n _ _ _
  | .hexpire _ _ n _ _ _ => n

/-- The instant it denotes. -/
def instant (c : TimedCommand) (now : Int64) : Int := c.kind.instant c.n now

/-- The deadline computed for it. -/
def deadline (c : TimedCommand) (now : Int64) : Int64 := c.kind.deadline c.n now

/-- The command has set the time, as its reply tells. For `SET` the value was due and the old
deadline not kept; a time of zero tells `RESTORE` that there is none. -/
def HasSet (s : Pebble) (now : Int64) (c : TimedCommand) : Prop :=
  let reply := (c.handler.exec World.answer ⟨s, fun _ => now⟩).2
  match c with
  | .set key _ options capitals kind n =>
    (∀ text, reply ≠ .error text) ∧ ∃ os prior, readSetOptions options = some os ∧
      lastTime os = some (capitals, kind, n) ∧
      (World.found ⟨s, fun _ => now⟩ (key.getD [])).string = some prior ∧
      SetDue os prior ∧ ¬ KeepsDeadline os prior
  | .setex .. | .psetex .. => ∀ text, reply ≠ .error text
  | .expire .. => reply = .int 1
  | .restore _ n _ _ _ => n ≠ 0 ∧ ∀ text, reply ≠ .error text
  | .hexpire _ _ _ _ fields field =>
    ∃ (out : List Int64) (i : Nat), reply = .ints out ∧ fields[i]? = some field ∧ out[i]? = some 1

end TimedCommand

/-- What is left of a key or field. -/
inductive Left where
  | gone
  | persistent
  | expiring (deadline : Int64)
  deriving DecidableEq, Repr

/-- It is gone because the instant has come, or it is stored with the instant as its deadline. -/
def Left.Exact (now : Int64) (instant : Int) : Left → Prop
  | .gone => instant ≤ now.toInt
  | .persistent => False
  | .expiring deadline => deadline.toInt = instant

/-- What is left of a record. -/
def RecordLeft (m : OrdMap Bytes Bytes) (raw : Bytes) : Left → Prop
  | .gone => m[raw]? = none
  | .persistent => ∃ e, entryAt m raw = some e ∧ e.expiry = 0
  | .expiring deadline => ∃ e, entryAt m raw = some e ∧ e.expiry = deadline ∧ deadline ≠ 0

/-- What is left of a field of a hash. -/
def FieldLeft (m : OrdMap Bytes Bytes) (key field : Bytes) : Left → Prop
  | .gone => m[hashKey key]? = none ∨ ∃ expiry fields, field ∉ fields ∧
      m[hashKey key]? = some (encode typeHash expiry (encodeHash fields))
  | .persistent => ∃ sidecar : Fields, field ∉ sidecar ∧
      m[hashExpKey key]? = some (encode typeHash 0 (encodeHash sidecar))
  | .expiring deadline => ∃ sidecar : Fields, sidecar[field]? = some (formatInt deadline) ∧
      m[hashExpKey key]? = some (encode typeHash 0 (encodeHash sidecar))

namespace TimedCommand

/-- What the command leaves of its key or field. -/
def Leaves (s : Pebble) (now : Int64) (m : OrdMap Bytes Bytes) (left : Left) : TimedCommand → Prop
  | .set key .. => RecordLeft m (rawKey .s (key.getD [])) left
  | .setex key _ _ | .psetex key _ _ => RecordLeft m (rawKey .s key) left
  | .expire _ key _ _ =>
    ∃ p e, World.found ⟨s, fun _ => now⟩ key = .record p e ∧ RecordLeft m (rawKey p key) left
  | .restore key _ payload _ _ =>
    ∃ e p, decode payload = some e ∧ restorePrefix e.typ = some p ∧ RecordLeft m (rawKey p key) left
  | .hexpire _ key _ _ _ field => FieldLeft m key field left

/-- The instant fits into 64 bits and is not zero; for a command that removes what has expired, it
is enough that instant and deadline are both past. -/
def Fits (now : Int64) (c : TimedCommand) : Prop :=
  match c with
  | .set _ _ _ capitals _ _ =>
    capitals = true ∧ -2 ^ 63 ≤ c.instant now ∧ c.instant now < 2 ^ 63 ∧ c.instant now ≠ 0
  | .setex .. | .psetex .. | .restore .. =>
    -2 ^ 63 ≤ c.instant now ∧ c.instant now < 2 ^ 63 ∧ c.instant now ≠ 0
  | .expire .. =>
    if c.instant now ≤ now.toInt then c.deadline now ≤ now
    else c.instant now < 2 ^ 63 ∧ c.instant now ≠ 0
  | .hexpire .. =>
    if c.instant now ≤ now.toInt then c.deadline now ≤ now else c.instant now < 2 ^ 63

instance (now : Int64) (c : TimedCommand) : Decidable (c.Fits now) := by
  cases c <;> unfold Fits <;> infer_instance

end TimedCommand

/-- What is left of a record with a given deadline, zero for none. -/
def leftWith (expiry : Int64) : Left := if expiry = 0 then .persistent else .expiring expiry

theorem recordLeft_leftWith {m : OrdMap Bytes Bytes} {raw : Bytes} {e : Entry}
    (h : entryAt m raw = some e) : RecordLeft m raw (leftWith e.expiry) := by
  rw [leftWith]
  split
  · next hzero => exact ⟨e, h, hzero⟩
  · next hne => exact ⟨e, h, rfl, hne⟩

variable {kind : ExpireKind} {n : Int64}

/-- A deadline is stored exactly when the instant fits and is not zero. -/
theorem exact_leftWith_iff : (leftWith (kind.deadline n now)).Exact now (kind.instant n now) ↔
      -2 ^ 63 ≤ kind.instant n now ∧ kind.instant n now < 2 ^ 63 ∧ kind.instant n now ≠ 0 := by
  have hexact := kind.toInt_deadline_eq_iff n now
  rw [leftWith]
  by_cases hzero : kind.deadline n now = 0
  · rw [if_pos hzero]
    refine iff_of_false id fun ⟨hlo, hhi, hne⟩ => hne ?_
    rw [← hexact.mpr ⟨hlo, hhi⟩, hzero]
    rfl
  · rw [if_neg hzero, Left.Exact, hexact]
    refine ⟨fun h => ⟨h.1, h.2, fun he => hzero ?_⟩, fun h => ⟨h.1, h.2.1⟩⟩
    rw [← Int64.toInt_inj, hexact.mpr h, he]
    rfl

/-- A record that has just been written is found with its fields. -/
theorem entryAt_set {raw : Bytes} {t : UInt8} (h : (s.set raw (encode t expiry payload)).2 = .ok) :
    entryAt (s.set raw (encode t expiry payload)).1.db raw = some ⟨t, expiry, payload⟩ := by
  rw [db_set_of_ok h, entryAt, ExtTreeMap.getElem?_insert_self, Option.bind_some, decode_encode]

/-- A clock that stands still goes on standing still. -/
theorem clock_exec {α : Type} (p : Handler α) (h : w.clock = fun _ => now) :
    (p.exec World.answer w).1.clock = fun _ => now := by
  induction p generalizing w with
  | ret => exact h
  | ask q next ih =>
    refine ih _ ?_
    change (if q = .now then fun i => w.clock (i + 1) else w.clock) = _
    rw [h, ite_self]

section Records

variable {s : Pebble} {now : Int64}

/-- A command that does not reply with an error was granted its write. -/
theorem ok_of_no_error {reply : Reply} {r : Outcome} (h : ∀ text, granted reply r ≠ .error text) :
    r = .ok := by
  cases r with
  | oom => exact absurd rfl (h _)
  | ok => rfl

/-- `SETEX` and `PSETEX`. -/
theorem setWithTTL_left {name : String} {unit n : Int64} {value : Bytes} (h : ∀ text, ((setWithTTL
      name unit key n value).exec World.answer ⟨s, fun _ => now⟩).2 ≠ .error text) :
    RecordLeft ((setWithTTL name unit key n value).exec World.answer
      ⟨s, fun _ => now⟩).1.store.db (rawKey .s key) (leftWith (now + n * unit)) := by
  unfold setWithTTL at h ⊢
  by_cases hn : n ≤ 0
  · rw [if_pos hn] at h
    exact absurd rfl (h _)
  · rw [if_neg hn] at h ⊢
    exact recordLeft_leftWith (entryAt_set (ok_of_no_error h))

/-- `RESTORE` of a time other than zero. -/
theorem restoreWrite_left {p : Prefix} {e : Entry} {absttl : Bool} (hn : n ≠ 0) (h : ∀
      text, ((restoreWrite key p e n absttl).exec World.answer ⟨s, fun _ => now⟩).2 ≠ .error text) :
    RecordLeft ((restoreWrite key p e n absttl).exec World.answer ⟨s, fun _ => now⟩).1.store.db
      (rawKey p key)
      (leftWith ((if absttl then ExpireKind.absoluteMs else .relativeMs).deadline n now)) := by
  unfold restoreWrite restoreDeadline at h ⊢
  rw [if_neg hn] at h ⊢
  cases absttl with
  | true | false => exact recordLeft_leftWith (entryAt_set (ok_of_no_error h))

theorem restore_left {replace absttl : Bool} (hn : n ≠ 0) (h : ∀ text, ((restore key n
      payload replace absttl).exec World.answer ⟨s, fun _ => now⟩).2 ≠ .error text) :
    ∃ e p, decode payload = some e ∧ restorePrefix e.typ = some p ∧
      RecordLeft ((restore key n payload replace absttl).exec World.answer
        ⟨s, fun _ => now⟩).1.store.db (rawKey p key)
        (leftWith ((if absttl then ExpireKind.absoluteMs else .relativeMs).deadline n now)) := by
  -- the write is the last step of every path that ends without an error
  have hwrite {w : World} (hclock : w.clock = fun _ => now) {e : Entry} {p : Prefix}
      (h : ∀ text, ((restoreWrite key p e n absttl).exec answer w).2 ≠ .error text) :
      RecordLeft ((restoreWrite key p e n absttl).exec answer w).1.store.db (rawKey p key)
        (leftWith ((if absttl then ExpireKind.absoluteMs else .relativeMs).deadline n now)) := by
    obtain ⟨store, clock⟩ := w
    cases hclock
    exact restoreWrite_left hn h
  unfold restore at h ⊢
  cases hd : decode payload with
  | none =>
    rw [hd] at h
    exact absurd rfl (h _)
  | some e =>
    rw [hd] at h
    dsimp only at h ⊢
    cases hp : restorePrefix e.typ with
    | none =>
      rw [hp] at h
      exact absurd rfl (h _)
    | some p =>
      rw [hp] at h
      refine ⟨e, p, rfl, hp, ?_⟩
      have hseen := clock_exec (lookupRaw key) (w := ⟨s, fun _ => now⟩) rfl
      rw [exec_lookup] at h ⊢
      cases hfound : found ⟨s, fun _ => now⟩ key with
      | missing =>
        rw [hfound] at h
        exact hwrite hseen h
      | failed =>
        rw [hfound] at h
        exact absurd rfl (h _)
      | record =>
        rw [hfound] at h
        cases replace with
        | false => exact absurd rfl (h _)
        | true =>
          rw [if_pos rfl, exec_lookup] at h ⊢
          have hseen' := clock_exec (lookupRaw key) hseen
          cases hagain : (seen ⟨s, fun _ => now⟩ key).found key with
          | missing | failed f =>
            rw [hagain] at h
            exact hwrite hseen' h
          | record =>
            rw [hagain] at h
            rw [Prog.exec_bind] at h ⊢
            exact hwrite (clock_exec _ hseen') h

/-- `EXPIRE` and its relatives: the key goes or gets the deadline. -/
theorem expire_left
    (h : ((expire kind key n cond).exec World.answer ⟨s, fun _ => now⟩).2 = .int 1) :
    ∃ p e, World.found ⟨s, fun _ => now⟩ key = .record p e ∧
      RecordLeft ((expire kind key n cond).exec World.answer ⟨s, fun _ => now⟩).1.store.db
        (rawKey p key)
        (if kind.deadline n now ≤ now then .gone else leftWith (kind.deadline n now)) := by
  have hstill : (⟨s, if kind.relative then fun _ => now else fun _ => now⟩ : World) =
      ⟨s, fun _ => now⟩ := by rw [ite_self]
  cases hfound : found ⟨s, fun _ => now⟩ key with
  | missing | failed f =>
    rw [expire, exec_readDeadline, exec_lookup, hstill, hfound] at h
    cases h
  | record p e =>
    refine ⟨p, e, rfl, ?_⟩
    obtain ⟨hprobe, hentry, hx, -⟩ := found_record hfound
    obtain ⟨w', -, hrun⟩ := exec_expire ⟨hprobe, hentry, fun _ => hx⟩
    rw [hrun] at h ⊢
    by_cases hpast : kind.deadline n now ≤ now
    · simp only [if_pos hpast]
      change (next _ _).store.db[_]? = none
      rw [db_next_delete, OrdMap.getElem?_erase, if_pos rfl]
    · simp only [if_neg hpast] at h ⊢
      cases hc : cond.holds e.expiry (kind.deadline n now) with
      | false =>
        rw [hc] at h
        cases h
      | true =>
        rw [hc] at h
        have hok := (ok_of_granted (show granted _ _ = _ from h) fun h => by cases h).1
        exact recordLeft_leftWith (entryAt_set hok)

end Records

/-- A field whose time has been set: it is removed when the deadline is past and has the deadline
otherwise, and the records are to be written. -/
def Marked (exp now : Int64) (s : HexpireState) (f : Bytes) : Prop :=
  s.dirtyExp = true ∧
    if exp ≤ now then s.dirtyMain = true ∧ f ∉ s.m else s.sidecar[f]? = some (formatInt exp)

section Fields

variable {cond : ExpireCond} {exp now : Int64}

theorem Marked.step {s : HexpireState} (h : Marked exp now s f) {g : Bytes} :
    Marked exp now (hexpireField cond exp now s g) f := by
  obtain ⟨hdirty, hmark⟩ := h
  unfold hexpireField
  split
  · exact ⟨hdirty, hmark⟩
  · split
    · exact ⟨hdirty, hmark⟩
    · split
      · next hpast =>
        rw [if_pos hpast] at hmark
        refine ⟨rfl, ?_⟩
        rw [if_pos hpast]
        exact ⟨rfl, fun hf => hmark.2 (ExtTreeMap.mem_of_mem_erase hf)⟩
      · next hpast =>
        rw [if_neg hpast] at hmark
        refine ⟨rfl, ?_⟩
        rw [if_neg hpast]
        rw [OrdMap.getElem?_insert]
        split
        · rfl
        · exact hmark

/-- A field answered with one is marked. -/
theorem marked_of_one {s : HexpireState} {g : Bytes}
    (h : (hexpireField cond exp now s g).out = s.out ++ [1]) :
    Marked exp now (hexpireField cond exp now s g) g := by
  unfold hexpireField at h ⊢
  split at h
  · exact absurd (append_cancel_left h) (by decide)
  · next hmem =>
    rw [if_neg hmem]
    split at h
    · exact absurd (append_cancel_left h) (by decide)
    · next happlies =>
      rw [if_neg happlies]
      split at h
      · next hpast =>
        rw [if_pos hpast]
        refine ⟨rfl, ?_⟩
        rw [if_pos hpast]
        refine ⟨rfl, ?_⟩
        simp
      · next hpast =>
        rw [if_neg hpast]
        refine ⟨rfl, ?_⟩
        rw [if_neg hpast]
        rw [OrdMap.getElem?_insert, if_pos rfl]

/-- Each field adds one number to the replies. -/
theorem out_hexpireField {s : HexpireState} (g : Bytes) :
    ∃ r, (hexpireField cond exp now s g).out = s.out ++ [r] := by
  unfold hexpireField
  split
  · exact ⟨_, rfl⟩
  · split
    · exact ⟨_, rfl⟩
    · split
      · exact ⟨_, rfl⟩
      · exact ⟨_, rfl⟩

theorem Marked.foldl {s : HexpireState} (h : Marked exp now s f) :
    Marked exp now (fields.foldl (hexpireField cond exp now) s) f := by
  induction fields generalizing s with
  | nil => exact h
  | cons g fields ih => exact ih h.step

/-- The replies so far stay in front. -/
theorem out_foldl (s : HexpireState) :
    s.out <+: (fields.foldl (hexpireField cond exp now) s).out := by
  induction fields generalizing s with
  | nil => exact prefix_rfl
  | cons g fields ih =>
    obtain ⟨r, hr⟩ := out_hexpireField g
    exact (hr ▸ prefix_append s.out [r]).trans (ih _)

/-- Every field of the list that was answered with one is marked in the end. -/
theorem marked_foldl {s : HexpireState} {i : Nat} (hf : fields[i]? = some f)
    (hone : (fields.foldl (hexpireField cond exp now) s).out[s.out.length + i]? = some 1) :
    Marked exp now (fields.foldl (hexpireField cond exp now) s) f := by
  induction fields generalizing s i with
  | nil => cases hf
  | cons g fields ih =>
    obtain ⟨r, hr⟩ := out_hexpireField g
    cases i with
    | zero =>
      cases hf
      rw [foldl_cons] at hone ⊢
      have hr1 : r = 1 := by
        obtain ⟨tail, htail⟩ := out_foldl (hexpireField cond exp now s f)
        rw [← htail, hr] at hone
        simpa using hone
      rw [hr1] at hr
      exact (marked_of_one hr).foldl
    | succ i =>
      refine ih hf ?_
      rw [hr, length_append, length_singleton, add_assoc, add_comm 1 i]
      exact hone

theorem exec_writeFieldExp {sidecar : Fields} : (writeFieldExp key sidecar).exec World.answer w =
      if sidecar.isEmpty then (w.next (.delete (hashExpKey key)), .ok)
      else (w.next (.set (hashExpKey key) (encode typeHash 0 (encodeHash sidecar))),
        (w.store.set (hashExpKey key) (encode typeHash 0 (encodeHash sidecar))).2) := by
  unfold writeFieldExp
  split <;> rfl

/-- The last write of `HEXPIRE`. -/
def hexpireFinish (key : Bytes) (s : HexpireState) : Handler Reply := do
  match ← writeFieldExp key s.sidecar with
  | .oom => pure Failure.oom.reply
  | .ok => pure (.ints s.out)

theorem hexpireFinish_db {s : HexpireState}
    (hreply : ((hexpireFinish key s).exec World.answer w).2 = .ints out) :
    out = s.out ∧ ((hexpireFinish key s).exec World.answer w).1.store.db =
      if s.sidecar.isEmpty then w.store.db.erase (hashExpKey key)
      else (w.store.makeRoom (hashExpKey key)
        (encode typeHash 0 (encodeHash s.sidecar))).1.db.insert (hashExpKey key)
          (encode typeHash 0 (encodeHash s.sidecar)) := by
  rw [hexpireFinish, Prog.exec_bind, exec_writeFieldExp] at hreply ⊢
  by_cases hempty : s.sidecar.isEmpty = true
  · simp only [if_pos hempty] at hreply ⊢
    cases hreply
    exact ⟨rfl, db_next_delete _ _⟩
  · simp only [if_neg hempty] at hreply ⊢
    cases hset : (w.store.set (hashExpKey key) (encode typeHash 0 (encodeHash s.sidecar))).2 with
    | oom =>
      rw [hset] at hreply
      cases hreply
    | ok =>
      rw [hset] at hreply
      cases hreply
      exact ⟨rfl, db_set_of_ok hset⟩

/-- The writes of `HEXPIRE` once it has run over its fields. -/
def hexpireWrites (key : Bytes) (expiry : Int64) (s : HexpireState) : Handler Reply := do
  let finish : Handler Reply := if s.dirtyExp then hexpireFinish key s else pure (.ints s.out)
  if s.dirtyMain then do
    match ← writeHash key s.m expiry with
    | .oom => pure Failure.oom.reply
    | .ok => finish
  else finish

/-- What the last write leaves of a marked field, where the hash is already written. -/
theorem hexpireFinish_left {s : HexpireState} (h : Marked exp now s f) (hmain : exp ≤ now → ∃
      expiry, w.store.db[hashKey key]? = some (encode typeHash expiry (encodeHash s.m)))
    (hreply : ((hexpireFinish key s).exec World.answer w).2 = .ints out) :
    FieldLeft ((hexpireFinish key s).exec World.answer w).1.store.db key f
      (if exp ≤ now then .gone else .expiring exp) := by
  rw [(hexpireFinish_db hreply).2]
  obtain ⟨-, hmark⟩ := h
  by_cases hpast : exp ≤ now
  · rw [if_pos hpast] at hmark ⊢
    obtain ⟨expiry, hrecord⟩ := hmain hpast
    have hraw : hashExpKey key ≠ hashKey key := fun he => nomatch (rawKey_inj.mp he).1
    split
    · refine .inr ⟨expiry, s.m, hmark.2, ?_⟩
      rw [OrdMap.getElem?_erase, if_neg hraw, hrecord]
    · rw [FieldLeft, OrdMap.getElem?_insert]
      rcases makeRoom_shrinks w.store (hashExpKey key)
        (encode typeHash 0 (encodeHash s.sidecar)) (hashKey key) with hkept | hgone
      · exact .inr ⟨expiry, s.m, hmark.2, hkept.trans hrecord⟩
      · exact .inl hgone
  · rw [if_neg hpast] at hmark ⊢
    have hempty : s.sidecar.isEmpty = false :=
      OrdMap.isEmpty_eq_false_iff.mpr ⟨f, (ExtTreeMap.getElem?_eq_some_iff.mp hmark).1⟩
    rw [hempty]
    exact ⟨s.sidecar, hmark, ExtTreeMap.getElem?_insert_self⟩

/-- The replies do not depend on the writes, as long as these succeed. -/
theorem hexpireWrites_out {s : HexpireState}
    (hreply : ((hexpireWrites key expiry s).exec World.answer w).2 = .ints out) : out = s.out := by
  have hfinish {w : World} (hreply : ((if s.dirtyExp then hexpireFinish key s
      else pure (.ints s.out) : Handler Reply).exec answer w).2 = .ints out) : out = s.out := by
    split at hreply
    · exact (hexpireFinish_db hreply).1
    · cases hreply
      rfl
  unfold hexpireWrites at hreply
  cases hmain : s.dirtyMain with
  | false =>
    rw [hmain] at hreply
    exact hfinish hreply
  | true =>
    rw [hmain, if_pos rfl, writeHash, exec_set] at hreply
    split at hreply
    · cases hreply
    · exact hfinish hreply

/-- What the writes leave of a marked field. -/
theorem hexpireWrites_left {s : HexpireState} (h : Marked exp now s f)
    (hreply : ((hexpireWrites key expiry s).exec World.answer w).2 = .ints out) :
    FieldLeft ((hexpireWrites key expiry s).exec World.answer w).1.store.db key f
      (if exp ≤ now then .gone else .expiring exp) := by
  unfold hexpireWrites at hreply ⊢
  simp only [h.1, if_true] at hreply ⊢
  cases hmain : s.dirtyMain with
  | false =>
    rw [hmain] at hreply
    refine hexpireFinish_left h (fun hpast => ?_) hreply
    have hmark := h.2
    rw [if_pos hpast, hmain] at hmark
    cases hmark.1
  | true =>
    rw [hmain, if_pos rfl, writeHash, exec_set] at hreply
    rw [if_pos rfl, writeHash, exec_set]
    cases hset : (w.store.set (hashKey key) (encode typeHash expiry (encodeHash s.m))).2 with
    | oom =>
      rw [hset] at hreply
      cases hreply
    | ok =>
      rw [hset] at hreply
      refine hexpireFinish_left h (fun _ => ⟨expiry, ?_⟩) hreply
      rw [store_next_set, db_set_of_ok hset]
      exact ExtTreeMap.getElem?_insert_self

/-- The `HEXPIRE` family: the field goes or gets the deadline. -/
theorem hexpire_left {field : Bytes} {i : Nat}
    (hreply : ((hexpire kind key n cond fields).exec World.answer ⟨s, fun _ => now⟩).2 = .ints out)
    (hfield : fields[i]? = some field) (hone : out[i]? = some 1) :
    FieldLeft ((hexpire kind key n cond fields).exec World.answer ⟨s, fun _ => now⟩).1.store.db key
      field (if kind.deadline n now ≤ now then .gone else .expiring (kind.deadline n now)) := by
  have hstill : (⟨s, if kind.relative then fun _ => now else fun _ => now⟩ : World) =
      ⟨s, fun _ => now⟩ := by rw [ite_self]
  rw [hexpire, exec_readDeadline, hstill, Prog.exec_bind] at hreply ⊢
  have hclock := clock_exec (readHash key) (w := ⟨s, fun _ => now⟩) rfl
  generalize (readHash key).exec answer ⟨s, fun _ => now⟩ = r at hreply hclock ⊢
  obtain ⟨w₁, read⟩ := r
  cases read with
  | error => cases hreply
  | ok old =>
    cases old with
    | none =>
      cases hreply
      rw [getElem?_map, hfield] at hone
      cases hone
    | some old =>
      rw [Prog.exec_bind, exec_now, clock_exec (readFieldExp key) hclock] at hreply ⊢
      have hout := hexpireWrites_out hreply
      rw [hout] at hone
      refine hexpireWrites_left (marked_foldl hfield ?_) hreply
      rw [length_nil, zero_add]
      exact hone

end Fields

/-- `SET` with a time option that decides. -/
theorem setCommand_left {key : Arg} {value : Bytes} {options : List Arg} {os : List SetOption}
    {prior : Option Entry} (h : ∀ text, ((setCommand (key :: some value :: options)).exec
      World.answer ⟨s, fun _ => now⟩).2 ≠ .error text) (hos : readSetOptions options = some os)
    (hprior : (World.found ⟨s, fun _ => now⟩ (key.getD [])).string = some prior)
    (hdue : SetDue os prior) :
    RecordLeft ((setCommand (key :: some value :: options)).exec World.answer
      ⟨s, fun _ => now⟩).1.store.db (rawKey .s (key.getD []))
      (leftWith (writtenExpiry os prior now)) := by
  have hrefused : os.any SetOption.refused = false := by
    by_contra hr
    rw [exec_setCommand_refused hos (Bool.eq_true_of_not_eq_false hr)] at h
    exact h _ rfl
  have hboth : ¬ (.nx ∈ os ∧ .xx ∈ os) := by
    intro hb
    rw [setCommand, Prog.exec_bind, exec_parseSetArgs hos, hrefused, if_pos hb] at h
    exact h _ rfl
  rw [exec_setCommand ⟨hos, hrefused, hboth, hprior⟩] at h ⊢
  simp only [hdue, if_true] at h ⊢
  exact recordLeft_leftWith (entryAt_set (ok_of_no_error h))

/-- Removing what has expired, and storing the deadline of what has not. -/
theorem exact_removing_iff (kind : ExpireKind) (n : Int64) {stored : Left} (P : Prop) (hstored :
      stored.Exact now (kind.instant n now) ↔ (-2 ^ 63 ≤ kind.instant n now ∧ kind.instant n now < 2
      ^ 63) ∧ P) :
    (if kind.deadline n now ≤ now then .gone else stored).Exact now (kind.instant n now) ↔
      if kind.instant n now ≤ now.toInt then kind.deadline n now ≤ now
      else kind.instant n now < 2 ^ 63 ∧ P := by
  have hexact := kind.toInt_deadline_eq_iff n now
  have hlow := now.le_toInt
  by_cases hpast : kind.deadline n now ≤ now
  · have hle := Int64.le_iff_toInt_le.mp hpast
    rw [if_pos hpast]
    split
    · next hinstant => exact iff_of_true hinstant hpast
    · next hinstant =>
      refine iff_of_false hinstant fun h => hinstant ?_
      rw [← hexact.mpr ⟨by omega, h.1⟩]
      exact hle
  · have hlt : now.toInt < (kind.deadline n now).toInt :=
      Int64.lt_iff_toInt_lt.mp (Int64.not_le.mp hpast)
    rw [if_neg hpast, hstored]
    split
    · next hinstant =>
      refine iff_of_false (fun h => ?_) hpast
      omega
    · next hinstant =>
      exact and_congr_left fun _ => ⟨fun h => h.2, fun h => ⟨by omega, h⟩⟩

/-- What a command leaves is what its time argument says exactly when the instant fits, with the
time word of `SET` in capitals. -/
theorem timed_exact_iff (c : TimedCommand) {s : Pebble} {now : Int64} (h : c.HasSet s now) :
    ∃ left, c.Leaves s now (c.handler.exec World.answer ⟨s, fun _ => now⟩).1.store.db left ∧
      (left.Exact now (c.instant now) ↔ c.Fits now) := by
  cases c with
  | set key value options capitals =>
    obtain ⟨hreply, os, prior, hos, hlast, hprior, hdue, hkeeps⟩ := h
    refine ⟨_, setCommand_left hreply hos hprior hdue, ?_⟩
    rw [writtenExpiry, if_neg hkeeps, hlast]
    cases capitals with
    | true =>
      rw [TimedCommand.Fits, and_iff_right rfl]
      exact exact_leftWith_iff
    | false => exact iff_of_false id fun hf => by cases hf.1
  | setex => exact ⟨_, setWithTTL_left h, exact_leftWith_iff⟩
  | psetex => exact ⟨_, setWithTTL_left h, exact_leftWith_iff⟩
  | expire kind key n =>
    obtain ⟨p, e, hfound, hleft⟩ := expire_left h
    refine ⟨_, ⟨p, e, hfound, hleft⟩, ?_⟩
    refine (exact_removing_iff kind n (kind.instant n now ≠ 0) ?_).trans ?_
    · rw [exact_leftWith_iff, and_assoc]
    · rfl
  | restore key n =>
    obtain ⟨hn, hreply⟩ := h
    have hnonneg : ¬ n < 0 := by
      intro hneg
      refine hreply "ERR invalid expire time in 'restore' command" ?_
      rw [TimedCommand.handler, restoreCommand, if_pos hneg]
      rfl
    rw [TimedCommand.handler, restoreCommand, if_neg hnonneg] at hreply ⊢
    obtain ⟨e, p, hd, hp, hleft⟩ := restore_left hn hreply
    exact ⟨_, ⟨e, p, hd, hp, hleft⟩, exact_leftWith_iff⟩
  | hexpire kind key n =>
    obtain ⟨out, i, hreply, hfield, hone⟩ := h
    refine ⟨_, hexpire_left hreply hfield hone, ?_⟩
    refine (exact_removing_iff kind n True ?_).trans ?_
    · rw [and_true]
      exact kind.toInt_deadline_eq_iff n now
    · rw [and_true]
      rfl

/-- `EXPIRE k 5` on a key with a deadline. -/
theorem timed_exact_expire :
    (TimedCommand.expire .relativeSec [107] 5 .none).HasSet volatileKey.store 1 ∧
      ∃ left, (TimedCommand.expire .relativeSec [107] 5 .none).Leaves volatileKey.store 1
        ((expire .relativeSec [107] 5 .none).exec World.answer
          ⟨volatileKey.store, fun _ => 1⟩).1.store.db left ∧ left.Exact 1 5000000001 := by
  have hset : (TimedCommand.expire .relativeSec [107] 5 .none).HasSet volatileKey.store 1 := by
    change _ = _
    decide +kernel
  obtain ⟨left, hleft, hexact⟩ := timed_exact_iff (.expire .relativeSec [107] 5 .none) hset
  exact ⟨hset, left, hleft, hexact.mpr (by decide)⟩

/-- `SETEX k 9223372036854775807 v`: the product wraps around, and the key is stored with a deadline
that has passed. -/
theorem setex_wraps :
    (TimedCommand.setex [107] 9223372036854775807 [118]).HasSet emptyStore 1 ∧
      (TimedCommand.setex [107] 9223372036854775807 [118]).instant 1 =
        9223372036854775807000000001 ∧
      entryAt ((setex [107] 9223372036854775807 [118]).exec World.answer
        ⟨emptyStore, fun _ => 1⟩).1.store.db (rawKey .s [107]) =
          some ⟨typeString, -999999999, [118]⟩ ∧
      ∀ left, (TimedCommand.setex [107] 9223372036854775807 [118]).Leaves emptyStore 1
        ((setex [107] 9223372036854775807 [118]).exec World.answer
          ⟨emptyStore, fun _ => 1⟩).1.store.db left →
        ¬ left.Exact 1 9223372036854775807000000001 := by
  have hentry : entryAt ((setex [107] 9223372036854775807 [118]).exec answer
      ⟨emptyStore, fun _ => 1⟩).1.store.db (rawKey .s [107]) =
      some ⟨typeString, -999999999, [118]⟩ := by decide +kernel
  have hreply : ((setex [107] 9223372036854775807 [118]).exec answer
      ⟨emptyStore, fun _ => 1⟩).2 = .ok := by decide +kernel
  refine ⟨fun text he => ?_, by decide, hentry, fun left hleft hexact => ?_⟩
  · change ((setex [107] 9223372036854775807 [118]).exec answer
      ⟨emptyStore, fun _ => 1⟩).2 = .error text at he
    cases he
  · cases left with
    | gone =>
      rw [Left.Exact] at hexact
      exact absurd hexact (by decide)
    | persistent => exact hexact
    | expiring =>
      obtain ⟨e, he, hdeadline, -⟩ := hleft
      rw [hentry, Option.some.injEq] at he
      rw [Left.Exact, ← hdeadline, ← he] at hexact
      exact absurd hexact (by decide)

end Gedis.Commands
