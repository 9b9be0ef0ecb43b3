import Gedis.Commands.DumpRestore
import Gedis.Commands.ExactTimes

/-!
# `MIGRATE` between two nodes

The source sends the record of a key with its remaining time in milliseconds to a target, which
restores it, and removes the record when the target has answered `OK`. The remaining time is rounded
down and zero means no deadline to the receiver; of a hash only the record goes, not the field
deadlines.
-/

namespace Gedis.Commands.Migration

open Gedis.Core Datastruct Commands.DumpRestore World

/-- What becomes of the messages between the nodes. -/
inductive Line where
  /-- The request does not reach the target, for a reason that is reported. -/
  | lost (text : String)
  /-- The request reaches the target, but its answer does not come back. -/
  | unanswered
  | answered
  deriving DecidableEq, Repr

/-- What the sender makes of the target's reply. -/
def Line.report : Line → Reply → Option String
  | .lost text, _ => some text
  | .unanswered, _ => some "IOERR error or timeout reading from target instance"
  | .answered, .error text => some text
  | .answered, reply =>
    if reply = .ok then none else some "IOERR unexpected reply from target instance"

theorem Line.report_eq_none {line : Line} {reply : Reply} :
    line.report reply = none ↔ line = .answered ∧ reply = .ok := by
  cases line with
  | lost text | unanswered => exact iff_of_false nofun nofun
  | answered =>
    rw [and_iff_right rfl]
    unfold Line.report
    split
    · rename_i heq
      cases heq
    · rename_i heq
      cases heq
    · exact iff_of_false nofun nofun
    · split
      · exact iff_of_true rfl ‹_›
      · exact iff_of_false nofun ‹_›

/-- The target's run of the request. -/
def applyRestore (target : World) (key : Bytes) (replace : Bool) (payload : Bytes) (ttl : Int64) :
    World × Reply :=
  (restoreCommand key ttl payload replace false).exec World.answer target

/-- The target afterwards, and what the sender reports. -/
def sendRestore (line : Line) (target : World) (key : Bytes) (replace : Bool) (payload : Bytes)
    (ttl : Int64) : World × Option String :=
  let r := applyRestore target key replace payload ttl
  (match line with
    | .lost _ => target
    | _ => r.1, line.report r.2)

/-- The time to live that is sent for a record. -/
def migrateTtl (e : Entry) (now : Int64) : Int64 :=
  if e.expiry = 0 then 0 else max 0 ((e.expiry - now) / 1000000)

/-- What the source sends. -/
def offer (w : World) (key : Bytes) : Option (Bytes × Int64) :=
  match w.found key with
  | .record _ e =>
    some (encode e.typ e.expiry e.payload, migrateTtl e ((w.seen key).clock 0))
  | _ => none

/-- A source and a target. -/
structure Nodes where
  source : World
  target : World

/-- `MIGRATE` on the source with its effect on both nodes. -/
def Nodes.migrate (n : Nodes) (line : Line) (key : Bytes) (copy replace : Bool) : Nodes × Reply :=
  let run := (Commands.migrate key copy fun payload ttl =>
    (sendRestore line n.target key replace payload ttl).2).exec World.answer n.source
  let target := match offer n.source key with
    | none => n.target
    | some (payload, ttl) => (sendRestore line n.target key replace payload ttl).1
  (⟨run.1, target⟩, run.2)

section Runs

variable {w : World} {key : Bytes} {p : Prefix} {e : Entry}

/-- The source behind the lookup and the reading of the clock. -/
def migrateRead (w : World) (key : Bytes) (e : Entry) : World :=
  if e.expiry = 0 then w.seen key else (w.seen key).next .now

theorem offer_record (h : w.found key = .record p e) :
    offer w key = some (encode e.typ e.expiry e.payload, migrateTtl e ((w.seen key).clock 0)) := by
  rw [offer, h]

/-- `MIGRATE` makes the one offer and goes on with the answer. -/
theorem exec_migrate (h : w.found key = .record p e) {copy : Bool}
    {send : Bytes → Int64 → Option String} :
    (migrate key copy send).exec World.answer w =
      (migrateSent (rawKey p key) copy (send (encode e.typ e.expiry e.payload)
        (migrateTtl e ((w.seen key).clock 0)))).exec World.answer (migrateRead w key e) := by
  rw [migrate, exec_lookup, h]
  dsimp only
  unfold migrateTtl migrateRead
  by_cases hzero : e.expiry = 0
  · rw [if_pos hzero, if_pos hzero, if_pos hzero]
  · rw [if_neg hzero, if_neg hzero, if_neg hzero, exec_now]

theorem db_migrateRead (h : w.found key = .record p e) :
    (migrateRead w key e).store.db = w.store.db := by
  obtain ⟨-, -, -, hdb⟩ := found_record h
  unfold migrateRead
  split
  · exact hdb
  · exact hdb

theorem toInt_div_million {d : Int64} : (d / 1000000).toInt = d.toInt.tdiv 1000000 := by
  have hmillion : (1000000 : Int64).toInt = 1000000 := by decide
  have hlt := d.toInt_lt
  have hle := d.le_toInt
  have hrange : -2 ^ 63 ≤ d.toInt.tdiv 1000000 ∧ d.toInt.tdiv 1000000 < 2 ^ 63 := by
    rcases Int.le_total 0 d.toInt with hnonneg | hneg
    · rw [Int.tdiv_eq_ediv_of_nonneg hnonneg]
      omega
    · obtain ⟨n, hn⟩ : ∃ n, d.toInt = -n := ⟨-d.toInt, by omega⟩
      rw [hn, Int.neg_tdiv, Int.tdiv_eq_ediv_of_nonneg (by omega)]
      omega
  rw [Int64.toInt_div, hmillion, Int.bmod_eq_of_le (by omega) (by omega)]

theorem migrateTtl_eq {now : Int64} (h : e.expiry ≠ 0) :
    (migrateTtl e now).toInt = max 0 ((e.expiry - now).toInt.tdiv 1000000) := by
  have hmax : migrateTtl e now =
      if (0 : Int64) ≤ (e.expiry - now) / 1000000 then (e.expiry - now) / 1000000 else 0 := if_neg h
  rw [hmax, ← toInt_div_million]
  by_cases hle : (0 : Int64) ≤ (e.expiry - now) / 1000000
  · rw [if_pos hle]
    rw [Int64.le_iff_toInt_le] at hle
    exact (max_eq_right hle).symm
  · rw [if_neg hle]
    rw [Int64.le_iff_toInt_le] at hle
    exact (max_eq_left (not_le.mp hle).le).symm

theorem migrateTtl_nonneg {e : Entry} {now : Int64} : ¬ migrateTtl e now < 0 := by
  by_cases hzero : e.expiry = 0
  · rw [migrateTtl, if_pos hzero]
    decide
  · rw [Int64.lt_iff_toInt_lt, migrateTtl_eq hzero]
    exact not_lt.mpr (le_max_left 0 _)

/-- A time to live is sent as long as a millisecond is left. -/
theorem migrateTtl_ne_zero_iff {now : Int64} (h : e.expiry ≠ 0) :
    migrateTtl e now ≠ 0 ↔ 1000000 ≤ e.expiry - now := by
  have hmillion : (1000000 : Int64).toInt = 1000000 := by decide
  rw [Ne, ← Int64.toInt_inj, migrateTtl_eq h, Int64.le_iff_toInt_le]
  generalize (e.expiry - now).toInt = d
  change ¬ max 0 (d.tdiv 1000000) = 0 ↔ _
  rcases Int.le_total 0 d with hnonneg | hneg
  · rw [Int.tdiv_eq_ediv_of_nonneg hnonneg]
    omega
  · obtain ⟨n, rfl⟩ : ∃ n, d = -n := ⟨-d, by omega⟩
    rw [Int.neg_tdiv, Int.tdiv_eq_ediv_of_nonneg (by omega)]
    omega

/-- What the target has stored when it answers `OK`. -/
theorem restore_stores {payload : Bytes} {ttl : Int64} {replace absttl : Bool}
    (hd : decode payload = some e)
    (h : ((restore key ttl payload replace absttl).exec World.answer w).2 = .ok) :
    ∃ q, restorePrefix e.typ = some q ∧
      ((restore key ttl payload replace absttl).exec World.answer w).1.store.db[rawKey q key]? =
        some (encode e.typ (restoredDeadline ((restoreWrites w key).clock 0) ttl absttl)
          e.payload) := by
  cases hp : restorePrefix e.typ with
  | none =>
    unfold restore at h
    rw [hd] at h
    dsimp only at h
    rw [hp] at h
    cases h
  | some q =>
    have hexec := exec_restore w key hd hp ttl replace absttl
    have hwritten (hwrite : (restore key ttl payload replace absttl).exec answer w =
        (restoreWrite key q e ttl absttl).exec answer (restoreWrites w key)) :
        ((restore key ttl payload replace absttl).exec answer w).1.store.db[rawKey q key]? =
          some (encode e.typ (restoredDeadline ((restoreWrites w key).clock 0) ttl absttl)
            e.payload) := by
      rw [hwrite, exec_restoreWrite] at h ⊢
      rw [store_next_set, db_set_of_ok (ok_of_granted h nofun).1, OrdMap.getElem?_insert,
        if_pos rfl]
    refine ⟨q, rfl, ?_⟩
    cases hfound : w.found key with
    | failed =>
      rw [hexec, hfound] at h
      cases h
    | missing =>
      rw [hfound] at hexec
      exact hwritten hexec
    | record =>
      cases replace with
      | false =>
        rw [hexec, hfound] at h
        cases h
      | true =>
        rw [hfound] at hexec
        exact hwritten hexec

end Runs

section Migrate

variable (n : Nodes) (line : Line) {key : Bytes} (copy replace : Bool) {p : Prefix} {e : Entry}

/-- The request that the target gets, and its reply. -/
def Nodes.applied (n : Nodes) (key : Bytes) (replace : Bool) (e : Entry) : World × Reply :=
  applyRestore n.target key replace (encode e.typ e.expiry e.payload)
    (migrateTtl e ((n.source.seen key).clock 0))

/-- The restored key has a deadline: at least a millisecond was left, and the deadline that the target
computes is not the number that stands for none. -/
def DeadlineSent (n : Nodes) (key : Bytes) (e : Entry) : Prop :=
  1000000 ≤ e.expiry - (n.source.seen key).clock 0 ∧
    (restoreWrites n.target key).clock 0 + migrateTtl e ((n.source.seen key).clock 0) * 1000000 ≠ 0

/-- Behind the removed record probing comes to nothing or to a record that has expired. -/
def SourceGone (n : Nodes) (key : Bytes) (p : Prefix) (e : Entry) : Prop :=
  ∀ q, probe (n.source.store.db.erase (rawKey p key)) key = some q →
    ∃ e', entryAt (n.source.store.db.erase (rawKey p key)) (rawKey q key) = some e' ∧
      expired e' ((migrateRead n.source key e).clock 0) = true

/-- A run of `MIGRATE` on a live key. -/
theorem migrate_run (h : n.source.found key = .record p e) :
    (n.migrate line key copy replace).1.source =
        (if line.report (n.applied key replace e).2 = none ∧ copy = false then
          (migrateRead n.source key e).next (.delete (rawKey p key))
        else migrateRead n.source key e) ∧
      ((n.migrate line key copy replace).2 = .ok ↔ line.report (n.applied key replace e).2 = none) ∧
      ((∀ text, line ≠ .lost text) →
        (n.migrate line key copy replace).1.target = (n.applied key replace e).1) := by
  have htarget : (n.migrate line key copy replace).1.target =
      match line with
      | .lost _ => n.target
      | _ => (n.applied key replace e).1 := by
    unfold Nodes.migrate
    rw [offer_record h]
    rfl
  refine ⟨?_, ?_, fun hline => ?_⟩
  · unfold Nodes.migrate
    rw [exec_migrate h]
    change ((migrateSent (rawKey p key) copy (line.report (n.applied key replace e).2)).exec
      answer (migrateRead n.source key e)).1 = _
    cases line.report (n.applied key replace e).2 with
    | some => rw [if_neg fun h => nomatch h.1]; rfl
    | none => cases copy <;> rfl
  · unfold Nodes.migrate
    rw [exec_migrate h]
    change ((migrateSent (rawKey p key) copy (line.report (n.applied key replace e).2)).exec
      answer (migrateRead n.source key e)).2 = _ ↔ _
    cases line.report (n.applied key replace e).2 with
    | some => exact iff_of_false nofun nofun
    | none => cases copy <;> exact iff_of_true rfl rfl
  · rw [htarget]
    cases line with
    | lost text => exact absurd rfl (hline text)
    | unanswered => rfl
    | answered => rfl

/-- A key with a deadline keeps one on the target exactly when a millisecond is left and the deadline
does not wrap to the number for none; a reply other than `OK` leaves the source as it is; and after
`OK` the source has the key no more exactly when no other live record of it is behind the removed
one. -/
theorem migrate_moves_iff (h : n.source.found key = .record p e) :
    (e.expiry ≠ 0 → (∀ text, line ≠ .lost text) → (n.applied key replace e).2 = .ok →
      ((∃ q expiry, restorePrefix e.typ = some q ∧
        (n.migrate line key copy replace).1.target.store.db[rawKey q key]? =
          some (encode e.typ expiry e.payload) ∧ expiry ≠ 0) ↔ DeadlineSent n key e)) ∧
    (line ≠ .answered ∨ (n.applied key replace e).2 ≠ .ok →
      (n.migrate line key copy replace).1.source.store.db = n.source.store.db) ∧
    ((n.migrate line key copy replace).2 = .ok → copy = false →
      ((n.migrate line key copy replace).1.source.found key = .missing ↔
        SourceGone n key p e)) := by
  obtain ⟨hsource, hreply, htarget⟩ := migrate_run n line copy replace h
  refine ⟨fun hexpiry hline hok => ?_, fun hnot => ?_, fun hok hcopy => ?_⟩
  · rw [htarget hline]
    have hcommand : n.applied key replace e =
        (restore key (migrateTtl e ((n.source.seen key).clock 0))
          (encode e.typ e.expiry e.payload) replace false).exec answer n.target := by
      rw [Nodes.applied, applyRestore, restoreCommand, if_neg migrateTtl_nonneg]
    rw [hcommand] at hok ⊢
    obtain ⟨q, hq, hstored⟩ := restore_stores (decode_encode e.typ e.expiry e.payload) hok
    have hdeadline : restoredDeadline ((restoreWrites n.target key).clock 0)
        (migrateTtl e ((n.source.seen key).clock 0)) false ≠ 0 ↔ DeadlineSent n key e := by
      unfold restoredDeadline DeadlineSent
      rw [← migrateTtl_ne_zero_iff hexpiry]
      by_cases hzero : migrateTtl e ((n.source.seen key).clock 0) = 0
      · rw [if_pos hzero]
        exact iff_of_false (fun h => h rfl) fun h => h.1 hzero
      · rw [if_neg hzero, if_neg Bool.false_ne_true, and_iff_right hzero]
    rw [← hdeadline]
    constructor
    · rintro ⟨q', expiry, hq', hrecord, hne⟩
      rw [hq] at hq'
      cases hq'
      rw [hstored, Option.some.injEq, encode_inj] at hrecord
      rw [hrecord.2.1]
      exact hne
    · exact fun hne => ⟨q, _, hq, hstored, hne⟩
  · rw [hsource, if_neg]
    · exact db_migrateRead h
    · rintro ⟨hnone, -⟩
      obtain ⟨hanswered, hok⟩ := Line.report_eq_none.mp hnone
      exact hnot.elim (· hanswered) (· hok)
  · rw [hsource, if_pos ⟨hreply.mp hok, hcopy⟩, (sought _ key).missing_iff,
      db_next_delete, db_migrateRead h]
    rfl

end Migrate

/-- A source with a string that has a deadline, and an empty target. -/
def stringNodes (now : Int64) : Nodes :=
  ⟨⟨volatileKey.store, fun _ => now⟩, ⟨emptyStore, fun _ => now⟩⟩

/-- A string with plenty of time left arrives with a deadline and is gone at the source. -/
theorem migrate_moves_string :
    (∃ q expiry, restorePrefix typeString = some q ∧
      ((stringNodes 1).migrate .answered [107] false false).1.target.store.db[rawKey q [107]]? =
        some (encode typeString expiry [118]) ∧ expiry ≠ 0) ∧
      ((stringNodes 1).migrate .answered [107] false false).1.source.found [107] = .missing := by
  have hfound : (stringNodes 1).source.found [107] =
      .record .s ⟨typeString, 1000000000001, [118]⟩ := by decide +kernel
  have h := migrate_moves_iff (stringNodes 1) .answered false false hfound
  refine ⟨(h.1 (by decide) (fun text hne => nomatch hne) (by decide +kernel)).mpr
    (by unfold DeadlineSent; decide +kernel), (h.2.2 (by decide +kernel) rfl).mpr fun q hq => ?_⟩
  have hnone : probe ((stringNodes 1).source.store.db.erase (rawKey .s [107])) [107] = none := by
    decide +kernel
  cases hq

/-- With half a millisecond left the key is persistent on the target, and of a hash with field
deadlines a record stays at the source and is found there. -/
theorem migrate_drops_deadline :
    (stringNodes 999999500001).source.found [107] = .record .s ⟨typeString, 1000000000001, [118]⟩ ∧
      ((stringNodes 999999500001).migrate .answered [107] false false).2 = .ok ∧
      ((stringNodes 999999500001).migrate .answered [107] false false).1.target.store.db[
        rawKey .s [107]]? = some (encode typeString 0 [118]) ∧
      (Nodes.migrate ⟨hashWithFieldDeadline, ⟨emptyStore, fun _ => 1⟩⟩ .answered [97] false false).2 =
        .ok ∧
      (Nodes.migrate ⟨hashWithFieldDeadline, ⟨emptyStore, fun _ => 1⟩⟩ .answered [97] false
        false).1.source.found [97] ≠ .missing :=
  ⟨by decide +kernel, by decide +kernel, by decide +kernel, by decide +kernel, by decide +kernel⟩

end Gedis.Commands.Migration
