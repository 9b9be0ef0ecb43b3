import Gedis.Commands.OneRecord
import Gedis.Commands.Running

/-!
# Deadlines and the instants they stand for

A time argument denotes an instant on the integer line; the code computes it in 64 bits, where it
may wrap around. `EXPIRE` removes a key whose new deadline has passed before it looks at the
condition it was given.
-/

namespace Gedis.Commands

open Gedis.Core Datastruct Storage

variable {kind : ExpireKind} {n : Int64}

namespace ExpireKind

/-- The nanoseconds in a unit of the time argument. -/
def unit : ExpireKind → Int
  | .relativeSec | .absoluteSec => 1000000000
  | .relativeMs | .absoluteMs => 1000000

/-- The instant a time argument denotes, without bounds. -/
def instant (kind : ExpireKind) (n now : Int64) : Int :=
  (if kind.relative then now.toInt else 0) + n.toInt * kind.unit

/-- The code computes the instant modulo the word size. -/
theorem toInt_deadline {now : Int64} :
    (kind.deadline n now).toInt = (kind.instant n now).bmod (2 ^ 64) := by
  cases kind <;>
    simp [deadline, instant, unit, relative, Int64.toInt_add, Int64.toInt_mul]

/-- It is exact when the instant fits. -/
theorem toInt_deadline_eq_iff (kind : ExpireKind) (n now : Int64) :
    (kind.deadline n now).toInt = kind.instant n now ↔
      -2 ^ 63 ≤ kind.instant n now ∧ kind.instant n now < 2 ^ 63 := by
  rw [toInt_deadline, Int.bmod_def]
  omega

end ExpireKind

/-- The deadline and the clock readings that are left when it has been computed. -/
theorem exec_readDeadline {α : Type} {w : World} {next : Int64 → Handler α} :
    (readDeadline kind n >>= next).exec World.answer w =
      (next (kind.deadline n (w.clock 0))).exec World.answer
        ⟨w.store, if kind.relative then fun i => w.clock (i + 1) else w.clock⟩ := by
  cases kind <;> rfl

/-- The condition stands in the way of a new instant; a current deadline of zero is none. -/
def ExpireCond.Bars (cond : ExpireCond) (cur : Int64) (instant : Int) : Prop :=
  match cond with
  | .none => False
  | .nx => cur ≠ 0
  | .xx => cur = 0
  | .gt => cur ≠ 0 ∧ instant ≤ cur.toInt
  | .lt => cur ≠ 0 ∧ cur.toInt ≤ instant

instance (cond : ExpireCond) (cur : Int64) (instant : Int) : Decidable (cond.Bars cur instant) := by
  unfold ExpireCond.Bars
  cases cond <;> infer_instance

/-- Which clock reading the new deadline is compared with: one may be used up by the deadline and
two by the lookups. -/
def expireReading (kind : ExpireKind) (e : Entry) : Nat :=
  kind.relative.toNat + if e.expiry = 0 then 0 else 2

/-- A run of `EXPIRE` on a live key. -/
theorem exec_expire {w : World} {key : Bytes} {p : Prefix} {e : Entry} (h : Live w key p e)
    {cond : ExpireCond} : ∃ w' : World, w'.store.db = w.store.db ∧
      (expire kind key n cond).exec World.answer w =
        let exp := kind.deadline n (w.clock 0)
        let record := encode e.typ exp e.payload
        if exp ≤ w.clock (expireReading kind e) then
          (w'.next (.delete (rawKey p key)), .int 1)
        else if cond.holds e.expiry exp then
          (w'.next (.set (rawKey p key) record),
            granted (.int 1) (w'.store.set (rawKey p key) record).2)
        else (w', .int 0) := by
  have h₁ : Live ⟨w.store, if kind.relative then fun i => w.clock (i + 1) else w.clock⟩ key p e :=
    h.mono rfl fun i => by
      split
      · exact ⟨i + 1, rfl⟩
      · exact ⟨i, rfl⟩
  rw [expire, exec_readDeadline, exec_lookup, h₁.found]
  rw [exec_lookup, h₁.seen.found]
  dsimp only
  have hreading : ((World.seen ⟨w.store,
      if kind.relative then fun i => w.clock (i + 1) else w.clock⟩ key).seen key).clock 0 =
      w.clock (expireReading kind e) := by
    rw [h₁.seen.clock_seen, h₁.clock_seen, expireReading]
    by_cases hzero : e.expiry = 0 <;> cases kind <;> simp [hzero, ExpireKind.relative]
  rw [exec_now, hreading]
  refine ⟨((World.seen ⟨w.store,
    if kind.relative then fun i => w.clock (i + 1) else w.clock⟩ key).seen key).next .now,
    h₁.seen.db_seen.trans h₁.db_seen, ?_⟩
  split
  · rfl
  · split
    · rfl
    · rfl

/-- A condition that stands in the way of `EXPIRE` keeps it from acting exactly when the deadline it
computes lies ahead and compares with the current one as the instant does. -/
theorem expire_barred_iff {w : World} {key : Bytes} {p : Prefix} {e : Entry} (h : Live w key p e)
    (kind : ExpireKind) (n : Int64) (cond : ExpireCond) :
    (cond.Bars e.expiry (kind.instant n (w.clock 0)) →
        ((expire kind key n cond).exec World.answer w).2 = .int 0 ∧
          ((expire kind key n cond).exec World.answer w).1.store.db = w.store.db) ↔
      (cond.Bars e.expiry (kind.instant n (w.clock 0)) →
        w.clock (expireReading kind e) < kind.deadline n (w.clock 0) ∧
          (cond = .gt → kind.deadline n (w.clock 0) ≤ e.expiry) ∧
          (cond = .lt → e.expiry ≤ kind.deadline n (w.clock 0))) := by
  refine imp_congr_right fun hbars => ?_
  obtain ⟨w', hdb, hrun⟩ := exec_expire h
  rw [hrun]
  have hholds : cond.holds e.expiry (kind.deadline n (w.clock 0)) = false ↔
      (cond = .gt → kind.deadline n (w.clock 0) ≤ e.expiry) ∧
        (cond = .lt → e.expiry ≤ kind.deadline n (w.clock 0)) := by
    cases cond <;> simp_all [ExpireCond.Bars, ExpireCond.holds]
  by_cases hpast : kind.deadline n (w.clock 0) ≤ w.clock (expireReading kind e)
  · rw [if_pos hpast]
    refine iff_of_false (fun hr => by cases hr.1) fun hr => ?_
    exact Int64.not_lt.mpr hpast hr.1
  · rw [if_neg hpast, ← hholds, and_iff_right (Int64.not_le.mp hpast)]
    cases hc : cond.holds e.expiry (kind.deadline n (w.clock 0)) with
    | true =>
      refine iff_of_false (fun hr => ?_) (by decide)
      obtain ⟨-, hone⟩ := ok_of_granted hr.1 fun h => by cases h
      cases hone
    | false =>
      exact iff_of_true ⟨rfl, hdb⟩ rfl

/-- `SETEX k 1000 v` at time one. -/
def volatileKey : World :=
  ⟨run step emptyStore [.dispatch (.setex [107] 1000 [118]) fun _ => 1], fun _ => 1⟩

theorem live_volatileKey : Live volatileKey [107] .s ⟨typeString, 1000000000001, [118]⟩ :=
  ⟨by decide +kernel, by decide +kernel, fun _ => by
    change expired _ 1 = false
    decide⟩

theorem expire_nx_keeps_deadline :
    Live volatileKey [107] .s ⟨typeString, 1000000000001, [118]⟩ ∧
      ((expire .relativeSec [107] 5 .nx).exec World.answer volatileKey).2 = .int 0 ∧
      ((expire .relativeSec [107] 5 .nx).exec World.answer volatileKey).1.store.db =
        volatileKey.store.db :=
  ⟨live_volatileKey,
    (expire_barred_iff live_volatileKey .relativeSec 5 .nx).mpr (by decide +kernel)
      (by decide +kernel)⟩

/-- `EXPIRE k -1 NX` removes a key that has a deadline. -/
theorem expire_nx_removes :
    Live volatileKey [107] .s ⟨typeString, 1000000000001, [118]⟩ ∧
      ExpireCond.nx.Bars 1000000000001 (ExpireKind.relativeSec.instant (-1) 1) ∧
      ((expire .relativeSec [107] (-1) .nx).exec World.answer volatileKey).2 = .int 1 ∧
      ((expire .relativeSec [107] (-1) .nx).exec World.answer volatileKey).1.store.db[
        rawKey .s [107]]? = none :=
  ⟨live_volatileKey, by decide +kernel, by decide +kernel, by decide +kernel⟩

end Gedis.Commands
