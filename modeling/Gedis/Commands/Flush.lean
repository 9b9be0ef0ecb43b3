import Gedis.Commands.OneRecord
import Gedis.Protocol.Value

/-!
# Emptying the store

`FLUSHALL` and `FLUSHDB` remove the record that the enumeration of user keys lists for each name.
The enumeration lists one record a name, so a name with two records keeps the second. The expiry
sweep goes over the same records.
-/

namespace Gedis.Commands

open Gedis.Core Datastruct Storage Protocol

/-- `FLUSHALL [ASYNC]` and `FLUSHDB [ASYNC]`, with the name in small letters. -/
def flushCommand (name : String) : List Arg → Handler Reply
  | [] => flush
  | [mode] =>
    if mode.any fun w => equalFold w (ascii ['A', 'S', 'Y', 'N', 'C']) then flush
    else pure (.error "ERR syntax error")
  | _ => pure (.error ("ERR wrong number of arguments for '" ++ name ++ "' command"))

/-- No record of a user key is left, so no user key is found. -/
def Emptied (s : Pebble) : Prop :=
  (∀ p key, rawKey p key ∉ s.db) ∧
    ∀ key clock, ((lookupRaw key).exec World.answer ⟨s, clock⟩).2 = .missing

/-- Every user key has at most one record, of whatever type. -/
def Unshared (m : OrdMap Bytes Bytes) : Prop :=
  ∀ key p p', rawKey p key ∈ m → rawKey p' key ∈ m → p = p'

variable {S : Prop} {T : Int64 → Prop} {m : OrdMap Bytes Bytes}

theorem wp_deleteAll {raws : List Bytes} {post : Unit → OrdMap Bytes Bytes → Prop} :
    (deleteAll raws).wp (Answers S T) post m ↔ post () (eraseAll m raws) := by
  induction raws generalizing m with
  | nil => rfl
  | cons raw raws ih =>
    rw [deleteAll, Prog.wp_bind, wp_delete, ih]
    rfl

/-- After emptying, the records are left that probing does not find. -/
theorem flush_spec :
    flush.wp (Answers S T)
      (fun r m' => r = .ok ∧ ∀ p key, rawKey p key ∈ m' ↔ rawKey p key ∈ m ∧ probe m key ≠ some p)
      m := by
  rw [flush, Prog.wp_bind, wp_scanUserKeys, Prog.wp_bind, wp_deleteAll]
  refine ⟨rfl, fun p key => ?_⟩
  rw [mem_eraseAll, List.mem_map, and_congr_right_iff]
  refine fun _ => not_congr ?_
  constructor
  · rintro ⟨⟨name, raw⟩, hlisted, rfl⟩
    obtain ⟨q, hprobe, hraw⟩ := mem_allUserKeys.mp hlisted
    obtain ⟨rfl, rfl⟩ := rawKey_inj.mp hraw
    exact hprobe
  · intro hprobe
    exact ⟨(key, rawKey p key), mem_allUserKeys.mpr ⟨p, hprobe, rfl⟩, rfl⟩

theorem left_none_iff : (∀ p key, ¬ (rawKey p key ∈ m ∧ probe m key ≠ some p)) ↔ Unshared m := by
  constructor
  · intro h key p p' hp hp'
    have hfirst : ∀ q, rawKey q key ∈ m → probe m key = some q := by
      intro q hq
      by_contra hne
      exact h q key ⟨hq, hne⟩
    have hsame := (hfirst p hp).symm.trans (hfirst p' hp')
    exact Option.some.inj hsame
  · rintro h p key ⟨hmem, hne⟩
    -- probing finds some record, which is this one
    cases hprobe : probe m key with
    | none =>
      have hnot := List.find?_eq_none.mp hprobe p mem_typePrefixes
      simp [hmem] at hnot
    | some q =>
      have hq : rawKey q key ∈ m := by simpa using List.find?_some hprobe
      exact hne (hprobe.trans (congrArg some (h key q p hq hmem)))

theorem missing_of_empty {s : Pebble} (h : ∀ p key, rawKey p key ∉ s.db) (key : Bytes)
    (clock : Nat → Int64) : ((lookupRaw key).exec World.answer ⟨s, clock⟩).2 = .missing := by
  have hwp : (lookupRaw key).wp (Answers False fun _ => True) (fun r _ => r = .missing) s.db := by
    refine wp_lookupFrom (fun _ => rfl) fun p v _ hv => ?_
    exact absurd (Std.ExtTreeMap.getElem?_eq_some_iff.mp hv).1 (h p key)
  exact exec_world (fun _ => trivial) hwp (Prog.During.of_forall _ (fun _ _ h => h.elim) _)

/-- When `FLUSHALL` or `FLUSHDB` replies `OK`, the store is empty of user keys exactly when no user
key had two records before. -/
theorem flush_empties_iff (s : Pebble) (clock : Nat → Int64) (name : String) (args : List Arg)
    (hok : ((flushCommand name args).exec World.answer ⟨s, clock⟩).2 = .ok) :
    Emptied ((flushCommand name args).exec World.answer ⟨s, clock⟩).1.store ↔ Unshared s.db := by
  have hflush : (flushCommand name args).exec World.answer ⟨s, clock⟩ =
      flush.exec World.answer ⟨s, clock⟩ := by
    match args with
    | [] => rfl
    | [mode] =>
      rw [flushCommand] at hok ⊢
      split at hok
      · next hmode => rw [if_pos hmode]
      · cases hok
    | _ :: _ :: _ => cases hok
  have hspec : (flush.exec World.answer ⟨s, clock⟩).2 = .ok ∧
      ∀ p key, rawKey p key ∈ (flush.exec World.answer ⟨s, clock⟩).1.store.db ↔
        rawKey p key ∈ s.db ∧ probe s.db key ≠ some p :=
    exec_world (T := fun _ => True) (fun _ => trivial) (flush_spec (S := False))
      (Prog.During.of_forall _ (fun _ _ h => h.elim) _)
  rw [hflush, ← left_none_iff]
  constructor
  · exact fun h p key hleft => h.1 p key ((hspec.2 p key).mpr hleft)
  · intro h
    have hnone : ∀ p key, rawKey p key ∉ (flush.exec World.answer ⟨s, clock⟩).1.store.db :=
      fun p key hmem => h p key ((hspec.2 p key).mp hmem)
    exact ⟨hnone, missing_of_empty hnone⟩

/-- `HSET k f v`, then `SETEX j 100 v`: two keys with one record each. -/
theorem flush_empties_two_keys :
    Emptied ((flushCommand "flushall" []).exec World.answer
      ⟨run step emptyStore hashThenString, fun _ => 1⟩).1.store := by
  refine (flush_empties_iff _ _ "flushall" [] (by decide +kernel)).mpr ?_
  have hkeys : (run step emptyStore hashThenString).db.keys = [rawKey .h [107], rawKey .s [106]] := by
    decide +kernel
  intro key p p' hp hp'
  rw [← Std.ExtTreeMap.mem_keys, hkeys] at hp hp'
  simp only [List.mem_cons, rawKey_inj, List.not_mem_nil, or_false] at hp hp'
  rcases hp with ⟨rfl, rfl⟩ | ⟨rfl, rfl⟩
  · simpa [eq_comm] using hp'
  · simpa [eq_comm] using hp'

/-- `HSET k f v`, then `HPEXPIREAT k 2000 FIELDS 1 f`. -/
def hashWithDeadline : List Event :=
  [.dispatch (.hset [107] [([102], [118])]) fun _ => 1000000000,
    .dispatch (.hexpire .absoluteMs [107] 2000 .none [[102]]) fun _ => 1000000000]

/-- The field deadlines of a hash survive, and the key is found by them. -/
theorem flush_leaves_deadlines :
    ((flushCommand "flushall" []).exec World.answer
        ⟨run step emptyStore hashWithDeadline, fun _ => 1000000000⟩).2 = .ok ∧
      ¬ Emptied ((flushCommand "flushall" []).exec World.answer
        ⟨run step emptyStore hashWithDeadline, fun _ => 1000000000⟩).1.store := by
  refine ⟨by decide +kernel, fun h => ?_⟩
  refine h.1 .x [107] ?_
  decide +kernel

/-- The deadline of a record has passed. -/
def Due (now : Int64) (value : Bytes) : Prop :=
  ∃ e, decode value = some e ∧ ¬ (e.expiry = 0 ∨ now < e.expiry)

/-- A sweep takes the due ones among the listed records, or meets one that cannot be decoded. -/
def Swept (now : Int64) (raws : List Bytes) (m : OrdMap Bytes Bytes) :
    Except Failure Int64 → OrdMap Bytes Bytes → Prop
  | .ok _, m' => ∀ raw v, m'[raw]? = some v ↔ m[raw]? = some v ∧ ¬ (raw ∈ raws ∧ Due now v)
  | .error _, _ => ∃ raw ∈ raws, ∃ v, m[raw]? = some v ∧ decode v = none

theorem sweepRaws_spec {now n : Int64} {raws : List Bytes} :
    (sweepRaws now raws n).wp (Answers S T) (Swept now raws m) m := by
  induction raws generalizing m n with
  | nil => exact fun _ _ => by simp
  | cons raw raws ih =>
    rw [sweepRaws, Prog.wp_bind, wp_get]
    -- what is left to do, once the first record is gone if it is due
    have hrest {m₁ : OrdMap Bytes Bytes} {n : Int64}
        (h : ∀ raw' v, m₁[raw']? = some v ↔ m[raw']? = some v ∧ ¬ (raw' = raw ∧ Due now v)) :
        (sweepRaws now raws n).wp (Answers S T) (Swept now (raw :: raws) m) m₁ := by
      refine Prog.wp_mono ih fun r m' hr => ?_
      cases r with
      | error =>
        obtain ⟨raw', hmem, v, hv, hbad⟩ := hr
        exact ⟨raw', .tail _ hmem, v, ((h raw' v).mp hv).1, hbad⟩
      | ok =>
        intro raw' v
        rw [hr raw' v, h raw' v, List.mem_cons, or_and_right, not_or, and_assoc]
    cases hget : m[raw]? with
    | none => exact hrest (by grind)
    | some value =>
      cases hdecode : decode value with
      | none =>
        simp only [hdecode]
        exact ⟨raw, .head _, value, hget, hdecode⟩
      | some e =>
        simp only [hdecode]
        split
        · exact hrest (by grind [Due])
        · rw [Prog.wp_bind, wp_delete]
          exact hrest (by grind [Due, OrdMap.getElem?_erase])

/-- One sweep goes over the first record of every user key and takes exactly the due ones. -/
theorem sweep_exact (w : World) : ∃ i, Swept (w.clock i) ((allUserKeys w.store.db).map Prod.snd)
    w.store.db (sweepOnce.exec World.answer w).2 (sweepOnce.exec World.answer w).1.store.db := by
  refine @exec_world False (∃ i, · = w.clock i) _ _ (fun r m' => ∃ i, Swept (w.clock i) _ w.store.db r m') _ _
    (fun i => ⟨i, rfl⟩) ?_ (Prog.During.of_forall _ (fun _ _ h => h.elim) _)
  rw [sweepOnce, Prog.wp_bind, wp_scanUserKeys, Prog.wp_bind, wp_now]
  rintro _ ⟨i, rfl⟩
  exact Prog.wp_mono sweepRaws_spec fun r m' hr => ⟨i, hr⟩

end Gedis.Commands
