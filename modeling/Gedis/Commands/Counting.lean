import Gedis.Commands.Increments
import Gedis.Commands.Running

/-!
# Exact increments

`INCR`, `DECR`, `INCRBY`, `DECRBY` and `HINCRBY` read a number, test in 64 bits whether the sum
fits and write its decimal text. `DECRBY` adds the negated argument, and the least argument is its
own negation.
-/

namespace Gedis.Commands

open Gedis.Core Datastruct Storage

instance decidableFits (n : Int) : Decidable (Fits n) := inferInstanceAs (Decidable (_ ∧ _))

/-- A command that counts. -/
inductive Counting where
  | incr (key : Bytes)
  | decr (key : Bytes)
  | incrby (key : Bytes) (n : Int64)
  | decrby (key : Bytes) (n : Int64)
  | hincrby (key field : Bytes) (n : Int64)
  deriving DecidableEq, Repr

namespace Counting

/-- What the handler adds. -/
def delta : Counting → Int64
  | incr _ => 1
  | decr _ => -1
  | incrby _ n | hincrby _ _ n => n
  | decrby _ n => -n

/-- What the command is to add. -/
def change : Counting → Int
  | incr _ => 1
  | decr _ => -1
  | incrby _ n | hincrby _ _ n => n.toInt
  | decrby _ n => -n.toInt

def handler (c : Counting) : Handler Reply :=
  match c with
  | incr key | decr key | incrby key _ | decrby key _ => (incrBy key c.delta).handler
  | hincrby key field n => Commands.hincrby key field n

/-- A number as it was read: the world after reading, which drops what has expired, the number, and
the raw key and record that hold a text in its place. -/
structure Reading where
  after : World
  value : Int64
  raw : Bytes
  record : Bytes → Bytes

/-- What follows the reading: the sum is written unless it does not fit. -/
def Reading.add (r : Reading) (delta : Int64) : World × Reply :=
  if Fits (r.value.toInt + delta.toInt) then
    let record := r.record (formatInt (r.value + delta))
    (r.after.next (.set r.raw record),
      granted (.int (r.value + delta)) (r.after.store.set r.raw record).2)
  else (r.after, .error "ERR increment or decrement would overflow")

/-- The number that a command finds in a string. -/
def readString (key : Bytes) (w : World) : Option Reading :=
  match (readKind .string key).exec World.answer w with
  | (after, .ok (some e)) => (parseInt e.payload).map fun value =>
      ⟨after, value, rawKey .s key, encode typeString e.expiry⟩
  | _ => none

/-- The number that a command finds in a field of a hash. -/
def readField (key field : Bytes) (w : World) : Option Reading :=
  match (readHash key).exec World.answer w with
  | (after, .ok (some (m, expiry))) => (m[field]?.bind parseInt).map fun value =>
      ⟨after, value, hashKey key, fun text => encode typeHash expiry (encodeHash (m.insert field text))⟩
  | _ => none

/-- The number that a command finds. -/
def reading : Counting → World → Option Reading
  | incr key | decr key | incrby key _ | decrby key _ => readString key
  | hincrby key field _ => readField key field

/-- The command negates the least number. -/
def NegatesLeast : Counting → Prop
  | decrby _ n => n = Int64.minValue
  | _ => False

instance (c : Counting) : Decidable c.NegatesLeast := by
  cases c <;> unfold NegatesLeast <;> infer_instance

/-- The exact sum is stored and sent, or it does not fit, an error is sent and nothing is stored. -/
def Exact (c : Counting) (w : World) (r : Reading) : Prop :=
  let sum := r.value.toInt + c.change
  let out := c.handler.exec World.answer w
  if Fits sum then
    out.2 = .int (Int64.ofInt sum) ∧
      out.1.store.db[r.raw]? = some (r.record (formatInt (Int64.ofInt sum)))
  else (∃ text, out.2 = .error text) ∧ out.1.store.db = r.after.store.db

/-- How the store makes room for the sum that the handler computes. -/
def room (c : Counting) (r : Reading) : Pebble × Outcome :=
  r.after.store.makeRoom r.raw (r.record (formatInt (r.value + c.delta)))

variable {c : Counting} {w : World} {r : Reading}

private theorem exec_incrBy {key : Bytes} (delta : Int64) (h : readString key w = some r) :
    (incrBy key delta).handler.exec World.answer w = r.add delta := by
  rw [readString, exec_readKind] at h
  rw [incrBy, exec_modify]
  cases hread : Kind.string.read (w.found key) with
  | error =>
    rw [hread] at h
    cases h
  | ok old =>
    rw [hread] at h
    cases old with
    | none => cases h
    | some =>
      obtain ⟨value, hvalue, rfl⟩ := Option.map_eq_some_iff.mp h
      simp only [Option.elim, hvalue, overflow_iff, ite_not, Reading.add]
      by_cases hfits : Fits (value.toInt + delta.toInt)
      · simp only [if_pos hfits]
        rfl
      · simp [if_neg hfits]

private theorem exec_hincrby {key field : Bytes} (delta : Int64)
    (h : readField key field w = some r) :
    (Commands.hincrby key field delta).exec World.answer w = r.add delta := by
  rw [readField] at h
  rw [Commands.hincrby, updateHash, Prog.exec_bind]
  generalize (readHash key).exec World.answer w = out at h ⊢
  obtain ⟨after, f | _ | ⟨m, expiry⟩⟩ := out
  · cases h
  · cases h
  · obtain ⟨value, hvalue, rfl⟩ := Option.map_eq_some_iff.mp h
    obtain ⟨text, htext, hvalue⟩ := Option.bind_eq_some_iff.mp hvalue
    simp only [Option.getD_some, htext, Option.elim, hvalue, overflow_iff, ite_not, Reading.add]
    by_cases hfits : Fits (value.toInt + delta.toInt)
    · simp only [if_pos hfits, writeHash, exec_set]
      cases (after.store.set (hashKey key) _).2 <;> rfl
    · simp only [if_neg hfits]
      rfl

/-- A command reads its number and then writes the sum or refuses to. -/
theorem exec_handler (h : c.reading w = some r) :
    c.handler.exec World.answer w = r.add c.delta := by
  cases c with
  | incr key | decr key | incrby key n | decrby key n => exact exec_incrBy _ h
  | hincrby key field n => exact exec_hincrby n h

/-- The handler adds what it is to add unless it negates the least number. -/
theorem toInt_delta (h : ¬ c.NegatesLeast) : c.delta.toInt = c.change := by
  cases c with
  | incr key | decr key => rfl
  | incrby key n | hincrby key field n => rfl
  | decrby key n =>
    have hlow := n.le_toInt
    have hhigh := n.toInt_lt
    have hne : n.toInt ≠ -2 ^ 63 := fun he => h (Int64.toInt_inj.mp (he.trans (by decide)))
    rw [delta, change, Int64.toInt_neg, Int.bmod_eq_of_le] <;> omega

theorem least_delta (h : c.NegatesLeast) : c.delta.toInt = -2 ^ 63 ∧ c.change = 2 ^ 63 := by
  cases c with
  | decrby key n =>
    obtain rfl : n = Int64.minValue := h
    exact ⟨rfl, rfl⟩
  | incr key | decr key | incrby key n | hincrby key field n => exact h.elim

theorem fits_iff_ne_of_least {v : Int64} : Fits (v.toInt + -2 ^ 63) ↔ ¬ Fits (v.toInt + 2 ^ 63) := by
  have hlow := v.le_toInt
  have hhigh := v.toInt_lt
  unfold Fits
  omega

/-- Whatever number a command finds: if it does not negate the least number, it is exact if and only
if the store has room for a sum that fits. If it does, it is exact only where its wrong sum is
refused by a store that evicts nothing for it. -/
theorem counting_exact_iff (h : c.reading w = some r) :
    c.Exact w r ↔
      if c.NegatesLeast then
        0 ≤ r.value.toInt ∧ (c.room r).2 = .oom ∧ (c.room r).1.db = r.after.store.db
      else Fits (r.value.toInt + c.change) → (c.room r).2 = .ok := by
  have hset := db_set r.after.store r.raw (r.record (formatInt (r.value + c.delta)))
  rw [← room] at hset
  rw [Exact, exec_handler h, Reading.add]
  by_cases hleast : c.NegatesLeast
  · obtain ⟨hdelta, hchange⟩ := least_delta hleast
    have hsign : Fits (r.value.toInt + 2 ^ 63) ↔ ¬ 0 ≤ r.value.toInt := by
      have hlow := r.value.le_toInt
      unfold Fits
      omega
    rw [if_pos hleast, hdelta, hchange]
    simp only [fits_iff_ne_of_least, ite_not]
    by_cases hfits : Fits (r.value.toInt + 2 ^ 63)
    · simp only [if_pos hfits, hsign.mp hfits, false_and, iff_false]
      rintro ⟨hreply, -⟩
      cases hreply
    · have hpos : 0 ≤ r.value.toInt := not_not.mp (mt hsign.mpr hfits)
      simp only [if_neg hfits, hpos, true_and, World.store_next_set, hset]
      cases hroom : (c.room r).2 with
      | oom => exact ⟨fun he => ⟨rfl, he.2⟩, fun he => ⟨⟨_, rfl⟩, he.2⟩⟩
      | ok =>
        refine iff_of_false ?_ fun he => by cases he.1
        rintro ⟨⟨text, htext⟩, -⟩
        cases htext
  · rw [if_neg hleast, toInt_delta hleast]
    by_cases hfits : Fits (r.value.toInt + c.change)
    · have hsum : Int64.ofInt (r.value.toInt + c.change) = r.value + c.delta := by
        rw [← toInt_delta hleast, ← toInt_add_of_fits (toInt_delta hleast ▸ hfits), Int64.ofInt_toInt]
      simp only [hfits, hsum, if_true, World.store_next_set, hset, true_imp_iff]
      cases hroom : (c.room r).2 with
      | oom => exact iff_of_false (fun he => by cases he.1) fun he => by cases he
      | ok => exact iff_of_true ⟨rfl, OrdMap.getElem?_insert.trans (if_pos rfl)⟩ rfl
    · simp only [hfits, if_false, false_imp_iff, iff_true]
      exact ⟨⟨_, rfl⟩, trivial⟩

/-- A key without a deadline holds zero. -/
def zeroWorld : World := ⟨zeroStore [107] 0, fun _ => 0⟩

/-- `INCRBY k 5` of zero is exact. -/
theorem incrby_five_exact : ∃ r, (incrby [107] 5).reading zeroWorld = some r ∧
    (incrby [107] 5).Exact zeroWorld r := by
  obtain ⟨r, hr, hroom⟩ : ∃ r, (incrby [107] 5).reading zeroWorld = some r ∧
      ((incrby [107] 5).room r).2 = .ok := ⟨_, rfl, by decide +kernel⟩
  refine ⟨r, hr, (counting_exact_iff hr).mpr ?_⟩
  exact fun _ => hroom

/-- `DECRBY k -9223372036854775808` of zero does not fail: it replies with the least number and
stores it, where the difference is one more than the greatest. -/
theorem decrby_least_wraps :
    let c := decrby [107] Int64.minValue
    let out := c.handler.exec World.answer zeroWorld
    out.2 = .int Int64.minValue ∧
      out.1.store.db[rawKey .s [107]]? = some (encode typeString 0 (formatInt Int64.minValue)) ∧
      ∀ r, c.reading zeroWorld = some r → ¬ c.Exact zeroWorld r := by
  refine ⟨by decide +kernel, by decide +kernel, fun r hr hexact => ?_⟩
  have hvalue : r.value = 0 := by
    have : ((decrby [107] Int64.minValue).reading zeroWorld).map Reading.value = some 0 := by
      decide +kernel
    rw [hr] at this
    exact Option.some.inj this
  rw [Exact, hvalue] at hexact
  obtain ⟨⟨text, htext⟩, -⟩ := hexact
  have hreply : ((decrby [107] Int64.minValue).handler.exec World.answer zeroWorld).2 =
      .int Int64.minValue := by decide +kernel
  rw [hreply] at htext
  cases htext

end Counting

end Gedis.Commands
