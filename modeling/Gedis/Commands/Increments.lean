import Gedis.Commands.Typed
import Gedis.Core.Counter

/-!
# Connections that increment one key

Every connection runs its handler in a goroutine of its own. `INCRBY` reads the record, looks at
the clock when the record has a deadline, and writes the sum; nothing keeps the other
connections out in between. The connections are clients of a shared number, and they lose no
increment exactly when no write of one falls between the read and the write of another.
-/

namespace Gedis.Commands

open Gedis.Core Datastruct Replication Storage List Prog Pebble Shared

/-- The integers of 64 bits. -/
def Fits (n : Int) : Prop := -9223372036854775808 ≤ n ∧ n ≤ 9223372036854775807

/-- A user key holds a string that reads as an integer, under a deadline or none. -/
def Holds (s : Pebble) (key : Bytes) (expiry value : Int64) : Prop :=
  ∃ payload, s.db[rawKey .s key]? = some (encode typeString expiry payload) ∧
    parseInt payload = some value

/-- What is left of `INCRBY` once the number was read and its deadline checked. -/
def addTo (key : Bytes) (expiry cur delta : Int64) : Handler Reply :=
  if (0 < delta ∧ 9223372036854775807 - delta < cur) ∨
      (delta < 0 ∧ cur < -9223372036854775808 - delta) then
    pure (.error "ERR increment or decrement would overflow")
  else
    Prog.ask (.set (rawKey .s key) (encode typeString expiry (formatInt (cur + delta))))
      fun r : Outcome => match r with
      | .oom => pure Failure.oom.reply
      | .ok => pure (.int (cur + delta))

private theorem overflow_up (cur delta : Int64) :
    (0 < delta ∧ 9223372036854775807 - delta < cur) ↔
      9223372036854775807 < cur.toInt + delta.toInt := by
  have hcur := cur.toInt_lt
  have hdelta := delta.toInt_lt
  have htop : (9223372036854775807 : Int64).toInt = 9223372036854775807 := rfl
  have hpos : 0 < delta ↔ 0 < delta.toInt := Int64.lt_iff_toInt_lt
  have hsub (h : 0 < delta.toInt) :
      (9223372036854775807 - delta).toInt = 9223372036854775807 - delta.toInt := by
    rw [Int64.toInt_sub, Int.bmod_eq_of_le] <;> omega
  rw [hpos, Int64.lt_iff_toInt_lt]
  constructor
  · rintro ⟨h, hlt⟩
    omega
  · intro hlt
    have h : 0 < delta.toInt := by omega
    omega

private theorem overflow_down (cur delta : Int64) :
    (delta < 0 ∧ cur < -9223372036854775808 - delta) ↔
      cur.toInt + delta.toInt < -9223372036854775808 := by
  have hcur := cur.le_toInt
  have hdelta := delta.le_toInt
  have hbottom : (-9223372036854775808 : Int64).toInt = -9223372036854775808 := rfl
  have hneg : delta < 0 ↔ delta.toInt < 0 := Int64.lt_iff_toInt_lt
  have hsub (h : delta.toInt < 0) :
      (-9223372036854775808 - delta).toInt = -9223372036854775808 - delta.toInt := by
    rw [Int64.toInt_sub, Int.bmod_eq_of_le] <;> omega
  rw [hneg, Int64.lt_iff_toInt_lt]
  constructor
  · rintro ⟨h, hlt⟩
    omega
  · intro hlt
    have h : delta.toInt < 0 := by omega
    omega

/-- The bounds that `INCRBY` tests say whether the sum leaves the 64 bits. -/
theorem overflow_iff {cur delta : Int64} :
    ((0 < delta ∧ 9223372036854775807 - delta < cur) ∨
      (delta < 0 ∧ cur < -9223372036854775808 - delta)) ↔ ¬ Fits (cur.toInt + delta.toInt) := by
  rw [overflow_up, overflow_down, Fits]
  omega

theorem toInt_add_of_fits {cur delta : Int64} (h : Fits (cur.toInt + delta.toInt)) :
    (cur + delta).toInt = cur.toInt + delta.toInt := by
  rw [Int64.toInt_add]
  exact Int.bmod_eq_of_le (by have := h.1; omega) (by have := h.2; omega)

section Advance

variable {s : Pebble} {key : Bytes} {expiry cur : Int64}

private theorem update_handler (key payload : Bytes) (expiry cur delta : Int64) :
    (match (if (0 < delta ∧ 9223372036854775807 - delta < cur) ∨
          (delta < 0 ∧ cur < -9223372036854775808 - delta) then
        .keep (.error "ERR increment or decrement would overflow")
      else .write (oldExpiry (some ⟨typeString, expiry, payload⟩)) (formatInt (cur + delta))
        (.int (cur + delta)) : Update) with
      | .keep reply => (Session.done reply : Session .string Reply [key])
      | .write expiry payload reply =>
        .store key (List.mem_cons_self ..) expiry payload (Session.orOom (.done reply))
      | .remove reply => .drop key (.done reply)).handler = addTo key expiry cur delta := by
  by_cases h : (0 < delta ∧ 9223372036854775807 - delta < cur) ∨
      (delta < 0 ∧ cur < -9223372036854775808 - delta)
  · simp [addTo, if_pos h, Session.handler]
  · simp only [addTo, if_neg h, Session.handler, writeKind, Kv.set, perform, ask_bind,
      ret_bind]
    refine congrArg (ask _) (funext fun r => ?_)
    cases r <;> rfl

/-- The first request of `INCRBY` reads the record and leaves it in place. -/
theorem advance_incrBy (h : Holds s key expiry cur) {delta t : Int64} :
    let r := (incrBy key delta).handler.advance (Pebble.answer t) s
    Holds r.1 key expiry cur ∧ r.1.maxBytes = s.maxBytes ∧
      (expiry = 0 → r.2 = addTo key expiry cur delta) ∧
      (expiry ≠ 0 → ∃ next, r.2 = ask .now next ∧
        ∀ now, now < expiry → next now = addTo key expiry cur delta) := by
  obtain ⟨payload, hdb, hpayload⟩ := h
  simp only [incrBy, modify, Session.handler, readKind, lookupRaw, typePrefixes]
  rw [lookupFrom]
  simp only [Kv.get, perform, ask_bind, advance, Pebble.answer, Pebble.get, hdb,
    ret_bind, decode_encode]
  refine ⟨⟨payload, by rwa [Pebble.trackGet_db], hpayload⟩, Pebble.trackGet_maxBytes, ?_, ?_⟩
  · rintro rfl
    simp only [ite_true, pure_eq, ret_bind, Kind.tag, hpayload, Option.elim]
    exact update_handler key payload 0 cur delta
  · intro he
    simp only [he, ite_false, Kv.now, perform, ask_bind, ret_bind]
    refine ⟨_, rfl, fun now hnow => ?_⟩
    simp only [Int64.not_le.mpr hnow, ite_false, ite_true, pure_eq, ret_bind, Kind.tag,
      hpayload, Option.elim]
    exact update_handler key payload expiry cur delta

/-- The last request of `INCRBY` stores the sum, unless it does not fit or the store has no room
for it. -/
theorem advance_addTo (s : Pebble) (key : Bytes) (expiry cur delta t : Int64) :
    let r := (addTo key expiry cur delta).advance (answer t) s
    (Holds r.1 key expiry (cur + delta) ∧ r.1.maxBytes = s.maxBytes ∧
        (cur + delta).toInt = cur.toInt + delta.toInt ∧ r.2 = .ret (.int (cur + delta))) ∨
      ((Fits (cur.toInt + delta.toInt) → 0 < s.maxBytes) ∧ ∃ text, r.2 = .ret (.error text)) := by
  by_cases hfits : Fits (cur.toInt + delta.toInt)
  · have hnot := overflow_iff.not_left.mpr hfits
    simp only [addTo, if_neg hnot, advance, answer]
    rcases s.set_cases (rawKey .s key) (encode typeString expiry (formatInt (cur + delta))) with
      ⟨hoom, he⟩ | ⟨-, he⟩
    · refine .inr ⟨fun _ => ?_, _, by rw [he]; rfl⟩
      by_contra hmem
      rw [makeRoom, evictForDelta, if_neg hmem] at hoom
      cases hoom
    · rw [he]
      refine .inl ⟨⟨formatInt (cur + delta), ?_, parseInt_formatInt⟩,
        makeRoom_maxBytes, toInt_add_of_fits hfits, rfl⟩
      exact OrdMap.getElem?_insert.trans (if_pos rfl)
  · have hover := overflow_iff.mpr hfits
    simp only [addTo, if_pos hover, pure_eq, advance]
    exact .inr ⟨fun h => absurd h hfits, _, rfl⟩

end Advance

section Connections

variable {n : Nat}

/-- A store with connections that each run one command. -/
abbrev Connections (n : Nat) := Procs Request Request.Answer Pebble (Fin n) Unit Reply

/-- Connections that are each about to run `INCRBY` on one key. -/
def incrementing (s : Pebble) (key : Bytes) (delta : Fin n → Int64) : Connections n :=
  ⟨s, pure (), fun i => (incrBy key (delta i)).handler, []⟩

/-- One request of a connection at a given time. -/
def Connections.turn (c : Connections n) (t : Fin n × Int64) : Connections n :=
  Procs.step Pebble.answer c (.other t.1, t.2)

variable {t : Fin n × Int64} {turns : List (Fin n × Int64)}

theorem Connections.turn_state {c : Connections n} :
    (c.turn t).state = ((c.others t.1).advance (Pebble.answer t.2) c.state).1 := rfl

theorem Connections.turn_others {c : Connections n} {j : Fin n} : (c.turn t).others j =
      if j = t.1 then ((c.others t.1).advance (Pebble.answer t.2) c.state).2 else c.others j := rfl

/-- A connection that has replied does nothing more. -/
theorem Connections.turn_of_ret (c : Connections n) {r : Reply}
    (h : c.others t.1 = .ret r) : (c.turn t).state = c.state ∧ (c.turn t).others = c.others := by
  refine ⟨by rw [turn_state, h]; rfl, funext fun j => ?_⟩
  rw [turn_others]
  split
  · subst j
    rw [h]
    rfl
  · rfl

theorem Connections.turn_unlimited (c : Connections n) (h : c.state.maxBytes ≤ 0) :
    (c.turn t).state.maxBytes ≤ 0 := by
  rw [turn_state]
  cases c.others t.1 with
  | ret => exact h
  | ask q =>
    obtain ⟨-, -, hmax⟩ := answer_unlimited h q
    exact hmax.trans_le h

/-- Turns between the read and the write: a look at the clock for a record with a deadline. -/
def clockTurns (expiry : Int64) : Nat := if expiry = 0 then 0 else 1

/-- What is left of the program of a connection in each phase of a client. -/
def Stands (key : Bytes) (expiry delta : Int64) (p : Handler Reply) : Core.Phase → Prop
  | .idle => p = (incrBy key delta).handler
  | .read seen 0 => ∃ cur : Int64, cur.toInt = seen ∧ p = addTo key expiry cur delta
  | .read seen (m + 1) => m = 0 ∧ expiry ≠ 0 ∧ ∃ cur : Int64, cur.toInt = seen ∧
      ∃ next, p = Prog.ask .now next ∧ ∀ now, now < expiry → next now = addTo key expiry cur delta
  | .wrote r => ∃ sum : Int64, sum.toInt = r ∧ p = .ret (.int sum)

/-- The connections stand where the clients of a shared number stand. -/
structure Follows (key : Bytes) (expiry : Int64) (delta : Fin n → Int64) (c : Connections n)
    (a : Shared (Fin n)) : Prop where
  value : ∃ cur : Int64, cur.toInt = a.value ∧ Holds c.state key expiry cur
  stands : ∀ i, Stands key expiry (delta i) (c.others i) (a.phase i)

/-- Some connection has replied with an error. -/
def Failed (c : Connections n) : Prop := ∃ i text, c.others i = .ret (.error text)

/-- The increments as numbers. -/
def increments (delta : Fin n → Int64) : Fin n → Int := fun i => (delta i).toInt

variable {key : Bytes} {expiry : Int64} {delta : Fin n → Int64} {c : Connections n}
  {a : Shared (Fin n)}

variable (delta) in
theorem follows_start {s : Pebble} {v : Int64} (h : Holds s key expiry v) :
    Follows key expiry delta (incrementing s key delta) (.start v.toInt) :=
  ⟨⟨v, rfl, h⟩, fun _ => rfl⟩

private theorem Follows.turn (h : Follows key expiry delta c a) {value : Int} {p : Core.Phase}
    (hvalue : ∃ cur : Int64, cur.toInt = value ∧ Holds (c.turn t).state key expiry cur)
    (hp : Stands key expiry (delta t.1) ((c.others t.1).advance (Pebble.answer t.2) c.state).2 p) :
    Follows key expiry delta (c.turn t) ({ a with value := value }.move t.1 p) where
  value := hvalue
  stands j := by
    by_cases hj : j = t.1
    · subst hj
      simpa [Connections.turn, Procs.step] using hp
    · simpa [Connections.turn, Procs.step, phase_move_of_ne hj, hj, ite_false]
        using h.stands j

/-- A turn of a connection is a turn of its client, or the connection replies with an error:
its sum does not fit, or the store has a memory limit. -/
theorem Follows.step (h : Follows key expiry delta c a) (ht : expiry = 0 ∨ t.2 < expiry) :
    Follows key expiry delta (c.turn t) (a.step (clockTurns expiry) (increments delta) t.1) ∨
      (Failed (c.turn t) ∧ (0 < c.state.maxBytes ∨
        ∃ seen, a.phase t.1 = .read seen 0 ∧ ¬ Fits (seen + increments delta t.1))) := by
  obtain ⟨i, now⟩ := t
  have hstands := h.stands i
  obtain ⟨v, hv, hholds⟩ := h.value
  cases hp : a.phase i with
  | idle =>
    rw [hp] at hstands
    obtain ⟨hkeep, -, hzero, hclock⟩ := advance_incrBy hholds
    rw [← show c.others i = _ from hstands] at hkeep hzero hclock
    refine .inl ?_
    simp only [Shared.step, hp]
    refine h.turn ⟨v, hv, hkeep⟩ ?_
    unfold clockTurns
    split
    · exact ⟨v, hv, hzero ‹_›⟩
    · exact ⟨rfl, ‹_›, v, hv, hclock ‹_›⟩
  | read seen m =>
    rw [hp] at hstands
    cases m with
    | succ m =>
      obtain ⟨rfl, he, cur, hcur, next, hask, hnext⟩ := hstands
      refine .inl ?_
      simp only [Shared.step, hp]
      have hadvance : (c.others i).advance (answer now) c.state = (c.state, next now) := by
        rw [hask]
        rfl
      refine h.turn ⟨v, hv, ?_⟩ ?_
      · rwa [Connections.turn_state, hadvance]
      · rw [hadvance]
        exact ⟨cur, hcur, hnext now (ht.resolve_left he)⟩
    | zero =>
      obtain ⟨cur, hcur, hadd⟩ := hstands
      have hlast := advance_addTo c.state key expiry cur (delta i) now
      rw [← hadd] at hlast
      rcases hlast with ⟨hstored, -, hsum, hret⟩ | ⟨hroom, text, hret⟩
      · refine .inl ?_
        simp only [Shared.step, hp]
        have hvalue : (cur + delta i).toInt = seen + increments delta i := by
          rw [hsum, hcur]
          rfl
        exact h.turn ⟨_, hvalue, hstored⟩ ⟨_, hvalue, hret⟩
      · refine .inr ⟨⟨i, text, ?_⟩, ?_⟩
        · simpa [Connections.turn, Procs.step] using hret
        · by_cases hfits : Fits (seen + increments delta i)
          · subst hcur
            exact .inl (hroom hfits)
          · exact .inr ⟨seen, rfl, hfits⟩
  | wrote =>
    rw [hp] at hstands
    obtain ⟨sum, hsum, hret⟩ := hstands
    refine .inl ?_
    simp only [Shared.step, hp]
    obtain ⟨hstate, hothers⟩ := c.turn_of_ret (t := (i, now)) hret
    exact ⟨⟨v, hv, by rwa [hstate]⟩, fun j => by rw [hothers]; exact h.stands j⟩

theorem Failed.turn (h : Failed c) : Failed (c.turn t) := by
  obtain ⟨i, text, hi⟩ := h
  refine ⟨i, text, ?_⟩
  rw [Connections.turn_others]
  split
  · subst i
    rw [hi]
    rfl
  · exact hi

/-- Along a run the connections follow their clients, or one of them has failed. -/
theorem follows_run (h : Follows key expiry delta c a)
    (hturns : ∀ t ∈ turns, expiry = 0 ∨ t.2 < expiry) :
    Follows key expiry delta (run Connections.turn c turns)
        (run (Shared.step (clockTurns expiry) (increments delta)) a (turns.map Prod.fst)) ∨
      Failed (run Connections.turn c turns) := by
  induction turns generalizing c a with
  | nil => exact .inl h
  | cons t turns ih =>
    have hrest : ∀ t' ∈ turns, expiry = 0 ∨ t'.2 < expiry :=
      fun t' ht' => hturns t' (mem_cons_of_mem _ ht')
    rcases h.step (hturns t (mem_cons_self ..)) with hstep | ⟨hfailed, -⟩
    · exact ih hstep hrest
    · exact .inr (run_invariant (fun _ t hf => hf.turn) hfailed turns)

/-- Without a memory limit the connections follow their clients as long as the sums fit. -/
theorem follows_run_unlimited (h : Follows key expiry delta c a) (hmem : c.state.maxBytes ≤ 0)
    (hturns : ∀ t ∈ turns, expiry = 0 ∨ t.2 < expiry)
    (hfits : Along (Shared.step (clockTurns expiry) (increments delta))
      (fun a i => ∀ seen, a.phase i = .read seen 0 → Fits (seen + increments delta i)) a
      (turns.map Prod.fst)) : Follows key expiry delta (run Connections.turn c turns)
      (run (Shared.step (clockTurns expiry) (increments delta)) a (turns.map Prod.fst)) := by
  induction turns generalizing c a with
  | nil => exact h
  | cons t turns ih =>
    have hrest : ∀ t' ∈ turns, expiry = 0 ∨ t'.2 < expiry :=
      fun t' ht' => hturns t' (mem_cons_of_mem _ ht')
    rcases h.step (hturns t (mem_cons_self ..)) with hstep | ⟨-, hlimit | ⟨seen, hp, hnot⟩⟩
    · exact ih hstep (c.turn_unlimited hmem) hrest hfits.2
    · omega
    · exact absurd (hfits.1 seen hp) hnot

/-- If every connection replied with a number, the key holds the old number plus all increments,
and the replies are the partial sums of the increments in some order of the connections. -/
def NoLostUpdate (key : Bytes) (expiry v : Int64) (delta : Fin n → Int64) (c : Connections n) :
    Prop :=
  ∀ result : Fin n → Int64, (∀ i, (c.others i).result? = some (.int (result i))) →
    (∃ total : Int64, Holds c.state key expiry total ∧
      total.toInt = v.toInt + ((List.finRange n).map (increments delta)).sum) ∧
    ∃ order : List (Fin n), order.Perm (List.finRange n) ∧
      Shared.PartialSums (increments delta) v.toInt order fun i => (result i).toInt

private theorem noLostUpdate_of_serial {s : Pebble} {v : Int64}
    (hturns : ∀ t ∈ turns, expiry = 0 ∨ t.2 < expiry)
    (hall : ∀ i, clockTurns expiry + 2 ≤ (turns.map Prod.fst).count i)
    (hserial : Shared.Serial (clockTurns expiry + 2) (turns.map Prod.fst))
    (hs : Holds s key expiry v) :
    NoLostUpdate key expiry v delta (run Connections.turn (incrementing s key delta) turns) := by
  intro result hresult
  obtain ⟨order, hordered, hmem⟩ :=
    ordered_of_serial (d := increments delta) (v := v.toInt) hserial hall
  have hperm : order.Perm (finRange n) :=
    (perm_ext_iff_of_nodup hordered.nodup (nodup_finRange n)).mpr
      fun i => iff_of_true (hmem i) (mem_finRange i)
  rcases follows_run (follows_start delta hs) hturns with hfollows | ⟨i, text, hi⟩
  · obtain ⟨total, htotal, hholds⟩ := hfollows.value
    refine ⟨⟨total, hholds, ?_⟩, order, hperm, fun before i after he => ?_⟩
    · rw [htotal, hordered.value_eq, (hperm.map _).sum_eq]
    · have hi := hfollows.stands i
      rw [hordered.wrote before i after he] at hi
      obtain ⟨sum, hsum, hret⟩ := hi
      have := hresult i
      rw [hret] at this
      obtain rfl : sum = result i := by simpa [result?] using this
      exact hsum
  · have := hresult i
    rw [hi] at this
    cases this

/-- A store without a memory limit that holds the number zero. -/
def zeroStore (key : Bytes) (expiry : Int64) : Pebble :=
  Pebble.opened ((∅ : OrdMap Bytes Bytes).insert (rawKey .s key)
    (encode typeString expiry (formatInt 0))) 0 .noeviction (newHub 0) []

theorem holds_zeroStore (key : Bytes) {expiry : Int64} :
    Holds (zeroStore key expiry) key expiry 0 :=
  ⟨formatInt 0, OrdMap.getElem?_insert.trans (if_pos rfl), parseInt_formatInt⟩

/-- Two connections add one, the others nothing. -/
def pairDelta (i j : Fin n) : Fin n → Int64 := fun x => if x = i ∨ x = j then 1 else 0

theorem increments_pairDelta {i j : Fin n} : increments (pairDelta i j) = Shared.pair i j := by
  funext x
  unfold increments pairDelta pair
  split <;> rfl

private theorem fits_pair {i j : Fin n} (hij : i ≠ j) (expiry : Int64) (order : List (Fin n)) :
    Along (Shared.step (clockTurns expiry) (Shared.pair i j))
      (fun a x => ∀ seen, a.phase x = .read seen 0 → Fits (seen + Shared.pair i j x))
      (.start 0) order := by
  refine along_of_invariant (fun _ x h => h.step hij)
    (fun a x h seen hx => ?_) within_start order
  have hnonneg := h.seen_nonneg x seen 0 hx
  have hle := h.seen_le_two hx
  unfold Fits pair
  split <;> omega

private theorem Follows.result (h : Follows key expiry delta c a) {i : Fin n} {r : Int}
    (hi : a.phase i = .wrote r) : ∃ sum : Int64, sum.toInt = r ∧ c.others i = .ret (.int sum) := by
  have hstands := h.stands i
  rwa [hi] at hstands

private theorem lost_of_not_serial (key : Bytes) (hturns : ∀ t ∈ turns, expiry = 0 ∨ t.2 < expiry)
    (hall : ∀ i, clockTurns expiry + 2 ≤ (turns.map Prod.fst).count i)
    (hserial : ¬ Shared.Serial (clockTurns expiry + 2) (turns.map Prod.fst)) :
    ∃ delta : Fin n → Int64, ¬ NoLostUpdate key expiry 0 delta
      (run Connections.turn (incrementing (zeroStore key expiry) key delta) turns) := by
  obtain ⟨i, j, hij, hi, hj⟩ := overlapped_of_not_serial hserial
  have hfollows := follows_run_unlimited
    (follows_start (pairDelta i j) (holds_zeroStore key)) le_rfl hturns
    (by rw [increments_pairDelta]; exact fits_pair hij expiry _)
  rw [increments_pairDelta] at hfollows
  have hwrote x := wrote_of_count (pair i j) 0 (hall x)
  have hj : (run (step (clockTurns expiry) (pair i j)) (.start 0)
      (turns.map Prod.fst)).phase j = .wrote 1 := by
    rcases hj with hj | ⟨m, hread⟩
    · exact hj
    · obtain ⟨r, hr⟩ := hwrote j
      rw [hread] at hr
      cases hr
  have hreply x := hfollows.result (hwrote x).choose_spec
  choose result hresult using hreply
  have hone : ∀ x, (run (step (clockTurns expiry) (pair i j)) (.start 0)
      (turns.map Prod.fst)).phase x = .wrote 1 → (result x).toInt = 1 := by
    intro x hx
    obtain ⟨sum, hsum, hret⟩ := hfollows.result hx
    rw [(hresult x).2] at hret
    cases hret
    exact hsum
  refine ⟨pairDelta i j, fun h => ?_⟩
  obtain ⟨-, order, hperm, hsums⟩ := h result fun x => by rw [(hresult x).2]; rfl
  rw [increments_pairDelta] at hsums
  exact not_partialSums_pair hij (hone i hi) (hone j hj)
    (fun x => hperm.mem_iff.mpr (mem_finRange x)) hsums

/-- For every number of connections and every schedule in which each of them has all its turns
before the deadline of the key: whatever the store, the number that the key holds and the
increments, no update is lost if and only if the schedule lets no connection write between the
read and the write of another one. -/
theorem incrBy_exact_iff (key : Bytes) (expiry : Int64) (turns : List (Fin n × Int64))
    (hturns : ∀ t ∈ turns, expiry = 0 ∨ t.2 < expiry)
    (hall : ∀ i, clockTurns expiry + 2 ≤ (turns.map Prod.fst).count i) :
    (∀ (s : Pebble) (v : Int64) (delta : Fin n → Int64), Holds s key expiry v →
        NoLostUpdate key expiry v delta (run Connections.turn (incrementing s key delta) turns)) ↔
      Shared.Serial (clockTurns expiry + 2) (turns.map Prod.fst) := by
  constructor
  · intro h
    by_contra hserial
    obtain ⟨delta, hlost⟩ := lost_of_not_serial key hturns hall hserial
    exact hlost (h _ 0 delta (holds_zeroStore key))
  · intro hserial s v delta hs
    exact noLostUpdate_of_serial hturns hall hserial hs

end Connections

/-- Two connections that take turns one after the other lose nothing. -/
theorem incrBy_exact_in_turn :
    let turns : List (Fin 2 × Int64) := [(0, 0), (0, 0), (1, 0), (1, 0)]
    ∀ (s : Pebble) (v : Int64) (delta : Fin 2 → Int64), Holds s [107] 0 v →
      NoLostUpdate [107] 0 v delta (run Connections.turn (incrementing s [107] delta) turns) :=
  (incrBy_exact_iff [107] 0 [(0, 0), (0, 0), (1, 0), (1, 0)] (fun _ _ => .inl rfl)
    (by decide)).mpr (by decide)

/-- Two connections increment a key that holds zero. Both read it before either writes, both
reply one, and the key holds one. -/
theorem incrBy_loses_update :
    let turns : List (Fin 2 × Int64) := [(0, 0), (1, 0), (0, 0), (1, 0)]
    let c := run Connections.turn (incrementing (zeroStore [107] 0) [107] fun _ => 1) turns
    (c.others 0).result? = some (.int 1) ∧ (c.others 1).result? = some (.int 1) ∧
      c.state.db[rawKey .s [107]]? = some (encode typeString 0 (formatInt 1)) ∧
      ¬ NoLostUpdate [107] 0 0 (fun _ => 1) c := by
  refine ⟨by decide +kernel, by decide +kernel, by decide +kernel, fun h => ?_⟩
  obtain ⟨-, order, hperm, hsums⟩ := h (fun _ => 1) (by decide +kernel)
  have hpair : increments (fun _ : Fin 2 => (1 : Int64)) = pair 0 1 := by decide
  rw [hpair] at hsums
  have hne : (0 : Fin 2) ≠ 1 := by decide
  exact not_partialSums_pair hne rfl rfl
    (fun x => hperm.mem_iff.mpr (mem_finRange x)) hsums

end Gedis.Commands
