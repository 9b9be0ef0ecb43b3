import Mathlib.Algebra.BigOperators.Fin
import Mathlib.Algebra.Order.BigOperators.Group.List
import Mathlib.Logic.Function.Basic
import Mathlib.Tactic.Common
import Gedis.Core.Run

/-!
# Adding to a shared number in several turns

Clients add to a number that they share. Each one reads the number, waits for some turns, and
writes the sum of what it read and its own increment. No increment is lost when nobody writes
while another client stands between its read and its write; otherwise there are increments for
which two clients return the same sum.
-/

namespace Gedis.Core

open List

/-- How far a client has come. -/
inductive Phase where
  | idle
  /-- The number was read; some turns pass before the write. -/
  | read (seen : Int) (wait : Nat)
  | wrote (result : Int)
  deriving DecidableEq, Repr

/-- One for a client that has written. -/
def Phase.done : Phase → Int
  | .wrote _ => 1
  | .idle | .read .. => 0

/-- A number and its clients. -/
structure Shared (ι : Type) where
  value : Int
  phase : ι → Phase

namespace Shared

variable {ι : Type} [DecidableEq ι] (wait : Nat) (d : ι → Int)

/-- No client has started. -/
def start (v : Int) : Shared ι := ⟨v, fun _ => .idle⟩

/-- A client moves on. -/
def move (c : Shared ι) (i : ι) (p : Phase) : Shared ι :=
  { c with phase := fun j => if j = i then p else c.phase j }

variable {p : Phase} {turns : List ι} {x : ι} {seen : Int}

@[simp] theorem value_move {c : Shared ι} {i : ι} : (c.move i p).value = c.value := rfl

@[simp] theorem phase_move_self {c : Shared ι} {i : ι} : (c.move i p).phase i = p := if_pos rfl

theorem phase_move_of_ne {c : Shared ι} {i j : ι} (h : j ≠ i) :
    (c.move i p).phase j = c.phase j := if_neg h

/-- A turn of one client. -/
def step (c : Shared ι) (i : ι) : Shared ι :=
  match c.phase i with
  | .idle => c.move i (.read c.value wait)
  | .read seen (m + 1) => c.move i (.read seen m)
  | .read seen 0 => { c with value := seen + d i }.move i (.wrote (seen + d i))
  | .wrote _ => c

/-- A client that is about to write is the only one between its read and its write. -/
def Alone (c : Shared ι) (i : ι) : Prop :=
  ∀ seen, c.phase i = .read seen 0 → ∀ j, j ≠ i → ∀ w m, c.phase j ≠ .read w m

/-- The clients of a list have written in that order, and everyone else who has read has read the
current number. -/
structure Ordered (v : Int) (c : Shared ι) (order : List ι) : Prop where
  nodup : order.Nodup
  value_eq : c.value = v + (order.map d).sum
  wrote : ∀ before i after, order = before ++ i :: after →
    c.phase i = .wrote (v + ((before ++ [i]).map d).sum)
  others : ∀ i, i ∉ order → c.phase i = .idle ∨ ∃ m, c.phase i = .read c.value m

variable {wait d} {v : Int} {c : Shared ι} {order : List ι}

omit [DecidableEq ι] in
theorem ordered_start : Ordered d v (start v : Shared ι) [] where
  nodup := nodup_nil
  value_eq := by simp [start]
  wrote before i after h := by simp at h
  others i _ := .inl rfl

omit [DecidableEq ι] in
theorem Ordered.wrote_of_mem (h : Ordered d v c order) {i : ι} (hi : i ∈ order) :
    ∃ r, c.phase i = .wrote r := by
  obtain ⟨before, after, rfl⟩ := append_of_mem hi
  exact ⟨_, h.wrote before i after rfl⟩

private theorem Ordered.move (h : Ordered d v c order) {i : ι} (hi : i ∉ order) (m : Nat) :
    Ordered d v (c.move i (.read c.value m)) order where
  nodup := h.nodup
  value_eq := h.value_eq
  wrote before j after hj := by
    have hne : j ≠ i := fun he => hi (by rw [hj, ← he]; simp)
    rw [phase_move_of_ne hne]
    exact h.wrote before j after hj
  others j hj := by
    by_cases hne : j = i
    · exact .inr ⟨m, by rw [hne, phase_move_self, value_move]⟩
    · rw [phase_move_of_ne hne]
      exact h.others j hj

private theorem Ordered.write (h : Ordered d v c order) {i : ι} (hi : i ∉ order)
    (halone : ∀ j, j ≠ i → ∀ w m, c.phase j ≠ .read w m) :
    Ordered d v ({ c with value := c.value + d i }.move i (.wrote (c.value + d i)))
      (order ++ [i]) where
  nodup := nodup_append.mpr ⟨h.nodup, nodup_singleton i, by
    rintro a ha b hb rfl
    exact hi (mem_singleton.mp hb ▸ ha)⟩
  value_eq := by simp [h.value_eq, add_assoc]
  wrote before j after hj := by
    rcases eq_nil_or_concat after with rfl | ⟨after, x, rfl⟩
    · obtain ⟨rfl, hij⟩ := append_inj' hj rfl
      obtain rfl : i = j := by simpa using hij
      rw [h.value_eq]
      simp [add_assoc]
    · have hsplit : order ++ [i] = (before ++ j :: after) ++ [x] := by simpa using hj
      obtain ⟨horder, -⟩ := append_inj' hsplit rfl
      have hne : j ≠ i := fun he => hi (by rw [horder, ← he]; simp)
      rw [phase_move_of_ne hne]
      exact h.wrote before j after horder
  others j hj := by
    have hne : j ≠ i := fun he => hj (by simp [he])
    have hnot : j ∉ order := fun hmem => hj (by simp [hmem])
    refine .inl ?_
    rw [phase_move_of_ne hne]
    obtain hidle | ⟨m, hm⟩ := h.others j hnot
    · exact hidle
    · exact absurd hm (halone j hne _ _)

/-- A turn keeps the order, and a write made alone extends it. -/
theorem Ordered.step (h : Ordered d v c order) {i : ι} (ha : c.Alone i) :
    ∃ order', Ordered d v (c.step wait d i) order' := by
  by_cases hi : i ∈ order
  · obtain ⟨r, hr⟩ := h.wrote_of_mem hi
    exact ⟨order, by simpa [Shared.step, hr] using h⟩
  obtain hidle | ⟨m, hread⟩ := h.others i hi
  · exact ⟨order, by simpa [Shared.step, hidle] using h.move hi wait⟩
  cases m with
  | succ m => exact ⟨order, by simpa [Shared.step, hread] using h.move hi m⟩
  | zero =>
    exact ⟨order ++ [i], by
      simpa [Shared.step, hread] using h.write hi (ha _ hread)⟩

/-- Clients that write alone write in some order. -/
theorem ordered_run (h : Along (step wait d) Alone (start v) turns) :
    ∃ order, Ordered d v (run (step wait d) (start v) turns) order := by
  refine run_induction (I := fun c => ∃ order, Ordered d v c order) ?_ ⟨[], ordered_start⟩ h
  rintro c i ⟨order, ho⟩ ha
  exact ho.step ha

/-- One more turn of a client. -/
def bump (count : ι → Nat) (i : ι) : ι → Nat := fun j => if j = i then count j + 1 else count j

/-- A client whose turn completes its `k` turns finds everyone else before their first turn or
after their last. -/
def Apart (k : Nat) (count : ι → Nat) (i : ι) : Prop :=
  count i + 1 = k → ∀ j, j ≠ i → count j = 0 ∨ k ≤ count j

instance {n : Nat} (k : Nat) (count : Fin n → Nat) (i : Fin n) : Decidable (Apart k count i) :=
  inferInstanceAs (Decidable (count i + 1 = k → ∀ j, j ≠ i → count j = 0 ∨ k ≤ count j))

/-- No client completes its `k` turns while another one has begun and not completed its own. -/
def Serial (k : Nat) (turns : List ι) : Prop := Along bump (Apart k) (fun _ => 0) turns

instance {n : Nat} (k : Nat) (turns : List (Fin n)) : Decidable (Serial k turns) :=
  inferInstanceAs (Decidable (Along bump (Apart k) (fun _ => 0) turns))

theorem run_bump {count : ι → Nat} {i : ι} : run bump count turns i = count i + turns.count i := by
  induction turns generalizing count with
  | nil => rfl
  | cons j turns ih =>
    rw [run_cons, ih, count_cons, bump]
    by_cases h : i = j
    · simp only [h, beq_self_eq_true, ite_true]
      omega
    · have hji : (j == i) = false := by simpa using Ne.symm h
      simp [h, hji]

/-- The phase of a client after a number of turns. -/
def Turned (wait count : Nat) : Phase → Prop
  | .idle => count = 0
  | .read _ m => 0 < count ∧ count + m = wait + 1
  | .wrote _ => wait + 2 ≤ count

/-- Every client is in the phase that its number of turns says. -/
def Counted (wait : Nat) (c : Shared ι) (count : ι → Nat) : Prop :=
  ∀ i, Turned wait (count i) (c.phase i)

variable {count : ι → Nat}

private theorem Counted.move (h : Counted wait c count) {i : ι} {value : Int}
    (hp : Turned wait (count i + 1) p) :
    Counted wait ({ c with value := value }.move i p) (bump count i) := by
  intro j
  by_cases hj : j = i
  · subst hj
    simpa [bump] using hp
  · simpa [phase_move_of_ne hj, bump, hj, ite_false] using h j

theorem Counted.step (h : Counted wait c count) {i : ι} :
    Counted wait (c.step wait d i) (bump count i) := by
  have hi := h i
  cases hp : c.phase i with
  | idle =>
    simp only [hp, Turned] at hi
    simp only [Shared.step, hp]
    exact h.move (by simp [Turned]; omega)
  | read seen m =>
    simp only [hp, Turned] at hi
    cases m with
    | zero | succ m =>
      simp only [Shared.step, hp]
      exact h.move (by simp [Turned]; omega)
  | wrote =>
    intro j
    simp only [Shared.step, hp, bump]
    by_cases hj : j = i
    · subst hj
      simp only [hp, Turned, ite_true] at hi ⊢
      omega
    · simpa [hj] using h j

variable (wait d v) in
theorem counted_run (turns : List ι) :
    Counted wait (run (Shared.step wait d) (start v) turns) (run bump (fun _ => 0) turns) := by
  induction turns using reverseRecOn with
  | nil => exact fun i => rfl
  | append_singleton turns i ih =>
    rw [run_concat, run_concat]
    exact ih.step

variable (d v) in
/-- A client that had all its turns has written. -/
theorem wrote_of_count {i : ι} (h : wait + 2 ≤ turns.count i) :
    ∃ r, (run (Shared.step wait d) (start v) turns).phase i = .wrote r := by
  have hi := counted_run wait d v turns i
  rw [run_bump] at hi
  cases hp : (run (Shared.step wait d) (start v) turns).phase i with
  | idle | read seen m =>
    simp only [hp, Turned] at hi
    omega
  | wrote r => exact ⟨r, rfl⟩

omit [DecidableEq ι] in
/-- A client that has begun and not completed its turns stands between its read and its
write. -/
theorem Counted.read_of_open (h : Counted wait c count) {i : ι} (hpos : 0 < count i)
    (hlt : count i < wait + 2) : ∃ seen m, c.phase i = .read seen m ∧ count i + m = wait + 1 := by
  have hi := h i
  cases hp : c.phase i with
  | idle =>
    simp only [hp, Turned] at hi
    omega
  | read seen m =>
    simp only [hp, Turned] at hi
    exact ⟨seen, m, rfl, hi.2⟩
  | wrote =>
    simp only [hp, Turned] at hi
    omega

omit [DecidableEq ι] in
private theorem Counted.alone (h : Counted wait c count) {i : ι} (ha : Apart (wait + 2) count i) :
    c.Alone i := by
  intro seen hi j hj w m hm
  have hci := h i
  have hcj := h j
  simp only [hi, Turned] at hci
  simp only [hm, Turned] at hcj
  have := ha (by omega) j hj
  omega

private theorem along_alone (h : Counted wait c count)
    (hs : Along bump (Apart (wait + 2)) count turns) : Along (step wait d) Alone c turns := by
  induction turns generalizing c count with
  | nil => trivial
  | cons i turns ih => exact ⟨h.alone hs.1, ih h.step hs.2⟩

/-- In a serial schedule in which everyone has all their turns no increment is lost: the clients
have written in some order, each the sum of the increments up to its own. -/
theorem ordered_of_serial (hs : Serial (wait + 2) turns) (hall : ∀ i, wait + 2 ≤ turns.count i) :
    ∃ order, Ordered d v (run (step wait d) (start v) turns) order ∧ ∀ i, i ∈ order := by
  have hstart : Counted wait (start v : Shared ι) fun _ => 0 := fun i => rfl
  obtain ⟨order, ho⟩ := ordered_run (along_alone hstart hs)
  refine ⟨order, ho, fun i => ?_⟩
  by_contra hi
  obtain ⟨r, hr⟩ := wrote_of_count d v (hall i)
  obtain hidle | ⟨m, hread⟩ := ho.others i hi
  · rw [hidle] at hr
    cases hr
  · rw [hread] at hr
    cases hr

/-- Two clients add one, everyone else adds nothing. -/
def pair (i j : ι) : ι → Int := fun x => if x = i ∨ x = j then 1 else 0

/-- How many of two clients have written. -/
def doneOf (i j : ι) (c : Shared ι) : Int := (c.phase i).done + (c.phase j).done

/-- The number, and whatever a client has read of it, counts at most the writes of the two. -/
structure Within (i j : ι) (c : Shared ι) : Prop where
  value_nonneg : 0 ≤ c.value
  value_le : c.value ≤ doneOf i j c
  seen_nonneg : ∀ x seen m, c.phase x = .read seen m → 0 ≤ seen
  seen_le : ∀ x seen m, c.phase x = .read seen m → seen ≤ doneOf i j c

variable {i j : ι}

omit [DecidableEq ι] in
theorem within_start : Within i j (start 0 : Shared ι) :=
  ⟨le_rfl, le_rfl, fun x seen m h => by simp [start] at h, fun x seen m h => by simp [start] at h⟩

private theorem doneOf_move (hij : i ≠ j) (hx : (c.phase x).done = 0) (p : Phase)
    (value : Int) : doneOf i j ({ c with value := value }.move x p) =
      doneOf i j c + if x = i ∨ x = j then p.done else 0 := by
  unfold doneOf
  by_cases hi : x = i
  · subst hi
    rw [phase_move_of_ne hij.symm, hx]
    simp [add_comm]
  by_cases hj : x = j
  · subst hj
    rw [phase_move_of_ne hij, hx]
    simp
  rw [phase_move_of_ne (Ne.symm hi), phase_move_of_ne (Ne.symm hj),
    if_neg (not_or.mpr ⟨hi, hj⟩), add_zero]

private theorem Within.move_read (h : Within i j c) (hij : i ≠ j)
    (hx : (c.phase x).done = 0) (hnonneg : 0 ≤ seen) (hle : seen ≤ doneOf i j c)
    (m : Nat) : Within i j (c.move x (.read seen m)) := by
  have hdone : doneOf i j (c.move x (.read seen m)) = doneOf i j c := by
    simpa [Phase.done] using doneOf_move hij hx (.read seen m) c.value
  refine ⟨h.value_nonneg, hdone ▸ h.value_le, ?_, ?_⟩
  all_goals
    intro y w n hy
    by_cases hyx : y = x
    · subst hyx
      simp only [phase_move_self, Phase.read.injEq] at hy
      omega
    · rw [phase_move_of_ne hyx] at hy
      have := h.seen_nonneg y w n hy
      have := h.seen_le y w n hy
      omega

private theorem Within.write (h : Within i j c) (hij : i ≠ j) (hx : c.phase x = .read seen 0) :
    Within i j ({ c with value := seen + pair i j x }.move x (.wrote (seen + pair i j x))) := by
  have hnonneg := h.seen_nonneg x seen 0 hx
  have hle := h.seen_le x seen 0 hx
  have hdone := doneOf_move hij (by rw [hx]; rfl) (.wrote (seen + pair i j x)) (seen + pair i j x)
  have hpair : (if x = i ∨ x = j then (Phase.wrote (seen + pair i j x)).done else 0) =
      pair i j x := rfl
  have hone : 0 ≤ pair i j x := by
    unfold pair
    split <;> decide
  refine ⟨?_, ?_, ?_, ?_⟩
  · simp only [value_move]
    omega
  · simp only [value_move]
    omega
  all_goals
    intro y w n hy
    have hyx : y ≠ x := by
      rintro rfl
      rw [phase_move_self] at hy
      cases hy
    rw [phase_move_of_ne hyx] at hy
    have := h.seen_nonneg y w n hy
    have := h.seen_le y w n hy
    omega

theorem Within.step (h : Within i j c) (hij : i ≠ j) : Within i j (c.step wait (pair i j) x) := by
  cases hx : c.phase x with
  | idle =>
    simp only [Shared.step, hx]
    exact h.move_read hij (by rw [hx]; rfl) h.value_nonneg h.value_le wait
  | read seen m =>
    have hnonneg := h.seen_nonneg x seen m hx
    have hle := h.seen_le x seen m hx
    cases m with
    | zero =>
      simp only [Shared.step, hx]
      exact h.write hij hx
    | succ m =>
      simp only [Shared.step, hx]
      exact h.move_read hij (by rw [hx]; rfl) hnonneg hle m
  | wrote => simpa [Shared.step, hx] using h

variable (wait) in
theorem within_run (hij : i ≠ j) (turns : List ι) :
    Within i j (run (step wait (pair i j)) (start 0) turns) :=
  run_invariant (fun _ x h => h.step hij) within_start turns

omit [DecidableEq ι] in
/-- No more than two can be read. -/
theorem Within.seen_le_two (h : Within i j c) {m : Nat}
    (hx : c.phase x = .read seen m) : seen ≤ 2 := by
  have hle := h.seen_le x seen m hx
  have hone : ∀ p : Phase, p.done ≤ 1 := fun p => by cases p <;> simp [Phase.done]
  have hi := hone (c.phase i)
  have hj := hone (c.phase j)
  unfold doneOf at hle
  omega

/-- Two clients started from zero, and the first has written its sum. -/
def Overlapped (i j : ι) (c : Shared ι) : Prop :=
  c.phase i = .wrote 1 ∧ (c.phase j = .wrote 1 ∨ ∃ m, c.phase j = .read 0 m)

theorem Overlapped.step (h : Overlapped i j c) (hij : i ≠ j) :
    Overlapped i j (c.step wait (pair i j) x) := by
  obtain ⟨hi, hj⟩ := h
  by_cases hxi : x = i
  · subst hxi
    simp only [Shared.step, hi]
    exact ⟨hi, hj⟩
  by_cases hxj : x = j
  · subst hxj
    have hpair : (0 : Int) + pair i x x = 1 := by simp [pair]
    obtain hwrote | ⟨m, hread⟩ := hj
    · exact ⟨by simpa [Shared.step, hwrote] using hi, .inl (by simp [Shared.step, hwrote])⟩
    · cases m with
      | zero =>
        refine ⟨?_, .inl ?_⟩
        · simpa [Shared.step, hread, phase_move_of_ne hij] using hi
        · simp [Shared.step, hread, phase_move_self, hpair]
      | succ m =>
        refine ⟨?_, .inr ⟨m, ?_⟩⟩
        · simpa [Shared.step, hread, phase_move_of_ne hij] using hi
        · simp [Shared.step, hread]
  · have hkeep : ∀ y, y ≠ x → (c.step wait (pair i j) x).phase y = c.phase y := by
      intro y hy
      unfold Shared.step
      split <;> first | rfl | exact phase_move_of_ne hy
    rw [Overlapped, hkeep i (Ne.symm hxi), hkeep j (Ne.symm hxj)]
    exact ⟨hi, hj⟩

/-- In a schedule that is not serial, two clients can return the same sum of one from zero. -/
theorem overlapped_of_not_serial (h : ¬ Serial (wait + 2) turns) :
    ∃ i j, i ≠ j ∧ Overlapped i j (run (step wait (pair i j)) (start 0) turns) := by
  obtain ⟨before, i, after, rfl, hnot⟩ := exists_of_not_along h
  simp only [Apart, Classical.not_imp, not_forall, not_or] at hnot
  obtain ⟨hlast, j, hji, hbegun, hopen⟩ := hnot
  refine ⟨i, j, Ne.symm hji, ?_⟩
  have hcount := counted_run wait (pair i j) 0 before
  have hwithin := within_run wait (Ne.symm hji) before
  obtain ⟨seen, m, hi, hm⟩ := hcount.read_of_open (i := i) (by omega) (by omega)
  obtain ⟨seen', m', hj, -⟩ := hcount.read_of_open (i := j) (by omega) (by omega)
  obtain rfl : m = 0 := by omega
  -- neither of the two has written, so both have read zero
  have hdone : doneOf i j (run (step wait (pair i j)) (start 0) before) = 0 := by
    rw [doneOf, hi, hj]
    rfl
  obtain rfl : seen = 0 :=
    le_antisymm (hdone ▸ hwithin.seen_le i seen 0 hi) (hwithin.seen_nonneg i seen 0 hi)
  obtain rfl : seen' = 0 :=
    le_antisymm (hdone ▸ hwithin.seen_le j seen' m' hj) (hwithin.seen_nonneg j seen' m' hj)
  rw [run_append]
  refine run_invariant (fun _ x h => h.step (Ne.symm hji)) ⟨?_, .inr ⟨m', ?_⟩⟩ after
  · simp [step, hi, pair]
  · simpa [step, hi, phase_move_of_ne hji] using hj

/-- The results are the sums of the increments in the order of a list, up to each client's own. -/
def PartialSums (d : ι → Int) (v : Int) (order : List ι) (result : ι → Int) : Prop :=
  ∀ before i after, order = before ++ i :: after → result i = v + ((before ++ [i]).map d).sum

omit [DecidableEq ι] in
/-- A positive increment separates a later sum from the sums before it. -/
theorem PartialSums.lt {result : ι → Int} (h : PartialSums d v order result)
    (hd : ∀ x, 0 ≤ d x) (hj : 0 < d j) {before mid after : List ι}
    (he : order = before ++ i :: (mid ++ j :: after)) : result i < result j := by
  have hi := h before i (mid ++ j :: after) he
  have hsum := h (before ++ i :: mid) j after (by simp [he])
  have hmid : 0 ≤ (mid.map d).sum := by
    refine sum_nonneg fun y hy => ?_
    obtain ⟨x, -, rfl⟩ := mem_map.mp hy
    exact hd x
  simp only [map_append, map_cons, map_nil, sum_append, sum_cons,
    sum_nil] at hi hsum
  omega

/-- Two clients that add one do not both return one. -/
theorem not_partialSums_pair (hij : i ≠ j) {result : ι → Int} (hi : result i = 1)
    (hj : result j = 1) (hmem : ∀ x, x ∈ order) : ¬ PartialSums (pair i j) v order result := by
  intro h
  have hd : ∀ x, 0 ≤ pair i j x := fun x => by
    unfold pair
    split <;> decide
  obtain ⟨before, after, he⟩ := append_of_mem (hmem i)
  have hj' : j ∈ before ∨ j ∈ after := by
    have := hmem j
    rw [he] at this
    simpa [Ne.symm hij] using this
  rcases hj' with hbefore | hafter
  · obtain ⟨b, mid, rfl⟩ := append_of_mem hbefore
    have := h.lt (j := i) hd (by simp [pair]) (by simpa using he)
    omega
  · obtain ⟨mid, a, rfl⟩ := append_of_mem hafter
    have := h.lt hd (by simp [pair]) he
    omega

end Shared

end Gedis.Core
