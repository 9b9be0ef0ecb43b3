import Gedis.Core.Runtime

/-!
# Metered computations

A computation ends with a value, an error or a panic. The size of its largest allocation is recorded,
and whether an addition of lengths has wrapped around. It is fine within a bound when it does not
panic, no length wraps around and it allocates no more than the bound at once. Whether a sequence or
a loop is fine is settled by its parts.
-/

namespace Gedis.Core

variable {n width maxAlloc size m count i : Nat} {hi : Int}

/-- What ends a computation early. -/
inductive Fault (ε : Type) where
  | failed (e : ε)
  | panicked (p : Panic)
  deriving DecidableEq, Repr

/-- The largest allocation, whether a length has wrapped around, and the result. -/
structure Meter (ε α : Type) where
  peak : Nat
  wrapped : Bool
  result : Except (Fault ε) α

namespace Meter

variable {ε α β σ : Type}

instance : Monad (Meter ε) where
  pure a := ⟨0, false, .ok a⟩
  bind x f :=
    match x.result with
    | .ok a => ⟨max x.peak (f a).peak, x.wrapped || (f a).wrapped, (f a).result⟩
    | .error e => ⟨x.peak, x.wrapped, .error e⟩

private theorem bind_assoc_meter {γ : Type} (x : Meter ε α) (f : α → Meter ε β) (g : β → Meter ε γ) :
    x >>= f >>= g = x >>= fun a => f a >>= g := by
  obtain ⟨peak, wrapped, e | a⟩ := x
  · rfl
  · rcases hf : f a with ⟨peak', wrapped', e | b⟩
    · simp [bind, hf]
    · simp [bind, hf, Nat.max_assoc, Bool.or_assoc]

instance : LawfulMonad (Meter ε) := LawfulMonad.mk' _
  (fun x => by
    obtain ⟨peak, wrapped, _ | _⟩ := x
    · rfl
    · simp [Functor.map])
  (fun a f => by simp [bind, pure])
  bind_assoc_meter

/-- Return an error. -/
def fail (e : ε) : Meter ε α := ⟨0, false, .error (.failed e)⟩

def panic (p : Panic) : Meter ε α := ⟨0, false, .error (.panicked p)⟩

/-- Allocate a number of bytes. -/
def alloc (size : Nat) : Meter ε Unit := ⟨size, false, .ok ()⟩

/-- The sum of two lengths in 64 bits. -/
def addLength (m n : Nat) : Meter ε Nat := ⟨0, 2 ^ 64 ≤ m + n, .ok ((m + n) % 2 ^ 64)⟩

/-- Allocate a slice for `n` elements of a width. More than the run-time system can allocate is a
panic. -/
def makeSlice (maxAlloc width n : Nat) : Meter ε Unit :=
  if maxAlloc < n * width then panic .makeSlice else alloc (n * width)

/-- Allocate a map with room for `n` entries of a width. A hint beyond what can be allocated is
ignored. -/
def makeMap (maxAlloc width n : Nat) : Meter ε Unit :=
  if maxAlloc < n * width then pure () else alloc (n * width)

/-- Room for one more element behind `count` elements of a width in a slice or a map, which at most
doubles what it has. -/
def grow (width count : Nat) : Meter ε Unit := alloc (2 * width * (count + 1))

/-- The elements from position `lo` up to position `hi`. -/
def slice (lo hi : Int) (b : Bytes) : Meter ε Bytes :=
  if 0 ≤ lo ∧ lo ≤ hi ∧ hi ≤ b.length then pure ((b.drop lo.toNat).take (hi - lo).toNat)
  else panic .sliceBounds

/-- The body for `i`, `i + 1` and so on, `n` times. -/
def loop (body : Nat → σ → Meter ε σ) : Nat → Nat → σ → Meter ε σ
  | _, 0, s => pure s
  | i, n + 1, s => body i s >>= loop body (i + 1) n

variable {a : α} {x : Meter ε α} {body : Nat → σ → Meter ε σ}

@[simp] theorem result_pure : (pure a : Meter ε α).result = .ok a := rfl

@[simp] theorem result_fail {e : ε} : (fail e : Meter ε α).result = .error (.failed e) := rfl

@[simp] theorem result_panic {p : Panic} : (panic p : Meter ε α).result = .error (.panicked p) :=
  rfl

@[simp] theorem result_alloc : (alloc size : Meter ε Unit).result = .ok () := rfl

@[simp] theorem result_addLength :
    (addLength m n : Meter ε Nat).result = .ok ((m + n) % 2 ^ 64) := rfl

@[simp] theorem result_grow : (grow width count : Meter ε Unit).result = .ok () :=
  rfl

@[simp] theorem result_makeMap : (makeMap maxAlloc width n : Meter ε Unit).result = .ok () := by
  rw [makeMap]
  split <;> rfl

theorem result_bind_ok (h : x.result = .ok a) {f : α → Meter ε β} :
    (x >>= f).result = (f a).result := by
  simp [bind, h]

theorem result_bind_error {e : Fault ε} (h : x.result = .error e)
    {f : α → Meter ε β} : (x >>= f).result = .error e := by
  simp [bind, h]

/-- A sequence with a value has a value in between. -/
theorem exists_of_result_bind {f : α → Meter ε β} {b : β}
    (h : (x >>= f).result = .ok b) : ∃ a, x.result = .ok a ∧ (f a).result = .ok b := by
  cases hx : x.result with
  | ok a => exact ⟨a, rfl, (result_bind_ok hx).symm.trans h⟩
  | error =>
    rw [result_bind_error hx] at h
    cases h

/-- A piece is cut out from between two others. -/
theorem slice_between (x y z : Bytes) {lo : Int} (hlo : lo = x.length)
    (hhi : hi = x.length + y.length) : (slice lo hi (x ++ (y ++ z)) : Meter ε Bytes) = pure y := by
  have hlen : (hi - lo).toNat = y.length := by omega
  rw [slice, if_pos (by simp; omega), hlen, hlo, Int.toNat_natCast, List.drop_left, List.take_left]

theorem slice_front {x y : Bytes} (hhi : hi = x.length) :
    (slice 0 hi (x ++ y) : Meter ε Bytes) = pure x := by
  have hzero : (0 : Int) = ([] : Bytes).length := rfl
  have hx := slice_between (ε := ε) [] x y hzero (by simpa using hhi)
  rwa [List.nil_append] at hx

theorem slice_behind {x y : Bytes} {lo : Int} (hlo : lo = x.length) (hhi : hi = (x ++ y).length) :
    (slice lo hi (x ++ y) : Meter ε Bytes) = pure y := by
  have hy := slice_between (ε := ε) x y [] hlo (by simpa using hhi)
  rwa [List.append_nil] at hy

/-- No panic, no length that wraps around, and no allocation beyond the bound. -/
structure Fine (bound : Nat) (x : Meter ε α) : Prop where
  peak : x.peak ≤ bound
  wrapped : x.wrapped = false
  result : ∀ p, x.result ≠ .error (.panicked p)

variable {bound : Nat}

@[simp] theorem fine_pure : (pure a : Meter ε α).Fine bound :=
  ⟨Nat.zero_le _, rfl, fun _ => nofun⟩

@[simp] theorem fine_fail {e : ε} : (fail e : Meter ε α).Fine bound :=
  ⟨Nat.zero_le _, rfl, fun _ => nofun⟩

@[simp] theorem not_fine_panic {p : Panic} : ¬ (panic p : Meter ε α).Fine bound :=
  fun h => h.result p rfl

@[simp] theorem fine_alloc : (alloc size : Meter ε Unit).Fine bound ↔ size ≤ bound :=
  ⟨fun h => h.peak, fun h => ⟨h, rfl, fun _ => nofun⟩⟩

@[simp] theorem fine_addLength : (addLength m n : Meter ε Nat).Fine bound ↔ m + n < 2 ^ 64 := by
  constructor
  · intro h
    have hle : ¬ 2 ^ 64 ≤ m + n := of_decide_eq_false h.wrapped
    omega
  · intro h
    exact ⟨Nat.zero_le _, decide_eq_false (by omega), fun _ => nofun⟩

theorem Fine.mono {bound' : Nat} (h : x.Fine bound) (hle : bound ≤ bound') : x.Fine bound' :=
  { h with peak := le_trans h.peak hle }

@[simp] theorem fine_grow :
    (grow width count : Meter ε Unit).Fine bound ↔ 2 * width * (count + 1) ≤ bound := fine_alloc

theorem fine_makeSlice : (makeSlice maxAlloc width n : Meter ε Unit).Fine bound ↔
      n * width ≤ maxAlloc ∧ n * width ≤ bound := by
  rw [makeSlice]
  split
  · next h => exact ⟨fun hp => absurd hp not_fine_panic, fun hle => absurd hle.1 (by omega)⟩
  · next h => rw [fine_alloc]; omega

theorem fine_makeMap : (makeMap maxAlloc width n : Meter ε Unit).Fine bound ↔
      n * width ≤ maxAlloc → n * width ≤ bound := by
  rw [makeMap]
  split
  · next h => exact ⟨fun _ hle => absurd hle (by omega), fun _ => fine_pure⟩
  · next h => rw [fine_alloc]; omega

/-- A sequence is fine when its first part is, and so is what follows a value of that. -/
theorem fine_bind {f : α → Meter ε β} :
    (x >>= f).Fine bound ↔ x.Fine bound ∧ ∀ a, x.result = .ok a → (f a).Fine bound := by
  cases hx : x.result with
  | ok a =>
    have hbind : x >>= f = ⟨max x.peak (f a).peak, x.wrapped || (f a).wrapped, (f a).result⟩ := by
      simp [bind, hx]
    rw [hbind]
    constructor
    · intro h
      have hpeak := Nat.max_le.mp h.peak
      have hwrapped := Bool.or_eq_false_iff.mp h.wrapped
      refine ⟨⟨hpeak.1, hwrapped.1, fun p hp => ?_⟩, ?_⟩
      · rw [hx] at hp
        cases hp
      · rintro _ ⟨⟩
        exact ⟨hpeak.2, hwrapped.2, h.result⟩
    · rintro ⟨hfirst, hrest⟩
      have hsecond := hrest a rfl
      exact ⟨Nat.max_le.mpr ⟨hfirst.peak, hsecond.peak⟩,
        Bool.or_eq_false_iff.mpr ⟨hfirst.wrapped, hsecond.wrapped⟩, hsecond.result⟩
  | error e =>
    have hbind : x >>= f = ⟨x.peak, x.wrapped, .error e⟩ := by simp [bind, hx]
    rw [hbind]
    constructor
    · intro h
      refine ⟨⟨h.peak, h.wrapped, fun p hp => h.result p ?_⟩, fun a ha => nomatch ha⟩
      rw [hx] at hp
      cases hp
      rfl
    · rintro ⟨h, -⟩
      refine ⟨h.peak, h.wrapped, fun p hp => h.result p ?_⟩
      cases hp
      exact hx

theorem fine_bind_of_ok (hx : x.result = .ok a) {f : α → Meter ε β} :
    (x >>= f).Fine bound ↔ x.Fine bound ∧ (f a).Fine bound := by
  rw [fine_bind, hx]
  exact and_congr_right fun _ => ⟨fun h => h a rfl, fun h _ ha => by cases ha; exact h⟩

section
variable {f : Unit → Meter ε β}

theorem fine_alloc_bind : (alloc size >>= f).Fine bound ↔ size ≤ bound ∧ (f ()).Fine bound := by
  rw [fine_bind_of_ok result_alloc, fine_alloc]

theorem fine_grow_bind : (grow width count >>= f).Fine bound ↔
      2 * width * (count + 1) ≤ bound ∧ (f ()).Fine bound := by
  rw [fine_bind_of_ok result_grow, fine_grow]

theorem fine_makeMap_bind : (makeMap maxAlloc width n >>= f).Fine bound ↔
      (n * width ≤ maxAlloc → n * width ≤ bound) ∧ (f ()).Fine bound := by
  rw [fine_bind_of_ok result_makeMap, fine_makeMap]

theorem fine_makeSlice_bind : (makeSlice maxAlloc width n >>= f).Fine bound ↔
      (n * width ≤ maxAlloc ∧ n * width ≤ bound) ∧ (f ()).Fine bound := by
  rw [fine_bind, fine_makeSlice]
  refine and_congr_right fun hle => ?_
  have hok : (makeSlice maxAlloc width n : Meter ε Unit).result = .ok () := by
    rw [makeSlice, if_neg (by omega), result_alloc]
  exact ⟨fun h => h () hok, fun h _ _ => h⟩

theorem fine_addLength_bind {g : Nat → Meter ε β} :
    (addLength m n >>= g).Fine bound ↔ m + n < 2 ^ 64 ∧ (g ((m + n) % 2 ^ 64)).Fine bound := by
  rw [fine_bind_of_ok result_addLength, fine_addLength]

end

theorem loop_succ {s : σ} : loop body i (n + 1) s = body i s >>= loop body (i + 1) n := rfl

/-- A loop is fine when its body is fine wherever the loop comes to it. -/
theorem fine_loop {s : σ} : (loop body i n s).Fine bound ↔
      ∀ k < n, ∀ t, (loop body i k s).result = .ok t → (body (i + k) t).Fine bound := by
  induction n generalizing i s with
  | zero => exact ⟨fun _ k hk => absurd hk (Nat.not_lt_zero k), fun _ => fine_pure⟩
  | succ n ih =>
    rw [loop_succ, fine_bind]
    constructor
    · rintro ⟨hfirst, hrest⟩ k hk t ht
      cases k with
      | zero =>
        cases ht
        exact hfirst
      | succ k =>
        obtain ⟨a, ha, ht⟩ := exists_of_result_bind ht
        have hbody := ih.mp (hrest a ha) k (Nat.lt_of_succ_lt_succ hk) t ht
        rwa [add_right_comm] at hbody
    · intro h
      refine ⟨h 0 (Nat.succ_pos n) s rfl, fun a ha => ih.mpr fun k hk t ht => ?_⟩
      have hbody := h (k + 1) (Nat.succ_lt_succ hk) t (by
        rw [loop_succ, result_bind_ok ha, ht])
      rwa [← add_assoc, add_right_comm] at hbody

theorem fine_loop_of_le {k : Nat} {s : σ} (hk : k ≤ n)
    (h : (loop body i n s).Fine bound) : (loop body i k s).Fine bound :=
  fine_loop.mpr fun j hj => fine_loop.mp h j (lt_of_lt_of_le hj hk)

/-- An invariant of the body holds after the loop. -/
theorem loop_invariant (inv : Nat → σ → Prop)
    (hbody : ∀ i s t, inv i s → (body i s).result = .ok t → inv (i + 1) t) {s t : σ} (hs : inv i s)
    (ht : (loop body i n s).result = .ok t) : inv (i + n) t := by
  induction n generalizing i s with
  | zero =>
    cases ht
    exact hs
  | succ n ih =>
    obtain ⟨a, ha, ht⟩ := exists_of_result_bind ht
    have hinv := ih (hbody i s a hs ha) ht
    rwa [add_right_comm] at hinv

/-- A loop that has something to read for each element of a list. -/
theorem result_loop_flatMap {γ : Type} {body : Nat → β × Bytes → Meter ε (β × Bytes)}
    {enc : γ → Bytes} {add : β → γ → β} {P : γ → Prop} (Q : β → Prop)
    (hbody : ∀ i acc x rest, Q acc → P x →
      (body i (acc, enc x ++ rest)).result = .ok (add acc x, rest) ∧ Q (add acc x))
    {xs : List γ} (hxs : ∀ x ∈ xs, P x) (i : Nat) (acc : β) (hacc : Q acc) (rest : Bytes) :
    (loop body i xs.length (acc, xs.flatMap enc ++ rest)).result =
      .ok (xs.foldl add acc, rest) := by
  induction xs generalizing i acc with
  | nil => rfl
  | cons x xs ih =>
    obtain ⟨hok, hq⟩ := hbody i acc x (xs.flatMap enc ++ rest) hacc (hxs x (List.mem_cons_self ..))
    rw [List.length_cons, loop_succ, List.flatMap_cons, List.append_assoc, result_bind_ok hok]
    exact ih (fun y hy => hxs y (List.mem_cons_of_mem _ hy)) (i + 1) _ hq

end Meter

end Gedis.Core
