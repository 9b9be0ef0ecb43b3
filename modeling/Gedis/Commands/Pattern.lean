import Gedis.Core.Bytes

/-!
# Glob patterns

`*` stands for any bytes, `?` for one byte, `[...]` for one byte of a class, and a backslash takes
the next byte literally. The matcher keeps the last star that it has passed and goes back to it when
a byte does not fit. It runs on a bounded number of steps, and accepts what the tokens of the pattern
describe.
-/

namespace Gedis.Commands

open List Gedis.Core

/-- The position of the closing bracket in a text that starts at position `i`; a backslash hides the
byte behind it. -/
def scanFrom (i : Nat) : Bytes → Option Nat
  | [] => none
  | 92 :: [] => none
  | 92 :: _ :: rest => scanFrom (i + 2) rest
  | b :: rest => if b = 93 then some i else scanFrom (i + 1) rest

/-- The end of the class that opens at position `pi`. A bracket right behind the opening one belongs
to the class. -/
def scanClassEnd (p : Bytes) (pi : Nat) : Option Nat :=
  match p.drop (pi + 1) with
  | 93 :: rest => scanFrom (pi + 2) rest
  | rest => scanFrom (pi + 1) rest

/-- A byte is in a list of bytes and ranges. -/
def inClass (c : UInt8) : Bytes → Bool
  | [] => false
  | [a] => a == c
  | [a, b] => if a = 92 then b == c else a == c || b == c
  | a :: b :: d :: rest =>
    if a = 92 then b == c || inClass c (d :: rest)
    else if b = 45 ∧ d ≠ 93 then (a ≤ c && c ≤ d) || inClass c rest
    else a == c || inClass c (b :: d :: rest)

/-- A byte belongs to a class; a caret in front negates it. -/
def classMatch (body : Bytes) (c : UInt8) : Bool :=
  match body with
  | 94 :: rest => !inClass c rest
  | _ => inClass c body

/-- The positions in the pattern and in the text, the last star and the position in the text up to
which it reaches. -/
structure Match where
  pi : Nat := 0
  si : Nat := 0
  star : Option Nat := none
  mark : Nat := 0
  deriving DecidableEq, Repr

/-- The byte at hand does not fit: the last star takes one more byte. -/
def Match.fail (m : Match) : Option Match :=
  m.star.map fun star => { m with mark := m.mark + 1, si := m.mark + 1, pi := star + 1 }

/-- The byte at hand fits: go on in the pattern at `pi`. -/
def Match.fit (m : Match) (pi : Nat) : Match := { m with pi, si := m.si + 1 }

/-- Compare the byte `c` of the text with the pattern. -/
def matchStep (p : Bytes) (c : UInt8) (m : Match) : Option Match :=
  match p[m.pi]? with
  | none => m.fail
  | some b =>
    if b = 42 then some { m with star := some m.pi, mark := m.si, pi := m.pi + 1 }
    else if b = 63 then some (m.fit (m.pi + 1))
    else if b = 92 ∧ m.pi + 1 < p.length then
      if p[m.pi + 1]? = some c then some (m.fit (m.pi + 2)) else m.fail
    else if b = 91 then
      match scanClassEnd p m.pi with
      | none => if b = c then some (m.fit (m.pi + 1)) else m.fail
      | some stop =>
        if classMatch ((p.take stop).drop (m.pi + 1)) c then some (m.fit (stop + 1)) else m.fail
    else if b = c then some (m.fit (m.pi + 1))
    else m.fail

/-- Match from some positions on, in at most `fuel` steps. At the end of the text only stars may be
left. -/
def matchLoop (p s : Bytes) : Nat → Match → Bool
  | 0, _ => false
  | fuel + 1, m =>
    match s[m.si]? with
    | none => (p.drop m.pi).all (· == 42)
    | some c =>
      match matchStep p c m with
      | none => false
      | some m' => matchLoop p s fuel m'

/-- The text matches the pattern. -/
def matchPattern (p s : Bytes) : Bool := matchLoop p s ((s.length + 1) * (p.length + 2)) {}

/-- Any bytes, or one byte of some kind. -/
inductive Token where
  | star
  | one (accepts : UInt8 → Bool)

/-- The token at a position, and the position behind it. -/
def tokenAt (p : Bytes) (pi : Nat) : Option (Token × Nat) :=
  p[pi]?.map fun b =>
    if b = 42 then (.star, pi + 1)
    else if b = 63 then (.one fun _ => true, pi + 1)
    else if b = 92 ∧ pi + 1 < p.length then (.one fun c => p[pi + 1]? = some c, pi + 2)
    else if b = 91 then
      match scanClassEnd p pi with
      | none => (.one fun c => b = c, pi + 1)
      | some stop => (.one (classMatch ((p.take stop).drop (pi + 1))), stop + 1)
    else (.one fun c => b = c, pi + 1)

theorem le_of_scanFrom {i stop : Nat} {t : Bytes} (h : scanFrom i t = some stop) : i ≤ stop := by
  fun_induction scanFrom i t with
  | case1 => cases h
  | case2 => cases h
  | case3 i b rest ih => exact Nat.le_of_add_right_le (ih h)
  | case4 i rest => exact (Option.some.inj h).le
  | case5 i b rest hne hb hb' ih => exact Nat.le_of_succ_le (ih h)

theorem lt_of_scanClassEnd {p : Bytes} {pi stop : Nat} (h : scanClassEnd p pi = some stop) :
    pi < stop := by
  unfold scanClassEnd at h
  split at h
  · exact Nat.lt_of_succ_lt (le_of_scanFrom h)
  · exact le_of_scanFrom h

theorem tokenAt_spec {p : Bytes} {pi next : Nat} {t : Token} (h : tokenAt p pi = some (t, next)) :
    ∃ b, p[pi]? = some b ∧ pi < next ∧ (t = .star ↔ b = 42) ∧ (b = 42 → next = pi + 1) := by
  obtain ⟨b, hb, h⟩ := Option.map_eq_some_iff.mp h
  refine ⟨b, hb, ?_⟩
  cases hclass : scanClassEnd p pi with
  | none => grind
  | some stop =>
    have hstop := lt_of_scanClassEnd hclass
    grind

theorem lt_of_tokenAt {p : Bytes} {pi next : Nat} {t : Token} (h : tokenAt p pi = some (t, next)) :
    pi < p.length ∧ pi < next := by
  obtain ⟨b, hb, hlt, -⟩ := tokenAt_spec h
  exact ⟨(List.getElem?_eq_some_iff.mp hb).1, hlt⟩

/-- The tokens of a pattern from a position on. -/
def tokensFrom (p : Bytes) (pi : Nat) : List Token :=
  match _h : tokenAt p pi with
  | none => []
  | some (t, next) => t :: tokensFrom p next
termination_by p.length - pi
decreasing_by
  have := lt_of_tokenAt _h
  omega

/-- A text is made up as tokens say; a star stands for some first bytes of it. -/
def Matches : List Token → Bytes → Prop
  | [], s => s = []
  | .star :: ts, s => ∃ n, Matches ts (s.drop n)
  | .one accepts :: ts, s => ∃ c rest, s = c :: rest ∧ accepts c = true ∧ Matches ts rest

/-- What is left to do: bytes that the star can still take, and then the rest of the pattern. -/
def Match.rank (p s : Bytes) (m : Match) : Nat :=
  (s.length - m.mark) * (p.length + 2) + (p.length + 1 - m.pi)

/-- The rest of the text matches, or does when the last star takes more bytes. -/
def Match.Open (p s : Bytes) (m : Match) : Prop :=
  Matches (tokensFrom p m.pi) (s.drop m.si) ∨
    ∃ star n, m.star = some star ∧ m.mark < n ∧ Matches (tokensFrom p (star + 1)) (s.drop n)

/-- Behind the last star, a token for one byte has been passed with each byte. -/
structure Match.Inv (p : Bytes) (m : Match) : Prop where
  mark_le : m.mark ≤ m.si
  passed : ∀ star, m.star = some star → ∃ us : List (UInt8 → Bool),
    us.length = m.si - m.mark ∧ tokensFrom p (star + 1) = us.map .one ++ tokensFrom p m.pi

/-- A step that leaves less to do and loses no way to match. -/
structure Match.Advance (p s : Bytes) (m m' : Match) : Prop where
  inv : m'.Inv p
  rank_lt : m'.rank p s < m.rank p s
  open_iff : m'.Open p s ↔ m.Open p s

section
variable {p s : Bytes} {c : UInt8} {m : Match} {pi next star a : Nat} {t : Token}
  {accepts : UInt8 → Bool} {ts : List Token}

theorem matchStep_eq : matchStep p c m =
    match tokenAt p m.pi with
    | none => m.fail
    | some (.star, next) => some { m with star := some m.pi, mark := m.si, pi := next }
    | some (.one accepts, next) => if accepts c then some (m.fit next) else m.fail := by
  unfold matchStep tokenAt
  cases p[m.pi]? with
  | none => rfl
  | some b =>
    dsimp only [Option.map_some]
    by_cases hclass : b = 91
    · subst hclass
      cases scanClassEnd p m.pi <;> simp
    · split_ifs <;> simp_all

theorem tokensFrom_of_none (h : tokenAt p pi = none) : tokensFrom p pi = [] := by
  rw [tokensFrom]
  split <;> simp_all

theorem tokensFrom_of_some (h : tokenAt p pi = some (t, next)) :
    tokensFrom p pi = t :: tokensFrom p next := by
  rw [tokensFrom]
  split <;> simp_all

/-- The empty text matches when only stars are left. -/
theorem matches_nil_iff : Matches (tokensFrom p pi) [] ↔ (p.drop pi).all (· == 42) = true := by
  fun_induction tokensFrom p pi with
  | case1 pi h =>
    rw [drop_eq_nil_of_le (getElem?_eq_none_iff.mp (Option.map_eq_none_iff.mp h))]
    simp [Matches]
  | case2 pi t next h ih =>
    obtain ⟨b, hb, -, hstar, hnext⟩ := tokenAt_spec h
    obtain ⟨hlt, rfl⟩ := List.getElem?_eq_some_iff.mp hb
    rw [drop_eq_getElem_cons hlt, all_cons, Bool.and_eq_true, beq_iff_eq]
    cases t with
    | star =>
      have h42 := hstar.mp rfl
      rw [← hnext h42, ← ih, Matches]
      simp [h42]
    | one => simp [Matches, ← hstar]

theorem matches_star_iff : Matches (.star :: ts) (s.drop a) ↔ ∃ n, a ≤ n ∧ Matches ts (s.drop n) := by
  simp only [Matches, drop_drop]
  constructor
  · rintro ⟨n, h⟩
    exact ⟨a + n, Nat.le_add_right a n, h⟩
  · rintro ⟨n, hn, h⟩
    exact ⟨n - a, by rwa [Nat.add_sub_cancel' hn]⟩

/-- Tokens for one byte each take these bytes off. -/
theorem matches_drop {us : List (UInt8 → Bool)} (h : Matches (us.map .one ++ ts) s) :
    Matches ts (s.drop us.length) := by
  induction us generalizing s with
  | nil => exact h
  | cons u us ih =>
    obtain ⟨c, rest, rfl, -, hrest⟩ := h
    exact ih hrest

theorem inv_behind : Match.Inv p ⟨star + 1, a, some star, a⟩ := by
  refine ⟨le_refl a, ?_⟩
  rintro _ ⟨⟩
  exact ⟨[], by simp, rfl⟩

/-- Right behind a star, any later part of the text may match. -/
theorem open_behind_iff : Match.Open p s ⟨star + 1, a, some star, a⟩ ↔
    ∃ n, a ≤ n ∧ Matches (tokensFrom p (star + 1)) (s.drop n) := by
  constructor
  · rintro (h | ⟨_, n, ⟨⟩, hn, h⟩)
    · exact ⟨a, le_refl a, h⟩
    · exact ⟨n, Nat.le_of_lt hn, h⟩
  · rintro ⟨n, hn, h⟩
    rcases Nat.eq_or_lt_of_le hn with rfl | hlt
    · exact .inl h
    · exact .inr ⟨star, n, rfl, hlt, h⟩

/-- Where the rest does not match, the last star takes one more byte. -/
theorem fail_cases (hinv : m.Inv p) (hsi : m.si < s.length)
    (hno : ¬ Matches (tokensFrom p m.pi) (s.drop m.si)) :
    (m.fail = none ∧ ¬ m.Open p s) ∨ ∃ m', m.fail = some m' ∧ m.Advance p s m' := by
  obtain ⟨pi, si, _ | star, mark⟩ := m
  · refine .inl ⟨rfl, ?_⟩
    rintro (h | ⟨star, n, ⟨⟩, -⟩)
    exact hno h
  · refine .inr ⟨_, rfl, inv_behind, ?_, open_behind_iff.trans ?_⟩
    · have hmark : mark < s.length := hinv.mark_le.trans_lt hsi
      have hleft : s.length - mark = (s.length - (mark + 1)) + 1 := by omega
      simp only [Match.rank]
      rw [hleft, add_mul]
      omega
    · constructor
      · rintro ⟨n, hn, h⟩
        exact .inr ⟨star, n, rfl, hn, h⟩
      · rintro (h | ⟨_, n, ⟨⟩, hn, h⟩)
        · exact absurd h hno
        · exact ⟨n, hn, h⟩

/-- A new star can take up whatever the one before it would have taken. -/
theorem advance_star (hinv : m.Inv p) (h : tokenAt p m.pi = some (.star, next)) :
    m.Advance p s { m with star := some m.pi, mark := m.si, pi := next } := by
  obtain ⟨b, -, -, hstar, hnext⟩ := tokenAt_spec h
  obtain rfl := hnext (hstar.mp rfl)
  have hmark := hinv.mark_le
  refine ⟨inv_behind, ?_, open_behind_iff.trans ?_⟩
  · have hpi := (lt_of_tokenAt h).1
    have hmul := Nat.mul_le_mul_right (p.length + 2) (Nat.sub_le_sub_left hmark s.length)
    simp only [Match.rank]
    omega
  · rw [← matches_star_iff, ← tokensFrom_of_some h]
    refine (or_iff_left_of_imp ?_).symm
    rintro ⟨star, n, hs, hn, hmatch⟩
    obtain ⟨us, hlen, htokens⟩ := hinv.passed star hs
    rw [htokens, tokensFrom_of_some h] at hmatch
    have hdrop := matches_drop hmatch
    rw [drop_drop, matches_star_iff] at hdrop
    obtain ⟨k, hk, hmatch⟩ := hdrop
    rw [tokensFrom_of_some h, matches_star_iff]
    exact ⟨k, by omega, hmatch⟩

theorem advance_fit (hinv : m.Inv p) (hc : s[m.si]? = some c)
    (h : tokenAt p m.pi = some (.one accepts, next)) (hfit : accepts c = true) :
    m.Advance p s (m.fit next) := by
  have hmark := hinv.mark_le
  obtain ⟨hsi, hbyte⟩ := List.getElem?_eq_some_iff.mp hc
  refine ⟨⟨Nat.le_succ_of_le hmark, fun star hs => ?_⟩, ?_, or_congr_left ?_⟩
  · obtain ⟨us, hlen, htokens⟩ := hinv.passed star hs
    refine ⟨us ++ [accepts], ?_, by simp [htokens, tokensFrom_of_some h, Match.fit]⟩
    simp only [length_append, length_singleton, Match.fit]
    omega
  · have hpi := lt_of_tokenAt h
    simp only [Match.rank, Match.fit]
    omega
  · rw [tokensFrom_of_some h, drop_eq_getElem_cons hsi, hbyte]
    simp [Matches, hfit, Match.fit]

theorem matchStep_cases (hinv : m.Inv p) (hc : s[m.si]? = some c) :
    (matchStep p c m = none ∧ ¬ m.Open p s) ∨
      ∃ m', matchStep p c m = some m' ∧ m.Advance p s m' := by
  obtain ⟨hsi, hbyte⟩ := List.getElem?_eq_some_iff.mp hc
  rw [matchStep_eq]
  cases htoken : tokenAt p m.pi with
  | none =>
    refine fail_cases hinv hsi ?_
    rw [tokensFrom_of_none htoken, Matches, drop_eq_nil_iff]
    omega
  | some found =>
    obtain ⟨_ | accepts, next⟩ := found
    · exact .inr ⟨_, rfl, advance_star hinv htoken⟩
    dsimp only
    split
    case isTrue hfit => exact .inr ⟨_, rfl, advance_fit hinv hc htoken hfit⟩
    case isFalse hfit =>
      refine fail_cases hinv hsi ?_
      rw [tokensFrom_of_some htoken, drop_eq_getElem_cons hsi, hbyte]
      rintro ⟨_, _, ⟨⟩, h, -⟩
      exact hfit h

/-- From every state of the matcher, the result says whether there is still a way to match. -/
theorem matchLoop_iff {fuel : Nat} (hinv : m.Inv p) (h : m.rank p s < fuel) :
    matchLoop p s fuel m = true ↔ m.Open p s := by
  induction fuel generalizing m with
  | zero => exact absurd h (Nat.not_lt_zero _)
  | succ fuel ih =>
    rw [matchLoop]
    cases hc : s[m.si]? with
    | none =>
      have hlen := getElem?_eq_none_iff.mp hc
      rw [← matches_nil_iff, ← drop_eq_nil_of_le hlen]
      refine (or_iff_left_of_imp ?_).symm
      -- the passed tokens leave nothing of the text to a star that takes more
      rintro ⟨star, n, hs, hn, hmatch⟩
      obtain ⟨us, hus, htokens⟩ := hinv.passed star hs
      rw [htokens] at hmatch
      have hdrop := matches_drop hmatch
      rw [drop_drop, drop_eq_nil_of_le (by omega)] at hdrop
      rwa [drop_eq_nil_of_le hlen]
    | some c =>
      rcases matchStep_cases hinv hc with ⟨hnone, hclosed⟩ | ⟨m', hsome, hstep⟩
      · simp [hnone, hclosed]
      · have hrank := hstep.rank_lt
        simp only [hsome]
        rw [ih hstep.inv (by omega), hstep.open_iff]

end

/-- The matcher accepts exactly the texts that the tokens of the pattern describe. -/
theorem matchPattern_iff (p s : Bytes) : matchPattern p s = true ↔ Matches (tokensFrom p 0) s := by
  rw [matchPattern, matchLoop_iff ⟨le_refl 0, by rintro _ ⟨⟩⟩, Match.Open]
  · simp
  · simp only [Match.rank, Nat.sub_zero, Nat.add_mul, Nat.one_mul]
    omega

example : matchPattern (ascii "a[^x-z]*".toList) (ascii "abc".toList) = true := by decide +kernel

end Gedis.Commands
