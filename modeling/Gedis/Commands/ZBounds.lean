import Gedis.Commands.Windows
import Gedis.Commands.ZOrder

/-!
# Members between two bounds

A bound that is infinite switches its test off instead of taking part in the comparison. On the
wrong side it admits everything, and a strict infinite bound admits the infinite scores. Ranges by
score and by name are exact where no member gets in that way.
-/

namespace Gedis.Commands.ZRanges

open Gedis.Core Datastruct Protocol Storage Std List SortedSets

section Selections

variable {sorted : List Member} {code spec : Member → Bool}

/-- What is made of the members that a filter admits, and tells their number, is exact if the filter
admits what it should and nothing else. -/
theorem filter_exact_iff {β : Type} (f : List Member → β) (h : ∀ p ∈ sorted, spec p → code p)
    (hf : f (sorted.filter code) = f (sorted.filter spec) →
      (sorted.filter code).length = (sorted.filter spec).length) :
    f (sorted.filter code) = f (sorted.filter spec) ↔ ∀ p ∈ sorted, code p → spec p := by
  constructor
  · intro he p hp hcode
    have hsub : (sorted.filter spec).Sublist (sorted.filter code) := by
      have hagain : sorted.filter spec = (sorted.filter code).filter spec := by
        rw [filter_filter]
        exact filter_congr fun p hp => by
          cases hs : spec p with
          | false => rfl
          | true => rw [h p hp hs, Bool.and_self]
      rw [hagain]
      exact filter_sublist
    have hmem : p ∈ sorted.filter spec :=
      (hsub.eq_of_length (hf he).symm) ▸ mem_filter.mpr ⟨hp, hcode⟩
    exact (mem_filter.mp hmem).2
  · intro hall
    rw [filter_congr fun p hp => Bool.eq_iff_iff.mpr ⟨hall p hp, h p hp⟩]

theorem length_of_names {as bs : List Member}
    (h : some (as.map (·.1)) = some (bs.map (·.1))) : as.length = bs.length := by
  simpa using congrArg length (Option.some.inj h)

/-- Turn a list around for `REV`. -/
def directed (rev : Bool) (members : List Member) : List Member :=
  if rev then members.reverse else members

theorem length_directed {rev : Bool} {members : List Member} :
    (directed rev members).length = members.length := by
  cases rev <;> simp [directed]

/-- Replies of as many members are as long. -/
theorem length_of_rangeReply {lib : ScoreLibrary} {as bs : List Member} {withScores : Bool}
    (h : rangeReply lib as withScores = rangeReply lib bs withScores) : as.length = bs.length := by
  have hlen : ∀ ms : List Member, (ms.flatMap fun p =>
      if withScores then sent lib p else [p.1]).length =
        ms.length * if withScores then 2 else 1 := by
    intro ms
    induction ms with
    | nil => simp
    | cons p ms ih =>
      cases withScores <;> simp [sent] <;> omega
  have he := congrArg length (Reply.bulks.inj h)
  rw [hlen, hlen] at he
  cases withScores <;> simpa using he

variable {parseFloat : Bytes → Option UInt64} {lib : ScoreLibrary} {maxAlloc : Nat}
  {order : List Nat} {cmd : ZRangeCommand} {args : List Arg} {key : Bytes} {q : RangeQuery}
  {w w' : World} {z : Scores}

/-- A listing whose selection is a filter is exact if the filter admits nothing else. -/
theorem listing_exact_iff (hparse : cmd.parse args = .ok (key, q)) (hlimit : q.limit = none)
    (hq : q.Narrowed) (hbounds : badBounds parseFloat q = none)
    (hread : (readZSet maxAlloc key).exec World.answer w = (w', .ok (some z)))
    (hsel : selected parseFloat (sortedZSet order z) q =
      some (directed q.rev ((sortedZSet order z).filter code)))
    (h : ∀ p ∈ sortedZSet order z, spec p → code p) :
    ((cmd.handler parseFloat lib maxAlloc order args).exec World.answer w).2 =
        .ok (rangeReply lib (directed q.rev ((sortedZSet order z).filter spec)) q.withScores) ↔
      ∀ p ∈ sortedZSet order z, code p → spec p := by
  have hexec : ((cmd.handler parseFloat lib maxAlloc order args).exec World.answer w).2 =
      .ok (rangeReply lib (directed q.rev ((sortedZSet order z).filter code)) q.withScores) := by
    simp only [ZRangeCommand.handler, hparse]
    rw [Prog.exec_bind, rangeMembers, hbounds]
    rw [Prog.exec_bind, hread]
    have heval : evalRange parseFloat (sortedZSet order z) q =
        .ok (directed q.rev ((sortedZSet order z).filter code)) := by
      simp [evalRange, hsel, hlimit, rank_parse hparse hq]
    dsimp only [Prog.exec, Prog.pure_eq]
    rw [← sortedZSet.eq_def, heval]
    rfl
  rw [hexec]
  refine filter_exact_iff
    (fun ms => (.ok (rangeReply lib (directed q.rev ms) q.withScores) : Go Reply)) h fun he => ?_
  have hlen := length_of_rangeReply (Except.ok.inj he)
  rwa [length_directed, length_directed] at hlen

end Selections

section Scores

variable (parseFloat : Bytes → Option UInt64) (maxAlloc : Nat) (order : List Nat)

/-- One score is below another, or not above it. -/
def precedes (strict : Bool) (a b : UInt64) : Bool :=
  if strict then floatRank a < floatRank b else floatRank a ≤ floatRank b

/-- The text of a bound excludes the bound itself. -/
def excludes (text : Bytes) : Bool := text.head? = some 40

/-- A score lies between two bounds, whose texts say whether they are strict. -/
def between (min max : Bytes) (lo hi : ScoreBound) (s : UInt64) : Bool :=
  precedes (excludes min) lo.v s && precedes (excludes max) s hi.v

/-- The members that `ZCOUNT` counts and `ZREMRANGEBYSCORE` removes. -/
def scoresWithin (lo hi : ScoreBound) (sorted : List Member) : List Member :=
  sorted.filter fun p => inScoreRange p.2 lo hi

/-- `ZCOUNT key min max`. -/
def zcount (key min max : Bytes) : Handler (Go Reply) :=
  match parseScoreBound parseFloat min, parseScoreBound parseFloat max with
  | some lo, some hi => do
    match ← readZSet maxAlloc key with
    | .error (.failed text) => pure (.ok (.error text))
    | .error (.panicked p) => pure (.error p)
    | .ok none => pure (.ok (.int 0))
    | .ok (some z) =>
      pure (.ok (.int (len64 (scoresWithin lo hi (arrange order z.toList)))))
  | _, _ => pure (.ok (.error "ERR min or max is not a float"))

/-- `ZREMRANGEBYSCORE key min max`. -/
def zremrangebyscore (key min max : Bytes) : Handler Reply :=
  match parseScoreBound parseFloat min, parseScoreBound parseFloat max with
  | some lo, some hi => (SortedSets.zremrange maxAlloc order key fun sorted =>
      some ((scoresWithin lo hi sorted).map (·.1))).handler
  | _, _ => pure (.error "ERR min or max is not a float")

variable {parseFloat} {text min max : Bytes} {b lo hi : ScoreBound}

theorem parseScoreBound_cases (h : parseScoreBound parseFloat text = some b) :
    isNaN b.v = false ∧ (b.inf = 0 → b.ex = excludes text) := by
  simp only [parseScoreBound] at h
  generalize (if text.head? = some 40 then text.drop 1 else text) = rest at h
  split_ifs at h
  · cases h
    exact ⟨by decide, fun he => by cases he⟩
  · cases h
    exact ⟨by decide, fun he => by cases he⟩
  · split at h
    · cases h
    · split_ifs at h with hnan
      cases h
      exact ⟨by simpa using hnan, fun _ => rfl⟩

/-- The test of the code: only finite bounds are compared. -/
theorem inScoreRange_iff (hlo : parseScoreBound parseFloat min = some lo)
    (hhi : parseScoreBound parseFloat max = some hi) {s : UInt64} (hs : isNaN s = false) :
    inScoreRange s lo hi = true ↔ (lo.inf = 0 → precedes (excludes min) lo.v s = true) ∧
      (hi.inf = 0 → precedes (excludes max) s hi.v = true) := by
  obtain ⟨hnlo, hexlo⟩ := parseScoreBound_cases hlo
  obtain ⟨hnhi, hexhi⟩ := parseScoreBound_cases hhi
  simp only [inScoreRange, floatLt, floatEq, hs, hnlo, hnhi, Bool.not_false, Bool.true_and]
  rw [Bool.and_eq_true]
  refine and_congr ?_ ?_
  · by_cases hinf : lo.inf = 0
    · rw [hexlo hinf]
      cases excludes min <;> simp [hinf, precedes] <;> omega
    · simp [hinf]
  · by_cases hinf : hi.inf = 0
    · rw [hexhi hinf]
      cases excludes max <;> simp [hinf, precedes] <;> omega
    · simp [hinf]

variable {maxAlloc} {key : Bytes} {w w' : World} {z : Scores}

variable (min max lo hi z) in
/-- Every member that the finite bounds admit lies between both. -/
def ScoresExact : Prop :=
  ∀ p ∈ z.toList, (lo.inf = 0 → precedes (excludes min) lo.v p.2 = true) →
    (hi.inf = 0 → precedes (excludes max) p.2 hi.v = true) → between min max lo hi p.2 = true

end Scores

/-- `-inf`, and with the other sign `+inf`. -/
def infinity (sign : Char) : Bytes := ascii [sign, 'i', 'n', 'f']

def negInf : ScoreBound := { v := 0xFFF0000000000000, inf := -1 }

def posInf : ScoreBound := { v := 0x7FF0000000000000, inf := 1 }

/-- The members that a read finds. -/
def membersRead : Except (Fault String) (Option Scores) → Option (List Member)
  | .ok (some z) => some z.toList
  | _ => none

/-- The sorted set `z` of the store with `a` and `b` is read. -/
theorem exists_read_windowStore : ∃ w' z,
    (readZSet 1024 [122]).exec World.answer windowStore = (w', .ok (some z)) ∧
      z.toList = [([97], 0), ([98], 0)] := by
  have h : membersRead ((readZSet 1024 [122]).exec World.answer windowStore).2 =
      some [([97], 0), ([98], 0)] := by decide +kernel
  rcases hread : (readZSet 1024 [122]).exec World.answer windowStore with ⟨w', f | _ | z⟩
  · rw [hread] at h
    cases h
  · rw [hread] at h
    cases h
  · rw [hread] at h
    exact ⟨w', z, rfl, Option.some.inj h⟩

section Names

/-- One name is before another, or not behind it. -/
def lexPrecedes (strict : Bool) (a b : Bytes) : Bool := compare a b = .lt || (!strict && a = b)

/-- A name is above a lower bound; `-` is below every name and `+` above. -/
def LexBound.under (b : LexBound) (m : Bytes) : Bool :=
  b.inf < 0 || (b.inf = 0 && lexPrecedes b.ex b.v m)

/-- A name is below an upper bound. -/
def LexBound.over (b : LexBound) (m : Bytes) : Bool :=
  0 < b.inf || (b.inf = 0 && lexPrecedes b.ex m b.v)

/-- `ZREMRANGEBYLEX key min max`. -/
def zremrangebylex (maxAlloc : Nat) (order : List Nat) (key min max : Bytes) : Handler Reply :=
  match parseLexBound min, parseLexBound max with
  | some lo, some hi => (SortedSets.zremrange maxAlloc order key fun sorted =>
      some ((lexRangeMembers sorted lo hi false).map (·.1))).handler
  | _, _ => pure (.int 0)

theorem admitsAbove_iff {b : LexBound} {m : Bytes} :
    b.admitsAbove m = true ↔ (b.inf = 0 → lexPrecedes b.ex b.v m = true) := by
  have hswap : compare m b.v = .gt ↔ compare b.v m = .lt := OrientedCmp.gt_iff_lt
  unfold LexBound.admitsAbove lexPrecedes
  by_cases hinf : b.inf = 0
  · simp [hinf, hswap, @eq_comm _ b.v m]
  · simp [hinf]

theorem admitsBelow_iff {b : LexBound} {m : Bytes} :
    b.admitsBelow m = true ↔ (b.inf = 0 → lexPrecedes b.ex m b.v = true) := by
  unfold LexBound.admitsBelow lexPrecedes
  by_cases hinf : b.inf = 0
  · simp [hinf]
  · simp [hinf]

private theorem lexPrecedes_of_lt {strict : Bool} {a b c : Bytes} :
    (lexPrecedes strict a b = true → compare b c = .lt → lexPrecedes strict a c = true) ∧
      (compare a b = .lt → lexPrecedes strict b c = true → lexPrecedes strict a c = true) := by
  simp only [lexPrecedes, Bool.or_eq_true, Bool.and_eq_true, decide_eq_true_eq]
  refine ⟨?_, ?_⟩
  · rintro (hab | ⟨-, rfl⟩) hbc
    · exact .inl (TransCmp.lt_trans hab hbc)
    · exact .inl hbc
  · rintro hab (hbc | ⟨-, rfl⟩)
    · exact .inl (TransCmp.lt_trans hab hbc)
    · exact .inl hab

private theorem scan_eq_filter {α : Type} {l : List α} {P Q : α → Bool}
    (hP : l.Pairwise fun a b => P a = true → P b = true)
    (hQ : l.Pairwise fun a b => Q b = true → Q a = true) :
    (l.dropWhile fun x => !P x).takeWhile Q = l.filter fun x => P x && Q x := by
  have htake : ∀ l : List α, l.Pairwise (fun a b => Q b = true → Q a = true) →
      l.takeWhile Q = l.filter Q := by
    intro l hl
    induction l with
    | nil => rfl
    | cons a l ih =>
      obtain ⟨ha, hl⟩ := pairwise_cons.mp hl
      cases hq : Q a with
      | true => rw [takeWhile_cons_of_pos hq, filter_cons_of_pos hq, ih hl]
      | false =>
        rw [takeWhile_cons_of_neg (by simp [hq]), filter_cons_of_neg (by simp [hq])]
        refine (filter_eq_nil_iff.mpr fun b hb hqb => ?_).symm
        rw [ha b hb hqb] at hq
        cases hq
  induction l with
  | nil => rfl
  | cons a l ih =>
    obtain ⟨ha, hl⟩ := pairwise_cons.mp hP
    cases hp : P a with
    | true =>
      rw [dropWhile_cons_of_neg (by simp [hp]), htake _ hQ]
      refine filter_congr fun x hx => ?_
      rcases mem_cons.mp hx with rfl | hx
      · simp [hp]
      · simp [ha x hx hp]
    | false =>
      rw [dropWhile_cons_of_pos (by simp [hp]), ih hl hQ.tail]
      exact (filter_cons_of_neg (by simp [hp])).symm

/-- Both scans of the members in the order of their names find the members that the tests admit. -/
theorem lexRangeMembers_eq {sorted : List Member} {lo hi : LexBound} {rev : Bool}
    (h : sorted.Pairwise fun p q => compare p.1 q.1 = .lt) :
    lexRangeMembers sorted lo hi rev =
      directed rev (sorted.filter fun p => lo.admitsAbove p.1 && hi.admitsBelow p.1) := by
  have hlo : sorted.Pairwise fun p q => lo.admitsAbove p.1 = true → lo.admitsAbove q.1 = true :=
    h.imp fun hlt hp => admitsAbove_iff.mpr fun hinf =>
      lexPrecedes_of_lt.1 (admitsAbove_iff.mp hp hinf) hlt
  have hhi : sorted.Pairwise fun p q => hi.admitsBelow q.1 = true → hi.admitsBelow p.1 = true :=
    h.imp fun hlt hq => admitsBelow_iff.mpr fun hinf =>
      lexPrecedes_of_lt.2 hlt (admitsBelow_iff.mp hq hinf)
  cases rev with
  | false => exact scan_eq_filter hlo hhi
  | true =>
    refine (scan_eq_filter (pairwise_reverse.mpr hhi) (pairwise_reverse.mpr hlo)).trans ?_
    rw [directed, ← filter_reverse]
    exact filter_congr fun p _ => Bool.and_comm ..

variable {parseFloat : Bytes → Option UInt64} {maxAlloc : Nat} {key min max : Bytes}
  {lo hi : LexBound} {w w' : World} {z : Scores}

variable (lo hi z) in
/-- If `+` is the lower bound or `-` the upper one, the finite bound admits no member. -/
def NamesExact : Prop :=
  ∀ p ∈ z.toList, (lo.inf = 0 → lexPrecedes lo.ex lo.v p.1 = true) →
    (hi.inf = 0 → lexPrecedes hi.ex p.1 hi.v = true) → lo.inf ≤ 0 ∧ 0 ≤ hi.inf

end Names

end Gedis.Commands.ZRanges
