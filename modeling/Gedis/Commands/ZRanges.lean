import Gedis.Commands.Members
import Gedis.Commands.Scans
import Gedis.Core.Slices

/-!
# Ranges of sorted sets

`ZRANGE` and its older forms read a query from their arguments, select members of the sorted set by
rank, by score or by name, turn the selection around for `REV` and cut out the part that `LIMIT`
asks for. The end of that part is computed in 64 bits.
-/

namespace Gedis.Commands.ZRanges

open Gedis.Core Datastruct Protocol Storage

variable {args : List Arg} {key : Bytes}

/-- A member with its score. -/
abbrev Member := Bytes × UInt64

/-- A bound on names. An infinite bound has a sign, and no other. -/
structure LexBound where
  v : Bytes := []
  ex : Bool := false
  inf : Int := 0
  deriving DecidableEq, Repr

def parseLexBound : Bytes → Option LexBound
  | [45] => some { inf := -1 }
  | [43] => some { inf := 1 }
  | 91 :: v => some { v }
  | 40 :: v => some { v, ex := true }
  | _ => none

/-- A name is not before a lower bound. -/
def LexBound.admitsAbove (b : LexBound) (m : Bytes) : Bool :=
  b.inf ≠ 0 || compare m b.v = .gt || (!b.ex && compare m b.v = .eq)

/-- A name is not behind an upper bound. -/
def LexBound.admitsBelow (b : LexBound) (m : Bytes) : Bool :=
  b.inf ≠ 0 || compare m b.v = .lt || (!b.ex && compare m b.v = .eq)

/-- From the first member within one bound up to the last one before the first that is beyond the
other. -/
def lexRangeMembers (sorted : List Member) (min max : LexBound) (rev : Bool) : List Member :=
  if rev then
    (sorted.reverse.dropWhile fun p => !max.admitsBelow p.1).takeWhile fun p => min.admitsAbove p.1
  else (sorted.dropWhile fun p => !min.admitsAbove p.1).takeWhile fun p => max.admitsBelow p.1

/-- A bound on scores. An infinite bound has a sign and excludes nothing. -/
structure ScoreBound where
  v : UInt64
  ex : Bool := false
  inf : Int := 0
  deriving DecidableEq, Repr

variable (parseFloat : Bytes → Option UInt64)

def parseScoreBound (s : Bytes) : Option ScoreBound :=
  let ex := s.head? = some 40
  let s := if ex then s.drop 1 else s
  if toLower s = ascii "-inf".toList then some { v := 0xFFF0000000000000, inf := -1 }
  else if toLower s = ascii "+inf".toList ∨ toLower s = ascii "inf".toList then
    some { v := 0x7FF0000000000000, inf := 1 }
  else
    match parseFloat s with
    | none => none
    | some f => if isNaN f then none else some { v := f, ex }

def inScoreRange (s : UInt64) (min max : ScoreBound) : Bool :=
  !(min.inf = 0 && (floatLt s min.v || (min.ex && floatEq s min.v))) &&
    !(max.inf = 0 && (floatLt max.v s || (max.ex && floatEq s max.v)))

/-- Two ranks, negative ones counted from the end, cut to the positions of a list. -/
def normalizeRange (start stop n : Int64) : Option (Int64 × Int64) :=
  if n = 0 then none
  else
    let start := if start < 0 then start + n else start
    let stop := if stop < 0 then stop + n else stop
    let start := if start < 0 then 0 else start
    let stop := if n ≤ stop then n - 1 else stop
    if stop < start then none else some (start, stop)

structure RangeQuery where
  byScore : Bool := false
  byLex : Bool := false
  rev : Bool := false
  withScores : Bool := false
  rank : Option (Int64 × Int64) := none
  min : Bytes := []
  max : Bytes := []
  limit : Option (Int64 × Int64) := none
  deriving DecidableEq, Repr

/-- The options behind the two bounds. -/
def rangeOptions : RangeQuery → List Arg → Except Reply RangeQuery
  | q, [] => .ok q
  | _, none :: _ => .error (.error errSyntax)
  | q, some opt :: rest =>
    if toUpper opt = ascii "BYSCORE".toList then rangeOptions { q with byScore := true } rest
    else if toUpper opt = ascii "BYLEX".toList then rangeOptions { q with byLex := true } rest
    else if toUpper opt = ascii "REV".toList then rangeOptions { q with rev := true } rest
    else if toUpper opt = ascii "WITHSCORES".toList then
      rangeOptions { q with withScores := true } rest
    else if toUpper opt = ascii "LIMIT".toList then
      match rest with
      | some off :: some cnt :: rest =>
        match parseInt off, parseInt cnt with
        | some off, some cnt => rangeOptions { q with limit := some (off, cnt) } rest
        | _, _ => .error (.error errRange)
      | _ => .error (.error errSyntax)
    else .error (.error errSyntax)

/-- Read a query. `REV` exchanges the bounds on scores and names. -/
def parseRangeQuery (name : String) : List Arg → Except Reply (Bytes × RangeQuery)
  | key :: start :: stop :: options =>
    match key, start, stop with
    | none, _, _ => .error (.error "ERR invalid key")
    | some _, none, _ => .error (.error "ERR invalid start")
    | some _, some _, none => .error (.error "ERR invalid stop")
    | some key, some start, some stop => do
      let q ← rangeOptions {} options
      if q.byScore ∧ q.byLex then
        .error (.error "ERR syntax error, BYSCORE and BYLEX are incompatible")
      else if q.byScore ∨ q.byLex then
        .ok (key, if q.rev then { q with min := stop, max := start }
          else { q with min := start, max := stop })
      else
        match parseInt start, parseInt stop with
        | some s, some e =>
          if q.limit.isSome then
            .error (.error ("ERR syntax error, LIMIT is only supported in combination with either " ++
              "BYSCORE or BYLEX"))
          else .ok (key, { q with rank := some (s, e) })
        | _, _ => .error (.error errRange)
  | _ => .error (.error s!"ERR wrong number of arguments for '{name}' command")

/-- The selected members, before `LIMIT` and ranks are applied. -/
def selected (sorted : List Member) (q : RangeQuery) : Option (List Member) :=
  if q.byScore then
    match parseScoreBound parseFloat q.min, parseScoreBound parseFloat q.max with
    | some min, some max =>
      let out := sorted.filter fun p => inScoreRange p.2 min max
      some (if q.rev then out.reverse else out)
    | _, _ => none
  else if q.byLex then
    match parseLexBound q.min, parseLexBound q.max with
    | some min, some max => some (lexRangeMembers sorted min max q.rev)
    | _, _ => none
  else some (if q.rev then sorted.reverse else sorted)

/-- Evaluate a query on the sorted members. -/
def evalRange (sorted : List Member) (q : RangeQuery) : Go (List Member) :=
  match selected parseFloat sorted q with
  | none => .ok []
  | some out =>
    match q.limit with
    | some (off, cnt) =>
      let off := if off < 0 then 0 else off
      if len64 out ≤ off ∨ cnt < 0 then .ok []
      else
        let stop := off + cnt
        sliceList out off (if len64 out < stop then len64 out else stop)
    | none =>
      match q.rank with
      | none => .ok out
      | some (start, stop) =>
        match normalizeRange start stop (len64 out) with
        | none => .ok []
        | some (lo, hi) => sliceList out lo (hi + 1)

/-- The range commands. -/
inductive ZRangeCommand where
  | zrange | zrevrange | zrangebyscore | zrevrangebyscore | zrangebylex | zrevrangebylex
  deriving DecidableEq, Repr

def word (name : String) : Arg := some (ascii name.toList)

def isWord (name : String) : Arg → Bool
  | none => false
  | some w => equalFold w (ascii name.toList)

/-- Overrule whether the reply has scores. -/
def setWithScores (withScores : Bool) (r : Except Reply (Bytes × RangeQuery)) :
    Except Reply (Bytes × RangeQuery) :=
  r.map fun kq => (kq.1, { kq.2 with withScores })

/-- The query of `ZRANGEBYSCORE` and `ZREVRANGEBYSCORE`; `WITHSCORES` may stand anywhere behind the
key. -/
def scoreRangeArgs (name : String) (rev : Bool) : List Arg → Except Reply (Bytes × RangeQuery)
  | key :: rest =>
    if rest.length < 2 then .error (.error s!"ERR wrong number of arguments for '{name}' command")
    else
      match key with
      | none => .error (.error "ERR invalid key")
      | some key =>
        let kept := rest.filter fun a => !isWord "WITHSCORES" a
        setWithScores (rest.any (isWord "WITHSCORES")) (parseRangeQuery name
          (some key :: kept ++ word "BYSCORE" :: if rev then [word "REV"] else []))
  | [] => .error (.error s!"ERR wrong number of arguments for '{name}' command")

/-- The query of `ZRANGEBYLEX` and `ZREVRANGEBYLEX`, whose replies have no scores. -/
def lexRangeArgs (name : String) (rev : Bool) : List Arg → Except Reply (Bytes × RangeQuery)
  | key :: rest =>
    if rest.length < 2 then .error (.error s!"ERR wrong number of arguments for '{name}' command")
    else
      match key with
      | none => .error (.error "ERR invalid key")
      | some key =>
        setWithScores false (parseRangeQuery name
          (some key :: rest ++ word "BYLEX" :: if rev then [word "REV"] else []))
  | [] => .error (.error s!"ERR wrong number of arguments for '{name}' command")

/-- The query of `ZREVRANGE`. -/
def revRangeArgs : List Arg → Except Reply (Bytes × RangeQuery)
  | [key, start, stop] => parseRangeQuery "zrevrange" [key, start, stop, word "REV"]
  | [key, start, stop, opt] =>
    if isWord "WITHSCORES" opt then
      parseRangeQuery "zrevrange" [key, start, stop, word "REV", word "WITHSCORES"]
    else .error (.error errSyntax)
  | _ => .error (.error "ERR wrong number of arguments for 'zrevrange' command")

/-- The key and the query of a command. -/
def ZRangeCommand.parse : ZRangeCommand → List Arg → Except Reply (Bytes × RangeQuery)
  | .zrange => parseRangeQuery "zrange"
  | .zrevrange => revRangeArgs
  | .zrangebyscore => scoreRangeArgs "zrangebyscore" false
  | .zrevrangebyscore => scoreRangeArgs "zrevrangebyscore" true
  | .zrangebylex => lexRangeArgs "zrangebylex" false
  | .zrevrangebylex => lexRangeArgs "zrevrangebylex" true

/-- The reply to bounds that cannot be read. -/
def badBounds (q : RangeQuery) : Option Reply :=
  if q.byScore ∧
      (parseScoreBound parseFloat q.min = none ∨ parseScoreBound parseFloat q.max = none) then
    some (.error "ERR min or max is not a float")
  else if q.byLex ∧ (parseLexBound q.min = none ∨ parseLexBound q.max = none) then some (.bulks [])
  else none

variable (lib : ScoreLibrary) (maxAlloc : Nat) (order : List Nat)

/-- The members that a query selects, or the reply that ends the command early. -/
def rangeMembers (key : Bytes) (q : RangeQuery) : Handler (Go (Except Reply (List Member))) :=
  match badBounds parseFloat q with
  | some reply => pure (.ok (.error reply))
  | none => do
    match ← readZSet maxAlloc key with
    | .error (.failed text) => pure (.ok (.error (.error text)))
    | .error (.panicked p) => pure (.error p)
    | .ok none => pure (.ok (.ok []))
    | .ok (some z) =>
      pure ((evalRange parseFloat (sortZSetPairs (arrange order z.toList)) q).map .ok)

/-- The members with or without their scores. -/
def rangeReply (members : List Member) (withScores : Bool) : Reply :=
  .bulks (members.flatMap fun p => if withScores then SortedSets.sent lib p else [p.1])

/-- Run a command. -/
def ZRangeCommand.handler (cmd : ZRangeCommand) (args : List Arg) : Handler (Go Reply) :=
  match cmd.parse args with
  | .error reply => pure (.ok reply)
  | .ok (key, q) => do
    let r ← rangeMembers parseFloat maxAlloc order key q
    pure (r.map fun
      | .error reply => reply
      | .ok members => rangeReply lib members q.withScores)

/-- Options never turn a query into one by rank. -/
theorem rank_rangeOptions {q q' : RangeQuery} (h : rangeOptions q args = .ok q') :
    q'.rank = q.rank := by
  fun_induction rangeOptions q args with
  | case1 q =>
    cases h
    rfl
  | case2 => cases h
  | case3 q opt rest _ ih => exact ih h
  | case4 q opt rest _ _ ih => exact ih h
  | case5 q opt rest _ _ _ ih => exact ih h
  | case6 q opt rest _ _ _ _ ih => exact ih h
  | case7 q opt _ _ _ _ _ off cnt rest off' cnt' _ _ ih => exact ih h
  | case8 => cases h
  | case9 => cases h
  | case10 => cases h

/-- The query asks for more than ranks. -/
def RangeQuery.Narrowed (q : RangeQuery) : Prop := q.limit ≠ none ∨ q.byScore = true ∨ q.byLex = true

theorem rank_parseRangeQuery {name : String} {q : RangeQuery}
    (h : parseRangeQuery name args = .ok (key, q)) (hq : q.Narrowed) : q.rank = none := by
  rw [parseRangeQuery.eq_def] at h
  split at h
  · split at h
    · cases h
    · cases h
    · cases h
    · next options _ _ _ _ start stop =>
      cases ho : rangeOptions {} options with
      | error =>
        rw [ho] at h
        cases h
      | ok q' =>
        have hrank := rank_rangeOptions ho
        rw [ho] at h
        simp only [bind, Except.bind] at h
        split_ifs at h
        · cases h
          exact hrank
        · cases h
          exact hrank
        · split at h
          · cases h
          · cases h
        · next hby hnone =>
          split at h
          · cases h
            exact (hq.elim (absurd (Option.not_isSome_iff_eq_none.mp hnone)) hby).elim
          · cases h
  · cases h

private theorem rank_setWithScores {name : String} {withScores : Bool} {q : RangeQuery}
    (h : setWithScores withScores (parseRangeQuery name args) = .ok (key, q)) (hq : q.Narrowed) :
    q.rank = none := by
  cases hp : parseRangeQuery name args with
  | error =>
    rw [hp] at h
    cases h
  | ok kq =>
    rw [hp] at h
    cases h
    obtain ⟨key, q⟩ := kq
    exact rank_parseRangeQuery (q := q) hp hq

/-- A query with a limit or with bounds on scores or names is not one by rank. -/
theorem rank_parse {cmd : ZRangeCommand} {q : RangeQuery} (h : cmd.parse args = .ok (key, q))
    (hq : q.Narrowed) : q.rank = none := by
  cases cmd with
  | zrange => exact rank_parseRangeQuery h hq
  | zrevrange =>
    simp only [ZRangeCommand.parse] at h
    rw [revRangeArgs.eq_def] at h
    split at h
    · exact rank_parseRangeQuery h hq
    · split at h
      · exact rank_parseRangeQuery h hq
      · cases h
    · cases h
  | zrangebyscore | zrevrangebyscore | zrangebylex | zrevrangebylex =>
    simp only [ZRangeCommand.parse, scoreRangeArgs.eq_def, lexRangeArgs.eq_def] at h
    split at h
    · split at h
      · cases h
      · split at h
        · cases h
        · exact rank_setWithScores h hq
    · cases h

section
variable {parseFloat} {q : RangeQuery} {off n : Int64}

/-- A limit cuts a part out of the selection, unless its end wraps around. -/
theorem evalRange_limit {sorted full : List Member} (hlimit : q.limit = some (off, n))
    (hrank : q.rank = none) (hoff : 0 ≤ off.toInt) (hn : 0 ≤ n.toInt)
    (hfull : evalRange parseFloat sorted { q with limit := none } = .ok full)
    (hlen : full.length < 2 ^ 63) :
    evalRange parseFloat sorted q =
      if full.length ≤ off.toInt ∨ off.toInt + n.toInt < 2 ^ 63 then
        .ok ((full.drop off.toInt.toNat).take n.toInt.toNat)
      else .error .sliceBounds := by
  have hsame : selected parseFloat sorted { q with limit := none } = selected parseFloat sorted q :=
    rfl
  have hoff' : ¬ off < 0 := by
    rw [Int64.lt_iff_toInt_lt]
    simpa using hoff
  have hn' : ¬ n < 0 := by
    rw [Int64.lt_iff_toInt_lt]
    simpa using hn
  rw [evalRange, hsame] at hfull
  rw [evalRange]
  cases hsel : selected parseFloat sorted q with
  | none =>
    rw [hsel] at hfull
    cases hfull
    rw [if_pos (.inl (by simpa using hoff)), List.drop_nil, List.take_nil]
  | some =>
    rw [hsel] at hfull
    simp only [hrank] at hfull
    cases hfull
    simp only [hlimit, if_neg hoff', hn', or_false]
    have hle : len64 full ≤ off ↔ full.length ≤ off.toInt := by
      rw [Int64.le_iff_toInt_le, toInt_len64 hlen]
    by_cases hbeyond : full.length ≤ off.toInt
    · rw [if_pos (hle.mpr hbeyond), if_pos (.inl hbeyond), List.drop_eq_nil_of_le (by omega),
        List.take_nil]
    · rw [if_neg (mt hle.mp hbeyond), sliceList_window hlen hoff hn (by omega)]
      simp [hbeyond]

end

end Gedis.Commands.ZRanges
