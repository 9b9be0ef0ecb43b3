import Gedis.Commands.ContainerRuns
import Gedis.Commands.ScanCover
import Gedis.Commands.ZRanges

/-!
# Parts of a result

`SCAN` with a cursor and a count, `SORT` and the range commands on sorted sets with `LIMIT` return a
number of elements behind an offset. Each computes the end of that part as a sum in 64 bits before it
compares it with the length of the result.
-/

namespace Gedis.Commands

open Gedis.Core Datastruct Protocol Storage

variable {off n : Int64}

/-- A page is made exactly when its end does not wrap around. -/
theorem page_ok_iff {α : Type} {cursor count : Int64} {matched : List α} (hcursor : 0 ≤ cursor.toInt)
    (hcount : 0 ≤ count.toInt) :
    (∃ next window, page cursor count matched = .ok (next, window)) ↔
      min cursor.toInt matched.length + count.toInt < 2 ^ 63 := by
  have hlt := cursor.toInt_lt
  have hlt' := count.toInt_lt
  rw [page]
  dsimp only
  generalize hstart : min cursor.toInt (matched.length : Int) = start
  by_cases hfits : start + count.toInt < 2 ^ 63
  · have hsum : (start + count.toInt).bmod (2 ^ 64) = start + count.toInt := by
      rw [Int.bmod_eq_of_le] <;> omega
    refine iff_of_true ?_ hfits
    split
    · exact ⟨_, _, if_neg (by dsimp only; omega)⟩
    · exact ⟨_, _, if_neg (by dsimp only; omega)⟩
  · have hsum : (start + count.toInt).bmod (2 ^ 64) < 0 := by
      rw [Int.bmod_def]
      split <;> omega
    have hbelow : ¬ (matched.length : Int) ≤ (start + count.toInt).bmod (2 ^ 64) := by omega
    refine iff_of_false ?_ hfits
    rintro ⟨next, window, h⟩
    rw [if_neg hbelow] at h
    rw [if_pos (by omega)] at h
    cases h

end Gedis.Commands

namespace Gedis.Commands.Sort

open Gedis.Core Datastruct Protocol Storage List Prog

variable (parseFloat : Bytes → Option UInt64) (maxAlloc : Nat) (order : List Nat) {off n : Int64}

/-- All items in their order. -/
def ordered (o : SortOptions) (key : Bytes) : Reader (Except Reply (List SortItem)) := do
  match ← sortElements maxAlloc order key with
  | .error reply => pure (.error reply)
  | .ok elems =>
    match ← sortItems parseFloat o elems with
    | .error reply => pure (.error reply)
    | .ok items => pure (.ok (sortBy (itemLess o) items))

/-- What each pattern finds for an element. -/
def found (elem : Bytes) : List Bytes → Reader (List (Option Bytes))
  | [] => pure []
  | pattern :: patterns => do
    let value ← resolveSortPattern pattern elem
    let rest ← found elem patterns
    pure (value :: rest)

/-- What is sent for the items: the elements, or what each pattern finds and nil where it finds
nothing. -/
def foundAll (gets : List Bytes) : List SortItem → Reader (List (Option Bytes))
  | [] => pure []
  | item :: items => do
    let out ← if gets = [] then pure [some item.elem] else found item.elem gets
    let rest ← foundAll gets items
    pure (out ++ rest)

/-- `SORT` without `STORE`. A missing key is sorted like an empty one; the form with `STORE` replies
zero for it. -/
def sent (o : SortOptions) (key : Bytes) : Reader (Except Reply (List (Option Bytes))) := do
  match ← ordered parseFloat maxAlloc order o key with
  | .error (.int _) => pure (.ok [])
  | .error reply => pure (.error reply)
  | .ok items =>
    match limitRange o.limit items with
    | .error reply => pure (.error reply)
    | .ok items => do
      let out ← foundAll o.gets items
      pure (.ok out)

/-- The range of `LIMIT` is cut out exactly when its end does not wrap around. -/
theorem limitRange_some (hoff : 0 ≤ off.toInt) (hn : 0 ≤ n.toInt) {items : List SortItem} :
    limitRange (some (off, n)) items =
      if min off.toInt items.length + n.toInt < 2 ^ 63 then
        .ok ((items.drop off.toInt.toNat).take n.toInt.toNat)
      else .error panicked := by
  have hlt := off.toInt_lt
  have hlt' := n.toInt_lt
  have hnot : ¬ n < 0 := by
    rw [Int64.lt_iff_toInt_lt]
    simpa using hn
  simp only [limitRange, if_neg hnot, Int.max_eq_left hoff]
  by_cases hfits : min off.toInt items.length + n.toInt < 2 ^ 63
  · have hsum : (min off.toInt items.length + n.toInt).bmod (2 ^ 64) =
        min off.toInt items.length + n.toInt := by
      rw [Int.bmod_eq_of_le] <;> omega
    rw [hsum, if_pos hfits, if_neg (by omega), drop_take]
    congr 1
    by_cases hbeyond : off.toInt ≤ items.length
    · rw [Int.min_eq_left hbeyond]
      by_cases hend : off.toInt + n.toInt ≤ items.length
      · congr 1
        omega
      · rw [take_of_length_le (by rw [length_drop]; omega),
          take_of_length_le (by rw [length_drop]; omega)]
    · rw [drop_eq_nil_of_le (by omega), drop_eq_nil_of_le (by omega), take_nil,
        take_nil]
  · have hsum : (min off.toInt items.length + n.toInt).bmod (2 ^ 64) < 0 := by
      rw [Int.bmod_def]
      split <;> omega
    rw [if_neg hfits, if_pos (by omega)]

variable {o : SortOptions} {key : Bytes} {items : List SortItem} {w w' : World}

section
variable {parseFloat maxAlloc order}

/-- The form with `STORE` cuts out the range of all items in their order. -/
theorem exec_sorted
    (h : (ordered parseFloat maxAlloc order o key).exec Look.answer w = (w', .ok items)) :
    (sorted parseFloat maxAlloc order o key).exec Look.answer w =
      match limitRange o.limit items with
      | .error reply => (w', .error reply)
      | .ok window =>
        let c := (collectGet o.gets window).exec Look.answer w'
        (c.1, .ok c.2) := by
  rw [ordered, exec_bind] at h
  rw [sorted, exec_bind]
  rcases hr : (sortElements maxAlloc order key).exec Look.answer w with ⟨w₁, reply | elems⟩
  · rw [hr] at h
    cases h
  · rw [hr] at h
    rw [exec_bind] at h ⊢
    rcases hr' : (sortItems parseFloat o elems).exec Look.answer w₁ with ⟨w₂, reply | found⟩
    · rw [hr'] at h
      cases h
    · rw [hr'] at h
      cases h
      dsimp only
      cases limitRange o.limit (sortBy (itemLess o) found) with
      | error => rfl
      | ok =>
        rw [exec_bind]
        rfl

theorem exec_sent
    (h : (ordered parseFloat maxAlloc order o key).exec Look.answer w = (w', .ok items)) :
    (sent parseFloat maxAlloc order o key).exec Look.answer w =
      match limitRange o.limit items with
      | .error reply => (w', .error reply)
      | .ok window =>
        let c := (foundAll o.gets window).exec Look.answer w'
        (c.1, .ok c.2) := by
  rw [sent, exec_bind, h]
  dsimp only
  cases limitRange o.limit items with
  | error => rfl
  | ok =>
    rw [exec_bind]
    rfl

end

/-- A program ends as another one does from a later state on. -/
def EndsAs {β : Type} (p : Reader (Except Reply β)) (w : World) (rest : Reader β) (w' : World) : Prop :=
  p.handler.exec World.answer w =
    ((rest.handler.exec World.answer w').1, .ok (rest.handler.exec World.answer w').2)

/-- Both forms of the command go on with a part of the items. -/
def SortExact (o : SortOptions) (key : Bytes) (w w' : World) (window : List SortItem) : Prop :=
  EndsAs (sorted parseFloat maxAlloc order o key) w (collectGet o.gets window) w' ∧
    EndsAs (sent parseFloat maxAlloc order o key) w (foundAll o.gets window) w'

theorem sort_exact_iff (hlimit : o.limit = some (off, n)) (hoff : 0 ≤ off.toInt) (hn : 0 ≤ n.toInt)
    (hitems : (ordered parseFloat maxAlloc order o key).handler.exec World.answer w = (w', .ok
      items)) : SortExact parseFloat maxAlloc order o key w w'
        ((items.drop off.toInt.toNat).take n.toInt.toNat) ↔
      min off.toInt items.length + n.toInt < 2 ^ 63 := by
  rw [Reader.exec_handler] at hitems
  simp only [SortExact, EndsAs, Reader.exec_handler, exec_sorted hitems, exec_sent hitems, hlimit,
    limitRange_some hoff hn]
  by_cases hfits : min off.toInt items.length + n.toInt < 2 ^ 63
  · rw [if_pos hfits]
    exact iff_of_true ⟨rfl, rfl⟩ hfits
  · rw [if_neg hfits]
    exact iff_of_false (fun h => nomatch congrArg Prod.snd h.1) hfits

end Gedis.Commands.Sort

namespace Gedis.Commands

open Gedis.Core Datastruct Protocol Storage List Prog

/-- What `SCAN` would return without a cursor and a count. -/
def scanListing (lib : ScanLibrary) (o : ScanOptions) (w : World) : List (List Bytes) :=
  match ((keyElements o).exec World.answer w).2 with
  | .error _ => []
  | .ok elems => (elems.filter fun e => pathMatch lib o.pattern e.1).map Prod.snd

/-- A scan returns the elements behind the cursor, with the cursor for the rest. -/
def ScanExact (full : List (List Bytes)) (cursor count : Int64) (r : Go ScanReply) : Prop :=
  ∃ next : Int64,
    next.toInt = (if (full.length : Int) ≤ cursor.toInt + count.toInt then 0
      else cursor.toInt + count.toInt) ∧
      r = .ok (.page next ((full.drop cursor.toInt.toNat).take count.toInt.toNat))

section
variable {w : World} {key : Bytes} {cursor : Arg} {opts : List Arg} {c off n : Int64}

theorem exec_scan (lib : ScanLibrary) {o : ScanOptions} (hcursor : readCursor cursor = .ok c)
    (hopts : scanOptions .scan {} opts = .ok o) :
    ∃ elems, ((keyElements o).exec World.answer w).2 = .ok elems ∧
      ((scan lib (cursor :: opts)).exec World.answer w).2 = respond lib o c elems := by
  have hkeys : ∃ elems, ((keyElements o).exec World.answer w).2 = .ok elems := by
    rw [keyElements, exec_bind, exec_bind, exec_bind]
    exact ⟨_, rfl⟩
  obtain ⟨elems, helems⟩ := hkeys
  refine ⟨elems, helems, ?_⟩
  simp only [scan, scanWith, hcursor, hopts]
  rw [exec_bind, helems]
  rfl

theorem scan_exact_iff {lib : ScanLibrary} {o : ScanOptions} (hcursor : readCursor cursor = .ok c)
    (hopts : scanOptions .scan {} opts = .ok o) (hc : 0 ≤ c.toInt) (hn : 0 ≤ o.count.toInt) :
    ScanExact (scanListing lib o w) c o.count ((scan lib (cursor :: opts)).exec World.answer w).2 ↔
      min c.toInt (scanListing lib o w).length + o.count.toInt < 2 ^ 63 := by
  obtain ⟨elems, helems, hexec⟩ := exec_scan lib hcursor hopts
  rw [hexec, respond]
  simp only [scanListing, helems]
  generalize hm : elems.filter (fun e => pathMatch lib o.pattern e.1) = matched
  rw [length_map, ← page_ok_iff hc hn]
  constructor
  · rintro ⟨next, -, h⟩
    cases hpage : page c o.count matched with
    | error =>
      rw [hpage] at h
      cases h
    | ok r => exact ⟨r.1, r.2, rfl⟩
  · rintro ⟨next, window, hpage⟩
    obtain ⟨hnext, hwindow⟩ := page_eq hc hn hpage
    refine ⟨next, ?_, ?_⟩
    · rw [hnext, length_map, PageCall.next]
      dsimp only
      by_cases hend : matched.length ≤ c.toInt.toNat + o.count.toInt.toNat
      · rw [if_pos hend, if_pos (by omega)]
        rfl
      · rw [if_neg hend]
        omega
    · rw [hpage, hwindow, ← map_drop, ← map_take]
      rfl

theorem zrange_exact_iff {parseFloat : Bytes → Option UInt64} {lib : ScoreLibrary} {maxAlloc : Nat}
    {order : List Nat} {cmd : ZRanges.ZRangeCommand} {args : List Arg} {q : ZRanges.RangeQuery}
    {full : List ZRanges.Member} (hparse : cmd.parse args = .ok (key, q))
    (hlimit : q.limit = some (off, n)) (hoff : 0 ≤ off.toInt) (hn : 0 ≤ n.toInt) (hfull :
      ((ZRanges.rangeMembers parseFloat maxAlloc order key { q with limit := none }).exec
      World.answer w).2 = .ok (.ok full)) (hlen : full.length < 2 ^ 63) :
    ((cmd.handler parseFloat lib maxAlloc order args).exec World.answer w).2 =
        .ok (ZRanges.rangeReply lib ((full.drop off.toInt.toNat).take n.toInt.toNat) q.withScores) ↔
      full.length ≤ off.toInt ∨ off.toInt + n.toInt < 2 ^ 63 := by
  have hrank : q.rank = none := ZRanges.rank_parse hparse (.inl (by rw [hlimit]; nofun))
  have hbounds : ZRanges.badBounds parseFloat { q with limit := none } =
      ZRanges.badBounds parseFloat q := rfl
  simp only [ZRanges.ZRangeCommand.handler, hparse]
  rw [ZRanges.rangeMembers, hbounds] at hfull
  rw [exec_bind, ZRanges.rangeMembers]
  cases hb : ZRanges.badBounds parseFloat q with
  | some =>
    rw [hb] at hfull
    cases hfull
  | none =>
    rw [hb] at hfull
    rw [exec_bind] at hfull ⊢
    rcases hread : (readZSet maxAlloc key).exec World.answer w with ⟨w', (text | p) | _ | z⟩
    · rw [hread] at hfull
      cases hfull
    · rw [hread] at hfull
      cases hfull
    · rw [hread] at hfull
      cases hfull
      refine iff_of_true ?_ (.inl (by simpa using hoff))
      rw [drop_nil, take_nil]
      rfl
    · rw [hread] at hfull
      dsimp only [exec, pure_eq] at hfull ⊢
      generalize sortZSetPairs (arrange order z.toList) = members at hfull ⊢
      cases heval : ZRanges.evalRange parseFloat members { q with limit := none } with
      | error =>
        rw [heval] at hfull
        cases hfull
      | ok =>
        rw [heval] at hfull
        cases hfull
        rw [ZRanges.evalRange_limit hlimit hrank hoff hn heval hlen]
        by_cases hfits : full.length ≤ off.toInt ∨ off.toInt + n.toInt < 2 ^ 63
        · rw [if_pos hfits]
          exact iff_of_true rfl hfits
        · rw [if_neg hfits]
          exact iff_of_false nofun hfits

theorem readCursor_nonneg (h : readCursor cursor = .ok c) : 0 ≤ c.toInt := by
  cases cursor with
  | none => cases h
  | some text =>
    rw [readCursor, readNatural] at h
    split at h
    · cases h
    · split at h
      · cases h
      · next hnot =>
        cases h
        rw [Int64.lt_iff_toInt_lt] at hnot
        simpa using hnot

end

/-- Each command returns the elements behind its offset, up to its count, exactly when the end of that
part fits in 64 bits. An offset beyond the result is cut to its length first, and the range commands
return nothing for it without computing an end. -/
theorem windows_exact_iff (scanLib : ScanLibrary) (parseFloat : Bytes → Option UInt64)
    (lib : ScoreLibrary) (maxAlloc : Nat) (order : List Nat) (w : World) :
    (∀ (cursor : Arg) (opts : List Arg) (c : Int64) (o : ScanOptions), readCursor cursor = .ok c →
      scanOptions .scan {} opts = .ok o → 1 ≤ o.count.toInt →
        (ScanExact (scanListing scanLib o w) c o.count
            ((scan scanLib (cursor :: opts)).exec World.answer w).2 ↔
          min c.toInt (scanListing scanLib o w).length + o.count.toInt < 2 ^ 63)) ∧
    (∀ (o : Sort.SortOptions) (key : Bytes) (w' : World) (items : List Sort.SortItem) (off n : Int64),
      o.limit = some (off, n) → 0 ≤ off.toInt → 0 ≤ n.toInt →
      (Sort.ordered parseFloat maxAlloc order o key).handler.exec World.answer w = (w', .ok items) →
        (Sort.SortExact parseFloat maxAlloc order o key w w'
            ((items.drop off.toInt.toNat).take n.toInt.toNat) ↔
          min off.toInt items.length + n.toInt < 2 ^ 63)) ∧
    (∀ (cmd : ZRanges.ZRangeCommand) (args : List Arg) (key : Bytes) (q : ZRanges.RangeQuery)
      (off n : Int64) (full : List ZRanges.Member), cmd.parse args = .ok (key, q) →
      q.limit = some (off, n) → 0 ≤ off.toInt → 0 ≤ n.toInt →
      ((ZRanges.rangeMembers parseFloat maxAlloc order key { q with limit := none }).exec
        World.answer w).2 = .ok (.ok full) → full.length < 2 ^ 63 →
        (((cmd.handler parseFloat lib maxAlloc order args).exec World.answer w).2 =
            .ok (ZRanges.rangeReply lib ((full.drop off.toInt.toNat).take n.toInt.toNat)
              q.withScores) ↔
          full.length ≤ off.toInt ∨ off.toInt + n.toInt < 2 ^ 63)) := by
  refine ⟨?_, ?_, ?_⟩
  · intro cursor opts c o hcursor hopts hcount
    exact scan_exact_iff hcursor hopts (readCursor_nonneg hcursor) (by omega)
  · intro o key w' items off n hlimit hoff hn hitems
    exact Sort.sort_exact_iff parseFloat maxAlloc order hlimit hoff hn hitems
  · intro cmd args key q off n full hparse hlimit hoff hn hfull hlen
    exact zrange_exact_iff hparse hlimit hoff hn hfull hlen

/-- A list `l` of `b` and `a`, and a sorted set `z` of `a` and `b` with the score zero. -/
def windowStore : World :=
  ⟨{ emptyStore with
      db := ((∅ : OrdMap Bytes Bytes).insert (rawKey .l [108])
          (encode typeList 0 (encodeList [[98], [97]]))).insert (rawKey .z [122])
        (encode typeZSet 0 (encodeZSet [] (((∅ : Scores).insert [97] 0).insert [98] 0))) },
    fun _ => 1⟩

def noScores : ScoreLibrary := ⟨fun a _ => a, fun a _ => a, fun _ => []⟩

/-- `COUNT n`. -/
def countOf (n : Bytes) : List Arg := [some (ascii ['C', 'O', 'U', 'N', 'T']), some n]

/-- `LIMIT 1 n` behind the bounds of a range by name. -/
def lexLimit (n : Bytes) : List Arg :=
  [some [122], some [45], some [43], ZRanges.word "LIMIT", some [49], some n]

/-- The options `ALPHA LIMIT 1 n`. -/
def alphaLimit (n : Int64) : Sort.SortOptions := { limit := some (1, n), alpha := true }

theorem windows_exact_one :
    ScanExact (scanListing noLibrary { count := 1 } windowStore) 1 1
        ((scan noLibrary (some [49] :: countOf [49])).exec World.answer windowStore).2 ∧
      ((ZRanges.ZRangeCommand.zrangebylex.handler (fun _ => none) noScores 1024 []
        (lexLimit [49])).exec World.answer windowStore).2 =
          .ok (ZRanges.rangeReply noScores [([98], 0)] false) ∧
      Sort.SortExact (fun _ => none) 1024 [] (alphaLimit 1) [108] windowStore
        ((Sort.ordered (fun _ => none) 1024 [] (alphaLimit 1) [108]).handler.exec World.answer
          windowStore).1 [⟨[98], 0, [98]⟩] := by
  have h := windows_exact_iff noLibrary (fun _ => none) noScores 1024 [] windowStore
  refine ⟨?_, ?_, ?_⟩
  · exact (h.1 (some [49]) (countOf [49]) 1 { count := 1 } (by decide) (by decide) (by decide)).mpr
      (by decide +kernel)
  · exact (h.2.2 .zrangebylex (lexLimit [49]) [122]
      { byLex := true, min := [45], max := [43], limit := some (1, 1) } 1 1 [([97], 0), ([98], 0)]
      (by decide +kernel) rfl (by decide) (by decide) (by decide +kernel) (by decide)).mpr
      (.inr (by decide))
  · exact (h.2.1 (alphaLimit 1) [108] _ [⟨[97], 0, [97]⟩, ⟨[98], 0, [98]⟩] 1 1 rfl (by decide)
      (by decide) (Prod.ext rfl (by decide +kernel))).mpr (by decide)

/-- The greatest count. -/
def farCount : Bytes := ascii "9223372036854775807".toList

/-- With the greatest count, a page that does not start at the front makes each command panic. -/
theorem windows_wrap :
    ¬ ScanExact (scanListing noLibrary { count := 9223372036854775807 } windowStore) 1
        9223372036854775807
        ((scan noLibrary (some [49] :: countOf farCount)).exec World.answer windowStore).2 ∧
      ((ZRanges.ZRangeCommand.zrangebylex.handler (fun _ => none) noScores 1024 []
        (lexLimit farCount)).exec World.answer windowStore).2 = .error .sliceBounds ∧
      ((Sort.sorted (fun _ => none) 1024 [] (alphaLimit 9223372036854775807) [108]).handler.exec
        World.answer windowStore).2 = .error panicked := by
  refine ⟨?_, by decide +kernel, by decide +kernel⟩
  rintro ⟨next, -, h⟩
  have hpanic : ((scan noLibrary (some [49] :: countOf farCount)).exec World.answer
      windowStore).2 = .error .makeSlice := by decide +kernel
  cases h

end Gedis.Commands
