import Gedis.Core.Paging
import Gedis.Commands.OneRecord
import Gedis.Commands.Scans

/-!
# What a full iteration returns

An iteration calls a scan command with cursor zero and then with the cursor that comes back, until
it is zero again. Between the calls the store can change. An element that is there at every call is
returned exactly when its name has no slash, as long as no change moves it from behind the cursor to
before it.
-/

namespace Gedis.Commands

open Gedis.Core Datastruct Protocol Storage Std List Prog

variable {e : Entry} {ps : List Prefix} {p : Prefix} {order : List Nat} {key : Bytes}

private theorem toInt_cases (a b : Int) (ha : 0 ≤ a) (ha' : a < 2 ^ 63) (hb : 0 ≤ b)
    (hb' : b < 2 ^ 63) :
    (a + b < 2 ^ 63 ∧ (a + b).bmod (2 ^ 64) = a + b) ∨ (a + b).bmod (2 ^ 64) < 0 := by
  rw [Int.bmod_def]
  split <;> omega

/-- A page that is made is the page of the iteration by position. -/
theorem page_eq {α : Type} {cursor count next : Int64} {matched window : List α}
    (hcursor : 0 ≤ cursor.toInt) (hcount : 0 ≤ count.toInt)
    (h : page cursor count matched = .ok (next, window)) :
    next.toInt = (PageCall.mk matched count.toInt.toNat).next cursor.toInt.toNat ∧
      window = (PageCall.mk matched count.toInt.toNat).window cursor.toInt.toNat := by
  have hlt := cursor.toInt_lt
  have hlt' := count.toInt_lt
  rw [page] at h
  rcases toInt_cases (min cursor.toInt matched.length) count.toInt (by omega) (by omega) hcount hlt'
    with ⟨hfits, hstop⟩ | hneg
  · rw [hstop] at h
    by_cases hend : (matched.length : Int) ≤ min cursor.toInt matched.length + count.toInt
    · rw [if_pos hend] at h
      dsimp only at h
      rw [if_neg (by omega)] at h
      cases h
      constructor
      · rw [PageCall.next, if_pos (by dsimp only; omega)]
        rfl
      · rw [PageCall.window, take_of_length_le (by rw [length_drop]; omega),
          take_of_length_le (by rw [length_drop]; dsimp only; omega)]
        by_cases hbeyond : cursor.toInt ≤ matched.length
        · rw [min_eq_left hbeyond]
        · rw [drop_eq_nil_of_le (by omega), drop_eq_nil_of_le (by dsimp only; omega)]
    · rw [if_neg hend] at h
      dsimp only at h
      rw [if_neg (by omega)] at h
      cases h
      have hmin : min cursor.toInt matched.length = cursor.toInt := by omega
      rw [hmin] at hend hfits ⊢
      constructor
      · rw [Int64.toInt_ofInt_of_le (by omega) (by omega), PageCall.next,
          if_neg (by dsimp only; omega)]
        dsimp only
        omega
      · rw [PageCall.window, add_sub_cancel_left]
  · have hbelow : ¬ (matched.length : Int) ≤
        (min cursor.toInt matched.length + count.toInt).bmod (2 ^ 64) := by omega
    rw [if_neg hbelow] at h
    dsimp only at h
    rw [if_pos (by omega)] at h
    cases h

theorem sift_perm {α : Type} {less : α → α → Bool} {x : α} {ys : List α} :
    (sift less x ys).Perm (x :: ys) := by
  induction ys with
  | nil => exact .refl _
  | cons y ys ih =>
    rw [sift]
    split
    · exact (ih.cons y).trans (.swap x y ys)
    · exact .refl _

theorem sortBy_perm {α : Type} (less : α → α → Bool) {xs : List α} : (sortBy less xs).Perm xs := by
  have hfold : ∀ sorted, (xs.foldl (fun sorted x => sift less x sorted) sorted).Perm (sorted ++ xs) := by
    induction xs with
    | nil => exact fun sorted => by rw [foldl_nil, append_nil]
    | cons x xs ih =>
      intro sorted
      refine (ih _).trans ((sift_perm.append_right xs).trans ?_)
      exact perm_middle.symm
  exact (reverse_perm _).trans (hfold [])

theorem mem_sortBy_arrange {α : Type} {less : α → α → Bool} {xs : List α} {x : α} :
    x ∈ sortBy less (arrange order xs) ↔ x ∈ xs :=
  ((sortBy_perm less).trans (arrange_perm order xs)).mem_iff

/-- What is scanned. -/
inductive Scanned where
  | keys
  | hash (key : Bytes)
  | set (key : Bytes)
  | zset (key : Bytes)
  deriving DecidableEq, Repr

/-- One call of an iteration: the store and the clock that it meets, its options, and the order in
which it finds the elements of a map. -/
structure ScanCall where
  store : Pebble
  clock : Nat → Int64
  opts : List Arg
  order : List Nat

def ScanCall.world (c : ScanCall) : World := ⟨c.store, c.clock⟩

section
variable (lib : ScanLibrary) (maxAlloc : Nat)

def Scanned.command : Scanned → ScanCommand
  | .keys => .scan
  | .hash _ => .hscan
  | .set _ => .sscan
  | .zset _ => .zscan

/-- The command, called with a cursor that came back from the last call. -/
def Scanned.handler (order : List Nat) (cursor : Int64) (opts : List Arg) :
    Scanned → Handler (Go ScanReply)
  | .keys => scan lib (some (formatInt cursor) :: opts)
  | .hash key => hscan lib order (some key :: some (formatInt cursor) :: opts)
  | .set key => sscan lib maxAlloc order (some key :: some (formatInt cursor) :: opts)
  | .zset key => zscan lib maxAlloc order (some key :: some (formatInt cursor) :: opts)

def Scanned.elements (order : List Nat) (o : ScanOptions) :
    Scanned → Handler (Except (Fault String) Elements)
  | .keys => keyElements o
  | .hash key => hashElements order key o
  | .set key => setElements maxAlloc order key
  | .zset key => zsetElements lib maxAlloc order key

def ScanCall.reply (what : Scanned) (cursor : Int64) (c : ScanCall) : Go ScanReply :=
  ((what.handler lib maxAlloc c.order cursor c.opts).exec World.answer c.world).2

/-- The names that a full iteration returns; nothing when a call fails or panics, or when the cursor
is zero before the last call or not zero after it. -/
def iterate (what : Scanned) : Int64 → List ScanCall → Option (List Bytes)
  | _, [] => none
  | cursor, c :: cs =>
    match c.reply lib maxAlloc what cursor with
    | .ok (.page next elems) =>
      let names := elems.filterMap List.head?
      if next = 0 then if cs.isEmpty then some names else none
      else (iterate what next cs).map (names ++ ·)
    | _ => none

/-- The call as a call of an iteration by position: the names that match, in order. -/
def ScanCall.paged (what : Scanned) (c : ScanCall) : PageCall Bytes :=
  match scanOptions what.command {} c.opts with
  | .error _ => ⟨[], 0⟩
  | .ok o =>
    match ((what.elements lib maxAlloc c.order o).exec World.answer c.world).2 with
    | .error _ => ⟨[], 0⟩
    | .ok elems => ⟨(elems.map Prod.fst).filter (pathMatch lib o.pattern), o.count.toInt.toNat⟩

/-- An element is there: looking up the key finds a live record, or reading the container finds the
field or member. -/
def Scanned.Holds (what : Scanned) (c : ScanCall) (x : Bytes) : Prop :=
  match what with
  | .keys => ∃ p e, ((lookupRaw x).exec World.answer c.world).2 = .record p e
  | .hash key => ∃ m expiry, ((readHash key).exec World.answer c.world).2 = .ok (some (m, expiry)) ∧
      x ∈ m
  | .set key => ∃ m, ((readSet maxAlloc key).exec World.answer c.world).2 = .ok (some m) ∧ x ∈ m
  | .zset key => ∃ z, ((readZSet maxAlloc key).exec World.answer c.world).2 = .ok (some z) ∧ x ∈ z

end

section
variable {w : World} {α : Type}

/-- Reading a record changes neither the records nor the clock. -/
theorem exec_get_bind {raw : Bytes} {next : Option Bytes → Handler α} :
    ∃ w' : World, w'.store.db = w.store.db ∧ w'.clock = w.clock ∧
      (Kv.get raw >>= next).exec World.answer w = (next w.store.db[raw]?).exec World.answer w' := by
  have hget : Lossy (fun _ _ => True) (fun _ => True) w.store.db (.get raw)
      (w.store.answer (w.clock 0) (.get raw)).1.db (w.store.answer (w.clock 0) (.get raw)).2 :=
    Pebble.answer_lossy (fun _ => trivial) trivial trivial
  refine ⟨(w.answer (.get raw)).1, hget.1, rfl, ?_⟩
  rw [exec_bind]
  have hresult : ((Kv.get raw).exec World.answer w).2 = w.store.db[raw]? := hget.2
  rw [hresult]
  rfl

theorem exec_scanUserKeys (found : List (Bytes × Bytes)) :
    (scanUserKeys ps found).exec World.answer w = (w, ps.foldl (addType w.store.db) found) := by
  induction ps generalizing found with
  | nil => rfl
  | cons p ps ih =>
    exact ih _

/-- A record that can be decoded and has not expired. -/
def LiveEntry (m : OrdMap Bytes Bytes) (now : Int64) (raw : Bytes) (e : Entry) : Prop :=
  ∃ v, m[raw]? = some v ∧ decode v = some e ∧ expired e now = false

theorem mem_liveTypes {now : Int64} {found : List (Bytes × Bytes)} {name raw : Bytes}
    (hfound : (name, raw) ∈ found) (hlive : LiveEntry w.store.db now raw e) :
    (name, e.typ) ∈ ((liveTypes now found).exec World.answer w).2 := by
  induction found generalizing w with
  | nil => cases hfound
  | cons first found ih =>
    rw [liveTypes]
    obtain ⟨w', hdb, -, hexec⟩ := exec_get_bind
    rw [hexec]
    have hlive' : LiveEntry w'.store.db now raw e := by rwa [hdb]
    rcases mem_cons.mp hfound with hfirst | hrest
    · cases hfirst
      obtain ⟨v, hv, hd, hx⟩ := hlive
      rw [hv]
      dsimp only
      rw [hd]
      dsimp only
      rw [hx]
      rw [if_neg Bool.false_ne_true, exec_bind]
      exact mem_cons_self ..
    · split
      · exact ih hrest hlive'
      · split
        · exact ih hrest hlive'
        · split
          · exact ih hrest hlive'
          · rw [exec_bind]
            exact mem_cons_of_mem _ (ih hrest hlive')

/-- A key that is found is found under the prefix that probing finds. -/
theorem lookupFrom_record (h : ((lookupFrom key ps).exec World.answer w).2 = .record p e) :
    ps.find? (fun p => decide (rawKey p key ∈ w.store.db)) = some p ∧
      LiveEntry w.store.db (w.clock 0) (rawKey p key) e := by
  induction ps generalizing w with
  | nil => cases h
  | cons q ps ih =>
    rw [lookupFrom] at h
    obtain ⟨w', hdb, hclock, hexec⟩ := exec_get_bind
    rw [hexec] at h
    cases hv : w.store.db[rawKey q key]? with
    | none =>
      rw [hv] at h
      have hnot : rawKey q key ∉ w.store.db := by
        intro hmem
        rw [ExtTreeMap.getElem?_eq_some_getElem hmem] at hv
        cases hv
      rw [find?_cons_of_neg (by simpa using hnot), ← hdb, ← hclock]
      exact ih h
    | some v =>
      rw [hv] at h
      have hmem : rawKey q key ∈ w.store.db := (ExtTreeMap.getElem?_eq_some_iff.mp hv).1
      rw [find?_cons_of_pos (by simpa using hmem)]
      dsimp only at h
      split at h
      · cases h
      · next e' hd =>
        split at h
        · next hzero =>
          cases h
          exact ⟨rfl, v, hv, hd, by rw [expired, hzero]; rfl⟩
        · next hset =>
          rw [exec_bind] at h
          split at h
          · cases h
          · next hlater =>
            cases h
            refine ⟨rfl, v, hv, hd, ?_⟩
            have hnow : ¬ e.expiry ≤ w.clock 0 := by
              rw [← hclock]
              exact hlater
            rw [expired, decide_eq_false hnow, Bool.and_false]

/-- Looking up a key whose first record is live finds that record and changes no record. -/
theorem exec_lookupFrom_live
    (hfind : ps.find? (fun p => decide (rawKey p key ∈ w.store.db)) = some p)
    (hlive : LiveEntry w.store.db (w.clock 0) (rawKey p key) e) :
    ∃ w' : World, w'.store.db = w.store.db ∧
      (lookupFrom key ps).exec World.answer w = (w', .record p e) := by
  induction ps generalizing w with
  | nil => cases hfind
  | cons q ps ih =>
    rw [lookupFrom]
    obtain ⟨w', hdb, hclock, hexec⟩ := exec_get_bind
    rw [hexec]
    by_cases hmem : rawKey q key ∈ w.store.db
    · rw [find?_cons_of_pos (by simpa using hmem)] at hfind
      cases hfind
      obtain ⟨v, hv, hd, hx⟩ := hlive
      rw [hv]
      dsimp only
      rw [hd]
      dsimp only
      by_cases hzero : e.expiry = 0
      · rw [if_pos hzero]
        exact ⟨w', hdb, rfl⟩
      · have hlater : ¬ e.expiry ≤ w'.clock 0 := by
          rw [hclock]
          simpa [expired, hzero] using hx
        rw [if_neg hzero]
        refine ⟨(w'.answer .now).1, hdb, ?_⟩
        exact congrArg (exec World.answer · (w'.answer .now).1) (if_neg hlater)
    · have hnone : w.store.db[rawKey q key]? = none := ExtTreeMap.getElem?_eq_none hmem
      rw [find?_cons_of_neg (by simpa using hmem), ← hdb] at hfind
      rw [← hdb, ← hclock] at hlive
      rw [hnone, ← hdb]
      exact ih hfind hlive

end

section
variable {lib : ScanLibrary} {maxAlloc : Nat} {order : List Nat} {o : ScanOptions} {w : World}
  {x : Bytes}

/-- A key that is there is among the keys of `SCAN`. -/
theorem mem_keyElements (htype : o.typeFilter = [])
    (h : ((lookupRaw x).exec World.answer w).2 = .record p e) :
    ∃ elems, ((keyElements o).exec World.answer w).2 = .ok elems ∧ x ∈ elems.map Prod.fst := by
  obtain ⟨hprobe, hlive⟩ := lookupFrom_record h
  have hlisted : (x, rawKey p x) ∈ allUserKeys w.store.db :=
    mem_allUserKeys.mpr ⟨p, hprobe, rfl⟩
  rw [keyElements, exec_bind, exec_bind, exec_bind]
  refine ⟨_, rfl, ?_⟩
  have htyped : (x, e.typ) ∈ ((liveTypes (w.clock 0) (allUserKeys w.store.db)).exec World.answer
      ⟨w.store, fun i => w.clock (i + 1)⟩).2 := mem_liveTypes hlisted hlive
  have hsorted := (sortBy_perm nameLess).mem_iff.mpr htyped
  rw [map_map, mem_map]
  refine ⟨(x, e.typ), mem_filter.mpr ⟨hsorted, ?_⟩, rfl⟩
  rw [htype]
  rfl

/-- Reading the elements of a container. -/
theorem exec_hashElements : ((hashElements order key o).exec World.answer w).2 =
      match ((readHash key).exec World.answer w).2 with
      | .error f => .error (.failed f.message)
      | .ok none => .ok []
      | .ok (some (m, _)) => .ok ((sortBy nameLess (arrange order m.toList)).map fun f =>
          (f.1, if o.noValues then [f.1] else [f.1, f.2])) := by
  rw [hashElements, exec_bind]
  rcases ((readHash key).exec World.answer w).2 with f | _ | ⟨m, expiry⟩ <;> rfl

theorem exec_setElements : ((setElements maxAlloc order key).exec World.answer w).2 =
      match ((readSet maxAlloc key).exec World.answer w).2 with
      | .error f => .error f
      | .ok none => .ok []
      | .ok (some m) => .ok ((sortBy nameLess (arrange order m.toList)).map fun e =>
          (e.1, [e.1])) := by
  rw [setElements, exec_bind]
  rcases ((readSet maxAlloc key).exec World.answer w).2 with f | _ | m <;> rfl

theorem exec_zsetElements : ((zsetElements lib maxAlloc order key).exec World.answer w).2 =
      match ((readZSet maxAlloc key).exec World.answer w).2 with
      | .error f => .error f
      | .ok none => .ok []
      | .ok (some z) => .ok ((sortBy pairLess (arrange order z.toList)).map fun e =>
          (e.1, [e.1, lib.formatScore e.2])) := by
  rw [zsetElements, exec_bind]
  rcases ((readZSet maxAlloc key).exec World.answer w).2 with f | _ | z <;> rfl

/-- The names of the sorted elements of a map are its keys. -/
theorem mem_sorted_names {β γ : Type} {less : Bytes × β → Bytes × β → Bool} {m : OrdMap Bytes β}
    {f : Bytes × β → γ} (h : x ∈ m) :
    x ∈ ((sortBy less (arrange order m.toList)).map fun e => (e.1, f e)).map Prod.fst := by
  obtain ⟨v, hv⟩ : ∃ v, m[x]? = some v := ⟨_, ExtTreeMap.getElem?_eq_some_getElem h⟩
  have hmem : (x, v) ∈ m.toList := ExtTreeMap.mem_toList_iff_getElem?_eq_some.mpr hv
  rw [map_map, mem_map]
  exact ⟨(x, v), mem_sortBy_arrange.mpr hmem, rfl⟩

variable (lib) in
/-- An element that is there is read. -/
theorem Scanned.Holds.mem_elements {what : Scanned} {c : ScanCall} (h : what.Holds maxAlloc c x)
    (htype : o.typeFilter = []) :
    ∃ elems, ((what.elements lib maxAlloc c.order o).exec World.answer c.world).2 = .ok elems ∧
      x ∈ elems.map Prod.fst := by
  cases what with
  | keys =>
    obtain ⟨p, e, hlookup⟩ := h
    exact mem_keyElements htype hlookup
  | hash =>
    obtain ⟨m, expiry, hread, hx⟩ := h
    refine ⟨_, exec_hashElements.trans (by rw [hread]), mem_sorted_names hx⟩
  | set =>
    obtain ⟨m, hread, hx⟩ := h
    refine ⟨_, exec_setElements.trans (by rw [hread]), mem_sorted_names hx⟩
  | zset =>
    obtain ⟨z, hread, hx⟩ := h
    refine ⟨_, exec_zsetElements.trans (by rw [hread]), mem_sorted_names hx⟩

/-- What is sent for an element begins with its name. -/
theorem head_elements {what : Scanned} {elems : Elements}
    (h : ((what.elements lib maxAlloc order o).exec World.answer w).2 = .ok elems) :
    ∀ e ∈ elems, e.2.head? = some e.1 := by
  cases what with
  | keys =>
    rw [Scanned.elements, keyElements, exec_bind, exec_bind, exec_bind] at h
    cases h
    intro e he
    obtain ⟨k, -, rfl⟩ := mem_map.mp he
    rfl
  | hash =>
    rw [Scanned.elements, exec_hashElements] at h
    split at h
    · cases h
    · cases h
      nofun
    · cases h
      intro e he
      obtain ⟨f, -, rfl⟩ := mem_map.mp he
      split <;> rfl
  | set =>
    rw [Scanned.elements, exec_setElements] at h
    split at h
    · cases h
    · cases h
      nofun
    · cases h
      intro e he
      obtain ⟨f, -, rfl⟩ := mem_map.mp he
      rfl
  | zset =>
    rw [Scanned.elements, exec_zsetElements] at h
    split at h
    · cases h
    · cases h
      nofun
    · cases h
      intro e he
      obtain ⟨f, -, rfl⟩ := mem_map.mp he
      rfl

end

section
variable {lib : ScanLibrary} {maxAlloc : Nat} {o : ScanOptions} {what : Scanned} {c : ScanCall}
  {cursor next : Int64} {elems : List (List Bytes)}

theorem handler_eq {opts : List Arg} : what.handler lib maxAlloc order cursor opts =
      scanWith lib what.command (some (formatInt cursor)) opts
        fun o => what.elements lib maxAlloc order o := by
  cases what <;> rfl

theorem readCursor_formatInt (h : 0 ≤ cursor.toInt) :
    readCursor (some (formatInt cursor)) = .ok cursor := by
  have hnot : ¬ cursor < 0 := by
    rw [Int64.lt_iff_toInt_lt]
    exact Int.not_lt.mpr h
  rw [readCursor, readNatural, parseInt_formatInt]
  exact if_neg hnot

/-- The names in a page are the names of its elements. -/
theorem filterMap_head {window : Elements} (h : ∀ e ∈ window, e.2.head? = some e.1) :
    (window.map Prod.snd).filterMap List.head? = window.map Prod.fst := by
  rw [filterMap_map]
  induction window with
  | nil => rfl
  | cons e window ih =>
    have he : (head? ∘ Prod.snd) e = some e.1 := h e (mem_cons_self ..)
    rw [filterMap_cons_some he, map_cons,
      ih fun e' he' => h e' (mem_cons_of_mem _ he')]

/-- A call that replies with a page hands out the page of the iteration by position. -/
theorem reply_page (hopts : scanOptions what.command {} c.opts = .ok o) (hcount : 0 ≤ o.count.toInt)
    (hcursor : 0 ≤ cursor.toInt)
    (h : c.reply lib maxAlloc what cursor = .ok (.page next elems)) :
    next.toInt = (c.paged lib maxAlloc what).next cursor.toInt.toNat ∧
      elems.filterMap List.head? = (c.paged lib maxAlloc what).window cursor.toInt.toNat := by
  rw [ScanCall.reply, handler_eq, scanWith, readCursor_formatInt hcursor] at h
  rw [hopts] at h
  rw [exec_bind] at h
  rw [ScanCall.paged, hopts]
  dsimp only
  cases hread : ((what.elements lib maxAlloc c.order o).exec World.answer c.world).2 with
  | error f =>
    rw [hread] at h
    cases f <;> cases h
  | ok all =>
    rw [hread] at h
    have hrespond : respond lib o cursor all = .ok (.page next elems) := h
    have hhead := head_elements hread
    rw [respond] at hrespond
    cases hpage : page cursor o.count (all.filter fun e => pathMatch lib o.pattern e.1) with
    | error =>
      rw [hpage] at hrespond
      cases hrespond
    | ok found =>
      rw [hpage] at hrespond
      cases hrespond
      have hfound : page cursor o.count (all.filter fun e => pathMatch lib o.pattern e.1) =
          .ok (found.1, found.2) := hpage
      obtain ⟨hnext, hwindow⟩ := page_eq hcursor hcount hfound
      have hnames : (all.map Prod.fst).filter (pathMatch lib o.pattern) =
          (all.filter fun e => pathMatch lib o.pattern e.1).map Prod.fst := filter_map
      dsimp only
      rw [hnames, PageCall.next_map, ← PageCall.map_window, ← hwindow]
      refine ⟨hnext, filterMap_head fun e he => hhead e ?_⟩
      rw [hwindow] at he
      exact (mem_filter.mp (mem_of_mem_drop (mem_of_mem_take he))).1

end

section
variable {lib : ScanLibrary} {maxAlloc : Nat} {what : Scanned}

/-- The options of a call: the default pattern, no type filter and a positive count. -/
def ScanCall.Plain (what : Scanned) (c : ScanCall) : Prop :=
  ∃ o, scanOptions what.command {} c.opts = .ok o ∧ o.pattern = starPattern ∧ o.typeFilter = [] ∧
    0 < o.count

/-- A full iteration is one by position. -/
theorem iterate_eq {cursor : Int64} {calls : List ScanCall} {names : List Bytes}
    (hplain : ∀ c ∈ calls, ScanCall.Plain what c) (hcursor : 0 ≤ cursor.toInt)
    (h : iterate lib maxAlloc what cursor calls = some names) :
    PageCall.Complete cursor.toInt.toNat (calls.map (·.paged lib maxAlloc what)) ∧
      names = PageCall.handed cursor.toInt.toNat (calls.map (·.paged lib maxAlloc what)) := by
  induction calls generalizing cursor names with
  | nil => cases h
  | cons c cs ih =>
    obtain ⟨o, hopts, -, -, hcount⟩ := hplain c (mem_cons_self ..)
    have hcount' : 0 ≤ o.count.toInt := Int.le_of_lt (Int64.lt_iff_toInt_lt.mp hcount)
    rw [iterate] at h
    split at h
    · next next elems hreply =>
      obtain ⟨hnext, hwindow⟩ := reply_page hopts hcount' hcursor hreply
      have hnat : (c.paged lib maxAlloc what).next cursor.toInt.toNat = next.toInt.toNat := by omega
      rw [map_cons, PageCall.Complete, PageCall.handed, hnat, ← hwindow]
      by_cases hzero : next = 0
      · rw [if_pos hzero] at h
        subst hzero
        split at h
        · next hlast =>
          cases h
          rw [isEmpty_iff.mp hlast]
          exact ⟨.inl ⟨rfl, rfl⟩, (append_nil _).symm⟩
        · cases h
      · rw [if_neg hzero] at h
        obtain ⟨rest, hrest, rfl⟩ := Option.map_eq_some_iff.mp h
        obtain ⟨hcomplete, hhanded⟩ :=
          ih (fun d hd => hplain d (mem_cons_of_mem _ hd)) (by omega) hrest
        have hne : next.toInt.toNat ≠ 0 := by
          intro hz
          refine hzero (Int64.toInt_inj.mp ?_)
          rw [Int64.toInt_zero]
          omega
        exact ⟨.inr ⟨hne, hcomplete⟩, by rw [hhanded]⟩
    · cases h

/-- An element that is there is listed unless its name has a slash. -/
theorem mem_listing_iff {c : ScanCall} {x : Bytes} (hplain : ScanCall.Plain what c)
    (hholds : what.Holds maxAlloc c x) :
    0 < (c.paged lib maxAlloc what).count ∧ (x ∈ (c.paged lib maxAlloc what).listing ↔ 47 ∉ x) := by
  obtain ⟨o, hopts, hpattern, htype, hcount⟩ := hplain
  obtain ⟨elems, hread, hx⟩ := hholds.mem_elements lib htype
  have hpos : 0 < o.count.toInt := Int64.lt_iff_toInt_lt.mp hcount
  rw [ScanCall.paged, hopts]
  dsimp only
  rw [hread]
  refine ⟨by dsimp only; omega, ?_⟩
  rw [mem_filter, and_iff_right hx, pathMatch, if_pos hpattern, Bool.not_eq_true',
    ← Bool.not_eq_true, contains_iff_mem]

end

section

/-- Patterns and scores that no run below asks for. -/
def noLibrary : ScanLibrary := ⟨fun _ _ => false, fun _ => []⟩

/-- `MSET` of empty strings under the given keys, then `DEL` of some of them. -/
def storeOf (added removed : List Bytes) : Pebble :=
  run step emptyStore [.dispatch (.mset (added.map fun k => (k, []))) fun _ => 1,
    .dispatch (.del removed) fun _ => 1]

def countOne : List Arg := [some (ascii ['C', 'O', 'U', 'N', 'T']), some (ascii ['1'])]

/-- `SCAN` with a count of one. -/
def scanOne (store : Pebble) : ScanCall := ⟨store, fun _ => 1, countOne, []⟩

theorem plain_scanOne {store : Pebble} : ScanCall.Plain .keys (scanOne store) := by
  have hopts : scanOptions .scan {} countOne = .ok { count := 1 } := by decide
  exact ⟨_, hopts, rfl, rfl, by decide⟩

/-- The keys "a" and "b"; "c" comes before the second call. -/
def growing : List ScanCall :=
  [scanOne (storeOf [[97], [98]] []), scanOne (storeOf [[97], [98], [99]] []),
    scanOne (storeOf [[97], [98], [99]] [])]

/-- The keys "a", "b" and "c"; "a" goes before the second call. -/
def shrinking : List ScanCall :=
  [scanOne (storeOf [[97], [98], [99]] []), scanOne (storeOf [[97], [98], [99]] [[97]])]

end

end Gedis.Commands
