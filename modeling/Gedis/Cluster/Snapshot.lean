import Gedis.Cluster.Setslot
import Gedis.Core.OrdMap
import Gedis.Core.Words
import Mathlib.Data.Nat.Digits.Defs

/-!
# The saved slot table

The slot table is saved as a text with one line for the epoch, one for every slot and one for every
mark. Nodes are written by identifier. The marks are enumerated in an arbitrary order. A node that
starts reads the text back into the table that it has built from its configuration.
-/

namespace Gedis.Cluster

open Gedis.Core List Topology

variable {s : Nat} {nodes : List TopoNode} {f : Nat → Option Bytes} {t : Topology} {id : Bytes}
  {specs : List NodeSpec} {n : UInt64} {rest : List Bytes}
  {migratingOrder importingOrder : List Nat}

/-- What is saved of a table. The epoch is a 64-bit number. -/
structure Snapshot where
  owner : Nat → Option Nat
  migrating : Nat → Option Bytes
  importing : Nat → Option Bytes
  epoch : UInt64

def Topology.snapshot (t : Topology) : Snapshot :=
  ⟨t.owner, t.migrating, t.importing, UInt64.ofNat t.epoch⟩

/-- A table takes over what was saved, unless that is older. -/
def Topology.loadSnapshot (t : Topology) (snap : Snapshot) : Except String Topology :=
  if snap.epoch < UInt64.ofNat t.epoch then .error "epoch regressed"
  else .ok { t with
    owner := snap.owner
    owned := fun s => (snap.owner s).isSome
    migrating := snap.migrating
    importing := snap.importing
    epoch := snap.epoch.toNat }

/-- A number in decimal. -/
def numeral (n : Nat) : Bytes := ascii (Nat.toDigits 10 n)

/-- What stands for a slot without an owner. -/
def noOwner : Bytes := [45]

def ownerID (nodes : List TopoNode) (owner : Option Nat) : Bytes :=
  (owner.bind fun idx => nodes[idx]?).elim noOwner TopoNode.id

/-- The marked slots with their marks. -/
def marks (f : Nat → Option Bytes) : List (Nat × Bytes) :=
  (List.range numSlots).filterMap fun s => (f s).map (s, ·)

/-- The kinds of lines about a slot. -/
inductive LineKind where
  | owner | migrating | importing
  deriving DecidableEq, Repr

def LineKind.word : LineKind → Bytes
  | .owner => ascii "owner".toList
  | .migrating => ascii "migrating".toList
  | .importing => ascii "importing".toList

def epochWord : Bytes := ascii "epoch".toList

/-- The words of each line. -/
def snapshotLines (migratingOrder importingOrder : List Nat) (snap : Snapshot)
    (nodes : List TopoNode) : List (List Bytes) :=
  [epochWord, numeral snap.epoch.toNat] ::
    ((List.range numSlots).map fun s =>
      [LineKind.owner.word, numeral s, ownerID nodes (snap.owner s)]) ++
    ((arrange migratingOrder (marks snap.migrating)).map fun m =>
      [LineKind.migrating.word, numeral m.1, m.2]) ++
    ((arrange importingOrder (marks snap.importing)).map fun m =>
      [LineKind.importing.word, numeral m.1, m.2])

def marshalSnapshot (migratingOrder importingOrder : List Nat) (snap : Snapshot)
    (nodes : List TopoNode) : Bytes :=
  (snapshotLines migratingOrder importingOrder snap nodes).flatMap fun ws => joinFields ws ++ [10]

inductive SnapshotError where
  | badEpochLine
  | badEpoch (text : Bytes)
  | badFields (kind : LineKind)
  | badSlot (text : Bytes)
  | unknownNode (id : Bytes)
  | badLine (line : Bytes)
  | lineTooLong
  | missingEpoch
  deriving DecidableEq, Repr

/-- The position of the last node with an identifier. -/
def byID (nodes : List TopoNode) (id : Bytes) : Option Nat :=
  ((nodes.zipIdx.filter fun n => n.1.id = id).getLast?).map Prod.snd

/-- What was read so far. -/
structure Reading where
  snap : Snapshot
  seenEpoch : Bool

/-- Nothing was read yet. -/
def Reading.start : Reading :=
  ⟨⟨fun _ => none, fun _ => none, fun _ => none, 0⟩, false⟩

def Reading.withOwner (r : Reading) (owner : Nat → Option Nat) : Reading :=
  { r with snap := { r.snap with owner } }

def Reading.withMigrating (r : Reading) (migrating : Nat → Option Bytes) : Reading :=
  { r with snap := { r.snap with migrating } }

def Reading.withImporting (r : Reading) (importing : Nat → Option Bytes) : Reading :=
  { r with snap := { r.snap with importing } }

/-- A line about a slot. -/
def readSlotLine (nodes : List TopoNode) (r : Reading) (kind : LineKind) :
    List Bytes → Except SnapshotError Reading
  | [slot, id] =>
    match parseSlotArg slot with
    | none => .error (.badSlot slot)
    | some s =>
      match kind with
      | .owner =>
        if id = noOwner then .ok (r.withOwner (Function.update r.snap.owner s none))
        else
          match byID nodes id with
          | none => .error (.unknownNode id)
          | some idx => .ok (r.withOwner (Function.update r.snap.owner s (some idx)))
      | .migrating => .ok (r.withMigrating (Function.update r.snap.migrating s (some id)))
      | .importing => .ok (r.withImporting (Function.update r.snap.importing s (some id)))
  | _ => .error (.badFields kind)

/-- One line. -/
def readLine (nodes : List TopoNode) (r : Reading) (line : Bytes) : Except SnapshotError Reading :=
  match splitFields line with
  | [] => .ok r
  | first :: rest =>
    if first = epochWord then
      match rest with
      | [text] =>
        match parseUint 64 text with
        | none => .error (.badEpoch text)
        | some n => .ok ⟨{ r.snap with epoch := n }, true⟩
      | _ => .error .badEpochLine
    else if first = LineKind.owner.word then readSlotLine nodes r .owner rest
    else if first = LineKind.migrating.word then readSlotLine nodes r .migrating rest
    else if first = LineKind.importing.word then readSlotLine nodes r .importing rest
    else .error (.badLine line)

/-- The size of the scanner's buffer, which a line has to fit into together with its end. -/
def maxLine : Nat := 1024 * 1024

def readLines (nodes : List TopoNode) : Reading → List Bytes → Except SnapshotError Reading
  | r, [] => .ok r
  | r, line :: lines =>
    if maxLine ≤ line.length then .error .lineTooLong
    else
      match readLine nodes r (dropCR line) with
      | .error e => .error e
      | .ok r => readLines nodes r lines

def unmarshalSnapshot (data : Bytes) (nodes : List TopoNode) : Except SnapshotError Snapshot :=
  match readLines nodes .start (scanLines data) with
  | .error e => .error e
  | .ok r => if r.seenEpoch then .ok r.snap else .error .missingEpoch

private theorem plain_digit : ∀ b : UInt8, 48 ≤ b.toNat ∧ b.toNat ≤ 57 → Plain b :=
  forall_byte (by decide +kernel)

theorem solid_numeral {n : Nat} : Solid (numeral n) ∧ numeral n ≠ [] :=
  ⟨solid_of_plain fun b hb => plain_digit b (mem_digits hb), digits_ne_nil⟩

theorem parseSlotArg_numeral (h : s < numSlots) : parseSlotArg (numeral s) = some s := by
  have hlt : s < 2 ^ 63 := Nat.lt_trans h (by decide)
  have hparse : parseInt (numeral s) = some (Int64.ofInt s) :=
    parseInt_digits digits_ne_nil (fun b hb => mem_digits hb) (parseDigits_toDigits s) hlt
  have hvalue : (Int64.ofInt s).toInt = s := Int64.toInt_ofInt_of_le (by omega) (by omega)
  have hnot : ¬ (Int64.ofInt s < 0 ∨ (numSlots : Int) ≤ (Int64.ofInt s).toInt) := by
    rw [Int64.lt_iff_toInt_lt, Int64.toInt_zero]
    omega
  rw [parseSlotArg, hparse]
  dsimp only
  rw [if_neg hnot, hvalue, Int.toNat_natCast]

theorem parseUint_numeral : parseUint 64 (numeral n.toNat) = some n := by
  have hlt : n.toNat < 2 ^ 64 := n.toNat_lt
  rw [parseUint, if_neg solid_numeral.2, numeral, parseDigits_toDigits]
  dsimp only
  rw [if_neg (by omega), UInt64.ofNat_toNat]

theorem length_numeral_le {n k : Nat} (hk : 0 < k) (h : n < 10 ^ k) : (numeral n).length ≤ k := by
  rw [numeral, ascii, length_map]
  exact Nat.toDigitsCore_length 10 _ n k hk h

/-- Identifiers that can be told apart in the text: they are distinct words, none of them stands for
no owner, and none is very long. -/
structure Readable (nodes : List TopoNode) : Prop where
  distinct : (nodes.map TopoNode.id).Nodup
  word : ∀ n ∈ nodes, Solid n.id ∧ n.id ≠ []
  ne_noOwner : ∀ n ∈ nodes, n.id ≠ noOwner
  short : ∀ n ∈ nodes, n.id.length < 100000

theorem Readable.byID (h : Readable nodes) {idx : Nat} {n : TopoNode} (hn : nodes[idx]? = some n) :
    byID nodes n.id = some idx := by
  have hmem : (n, idx) ∈ nodes.zipIdx.filter fun x => x.1.id = n.id :=
    mem_filter.mpr ⟨mk_mem_zipIdx_iff_getElem?.mpr hn, by simp⟩
  obtain ⟨⟨m, j⟩, hlast⟩ := Option.isSome_iff_exists.mp
    (getLast?_isSome.mpr (ne_nil_of_mem hmem))
  obtain ⟨hzip, hid⟩ := mem_filter.mp (mem_of_getLast? hlast)
  have hm := mk_mem_zipIdx_iff_getElem?.mp hzip
  obtain ⟨hj, -⟩ := List.getElem?_eq_some_iff.mp hm
  have hsame : j = idx := by
    refine (getElem?_inj (by rw [length_map]; exact hj) h.distinct).mp ?_
    rw [getElem?_map, getElem?_map, hm, hn, Option.map_some, Option.map_some,
      of_decide_eq_true hid]
  rw [Cluster.byID, hlast, hsame]
  rfl

/-- A line of words that the scanner and the splitter give back as they are. -/
structure Legible (ws : List Bytes) : Prop where
  word : ∀ w ∈ ws, Solid w ∧ w ≠ []
  short : (joinFields ws).length < maxLine

variable {r : Reading} {kind : LineKind}

theorem readLines_legible {ws : List Bytes} (h : Legible ws) {lines : List Bytes} :
    readLines nodes r (joinFields ws :: lines) =
      match readLine nodes r (joinFields ws) with
      | .error e => .error e
      | .ok r => readLines nodes r lines := by
  rw [readLines, if_neg (not_le.mpr h.short), dropCR_join fun w hw => (h.word w hw).1]

theorem readLine_epoch (h : Legible [epochWord, numeral n.toNat]) :
    readLine nodes r (joinFields [epochWord, numeral n.toNat]) =
      .ok ⟨{ r.snap with epoch := n }, true⟩ := by
  rw [readLine, splitFields_join h.word]
  dsimp only
  rw [if_pos rfl, parseUint_numeral]

theorem readLine_slot {words : List Bytes} (h : Legible (kind.word :: words)) :
    readLine nodes r (joinFields (kind.word :: words)) = readSlotLine nodes r kind words := by
  rw [readLine, splitFields_join h.word]
  cases kind <;> rfl

/-- Lines that each change what was read in the same way are folded over. -/
theorem readLines_fold {α : Type} {line : α → List Bytes} {put : Reading → α → Reading}
    {xs : List α} (hlegible : ∀ x ∈ xs, Legible (line x))
    (hput : ∀ x ∈ xs, ∀ r, readLine nodes r (joinFields (line x)) = .ok (put r x)) (r : Reading) :
    readLines nodes r (xs.map (joinFields ∘ line) ++ rest) =
      readLines nodes (xs.foldl put r) rest := by
  induction xs generalizing r with
  | nil => rfl
  | cons x xs ih =>
    obtain ⟨hx, hxs⟩ := forall_mem_cons.mp hlegible
    obtain ⟨hp, hps⟩ := forall_mem_cons.mp hput
    rw [map_cons, cons_append, Function.comp_apply, readLines_legible hx, hp r]
    exact ih hxs hps (put r x)

/-- Steps that each change one field fold over that field. -/
theorem foldl_field {σ φ α : Type} {field : σ → φ} (set : σ → φ → σ) (change : φ → α → φ)
    (hfield : ∀ s f, field (set s f) = f) (hset : ∀ s f g, set (set s f) g = set s g)
    (hself : ∀ s, set s (field s) = s) {s : σ} {xs : List α} :
    xs.foldl (fun s x => set s (change (field s) x)) s = set s (xs.foldl change (field s)) := by
  induction xs generalizing s with
  | nil => exact (hself s).symm
  | cons x xs ih => rw [foldl_cons, foldl_cons, ih, hfield, hset]

/-- Writing values of a function at some positions gives the function there. -/
theorem foldl_update {α β : Type} {f g : Nat → β} {position : α → Nat} {value : α → β} {xs : List α}
    (h : ∀ x ∈ xs, value x = g (position x)) (s : Nat) :
    (xs.foldl (fun f x => Function.update f (position x) (value x)) f) s =
      if s ∈ xs.map position then g s else f s := by
  induction xs generalizing f with
  | nil => rfl
  | cons x xs ih =>
    obtain ⟨hx, hxs⟩ := forall_mem_cons.mp h
    rw [foldl_cons, ih hxs, map_cons]
    by_cases hs : s ∈ xs.map position
    · rw [if_pos hs, if_pos (mem_cons_of_mem _ hs)]
    · rw [if_neg hs]
      by_cases hsx : s = position x
      · rw [if_pos (mem_cons.mpr (.inl hsx)), hsx, Function.update_self, hx]
      · rw [if_neg (by simp [hsx, hs]), Function.update_of_ne hsx]

/-- Owners and marks of valid slots, and of configured nodes. -/
structure Writable (t : Topology) : Prop where
  owner : ∀ s i, t.owner s = some i → s < numSlots ∧ i < t.nodes.length
  migrating : ∀ s id, t.migrating s = some id → s < numSlots ∧ Configured t id
  importing : ∀ s id, t.importing s = some id → s < numSlots ∧ Configured t id

theorem Built.writable (h : Built t) : Writable t where
  owner s i hi := ⟨((h.owner_iff s i).mp hi).1, h.marked.owner_lt s i hi⟩
  migrating s id hid := by simp [h.migrating_none] at hid
  importing s id hid := by simp [h.importing_none] at hid

section

variable {t : Topology} (hw : Writable t) (hr : Readable t.nodes)

include hr in
theorem Readable.configured (h : Configured t id) : (Solid id ∧ id ≠ []) ∧ id.length < 100000 := by
  obtain ⟨n, hn, rfl⟩ := h
  exact ⟨hr.word n hn, hr.short n hn⟩

theorem LineKind.solid_word (kind : LineKind) : Solid kind.word ∧ kind.word ≠ [] := by
  cases kind <;> decide

/-- A line about a slot and a short word. -/
theorem legible_slotLine (hs : s < numSlots) (hid : Solid id ∧ id ≠ [])
    (hlen : id.length < 100000) : Legible [kind.word, numeral s, id] := by
  refine ⟨?_, ?_⟩
  · simp only [forall_mem_cons]
    exact ⟨kind.solid_word, solid_numeral, hid, fun _ h => nomatch h⟩
  · have hkind : kind.word.length ≤ 9 := by cases kind <;> decide
    have hdec : (numeral s).length ≤ 5 := length_numeral_le (by decide) (lt_trans hs (by decide))
    simp only [joinFields, length_append, length_cons, maxLine]
    omega

theorem legible_epochLine : Legible [epochWord, numeral n.toNat] := by
  refine ⟨?_, ?_⟩
  · simp only [forall_mem_cons]
    exact ⟨by decide, solid_numeral, fun _ h => nomatch h⟩
  · have hword : epochWord.length = 5 := by decide
    have hdec : (numeral n.toNat).length ≤ 20 :=
      length_numeral_le (by decide) (lt_trans n.toNat_lt (by decide))
    simp only [joinFields, length_append, length_cons, maxLine]
    omega

include hw hr in
theorem ownerID_word : (Solid (ownerID t.nodes (t.owner s)) ∧ ownerID t.nodes (t.owner s) ≠ []) ∧
      (ownerID t.nodes (t.owner s)).length < 100000 := by
  cases ho : t.owner s with
  | none =>
    have hnone : ownerID t.nodes none = noOwner := rfl
    rw [hnone]
    decide
  | some i =>
    obtain ⟨n, hn⟩ : ∃ n, t.nodes[i]? = some n := ⟨_, getElem?_eq_getElem (hw.owner s i ho).2⟩
    have hmem := mem_of_getElem? hn
    rw [ownerID, Option.bind_some, hn]
    exact ⟨hr.word n hmem, hr.short n hmem⟩

include hw hr in
/-- The line of a slot gives its owner back. -/
theorem readLine_owner (hs : s < numSlots) : readLine t.nodes r
        (joinFields [LineKind.owner.word, numeral s, ownerID t.nodes (t.owner s)]) =
      .ok (r.withOwner (Function.update r.snap.owner s (t.owner s))) := by
  obtain ⟨hword, hlen⟩ := ownerID_word hw hr
  rw [readLine_slot (legible_slotLine hs hword hlen), readSlotLine, parseSlotArg_numeral hs]
  dsimp only
  cases ho : t.owner s with
  | none => rfl
  | some i =>
    obtain ⟨n, hn⟩ : ∃ n, t.nodes[i]? = some n := ⟨_, getElem?_eq_getElem (hw.owner s i ho).2⟩
    have hid : ownerID t.nodes (some i) = n.id := by rw [ownerID, Option.bind_some, hn]; rfl
    rw [hid, if_neg (hr.ne_noOwner n (mem_of_getElem? hn)), hr.byID hn]

theorem mem_marks : (s, id) ∈ marks f ↔ s < numSlots ∧ f s = some id := by
  simp only [marks, mem_filterMap, mem_range, Option.map_eq_some_iff, Prod.mk.injEq]
  constructor
  · rintro ⟨_, hs, _, hf, rfl, rfl⟩
    exact ⟨hs, hf⟩
  · rintro ⟨hs, hf⟩
    exact ⟨s, hs, id, hf, rfl, rfl⟩

/-- Writing the marks in any order gives them back. -/
theorem foldl_marks {ms : List (Nat × Bytes)} (hms : ms.Perm (marks f))
    (hf : ∀ s id, f s = some id → s < numSlots) :
    ms.foldl (fun (g : Nat → Option Bytes) m => Function.update g m.1 (some m.2)) (fun _ => none) = f := by
  funext s
  have hvalue : ∀ m ∈ ms, some m.2 = f m.1 := fun m hm =>
    (mem_marks.mp (hms.mem_iff.mp hm)).2.symm
  rw [foldl_update hvalue s]
  split
  · rfl
  · next hs =>
    cases hfs : f s with
    | none => rfl
    | some id =>
      have hmem := hms.mem_iff.mpr (mem_marks.mpr ⟨hf s id hfs, hfs⟩)
      exact absurd (mem_map_of_mem hmem) hs

include hw in
theorem foldl_owners :
    (List.range numSlots).foldl (fun g s => Function.update g s (t.owner s)) (fun _ => none) =
      t.owner := by
  funext s
  refine (@foldl_update Nat (Option Nat) _ t.owner id t.owner _ (fun _ _ => rfl) s).trans ?_
  rw [map_id]
  split
  · rfl
  · next hs =>
    cases ho : t.owner s with
    | none => rfl
    | some i => exact absurd (mem_range.mpr (hw.owner s i ho).1) hs

include hw hr in
theorem legible_ownerLine (hs : s ∈ List.range numSlots) :
    Legible [LineKind.owner.word, numeral s, ownerID t.nodes (t.owner s)] :=
  legible_slotLine (mem_range.mp hs) (ownerID_word hw hr).1 (ownerID_word hw hr).2

include hr in
theorem legible_markLine {order : List Nat}
    (hf : ∀ s id, f s = some id → s < numSlots ∧ Configured t id) {m : Nat × Bytes}
    (hm : m ∈ arrange order (marks f)) : Legible [kind.word, numeral m.1, m.2] := by
  obtain ⟨hs, hid⟩ := mem_marks.mp ((arrange_perm order (marks f)).mem_iff.mp hm)
  obtain ⟨hword, hlen⟩ := hr.configured (hf _ _ hid).2
  exact legible_slotLine hs hword hlen

include hw hr in
theorem readLines_owners (hnone : r.snap.owner = fun _ => none) : readLines t.nodes r
        ((List.range numSlots).map
          (joinFields ∘ fun s => [LineKind.owner.word, numeral s, ownerID t.nodes (t.owner s)]) ++
            rest) =
      readLines t.nodes (r.withOwner t.owner) rest := by
  rw [readLines_fold
      (fun s hs => legible_ownerLine hw hr hs) fun s hs r =>
        readLine_owner hw hr (mem_range.mp hs),
    foldl_field Reading.withOwner
      (fun f s => Function.update f s (t.owner s)) (fun _ _ => rfl) (fun _ _ _ => rfl) (fun _ => rfl),
    hnone, foldl_owners hw]

include hr in
/-- The lines of marks, for a kind of marks that is kept in one field. -/
theorem readLines_marks (kind : LineKind) {field : Reading → Nat → Option Bytes}
    (set : Reading → (Nat → Option Bytes) → Reading) (hfield : ∀ r f, field (set r f) = f)
    (hset : ∀ r f g, set (set r f) g = set r g) (hself : ∀ r, set r (field r) = r) (hline : ∀ s id
      r, s < numSlots → readSlotLine t.nodes r kind [numeral s, id] = .ok (set r (Function.update
      (field r) s (some id)))) (hf : ∀ s id, f s = some id → s < numSlots ∧ Configured t id)
    (order : List Nat) (r : Reading) (hnone : field r = fun _ => none) (rest : List Bytes) :
    readLines t.nodes r
        ((arrange order (marks f)).map
          (joinFields ∘ fun m => [kind.word, numeral m.1, m.2]) ++ rest) =
      readLines t.nodes (set r f) rest := by
  have hperm := arrange_perm order (marks f)
  rw [readLines_fold (fun m hm => legible_markLine hr hf hm) fun m hm r => ?_,
    foldl_field set (fun f (m : Nat × Bytes) => Function.update f m.1 (some m.2)) hfield hset hself, hnone,
    foldl_marks hperm fun s id h => (hf s id h).1]
  rw [readLine_slot (legible_markLine hr hf hm),
    hline m.1 m.2 r (mem_marks.mp (hperm.mem_iff.mp hm)).1]

include hw hr in
theorem solid_snapshotLines :
    ∀ ws ∈ snapshotLines migratingOrder importingOrder t.snapshot t.nodes, ∀ w ∈ ws, Solid w := by
  intro ws hws
  have hlegible : Legible ws := by
    simp only [snapshotLines, mem_append, mem_cons, mem_map] at hws
    obtain ((rfl | ⟨s, hs, rfl⟩) | ⟨m, hm, rfl⟩) | ⟨m, hm, rfl⟩ := hws
    · exact legible_epochLine
    · exact legible_ownerLine hw hr hs
    · exact legible_markLine hr hw.migrating hm
    · exact legible_markLine hr hw.importing hm
  exact fun w hw => (hlegible.word w hw).1

include hw hr in
theorem readLines_snapshotLines : readLines t.nodes .start
        ((snapshotLines migratingOrder importingOrder t.snapshot t.nodes).map joinFields) =
      .ok ⟨t.snapshot, true⟩ := by
  have hmig := readLines_marks hr .migrating Reading.withMigrating
    (fun _ _ => rfl) (fun _ _ _ => rfl) (fun _ => rfl)
    (fun s id r hs => by rw [readSlotLine, parseSlotArg_numeral hs]) hw.migrating migratingOrder
  have himp := readLines_marks hr .importing Reading.withImporting
    (fun _ _ => rfl) (fun _ _ _ => rfl) (fun _ => rfl)
    (fun s id r hs => by rw [readSlotLine, parseSlotArg_numeral hs]) hw.importing importingOrder
  rw [snapshotLines, cons_append, cons_append, map_cons, map_append,
    map_append, map_map, map_map, map_map, readLines_legible legible_epochLine,
    readLine_epoch legible_epochLine, append_assoc]
  refine (readLines_owners hw hr rfl).trans ((hmig _ rfl _).trans ?_)
  rw [← append_nil (map _ (arrange importingOrder _))]
  exact himp _ rfl []

include hw hr in
/-- What was written is read back. -/
theorem unmarshalSnapshot_marshal (migratingOrder importingOrder : List Nat) :
    unmarshalSnapshot (marshalSnapshot migratingOrder importingOrder t.snapshot t.nodes) t.nodes =
      .ok t.snapshot := by
  rw [unmarshalSnapshot, marshalSnapshot, scanLines_flatMap fun ws hws =>
      lineFeed_not_mem_join (solid_snapshotLines hw hr ws hws),
    readLines_snapshotLines hw hr]
  rfl

end

/-- A call of a method that changes the table. -/
inductive TopologyCall where
  | setMigrating (slot : Int) (id : Bytes)
  | setImporting (slot : Int) (id : Bytes)
  | setStable (slot : Int)
  | setNode (slot : Int) (id : Bytes)
  deriving DecidableEq, Repr

/-- The table after a call, whether or not the method reports an error. -/
def Topology.call (t : Topology) : TopologyCall → Topology
  | .setMigrating slot id => (t.setMigrating slot id).1
  | .setImporting slot id => (t.setImporting slot id).1
  | .setStable slot => t.setStable slot
  | .setNode slot id => (t.setNode slot id).1

/-- The call names a configured node, if it names one. -/
def TopologyCall.NamesConfigured (t : Topology) : TopologyCall → Prop
  | .setMigrating _ id | .setImporting _ id | .setNode _ id => Configured t id
  | .setStable _ => True

theorem Topology.nodes_call (t : Topology) {c : TopologyCall} : (t.call c).nodes = t.nodes := by
  cases c <;> simp only [call, setMigrating, setImporting, setStable, setNode] <;> split_ifs <;>
    first
    | rfl
    | split <;> rfl

private theorem forall_update {β : Type} {P : Nat → β → Prop} {f : Nat → Option β} {slot : Nat}
    {v : Option β} (hf : ∀ s b, f s = some b → P s b) (hv : ∀ b, v = some b → P slot b) (s : Nat)
    (b : β) (h : Function.update f slot v s = some b) : P s b := by
  by_cases hs : s = slot
  · subst hs
    rw [Function.update_self] at h
    exact hv b h
  · rw [Function.update_of_ne hs] at h
    exact hf s b h

private theorem toNat_lt_numSlots {slot : Int} (h : ¬ (slot < 0 ∨ (numSlots : Int) ≤ slot)) :
    slot.toNat < numSlots := by
  omega

/-- Every call on configured nodes keeps the table writable. -/
theorem Writable.call (h : Writable t) {c : TopologyCall} (hc : c.NamesConfigured t) :
    Writable (t.call c) := by
  cases c with
  | setMigrating =>
    simp only [Topology.call, Topology.setMigrating]
    split_ifs with hrange
    · exact h
    · exact h
    · exact h
    · refine ⟨h.owner, forall_update h.migrating fun b hb => ?_, h.importing⟩
      cases hb
      exact ⟨toNat_lt_numSlots hrange, hc⟩
  | setImporting =>
    simp only [Topology.call, Topology.setImporting]
    split_ifs with hrange
    · exact h
    · exact h
    · exact h
    · refine ⟨h.owner, h.migrating, forall_update h.importing fun b hb => ?_⟩
      cases hb
      exact ⟨toNat_lt_numSlots hrange, hc⟩
  | setStable =>
    simp only [Topology.call, Topology.setStable]
    split_ifs
    · exact h
    · exact ⟨h.owner, forall_update h.migrating (fun _ hb => by cases hb),
        forall_update h.importing fun _ hb => by cases hb⟩
  | setNode slot id =>
    simp only [Topology.call, Topology.setNode]
    split_ifs with hrange
    · exact h
    · cases hidx : t.indexOf id with
      | none => exact h
      | some =>
        refine ⟨forall_update h.owner fun b hb => ?_,
          forall_update h.migrating (fun _ hb => by cases hb),
          forall_update h.importing fun _ hb => by cases hb⟩
        cases hb
        exact ⟨toNat_lt_numSlots hrange, (findIdx?_eq_some_iff_getElem.mp hidx).1⟩

theorem epoch_addNodes {lib : Library} {selfHost selfPort : Bytes} {self : Option Nat}
    {r : Topology × Option Nat} (h : addNodes lib selfHost selfPort specs (t, self) = .ok r) :
    r.1.epoch = t.epoch := by
  induction specs generalizing t self with
  | nil =>
    cases h
    rfl
  | cons spec specs ih => exact (ih (addNodes_cons_iff.mp h).2).trans rfl

theorem epoch_build {lib : Library} {selfAddr : Bytes} (h : build lib selfAddr specs = .ok t) :
    t.epoch = 0 := by
  rw [build] at h
  split at h
  · cases h
  · split at h
    · cases h
    · cases h
    · next hadd =>
      cases h
      exact epoch_addNodes hadd

/-- A table is saved and loaded into a table that was built from the same configuration: owners,
marks and the 64-bit epoch are the same. -/
theorem snapshot_roundtrip {lib : Library} {selfAddr : Bytes} {specs : List NodeSpec} {t₀ : Topology}
    (hbuild : build lib selfAddr specs = .ok t₀) (hnodes : Readable t₀.nodes)
    (calls : List TopologyCall)
    (hcalls : Along Topology.call (fun t c => c.NamesConfigured t) t₀ calls)
    (migratingOrder importingOrder : List Nat) :
    ∃ snap t', unmarshalSnapshot
        (marshalSnapshot migratingOrder importingOrder (run Topology.call t₀ calls).snapshot
          (run Topology.call t₀ calls).nodes) t₀.nodes = .ok snap ∧
      t₀.loadSnapshot snap = .ok t' ∧
      t'.owner = (run Topology.call t₀ calls).owner ∧
      t'.migrating = (run Topology.call t₀ calls).migrating ∧
      t'.importing = (run Topology.call t₀ calls).importing ∧
      UInt64.ofNat t'.epoch = UInt64.ofNat (run Topology.call t₀ calls).epoch := by
  obtain ⟨hw, hsame⟩ : Writable (run call t₀ calls) ∧
      (run call t₀ calls).nodes = t₀.nodes :=
    run_induction (I := fun t => Writable t ∧ t.nodes = t₀.nodes)
      (fun t c ht hc => ⟨ht.1.call hc, t.nodes_call.trans ht.2⟩)
      ⟨(built_of_build hbuild).1.writable, rfl⟩ hcalls
  have hread := unmarshalSnapshot_marshal hw (hsame ▸ hnodes) migratingOrder importingOrder
  have hold : ¬ (run call t₀ calls).snapshot.epoch < UInt64.ofNat t₀.epoch := by
    rw [epoch_build hbuild]
    exact UInt64.not_lt_zero
  rw [hsame] at hread ⊢
  refine ⟨_, _, hread, if_neg hold, rfl, rfl, rfl, UInt64.ofNat_toNat⟩

/-- A slot that is being handed over, saved and loaded. -/
theorem snapshot_roundtrip_migrating : ∃ snap t', unmarshalSnapshot
      (marshalSnapshot [] [] (run Topology.call twoNodeTable [.setMigrating 0 [98]]).snapshot
        (run Topology.call twoNodeTable [.setMigrating 0 [98]]).nodes) twoNodeTable.nodes = .ok snap ∧
    twoNodeTable.loadSnapshot snap = .ok t' ∧ t'.migrating 0 = some [98] := by
  have hreadable : Readable twoNodeTable.nodes :=
    ⟨by decide, by decide, by decide, by decide⟩
  have hcalls : Along call (fun t c => c.NamesConfigured t) twoNodeTable
      [.setMigrating 0 [98]] := ⟨⟨⟨[98], [98], [(1, 1)]⟩, by decide, rfl⟩, trivial⟩
  obtain ⟨snap, t', hread, hload, -, hmig, -⟩ :=
    snapshot_roundtrip build_twoNodes hreadable [.setMigrating 0 [98]] hcalls [] []
  refine ⟨snap, t', hread, hload, ?_⟩
  rw [hmig]
  decide

end Gedis.Cluster
