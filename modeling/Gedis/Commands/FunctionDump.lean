import Gedis.Commands.FunctionIndex
import Mathlib.Data.List.Sort

/-!
# Dumping and restoring libraries

A dump is a magic word, the number of libraries, and the name and the source text of each one behind
its length. The reader is stated once more with the slice expressions of the code, each of which can
fail. What is accepted is a sequence of frames that ends with the payload.
-/

namespace Gedis.Commands

open Gedis.Core Protocol Std List

variable {text rest : Bytes} {libs : List (Bytes × Bytes)} {seen : List Bytes} {order : List Nat}

/-- The payload of a list of libraries. -/
def encodeFnDump (libs : List FnLibrary) : Bytes :=
  fnDumpMagic ++ appendUvarint libs.length ++
    libs.flatMap fun lib => prefixed lib.name ++ prefixed lib.code

/-- The libraries of a registry sorted by name, from an enumeration in an arbitrary order. -/
def dumpedLibs (order : List Nat) (r : FnRegistry) : List FnLibrary :=
  (arrange order (r.libs.toList.map Prod.snd)).insertionSort fun a b => (compare a.name b.name).isLE

/-- `FUNCTION DUMP`. -/
def dump (order : List Nat) (r : FnRegistry) : Bytes := encodeFnDump (dumpedLibs order r)

/-- `xs[:n]`. -/
def sliceTo (xs : Bytes) (n : Nat) : Go Bytes :=
  if n ≤ xs.length then .ok (xs.take n) else .error .sliceBounds

/-- `xs[n:]`. -/
def sliceFrom (xs : Bytes) (n : Nat) : Go Bytes :=
  if n ≤ xs.length then .ok (xs.drop n) else .error .sliceBounds

/-- The number at the front, and what follows it. -/
def takeNumber (rest : Bytes) : Go (Option (Nat × Bytes)) :=
  match uvarint rest with
  | none => .ok none
  | some (n, m) => do
    let rest ← sliceFrom rest m
    .ok (some (n, rest))

/-- The text at the front behind its length, and what follows it. -/
def takeTextChecked (rest : Bytes) : Go (Option (Bytes × Bytes)) := do
  match ← takeNumber rest with
  | none => .ok none
  | some (n, rest) =>
    if n > rest.length then .ok none
    else
      let text ← sliceTo rest n
      let rest ← sliceFrom rest n
      .ok (some (text, rest))

def decodeLibsChecked : Nat → List Bytes → Bytes → Go (Option (List (Bytes × Bytes)))
  | 0, _, rest => .ok (if rest.length ≠ 0 then none else some [])
  | count + 1, seen, rest => do
    match ← takeTextChecked rest with
    | none => .ok none
    | some (name, rest) =>
      match ← takeTextChecked rest with
      | none => .ok none
      | some (code, rest) =>
        if name ∈ seen then .ok none
        else
          match ← decodeLibsChecked count (name :: seen) rest with
          | none => .ok none
          | some libs => .ok (some ((name, code) :: libs))

def decodeFnDumpChecked (payload : Bytes) : Go (Option (List (Bytes × Bytes))) := do
  if payload.length < fnDumpMagic.length then .ok none
  else
    let magic ← sliceTo payload fnDumpMagic.length
    if magic ≠ fnDumpMagic then .ok none
    else
      let rest ← sliceFrom payload fnDumpMagic.length
      match ← takeNumber rest with
      | none => .ok none
      | some (count, rest) =>
        if count > rest.length then .ok none else decodeLibsChecked count [] rest

theorem takeNumber_eq :
    takeNumber rest = .ok ((uvarint rest).map fun p => (p.1, rest.drop p.2)) := by
  rw [takeNumber]
  cases h : uvarint rest with
  | none => rfl
  | some p =>
    dsimp only
    rw [sliceFrom, if_pos (uvarint_bounds h).2.1]
    rfl

theorem takeTextChecked_eq : takeTextChecked rest = .ok (takeText rest) := by
  rw [takeTextChecked, takeNumber_eq, takeText]
  cases uvarint rest with
  | none => rfl
  | some p =>
    obtain ⟨n, m⟩ := p
    dsimp only [Option.map_some, bind, Except.bind]
    by_cases hn : n > (rest.drop m).length
    · rw [if_pos hn, if_pos hn]
    · rw [if_neg hn, if_neg hn, sliceTo, if_pos (Nat.not_lt.mp hn), sliceFrom,
        if_pos (Nat.not_lt.mp hn)]

theorem decodeLibsChecked_eq {count : Nat} :
    decodeLibsChecked count seen rest = .ok (decodeLibs count seen rest) := by
  induction count generalizing seen rest with
  | zero => rfl
  | succ count ih =>
    rw [decodeLibsChecked, decodeLibs, takeTextChecked_eq]
    cases takeText rest with
    | none => rfl
    | some p =>
      obtain ⟨name, rest⟩ := p
      dsimp only [bind, Except.bind, Option.bind]
      rw [takeTextChecked_eq]
      cases takeText rest with
      | none => rfl
      | some p =>
        obtain ⟨code, rest⟩ := p
        dsimp only
        by_cases hseen : name ∈ seen
        · rw [if_pos hseen, if_pos hseen]
        · rw [if_neg hseen, if_neg hseen, ih]
          cases decodeLibs count (name :: seen) rest <;> rfl

/-- No slice expression fails, whatever the payload. -/
theorem decodeFnDumpChecked_eq (payload : Bytes) :
    decodeFnDumpChecked payload = .ok (decodeFnDump payload) := by
  rw [decodeFnDumpChecked, decodeFnDump]
  by_cases hlen : payload.length < fnDumpMagic.length
  · have hne : payload.take fnDumpMagic.length ≠ fnDumpMagic := by
      intro h
      have hl := congrArg length h
      rw [length_take] at hl
      omega
    rw [if_pos hlen, if_pos hne]
  · rw [if_neg hlen, sliceTo, if_pos (Nat.not_lt.mp hlen)]
    dsimp only [bind, Except.bind]
    by_cases hmagic : payload.take fnDumpMagic.length ≠ fnDumpMagic
    · rw [if_pos hmagic, if_pos hmagic]
    · rw [if_neg hmagic, if_neg hmagic, sliceFrom, if_pos (Nat.not_lt.mp hlen)]
      dsimp only
      rw [takeNumber_eq]
      cases uvarint (payload.drop fnDumpMagic.length) with
      | none => rfl
      | some p =>
        dsimp only [Option.map_some]
        split
        · rfl
        · exact decodeLibsChecked_eq

/-- A text behind its length, and what follows it. -/
def Framed (bs text rest : Bytes) : Prop :=
  ∃ head, bs = head ++ (text ++ rest) ∧ uvarint bs = some (text.length, head.length)

/-- Names and source texts one after the other, up to the end. -/
inductive Frames : Bytes → List (Bytes × Bytes) → Prop
  | nil : Frames [] []
  | cons {bs name rest code rest' : Bytes} {libs : List (Bytes × Bytes)} :
    Framed bs name rest → Framed rest code rest' → Frames rest' libs →
      Frames bs ((name, code) :: libs)

/-- The payload is the magic word, the number of libraries and their frames, and nothing else. -/
def DumpOf (payload : Bytes) (libs : List (Bytes × Bytes)) : Prop :=
  ∃ head body, payload = fnDumpMagic ++ (head ++ body) ∧
    uvarint (head ++ body) = some (libs.length, head.length) ∧ Frames body libs

theorem takeText_eq_some_iff {bs : Bytes} :
    takeText bs = some (text, rest) ↔ Framed bs text rest := by
  rw [takeText]
  constructor
  · intro h
    cases hn : uvarint bs with
    | none => simp [hn] at h
    | some p =>
      obtain ⟨n, m⟩ := p
      obtain ⟨-, hm, -⟩ := uvarint_bounds hn
      simp only [hn] at h
      split at h
      · cases h
      · next hle =>
        cases h
        refine ⟨bs.take m, by simp, ?_⟩
        rw [hn, length_take_of_le hm, length_take_of_le (Nat.not_lt.mp hle)]
  · rintro ⟨head, hbs, hn⟩
    rw [hn]
    simp [hbs]

theorem Framed.length_lt {bs : Bytes} (h : Framed bs text rest) : rest.length < bs.length := by
  obtain ⟨head, hbs, hn⟩ := h
  have hpos := (uvarint_bounds hn).1
  rw [hbs, length_append, length_append]
  omega

theorem Frames.length_le {body : Bytes} (h : Frames body libs) : libs.length ≤ body.length := by
  induction h with
  | nil => exact Nat.le_refl 0
  | cons hname hcode =>
    have := hname.length_lt
    have := hcode.length_lt
    rw [length_cons]
    omega

theorem decodeLibs_frames {count : Nat} (h : decodeLibs count seen rest = some libs) :
    libs.length = count ∧ Frames rest libs := by
  induction count generalizing seen rest libs with
  | zero =>
    rw [decodeLibs] at h
    split at h
    · cases h
    · next hrest =>
      cases h
      rw [length_eq_zero_iff.mp (not_not.mp hrest)]
      exact ⟨rfl, .nil⟩
  | succ count ih =>
    obtain ⟨⟨name, rest₁⟩, hname, h⟩ := Option.bind_eq_some_iff.mp h
    obtain ⟨⟨code, rest₂⟩, hcode, h⟩ := Option.bind_eq_some_iff.mp h
    dsimp only at h hcode
    split at h
    · cases h
    · obtain ⟨libs', hlibs, h⟩ := Option.bind_eq_some_iff.mp h
      cases h
      obtain ⟨hlen, hframes⟩ := ih hlibs
      exact ⟨by rw [length_cons, hlen],
        .cons (takeText_eq_some_iff.mp hname) (takeText_eq_some_iff.mp hcode) hframes⟩

theorem Frames.decodeLibs (h : Frames rest libs) (hnodup : (libs.map (·.1)).Nodup)
    (hseen : ∀ name ∈ libs.map (·.1), name ∉ seen) :
    decodeLibs libs.length seen rest = some libs := by
  induction h generalizing seen with
  | nil => rfl
  | @cons bs name rest code rest' libs hname hcode _ ih =>
    obtain ⟨hfresh, hnodup⟩ := nodup_cons.mp hnodup
    obtain ⟨hname', hseen⟩ := forall_mem_cons.mp hseen
    have hrest : ∀ n ∈ libs.map (·.1), n ∉ name :: seen := by
      intro n hn hmem
      obtain rfl | hmem := mem_cons.mp hmem
      · exact hfresh hn
      · exact hseen n hn hmem
    rw [length_cons, Commands.decodeLibs, takeText_eq_some_iff.mpr hname]
    dsimp only [bind, Option.bind]
    rw [takeText_eq_some_iff.mpr hcode]
    dsimp only
    rw [if_neg hname', ih hnodup hrest]

/-- Exactly the dumps of libraries with different names are accepted. -/
theorem decodeFnDump_eq_some_iff {payload : Bytes} :
    decodeFnDump payload = some libs ↔ DumpOf payload libs ∧ (libs.map (·.1)).Nodup := by
  constructor
  · intro h
    unfold decodeFnDump at h
    split at h
    · cases h
    · next hmagic =>
      split at h
      · cases h
      · next count m hcount =>
        obtain ⟨-, hm, -⟩ := uvarint_bounds hcount
        dsimp only at h
        split at h
        · cases h
        · obtain ⟨hlen, hframes⟩ := decodeLibs_frames h
          refine ⟨⟨(payload.drop fnDumpMagic.length).take m, _, ?_, ?_, hframes⟩,
            (decodeLibs_names h).1⟩
          · rw [take_append_drop]
            conv_lhs => rw [← take_append_drop fnDumpMagic.length payload, not_not.mp hmagic]
          · rw [take_append_drop, hcount, hlen, length_take_of_le hm]
  · rintro ⟨⟨head, body, rfl, hcount, hframes⟩, hnodup⟩
    rw [decodeFnDump, take_left, drop_left, hcount]
    dsimp only
    rw [drop_left, if_neg (Nat.not_lt.mpr hframes.length_le)]
    exact hframes.decodeLibs hnodup fun _ _ => not_mem_nil

/-- Libraries whose number, names and source texts have lengths of 64 bits. -/
def Addressable (libs : List FnLibrary) : Prop :=
  libs.length < 2 ^ 64 ∧ ∀ lib ∈ libs, lib.name.length < 2 ^ 64 ∧ lib.code.length < 2 ^ 64

/-- The name and the source text, which is what a dump keeps. -/
def FnLibrary.source (lib : FnLibrary) : Bytes × Bytes := (lib.name, lib.code)

theorem framed_prefixed (h : text.length < 2 ^ 64) : Framed (prefixed text ++ rest) text rest := by
  refine ⟨appendUvarint text.length, by rw [prefixed, append_assoc], ?_⟩
  rw [prefixed, append_assoc, uvarint_appendUvarint h]

variable {libs : List FnLibrary}

theorem frames_sources (h : ∀ lib ∈ libs, lib.name.length < 2 ^ 64 ∧ lib.code.length < 2 ^ 64) :
    Frames (libs.flatMap fun lib => prefixed lib.name ++ prefixed lib.code)
      (libs.map FnLibrary.source) := by
  induction libs with
  | nil => exact .nil
  | cons lib libs ih =>
    obtain ⟨⟨hname, hcode⟩, hrest⟩ := forall_mem_cons.mp h
    rw [flatMap_cons, append_assoc]
    exact .cons (framed_prefixed hname) (framed_prefixed hcode) (ih hrest)

theorem decodeFnDump_encodeFnDump (hnames : (libs.map (·.name)).Nodup) (haddr : Addressable libs) :
    decodeFnDump (encodeFnDump libs) = some (libs.map FnLibrary.source) := by
  refine decodeFnDump_eq_some_iff.mpr ⟨⟨appendUvarint libs.length, _, ?_, ?_,
    frames_sources haddr.2⟩, ?_⟩
  · rw [encodeFnDump, append_assoc]
  · rw [uvarint_appendUvarint haddr.1, length_map]
  · rw [map_map]
    exact hnames

theorem dumpedLibs_perm (order : List Nat) (r : FnRegistry) :
    (dumpedLibs order r).Perm (r.libs.toList.map Prod.snd) :=
  (perm_insertionSort _ _).trans (arrange_perm _ _)

section
variable {compile : Bytes → Except Bytes Compiled} {r : FnRegistry}

theorem compileAll_sources_eq (h : ∀ lib ∈ libs, compileLibrary compile lib.code = .ok lib) :
    compileAll compile (libs.map FnLibrary.source) = some libs := by
  induction libs with
  | nil => rfl
  | cons lib libs ih =>
    obtain ⟨hlib, hrest⟩ := forall_mem_cons.mp h
    rw [map_cons, FnLibrary.source, compileAll, hlib]
    dsimp only
    rw [if_neg (not_not.mpr rfl), ih hrest]

theorem commitAll_libs {replace : Bool} (r : FnRegistry) :
    (commitAll r libs replace).libs = libs.foldl (fun m lib => m.insert lib.name lib) r.libs := by
  induction libs generalizing r with
  | nil => rfl
  | cons lib libs ih => exact ih (commit r lib replace)

/-- The entries of a named registry are its libraries under their own names. -/
theorem FnRegistry.Named.toList_libs (h : r.Named) :
    (r.libs.toList.map Prod.snd).map (fun lib => (lib.name, lib)) = r.libs.toList := by
  rw [map_map]
  refine (map_congr_left fun e he => ?_).trans (map_id _)
  exact Prod.ext (h.libs e.1 e.2 (ExtTreeMap.mem_toList_iff_getElem?_eq_some.mp he)) rfl

theorem commitAll_dumped (h : r.Named) {replace : Bool} :
    (commitAll {} (dumpedLibs order r) replace).libs = r.libs := by
  have hperm := (dumpedLibs_perm order r).map fun lib => (lib.name, lib)
  rw [h.toList_libs] at hperm
  rw [commitAll_libs, ← OrdMap.foldl_insert_of_perm hperm, foldl_map]

theorem nodup_dumpedLibs (h : r.Named) : ((dumpedLibs order r).map (·.name)).Nodup := by
  have hperm := ((dumpedLibs_perm order r).map fun lib => (lib.name, lib)).map Prod.fst
  rw [h.toList_libs, map_map] at hperm
  refine hperm.nodup_iff.mpr ?_
  refine (pairwise_map.mpr ?_ : (r.libs.toList.map Prod.fst).Pairwise (· ≠ ·))
  refine ExtTreeMap.distinct_keys_toList.imp fun hne heq => ?_
  exact hne (Std.LawfulEqCmp.compare_eq_iff_eq.mpr heq)

/-- Restoring a dump into any registry, emptied first, gives the libraries of the dumped one. -/
theorem restore_dump (hnamed : r.Named) (hsourced : r.Sourced compile)
    (haddr : Addressable (dumpedLibs order r)) {r' : FnRegistry} :
    (restoreFn compile r' [some (dump order r), some (ascii "FLUSH".toList)]).2 = okReply ∧
      (restoreFn compile r' [some (dump order r), some (ascii "FLUSH".toList)]).1.libs = r.libs := by
  have hcompiled : ∀ lib ∈ dumpedLibs order r, compileLibrary compile lib.code = .ok lib := by
    intro lib hlib
    obtain ⟨e, he, rfl⟩ := mem_map.mp ((dumpedLibs_perm order r).mem_iff.mp hlib)
    exact hsourced e.1 e.2 (ExtTreeMap.mem_toList_iff_getElem?_eq_some.mp he)
  have hplan : restorePlan compile r' [some (dump order r), some (ascii "FLUSH".toList)] =
      .ok (.flush, dumpedLibs order r) := by
    have hpolicy : parsePolicy (some (some (ascii "FLUSH".toList))) = some .flush := by decide
    have hfree : (dumpedLibs order r).findSome? (restoreConflict r' .flush) = none :=
      findSome?_eq_none_iff.mpr fun _ _ => rfl
    simp only [restorePlan, length_singleton, Nat.lt_irrefl, if_false, head?_cons, hpolicy,
      dump, decodeFnDump_encodeFnDump (nodup_dumpedLibs hnamed) haddr, Option.bind_some,
      compileAll_sources_eq hcompiled, hfree, gt_iff_lt]
  rw [restoreFn, hplan]
  exact ⟨rfl, commitAll_dumped hnamed⟩

/-- A restore that replies with an error has changed nothing. -/
theorem restoreFn_error {args : List Arg} (h : (restoreFn compile r args).2 = .error text) :
    (restoreFn compile r args).1 = r := by
  unfold restoreFn at *
  cases hplan : restorePlan compile r args with
  | error => rfl
  | ok =>
    rw [hplan] at h
    cases h

end

/-- Dumps and restores are inverse, reading a payload never fails and accepts only whole dumps of
libraries with different names, and a restore that replies with an error changes nothing. -/
theorem dump_restore (compile : Bytes → Except Bytes Compiled) :
    (∀ libs : List FnLibrary, (libs.map (·.name)).Nodup → Addressable libs →
      decodeFnDumpChecked (encodeFnDump libs) = .ok (some (libs.map FnLibrary.source))) ∧
    (∀ payload, decodeFnDumpChecked payload = .ok (decodeFnDump payload)) ∧
    (∀ payload libs, decodeFnDump payload = some libs →
      DumpOf payload libs ∧ (libs.map (·.1)).Nodup) ∧
    (∀ calls order r', Addressable (dumpedLibs order (run (stepFn compile) {} calls)) →
      (restoreFn compile r' [some (dump order (run (stepFn compile) {} calls)),
        some (ascii "FLUSH".toList)]).2 = okReply ∧
      (restoreFn compile r' [some (dump order (run (stepFn compile) {} calls)),
        some (ascii "FLUSH".toList)]).1.libs = (run (stepFn compile) {} calls).libs) ∧
    ∀ r args text, (restoreFn compile r args).2 = .error text → (restoreFn compile r args).1 = r := by
  refine ⟨fun libs hnames haddr => ?_, decodeFnDumpChecked_eq, fun payload libs h => ?_,
    fun calls order r' haddr => ?_, fun r args text h => restoreFn_error h⟩
  · rw [decodeFnDumpChecked_eq, decodeFnDump_encodeFnDump hnames haddr]
  · exact decodeFnDump_eq_some_iff.mp h
  · exact restore_dump (run_invariant step_named named_empty calls)
      (run_invariant step_sourced sourced_empty calls) haddr

/-- A registry with both libraries is dumped and restored. -/
theorem dump_restore_both :
    Addressable (dumpedLibs [] bothRestored) ∧
      (restoreFn twoSources {} [some (dump [] bothRestored), some (ascii "FLUSH".toList)]).1.libs =
        bothRestored.libs := by
  have haddr : Addressable (dumpedLibs [] bothRestored) := by
    unfold Addressable
    decide +kernel
  exact ⟨haddr, ((dump_restore twoSources).2.2.2.1 [.restore [some twoLibraries]] [] {} haddr).2⟩

end Gedis.Commands
