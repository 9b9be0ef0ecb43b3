import Gedis.Commands.Functions

/-!
# The function index agrees with the libraries

Each command keeps the index in agreement with the libraries, except for a restore whose libraries
have a function name in common: they are compared with the registry before, and not with one another.
-/

namespace Gedis.Commands

open Gedis.Core Protocol List Option OrdMap

variable {name f : Bytes} {fns : OrdMap Bytes FnRef} {ref : FnRef} {funcs : List FnDef}
  {libs : List FnLibrary} {raws : List (Bytes × Bytes)} {args : List Arg} {lib : FnLibrary}
  {policy : RestorePolicy} {replace : Bool} {r : FnRegistry}

/-- The library has a function with that lower-cased name. -/
def FnLibrary.Registers (lib : FnLibrary) (f : Bytes) : Prop := ∃ d ∈ lib.funcs, d.key = f

/-- The library is in the registry. -/
def FnRegistry.Loaded (r : FnRegistry) (lib : FnLibrary) : Prop :=
  ∃ name : Bytes, r.libs[name]? = some lib

/-- The index leads from a name to a library exactly when the library is loaded and has a function
of that name. -/
def FnRegistry.Indexed (r : FnRegistry) : Prop :=
  ∀ f lib, (∃ ref, r.fns[f]? = some ref ∧ ref.lib = lib) ↔ r.Loaded lib ∧ lib.Registers f

/-- Libraries stand under their own names, and entries of the index under the names of their
functions. -/
structure FnRegistry.Named (r : FnRegistry) : Prop where
  libs : ∀ (name : Bytes) (lib : FnLibrary), r.libs[name]? = some lib → lib.name = name
  fns : ∀ (f : Bytes) (ref : FnRef), r.fns[f]? = some ref →
    ref.libName = ref.lib.name ∧ ref.defn ∈ ref.lib.funcs ∧ ref.defn.key = f

/-- Two libraries have no function name in common. -/
def Apart (lib lib' : FnLibrary) : Prop := ∀ f, lib.Registers f → ¬ lib'.Registers f

theorem getElem?_dropFunc {d : FnDef} : (dropFunc name fns d)[f]? = some ref ↔
      fns[f]? = some ref ∧ ¬ (d.key = f ∧ ref.libName = name) := by
  rw [dropFunc]
  cases hfns : fns[d.key]? with
  | none =>
    refine ⟨fun hget => ⟨hget, ?_⟩, fun h => h.1⟩
    rintro ⟨rfl, -⟩
    rw [hfns] at hget
    cases hget
  | some ref' =>
    dsimp only
    by_cases hname : ref'.libName = name
    · rw [if_pos hname, getElem?_erase]
      by_cases hkey : d.key = f
      · rw [if_pos hkey]
        refine iff_of_false (fun h => by cases h) ?_
        rintro ⟨hget, hnot⟩
        rw [← hkey, hfns, some.injEq] at hget
        subst hget
        exact hnot ⟨hkey, hname⟩
      · rw [if_neg hkey]
        exact ⟨fun hget => ⟨hget, fun h => hkey h.1⟩, fun h => h.1⟩
    · rw [if_neg hname]
      refine ⟨fun hget => ⟨hget, ?_⟩, fun h => h.1⟩
      rintro ⟨rfl, heq⟩
      rw [hfns, some.injEq] at hget
      subst hget
      exact hname heq

theorem getElem?_dropFuncs : (dropFuncs name fns funcs)[f]? = some ref ↔
      fns[f]? = some ref ∧ ¬ ((∃ d ∈ funcs, d.key = f) ∧ ref.libName = name) := by
  induction funcs generalizing fns with
  | nil => simp [dropFuncs]
  | cons d funcs ih =>
    refine ih.trans ?_
    rw [getElem?_dropFunc, and_assoc, exists_mem_cons_iff, or_and_right, not_or]

theorem getElem?_indexFuncs_of_not (h : ¬ ∃ d ∈ funcs, d.key = f) :
    (indexFuncs lib fns funcs)[f]? = fns[f]? := by
  induction funcs generalizing fns with
  | nil => rfl
  | cons d funcs ih =>
    rw [exists_mem_cons_iff, not_or] at h
    refine (ih h.2).trans ?_
    rw [OrdMap.getElem?_insert, if_neg h.1]

theorem getElem?_indexFuncs_of (fns : OrdMap Bytes FnRef) (h : ∃ d ∈ funcs, d.key = f) :
    ∃ d ∈ funcs, d.key = f ∧ (indexFuncs lib fns funcs)[f]? = some ⟨lib.name, lib, d⟩ := by
  induction funcs generalizing fns with
  | nil => simp at h
  | cons d funcs ih =>
    by_cases hrest : ∃ d ∈ funcs, d.key = f
    · obtain ⟨d', hd', hkey, hget⟩ := ih (fns.insert d.key ⟨lib.name, lib, d⟩) hrest
      exact ⟨d', mem_cons_of_mem _ hd', hkey, hget⟩
    · rw [exists_mem_cons_iff] at h
      have hd := h.resolve_right hrest
      refine ⟨d, mem_cons_self .., hd, (getElem?_indexFuncs_of_not hrest).trans ?_⟩
      rw [OrdMap.getElem?_insert, if_pos hd]

section
variable {r : FnRegistry} {lib lib' : FnLibrary} {replace : Bool}

theorem getElem?_of_commitBase (h : (commitBase r lib replace)[f]? = some ref) :
    r.fns[f]? = some ref := by
  unfold commitBase at h
  split at h
  · split at h
    · exact (getElem?_dropFuncs.mp h).1
    · exact h
  · exact h

theorem commit_named (h : r.Named) : (commit r lib replace).Named where
  libs := by
    intro name lib' hlib
    rw [commit, OrdMap.getElem?_insert] at hlib
    split at hlib
    · next heq =>
      cases hlib
      exact heq
    · exact h.libs name lib' hlib
  fns := by
    intro f ref href
    rw [commit] at href
    by_cases hreg : ∃ d ∈ lib.funcs, d.key = f
    · obtain ⟨d, hd, hkey, hget⟩ := getElem?_indexFuncs_of (commitBase r lib replace) hreg
      rw [hget, some.injEq] at href
      subst href
      exact ⟨rfl, hd, hkey⟩
    · rw [getElem?_indexFuncs_of_not hreg] at href
      exact h.fns f ref (getElem?_of_commitBase href)

/-- Nothing stands against entering the library: without `replace` its name is free, and so are the
names of its functions, up to those of a library that it replaces. -/
structure Admissible (r : FnRegistry) (lib : FnLibrary) (replace : Bool) : Prop where
  name : replace = false → r.libs[lib.name]? = none
  funcs : ∀ f, lib.Registers f → ∀ ref, r.fns[f]? = some ref → replace = true ∧ ref.libName = lib.name

/-- Before a library enters, the index has lost the entries of its name and no others. -/
theorem getElem?_commitBase (hnamed : r.Named) (hindexed : r.Indexed)
    (hadm : Admissible r lib replace) :
    (commitBase r lib replace)[f]? = some ref ↔ r.fns[f]? = some ref ∧ ref.libName ≠ lib.name := by
  -- an entry of that name belongs to the library that is loaded under it
  have howner : r.fns[f]? = some ref → ref.libName = lib.name →
      r.libs[lib.name]? = some ref.lib ∧ ref.lib.Registers f := by
    intro href hname
    obtain ⟨⟨name, hloaded⟩, hreg⟩ := (hindexed f ref.lib).mp ⟨ref, href, rfl⟩
    have hsame := hnamed.libs name ref.lib hloaded
    rw [← (hnamed.fns f ref href).1, hname] at hsame
    rw [hsame]
    exact ⟨hloaded, hreg⟩
  have hfree : r.libs[lib.name]? = none →
      (r.fns[f]? = some ref ↔ r.fns[f]? = some ref ∧ ref.libName ≠ lib.name) := by
    intro hnone
    refine ⟨fun href => ⟨href, fun hname => ?_⟩, fun h => h.1⟩
    rw [(howner href hname).1] at hnone
    cases hnone
  rw [commitBase]
  cases replace with
  | false =>
    exact hfree (hadm.name rfl)
  | true =>
    rw [if_pos rfl]
    cases hold : r.libs[lib.name]? with
    | none => exact hfree hold
    | some =>
      rw [getElem?_dropFuncs, and_congr_right_iff]
      refine fun href => ⟨fun hnot hname => ?_, fun hname hboth => hname hboth.2⟩
      obtain ⟨hlib, hreg⟩ := howner href hname
      rw [hold, some.injEq] at hlib
      subst hlib
      exact hnot ⟨hreg, hname⟩

/-- Entering an admissible library keeps the agreement. -/
theorem commit_indexed (hnamed : r.Named) (hindexed : r.Indexed) (hadm : Admissible r lib replace) :
    (commit r lib replace).Indexed := by
  have hown : (commit r lib replace).libs[lib.name]? = some lib := by
    rw [commit, OrdMap.getElem?_insert, if_pos rfl]
  intro f lib'
  constructor
  · rintro ⟨ref, href, rfl⟩
    rw [commit] at href
    by_cases hreg : lib.Registers f
    · obtain ⟨d, -, -, hget⟩ := getElem?_indexFuncs_of (commitBase r lib replace) hreg
      rw [hget, some.injEq] at href
      subst href
      exact ⟨⟨lib.name, hown⟩, hreg⟩
    · rw [getElem?_indexFuncs_of_not hreg, getElem?_commitBase hnamed hindexed hadm] at href
      obtain ⟨hold, hname⟩ := href
      obtain ⟨⟨name, hloaded⟩, hreg'⟩ := (hindexed f ref.lib).mp ⟨ref, hold, rfl⟩
      refine ⟨⟨name, ?_⟩, hreg'⟩
      rw [(hnamed.fns f ref hold).1, hnamed.libs name ref.lib hloaded] at hname
      rw [commit, OrdMap.getElem?_insert, if_neg (Ne.symm hname)]
      exact hloaded
  · rintro ⟨⟨name, hloaded⟩, hreg⟩
    rw [commit, OrdMap.getElem?_insert] at hloaded
    split at hloaded
    · cases hloaded
      obtain ⟨d, -, -, hget⟩ := getElem?_indexFuncs_of (commitBase r lib replace) hreg
      exact ⟨_, hget, rfl⟩
    · next hne =>
      obtain ⟨ref, href, rfl⟩ := (hindexed f lib').mpr ⟨⟨name, hloaded⟩, hreg⟩
      have hname : ref.libName ≠ lib.name := by
        rw [(hnamed.fns f ref href).1, hnamed.libs name ref.lib hloaded]
        exact Ne.symm hne
      have hnot : ¬ lib.Registers f := fun h => hname (hadm.funcs f h ref href).2
      refine ⟨ref, ?_, rfl⟩
      rw [commit, getElem?_indexFuncs_of_not hnot, getElem?_commitBase hnamed hindexed hadm]
      exact ⟨href, hname⟩

/-- A library stays admissible when another one enters that has neither its name nor one of its
functions. -/
theorem Admissible.after_commit (hadm : Admissible r lib' replace) (hname : lib.name ≠ lib'.name)
    (hapart : Apart lib lib') : Admissible (commit r lib replace) lib' replace where
  name := by
    intro hreplace
    rw [commit, OrdMap.getElem?_insert, if_neg hname]
    exact hadm.name hreplace
  funcs := by
    intro f hreg ref href
    rw [commit, getElem?_indexFuncs_of_not fun h => hapart f h hreg] at href
    exact hadm.funcs f hreg ref (getElem?_of_commitBase href)

theorem commitAll_indexed (hnamed : r.Named) (hindexed : r.Indexed)
    (hadm : ∀ lib ∈ libs, Admissible r lib replace)
    (hnames : libs.Pairwise fun a b => a.name ≠ b.name) (hapart : libs.Pairwise Apart) :
    (commitAll r libs replace).Indexed := by
  induction libs generalizing r with
  | nil => exact hindexed
  | cons lib libs ih =>
    obtain ⟨hlib, hrest⟩ := forall_mem_cons.mp hadm
    obtain ⟨hname, hnames⟩ := pairwise_cons.mp hnames
    obtain ⟨hfirst, hapart⟩ := pairwise_cons.mp hapart
    refine ih (commit_named hnamed) (commit_indexed hnamed hindexed hlib) ?_ hnames hapart
    exact fun lib' hmem => (hrest lib' hmem).after_commit (hname lib' hmem) (hfirst lib' hmem)

theorem getElem?_commitAll_of_not (h : ∀ lib ∈ libs, lib.name ≠ name) :
    (commitAll r libs replace).libs[name]? = r.libs[name]? := by
  induction libs generalizing r with
  | nil => rfl
  | cons lib libs ih =>
    obtain ⟨hlib, hrest⟩ := forall_mem_cons.mp h
    refine (ih hrest).trans ?_
    exact getElem?_insert.trans (if_neg hlib)

/-- Libraries of different names are all loaded. -/
theorem loaded_commitAll (hnames : libs.Pairwise fun a b => a.name ≠ b.name) :
    ∀ lib ∈ libs, (commitAll r libs replace).Loaded lib := by
  induction libs generalizing r with
  | nil => exact fun _ h => absurd h not_mem_nil
  | cons lib libs ih =>
    obtain ⟨hname, hnames⟩ := pairwise_cons.mp hnames
    refine forall_mem_cons.mpr ⟨⟨lib.name, ?_⟩, ih hnames⟩
    refine (getElem?_commitAll_of_not fun lib' hmem => Ne.symm (hname lib' hmem)).trans ?_
    exact getElem?_insert.trans (if_pos rfl)

/-- In agreement, loaded libraries with a common function are one. -/
theorem FnRegistry.Indexed.eq_of_registers (h : r.Indexed) (hlib : r.Loaded lib)
    (hlib' : r.Loaded lib') (hreg : lib.Registers f) (hreg' : lib'.Registers f) : lib = lib' := by
  obtain ⟨ref, href, rfl⟩ := (h f lib).mpr ⟨hlib, hreg⟩
  obtain ⟨ref', href', rfl⟩ := (h f lib').mpr ⟨hlib', hreg'⟩
  rw [href, some.injEq] at href'
  rw [href']

/-- Entering admissible libraries keeps the agreement exactly when no two have a function in
common. -/
theorem commitAll_indexed_iff (hnamed : r.Named) (hindexed : r.Indexed)
    (hadm : ∀ lib ∈ libs, Admissible r lib replace)
    (hnames : libs.Pairwise fun a b => a.name ≠ b.name) :
    (commitAll r libs replace).Indexed ↔ libs.Pairwise Apart := by
  refine ⟨fun h => ?_, commitAll_indexed hnamed hindexed hadm hnames⟩
  refine hnames.imp_of_mem fun {a b} ha hb hne f hreg hreg' => hne ?_
  rw [h.eq_of_registers (loaded_commitAll hnames a ha) (loaded_commitAll hnames b hb) hreg hreg']

theorem named_empty : FnRegistry.Named {} where
  libs := by simp
  fns := by simp

theorem indexed_empty : FnRegistry.Indexed {} := by
  intro f lib
  simp [FnRegistry.Loaded]

theorem delete_named (h : r.Named) :
    FnRegistry.Named { libs := r.libs.erase name, fns := dropFuncs name r.fns funcs } where
  libs := by
    intro n lib hlib
    rw [getElem?_erase] at hlib
    split at hlib
    · cases hlib
    · exact h.libs n lib hlib
  fns := fun f ref href => h.fns f ref (getElem?_dropFuncs.mp href).1

theorem delete_indexed (hnamed : r.Named) (hindexed : r.Indexed) (hold : r.libs[name]? = some lib) :
    FnRegistry.Indexed { libs := r.libs.erase name, fns := dropFuncs name r.fns lib.funcs } := by
  intro f lib'
  constructor
  · rintro ⟨ref, href, rfl⟩
    obtain ⟨hget, hnot⟩ := getElem?_dropFuncs.mp href
    obtain ⟨⟨n, hloaded⟩, hreg⟩ := (hindexed f ref.lib).mp ⟨ref, hget, rfl⟩
    refine ⟨⟨n, ?_⟩, hreg⟩
    rw [getElem?_erase, if_neg, hloaded]
    rintro rfl
    rw [hold, some.injEq] at hloaded
    subst hloaded
    exact hnot ⟨hreg, (hnamed.fns f ref hget).1.trans (hnamed.libs name ref.lib hold)⟩
  · rintro ⟨⟨n, hloaded⟩, hreg⟩
    rw [getElem?_erase] at hloaded
    split at hloaded
    · cases hloaded
    · next hne =>
      obtain ⟨ref, href, rfl⟩ := (hindexed f lib').mpr ⟨⟨n, hloaded⟩, hreg⟩
      refine ⟨ref, getElem?_dropFuncs.mpr ⟨href, fun hboth => hne ?_⟩, rfl⟩
      rw [← hboth.2, (hnamed.fns f ref href).1, hnamed.libs n ref.lib hloaded]

end

section
variable {compile : Bytes → Except Bytes Compiled} {r : FnRegistry}

theorem takenFunc_none (h : takenFunc r lib replace = none) :
    ∀ f, lib.Registers f → ∀ ref, r.fns[f]? = some ref → replace = true ∧ ref.libName = lib.name := by
  rintro f ⟨d, hd, rfl⟩ ref href
  have hfree := find?_eq_none.mp h d hd
  rw [href] at hfree
  simpa using hfree

/-- A compiled library keeps its source text. -/
theorem compileLibrary_code {code : Bytes} (h : compileLibrary compile code = .ok lib) :
    lib.code = code := by
  unfold compileLibrary at h
  split at h
  · cases h
  · cases h
    rfl

/-- A library that is loaded was admissible, and its source text gives it again. -/
theorem loadCode_cases {code : Bytes} : (loadCode compile r replace code).1 = r ∨
      ∃ lib, Admissible r lib replace ∧ compileLibrary compile lib.code = .ok lib ∧
        (loadCode compile r replace code).1 = commit r lib replace := by
  rw [loadCode]
  cases hlib : compileLibrary compile code with
  | error => exact .inl rfl
  | ok lib =>
    have hcode := compileLibrary_code hlib
    dsimp only
    split
    · exact .inl rfl
    · next hexists =>
      cases htaken : takenFunc r lib replace with
      | some => exact .inl rfl
      | none =>
        refine .inr ⟨lib, ⟨fun hreplace => ?_, takenFunc_none htaken⟩, hcode ▸ hlib, rfl⟩
        rw [hreplace] at hexists
        simpa using hexists

theorem load_cases : (load compile r args).1 = r ∨
      ∃ lib replace, Admissible r lib replace ∧ compileLibrary compile lib.code = .ok lib ∧
        (load compile r args).1 = commit r lib replace := by
  have hcode : ∀ replace code, (loadCode compile r replace code).1 = r ∨ ∃ lib replace',
      Admissible r lib replace' ∧ compileLibrary compile lib.code = .ok lib ∧
        (loadCode compile r replace code).1 = commit r lib replace' :=
    fun replace code => loadCode_cases.imp id fun ⟨lib, h⟩ => ⟨lib, replace, h⟩
  unfold load
  split
  · exact .inl rfl
  · exact .inl rfl
  · exact hcode false _
  · exact .inl rfl
  · split
    · exact .inl rfl
    · split
      · exact .inl rfl
      · exact hcode true _
      · exact .inl rfl

theorem delete_cases : (deleteLibrary r args).1 = r ∨ ∃ name lib, r.libs[name]? = some lib ∧
      (deleteLibrary r args).1 =
        { libs := r.libs.erase name, fns := dropFuncs name r.fns lib.funcs } := by
  match args with
  | [] => exact .inl rfl
  | [none] => exact .inl rfl
  | [some name] =>
    rw [deleteLibrary]
    cases hlib : r.libs[name]? with
    | none => exact .inl rfl
    | some lib => exact .inr ⟨name, lib, hlib, rfl⟩
  | none :: _ :: _ => exact .inl rfl
  | some _ :: _ :: _ => exact .inl rfl

theorem flush_cases : (flushFunctions r args).1 = r ∨ (flushFunctions r args).1 = {} := by
  match args with
  | [] => exact .inr rfl
  | [opt] =>
    rw [flushFunctions]
    split
    · exact .inl rfl
    · exact .inr rfl
  | _ :: _ :: _ => exact .inl rfl

theorem decodeLibs_names {count : Nat} {seen : List Bytes} {rest : Bytes}
    (h : decodeLibs count seen rest = some raws) :
    (raws.map (·.1)).Nodup ∧ ∀ name ∈ raws.map (·.1), name ∉ seen := by
  induction count generalizing seen rest raws with
  | zero =>
    rw [decodeLibs] at h
    split at h
    · cases h
    · cases h
      exact ⟨nodup_nil, fun _ hmem => absurd hmem not_mem_nil⟩
  | succ count ih =>
    obtain ⟨⟨name, rest₁⟩, -, h⟩ := bind_eq_some_iff.mp h
    obtain ⟨⟨code, rest₂⟩, -, h⟩ := bind_eq_some_iff.mp h
    dsimp only at h
    split at h
    · cases h
    · next hfresh =>
      obtain ⟨raws', hraws, h⟩ := bind_eq_some_iff.mp h
      cases h
      obtain ⟨hnodup, hseen⟩ := ih hraws
      refine ⟨nodup_cons.mpr ⟨fun hmem => ?_, hnodup⟩, ?_⟩
      · exact hseen name hmem (mem_cons_self ..)
      · refine forall_mem_cons.mpr ⟨hfresh, fun n hn hmem => ?_⟩
        exact hseen n hn (mem_cons_of_mem _ hmem)

/-- The libraries of a payload have its names, and their source texts give them again. -/
theorem compileAll_spec (h : compileAll compile raws = some libs) :
    libs.map (·.name) = raws.map (·.1) ∧
      ∀ lib ∈ libs, compileLibrary compile lib.code = .ok lib := by
  induction raws generalizing libs with
  | nil =>
    cases h
    exact ⟨rfl, fun _ h => absurd h not_mem_nil⟩
  | cons raw raws ih =>
    rw [compileAll] at h
    split at h
    · cases h
    · next lib hlib =>
      split at h
      · cases h
      · next hname =>
        split at h
        · cases h
        · next hrest =>
          cases h
          obtain ⟨hnames, hsources⟩ := ih hrest
          rw [map_cons, hnames, not_not.mp hname]
          refine ⟨rfl, forall_mem_cons.mpr ⟨?_, hsources⟩⟩
          rwa [compileLibrary_code hlib]

theorem payload_names {payload : Bytes}
    (h : (decodeFnDump payload).bind (compileAll compile) = some libs) :
    libs.Pairwise fun a b => a.name ≠ b.name := by
  obtain ⟨raws, hraws, hlibs⟩ := bind_eq_some_iff.mp h
  have hnodup : (raws.map (·.1)).Nodup := by
    unfold decodeFnDump at hraws
    split at hraws
    · cases hraws
    · split at hraws
      · cases hraws
      · dsimp only at hraws
        split at hraws
        · cases hraws
        · exact (decodeLibs_names hraws).1
  rw [← (compileAll_spec hlibs).1] at hnodup
  exact pairwise_map.mp hnodup

/-- The libraries that a restore enters have different names, nothing stands against any of them, and
their source texts give them again. -/
theorem restorePlan_spec (h : restorePlan compile r args = .ok (policy, libs)) :
    (libs.Pairwise fun a b => a.name ≠ b.name) ∧
      (∀ lib ∈ libs, Admissible (if policy = .flush then {} else r) lib (policy == .replace)) ∧
      ∀ lib ∈ libs, compileLibrary compile lib.code = .ok lib := by
  unfold restorePlan at h
  split at h
  · cases h
  · split at h
    · cases h
    · split at h
      · cases h
      · split at h
        · cases h
        · next policy' _ =>
          split at h
          · cases h
          · next libs' hlibs =>
            split at h
            · cases h
            · next hfree =>
              cases h
              obtain ⟨raws, -, hraws⟩ := bind_eq_some_iff.mp hlibs
              refine ⟨payload_names hlibs, fun lib hlib => ?_, (compileAll_spec hraws).2⟩
              have hnone := findSome?_eq_none_iff.mp hfree lib hlib
              unfold restoreConflict at hnone
              cases policy with
              | flush => exact ⟨fun _ => by simp, fun f _ ref href => by simp at href⟩
              | append =>
                simp only [reduceCtorEq, if_false, true_and] at hnone ⊢
                split at hnone
                · cases hnone
                · next hname =>
                  refine ⟨fun _ => by simpa using hname, takenFunc_none ?_⟩
                  exact map_eq_none_iff.mp hnone
              | replace =>
                refine ⟨fun hfalse => by simp at hfalse, takenFunc_none ?_⟩
                exact map_eq_none_iff.mp hnone

variable (compile)

/-- The registry after a command. -/
def stepFn (r : FnRegistry) (c : FnCall) : FnRegistry := (handleFunction compile r c).1

/-- The libraries that a restore enters have no function name in common. -/
def FnCall.Parted (r : FnRegistry) : FnCall → Prop
  | .restore args =>
    ∀ policy libs, restorePlan compile r args = .ok (policy, libs) → libs.Pairwise Apart
  | _ => True

variable {compile}

theorem restore_step (h : restorePlan compile r args = .ok (policy, libs)) :
    stepFn compile r (.restore args) =
      commitAll (if policy = .flush then {} else r) libs (policy == .replace) := by
  rw [stepFn, handleFunction, restoreFn, h]

theorem restore_refused {e : Value} (h : restorePlan compile r args = .error e) :
    stepFn compile r (.restore args) = r := by
  rw [stepFn, handleFunction, restoreFn, h]

/-- What entering a library that its source text gives, removing one and starting anew preserve,
every command preserves. -/
theorem step_rule {I : FnRegistry → Prop} (hempty : I {}) (hcommit : ∀ {r lib} replace, I r →
      compileLibrary compile lib.code = .ok lib → I (commit r lib replace)) (hdelete : ∀ {r} name
      funcs, I r → I { libs := r.libs.erase name, fns := dropFuncs name r.fns funcs }) {c : FnCall}
    (h : I r) : I (stepFn compile r c) := by
  cases c with
  | load =>
    rw [stepFn, handleFunction]
    rcases load_cases with heq | ⟨lib, replace, -, hlib, heq⟩
    · rwa [heq]
    · rw [heq]
      exact hcommit replace h hlib
  | delete =>
    rw [stepFn, handleFunction]
    rcases delete_cases with heq | ⟨name, lib, -, heq⟩
    · rwa [heq]
    · rw [heq]
      exact hdelete name lib.funcs h
  | flush =>
    rw [stepFn, handleFunction]
    rcases flush_cases with heq | heq
    · rwa [heq]
    · rwa [heq]
  | restore args =>
    cases hplan : restorePlan compile r args with
    | error => rwa [restore_refused hplan]
    | ok plan =>
      obtain ⟨policy, libs⟩ := plan
      have hlibs := (restorePlan_spec hplan).2.2
      have hbase : I (if policy = .flush then {} else r) := by split <;> assumption
      rw [restore_step hplan]
      clear hplan
      generalize (if policy = .flush then {} else r) = base at hbase
      induction libs generalizing base with
      | nil => exact hbase
      | cons lib libs ih =>
        obtain ⟨hlib, hrest⟩ := forall_mem_cons.mp hlibs
        exact ih hrest _ (hcommit _ hbase hlib)

theorem step_named (r : FnRegistry) (c : FnCall) (h : r.Named) : (stepFn compile r c).Named :=
  step_rule named_empty (fun replace h _ => commit_named h) (fun name funcs h => delete_named h) h

/-- Every library is what its source text gives. -/
def FnRegistry.Sourced (compile : Bytes → Except Bytes Compiled) (r : FnRegistry) : Prop :=
  ∀ (name : Bytes) (lib : FnLibrary), r.libs[name]? = some lib →
    compileLibrary compile lib.code = .ok lib

theorem sourced_empty : FnRegistry.Sourced compile {} := fun _ _ h => by simp at h

theorem commit_sourced (h : r.Sourced compile) (hlib : compileLibrary compile lib.code = .ok lib) :
    (commit r lib replace).Sourced compile := by
  intro name lib' h'
  rw [commit, OrdMap.getElem?_insert] at h'
  split at h'
  · cases h'
    exact hlib
  · exact h name lib' h'

theorem step_sourced (r : FnRegistry) (c : FnCall) (h : r.Sourced compile) :
    (stepFn compile r c).Sourced compile := by
  refine step_rule sourced_empty (fun replace h hlib => commit_sourced h hlib) ?_ h
  intro r name funcs h name' lib' h'
  rw [getElem?_erase] at h'
  split at h'
  · cases h'
  · exact h name' lib' h'

/-- A command keeps the agreement exactly when it is no restore of libraries with a common
function. -/
theorem step_indexed_iff (r : FnRegistry) (c : FnCall) (hnamed : r.Named) (h : r.Indexed) :
    (stepFn compile r c).Indexed ↔ c.Parted compile r := by
  cases c with
  | load =>
    refine iff_of_true ?_ trivial
    rw [stepFn, handleFunction]
    rcases load_cases with heq | ⟨lib, replace, hadm, -, heq⟩
    · rwa [heq]
    · rw [heq]
      exact commit_indexed hnamed h hadm
  | delete =>
    refine iff_of_true ?_ trivial
    rw [stepFn, handleFunction]
    rcases delete_cases with heq | ⟨name, lib, hold, heq⟩
    · rwa [heq]
    · rw [heq]
      exact delete_indexed hnamed h hold
  | flush =>
    refine iff_of_true ?_ trivial
    rw [stepFn, handleFunction]
    rcases flush_cases with heq | heq
    · rwa [heq]
    · rw [heq]
      exact indexed_empty
  | restore args =>
    cases hplan : restorePlan compile r args with
    | error =>
      rw [restore_refused hplan]
      refine iff_of_true h fun policy libs hok => ?_
      rw [hplan] at hok
      cases hok
    | ok plan =>
      obtain ⟨policy, libs⟩ := plan
      obtain ⟨hnames, hadm, -⟩ := restorePlan_spec hplan
      have hiff : (stepFn compile r (.restore args)).Indexed ↔ libs.Pairwise Apart := by
        rw [restore_step hplan]
        split
        · next hflush =>
          rw [if_pos hflush] at hadm
          exact commitAll_indexed_iff named_empty indexed_empty hadm hnames
        · next hflush =>
          rw [if_neg hflush] at hadm
          exact commitAll_indexed_iff hnamed h hadm hnames
      rw [hiff, FnCall.Parted, hplan]
      refine ⟨fun hapart policy' libs' heq => ?_, fun hall => hall policy libs rfl⟩
      cases heq
      exact hapart

/-- Along the commands from an empty registry, the index agrees with the libraries in every state
exactly when no restore enters libraries with a common function name. -/
theorem run_indexed_iff (compile : Bytes → Except Bytes Compiled) (cs : List FnCall) :
    (∀ before, before <+: cs → (run (stepFn compile) {} before).Indexed) ↔
      Along (stepFn compile) (fun r c => c.Parted compile r) {} cs :=
  (along_iff_reached step_named step_indexed_iff named_empty indexed_empty).symm

end

/-- A library `a` with the function `f`. -/
def libraryA : Compiled := ⟨[97], [{ name := [102] }], by decide, by decide⟩

/-- A library `b` with the function `F`. -/
def libraryB : Compiled := ⟨[98], [{ name := [70] }], by decide, by decide⟩

/-- The sources of both are their names. -/
def twoSources (code : Bytes) : Except Bytes Compiled :=
  if code = [97] then .ok libraryA
  else if code = [98] then .ok libraryB
  else .error (ascii "ERR No functions registered".toList)

/-- A payload with both. -/
def twoLibraries : Bytes := fnDumpMagic ++ [2, 1, 97, 1, 97, 1, 98, 1, 98]

/-- The registry after restoring both. -/
def bothRestored : FnRegistry := run (stepFn twoSources) {} [.restore [some twoLibraries]]

/-- Both are loaded, and the index leads from the name of their functions to the second one only. -/
theorem restore_shares_function :
    (bothRestored.libs.keys = [[97], [98]] ∧
      bothRestored.fns.toList.map (fun e => (e.1, e.2.lib.name)) = [([102], [98])]) ∧
    ¬ bothRestored.Indexed := by
  have hfns : bothRestored.fns.toList.map (fun e => (e.1, e.2.lib.name)) = [([102], [98])] := by
    decide +kernel
  refine ⟨⟨by decide +kernel, hfns⟩, fun h => ?_⟩
  have hloaded : bothRestored.Loaded { libraryA with code := [97] } := ⟨[97], by decide +kernel⟩
  have hregisters : FnLibrary.Registers { libraryA with code := [97] } [102] :=
    ⟨{ name := [102] }, mem_cons_self .., rfl⟩
  obtain ⟨ref, href, hlib⟩ := (h [102] _).mpr ⟨hloaded, hregisters⟩
  have hmem := mem_map_of_mem (f := fun e => (e.1, e.2.lib.name))
    (Std.ExtTreeMap.mem_toList_iff_getElem?_eq_some.mpr href)
  rw [hfns, hlib, mem_singleton, Prod.mk.injEq] at hmem
  exact absurd hmem.2 (by decide)

end Gedis.Commands
