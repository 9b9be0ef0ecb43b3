import Gedis.Commands.FunctionIndex
import Gedis.Commands.OneRecord

/-!
# Function libraries in the store

The source text of every library is also written to the store, under its name behind `fn:`. The
registry is rebuilt from these records when the server starts. They share the store with the data, so
a write of one can be refused for lack of memory, which goes unnoticed, and any of them can be
evicted.
-/

namespace Gedis.Commands

open Gedis.Core Storage Protocol Std Option

variable {m : OrdMap Bytes Bytes} {q : Request} {w : World} {lib : FnLibrary} {s : Pebble}
  {name : Bytes} {raws : List Bytes}

section

variable (compile : Bytes → Except Bytes Compiled)

/-- The library that a source text is loaded as, or the error. -/
def loadCodePlan (r : FnRegistry) (replace : Bool) (code : Bytes) : Except Value FnLibrary :=
  match compileLibrary compile code with
  | .error e => .error (.error e)
  | .ok lib =>
    if r.libs[lib.name]?.isSome && !replace then
      .error (.error (ascii "ERR Library '".toList ++ lib.name ++ ascii "' already exists".toList))
    else
      match takenFunc r lib replace with
      | some d => .error (.error (functionExists d))
      | none => .ok lib

/-- The library that `FUNCTION LOAD [REPLACE] code` enters. -/
def loadPlan (r : FnRegistry) : List Arg → Except Value (Bool × FnLibrary)
  | [] => .error (wrongArgs "function|load")
  | [none] => .error (wrongArgs "function|load")
  | [some code] => (loadCodePlan compile r false code).map (false, ·)
  | none :: _ :: _ => .error (wrongArgs "function|load")
  | some opt :: code :: extra =>
    if ¬ equalFold opt (ascii "REPLACE".toList) then .error (unknownOption opt)
    else
      match code, extra with
      | none, _ => .error (wrongArgs "function|load")
      | some code, [] => (loadCodePlan compile r true code).map (true, ·)
      | some _, arg :: _ => .error (unknownOption (arg.getD []))

/-- Write the records of libraries that are entered. Errors are dropped. -/
def persistLibs : List FnLibrary → Handler Unit
  | [] => pure ()
  | lib :: libs => do
    let _ ← Kv.set (fnKey lib.name) lib.code
    persistLibs libs

/-- Remove all records of libraries. -/
def sweepKV : Handler Unit := do
  let raws ← Kv.scan (fnKey [])
  deleteAll raws

/-- What a command asks of the store, given the registry before it. -/
def storeFunctions (r : FnRegistry) : FnCall → Handler Unit
  | .load args =>
    match loadPlan compile r args with
    | .error _ => pure ()
    | .ok (_, lib) => persistLibs [lib]
  | .delete [some name] =>
    match r.libs[name]? with
    | none => pure ()
    | some _ => Kv.delete (fnKey name)
  | .delete _ => pure ()
  | .flush [] => sweepKV
  | .flush [opt] =>
    if ¬ equalFold (opt.getD []) (ascii "SYNC".toList) ∧
        ¬ equalFold (opt.getD []) (ascii "ASYNC".toList) then pure ()
    else sweepKV
  | .flush _ => pure ()
  | .restore args =>
    match restorePlan compile r args with
    | .error _ => pure ()
    | .ok (.flush, libs) => do
      sweepKV
      persistLibs libs
    | .ok (_, libs) => persistLibs libs

/-- Enter the library of one record; a text that does not compile is skipped. -/
def restoreRecord (db : OrdMap Bytes Bytes) (r : FnRegistry) (raw : Bytes) : FnRegistry :=
  match db[raw]? with
  | none => r
  | some code =>
    match compileLibrary compile code with
    | .error _ => r
    | .ok lib => commit r lib true

/-- The registry that a starting server builds from the store. -/
def restoreRegistry (db : OrdMap Bytes Bytes) : FnRegistry :=
  (scanKeys db (fnKey [])).foldl (restoreRecord compile db) {}

end

/-- The registry and the store. -/
structure FnServer where
  registry : FnRegistry
  store : Pebble

inductive FnEvent where
  /-- A `FUNCTION` command. -/
  | function (c : FnCall) (clock : Nat → Int64)
  /-- A data command, as the requests it makes. -/
  | data (command : Handler Reply) (clock : Nat → Int64)
  | evict
  | setMaxBytes (n : Int)
  | setPolicy (policy : Policy)

/-- One step. -/
def FnServer.step (compile : Bytes → Except Bytes Compiled) (st : FnServer) : FnEvent → FnServer
  | .function c clock =>
    ⟨stepFn compile st.registry c,
      ((storeFunctions compile st.registry c).exec World.answer ⟨st.store, clock⟩).1.store⟩
  | .data command clock => { st with store := (command.exec World.answer ⟨st.store, clock⟩).1.store }
  | .evict => { st with store := st.store.evictOne.1 }
  | .setMaxBytes n => { st with store := { st.store with maxBytes := max 0 n } }
  | .setPolicy policy => { st with store := { st.store with policy } }

/-- A server started over a store. -/
def FnServer.start (compile : Bytes → Except Bytes Compiled) (s : Pebble) : FnServer :=
  ⟨restoreRegistry compile s.db, s⟩

/-- A restart gives the same libraries. -/
def FnServer.Survives (compile : Bytes → Except Bytes Compiled) (st : FnServer) : Prop :=
  (restoreRegistry compile st.store.db).libs = st.registry.libs

/-- A record is not that of a library. -/
def NotLibrary (_ : OrdMap Bytes Bytes) (raw : Bytes) : Prop := ¬ fnKey [] <+: raw

instance (m : OrdMap Bytes Bytes) (raw : Bytes) : Decidable (NotLibrary m raw) :=
  inferInstanceAs (Decidable (¬ _))

/-- Making room for a request evicts no library. -/
def SparesLibraries (s : Pebble) : Request → Prop
  | .set key value => s.EvictsOnly NotLibrary (s.deltaFor key (key.length + value.length))
  | .writeBatch ops =>
    ops ≠ [] → s.EvictsOnly NotLibrary (s.batchDelta ops.reverse []) ∧
      ((s.reserve ops).2 = .ok → ((s.reserve ops).1.commit ops).EvictsOnly NotLibrary 0)
  | _ => True

instance (s : Pebble) : (q : Request) → Decidable (SparesLibraries s q)
  | .set .. => inferInstanceAs (Decidable (Pebble.EvictsOnly _ _ _))
  | .writeBatch _ => inferInstanceAs (Decidable (_ → _))
  | .get _ | .delete _ | .scan _ | .now => .isTrue trivial

/-- There is room for a write, or can be made. -/
def Admitted (s : Pebble) : Request → Prop
  | .set key value => (s.makeRoom key value).2 = .ok
  | _ => True

instance (s : Pebble) : (q : Request) → Decidable (Admitted s q)
  | .set .. => inferInstanceAs (Decidable (_ = _))
  | .writeBatch _ | .get _ | .delete _ | .scan _ | .now => .isTrue trivial

/-- A request of a data command leaves the records of libraries alone. -/
def Unrelated (s : Pebble) (q : Request) : Prop :=
  SparesLibraries s q ∧ ∀ w ∈ q.writes, NotLibrary s.db w.key

/-- The condition of a step on the state before it: libraries are written with success, and neither
evicted nor overwritten or removed by data commands. -/
def FnEvent.Safe (compile : Bytes → Except Bytes Compiled) (st : FnServer) : FnEvent → Prop
  | .function c clock =>
    (storeFunctions compile st.registry c).During World.answer
      (fun w q => SparesLibraries w.store q ∧ Admitted w.store q) ⟨st.store, clock⟩
  | .data command clock =>
    command.During World.answer (fun w q => Unrelated w.store q) ⟨st.store, clock⟩
  | .evict => ∀ raw ∈ st.store.nextVictim, NotLibrary st.store.db raw
  | _ => True

instance (compile : Bytes → Except Bytes Compiled) (st : FnServer) :
    (e : FnEvent) → Decidable (e.Safe compile st)
  | .function .. => inferInstanceAs (Decidable (Prog.During _ _ _ _))
  | .data .. =>
    haveI (w : World) (q : Request) : Decidable (Unrelated w.store q) :=
      inferInstanceAs (Decidable (_ ∧ _))
    inferInstanceAs (Decidable (Prog.During _ _ _ _))
  | .evict => inferInstanceAs (Decidable (∀ raw ∈ st.store.nextVictim, NotLibrary st.store.db raw))
  | .setMaxBytes _ | .setPolicy _ => .isTrue trivial

/-- Two maps have the same records of libraries. -/
def SameLibraries (m m' : OrdMap Bytes Bytes) : Prop :=
  ∀ name, m'[fnKey name]? = m[fnKey name]?

theorem fnKey_starts : fnKey [] <+: fnKey name := List.prefix_append ..

theorem fnKey_inj {name' : Bytes} : fnKey name = fnKey name' ↔ name = name' :=
  List.append_right_inj _

section Spared

variable {s : Pebble}

theorem SameLibraries.trans {m₁ m₂ m₃ : OrdMap Bytes Bytes} (h : SameLibraries m₁ m₂)
    (h' : SameLibraries m₂ m₃) : SameLibraries m₁ m₃ := fun name => (h' name).trans (h name)

theorem SameLibraries.replay {m' : OrdMap Bytes Bytes} (h : SameLibraries m m')
    (ws : List (Write Bytes Bytes)) : SameLibraries (replay m ws) (replay m' ws) := by
  intro name
  by_cases hu : Untouched ws (fnKey name)
  · rw [getElem?_replay_of_untouched hu, getElem?_replay_of_untouched hu]
    exact h name
  · exact getElem?_replay_of_touched hu m' m

/-- Removing a record that is not a library's leaves the libraries. -/
theorem sameLibraries_erase {raw : Bytes} (h : NotLibrary m raw) :
    SameLibraries m (m.erase raw) := by
  intro name
  rw [OrdMap.getElem?_erase, if_neg]
  rintro rfl
  exact h fnKey_starts

theorem sameLibraries_evictForDelta {delta : Int} (h : s.EvictsOnly NotLibrary delta) :
    SameLibraries s.db (s.evictForDelta delta).1.db := by
  refine h.induction (I := fun s' => SameLibraries s.db s'.db) (fun _ _ hi => hi)
    (fun s' raw _ hraw hi => ?_) (fun _ => rfl)
  have hdb : (s'.evictKey raw).db = s'.db.erase raw := Pebble.deleteInternal_db
  rw [hdb]
  exact hi.trans (sameLibraries_erase hraw)

theorem drops_of_spares (h : SparesLibraries s q) : s.Drops SameLibraries q := by
  cases q with
  | set key value =>
    have hroom := sameLibraries_evictForDelta h
    exact ⟨hroom, hroom.replay [⟨key, some value⟩]⟩
  | writeBatch =>
    intro hne
    have hroom := sameLibraries_evictForDelta (h hne).1
    refine ⟨hroom, fun hok => (hroom.replay _).trans ?_⟩
    rw [← Pebble.commit_db]
    exact sameLibraries_evictForDelta ((h hne).2 hok)
  | get => trivial
  | delete => trivial
  | scan => trivial
  | now => trivial

/-- A request that spares the libraries stays within the map that loses none. -/
theorem answer_spares (now : Int64) (h : SparesLibraries s q) :
    Lossy SameLibraries (fun _ => True) s.db q (s.answer now q).1.db (s.answer now q).2 :=
  Pebble.answer_lossy (fun _ _ => rfl) trivial (drops_of_spares h)

theorem sameLibraries_replay {ws : List (Write Bytes Bytes)} (h : ∀ w ∈ ws, NotLibrary m w.key) :
    SameLibraries m (replay m ws) := by
  intro name
  refine getElem?_replay_of_untouched (fun w hw he => h w hw ?_)
  rw [he]
  exact fnKey_starts

/-- A request of a data command keeps the libraries. -/
theorem sameLibraries_answer {now : Int64} (h : Unrelated s q) :
    SameLibraries s.db (s.answer now q).1.db := by
  obtain ⟨hspares, hwrites⟩ := h
  have hlossy := answer_spares now hspares
  have hreplay := sameLibraries_replay hwrites
  cases q with
  | get =>
    rw [hlossy.1]
    exact fun _ => rfl
  | set =>
    rcases hlossy with ⟨-, hlost⟩ | ⟨-, hlost, -⟩
    · exact hlost
    · exact hreplay.trans hlost
  | delete key =>
    have hdb : (s.answer now (.delete key)).1.db = s.db.erase key := hlossy
    rw [hdb]
    exact hreplay
  | scan =>
    exact fun _ => rfl
  | writeBatch =>
    rcases hlossy with ⟨-, hlost⟩ | hlost
    · exact hlost
    · exact hreplay.trans hlost
  | now =>
    exact fun _ => rfl

/-- So does a whole data command. -/
theorem sameLibraries_exec {α : Type} {command : Handler α}
    (h : command.During World.answer (fun w q => Unrelated w.store q) w) :
    SameLibraries w.store.db (command.exec World.answer w).1.store.db := by
  induction command generalizing w with
  | ret => exact fun _ => rfl
  | ask q next ih => exact (sameLibraries_answer h.1).trans (ih _ h.2)

end Spared

/-- The store has the source text of every library under its name, and no other record of a
library. -/
def FnRegistry.Persisted (r : FnRegistry) (db : OrdMap Bytes Bytes) : Prop :=
  ∀ name, db[fnKey name]? = (r.libs[name]?).map (·.code)

section Persisted

variable {compile : Bytes → Except Bytes Compiled} {r : FnRegistry} {db db' : OrdMap Bytes Bytes}

theorem FnRegistry.Persisted.congr (h : r.Persisted db) (hsame : SameLibraries db db') :
    r.Persisted db' := fun name => (hsame name).trans (h name)

theorem mem_scan_fnKey {raw : Bytes} :
    raw ∈ scanKeys db (fnKey []) ↔ ∃ name, raw = fnKey name ∧ fnKey name ∈ db := by
  rw [mem_scanKeys]
  constructor
  · rintro ⟨hmem, name, rfl⟩
    exact ⟨name, rfl, hmem⟩
  · rintro ⟨name, rfl, hmem⟩
    exact ⟨hmem, fnKey_starts⟩

/-- Every record of a library compiles to a library of its name, as in a store that only this server
has written. -/
def ProperRecords (compile : Bytes → Except Bytes Compiled) (db : OrdMap Bytes Bytes) : Prop :=
  ∀ name code : Bytes, db[fnKey name]? = some code →
    ∃ lib, compileLibrary compile code = .ok lib ∧ lib.name = name

/-- The library of a record. -/
def recorded (compile : Bytes → Except Bytes Compiled) (db : OrdMap Bytes Bytes) (name : Bytes) :
    Option FnLibrary :=
  (db[fnKey name]?).bind fun code => (compileLibrary compile code).toOption

theorem recorded_of_ok {code : Bytes} (hcode : db[fnKey name]? = some code)
    (hlib : compileLibrary compile code = .ok lib) : recorded compile db name = some lib := by
  rw [recorded, hcode, bind_some, hlib]
  rfl

/-- Restoring records one after the other gives the libraries of those records. -/
theorem getElem?_restoreRecords (hproper : ProperRecords compile db)
    (hraws : ∀ raw ∈ raws, ∃ name, raw = fnKey name ∧ fnKey name ∈ db) :
    (raws.foldl (restoreRecord compile db) r).libs[name]? =
      if fnKey name ∈ raws then recorded compile db name else r.libs[name]? := by
  induction raws generalizing r with
  | nil => simp
  | cons raw raws ih =>
    obtain ⟨name', rfl, hmem⟩ := hraws _ (List.mem_cons_self ..)
    obtain ⟨code, hcode⟩ := isSome_iff_exists.mp
      (ExtTreeMap.mem_iff_isSome_getElem?.mp hmem)
    obtain ⟨lib, hlib, hname'⟩ := hproper name' code hcode
    have hstep : restoreRecord compile db r (fnKey name') = commit r lib true := by
      rw [restoreRecord, hcode]
      dsimp only
      rw [hlib]
    rw [List.foldl_cons, hstep, ih fun raw hraw => hraws raw (List.mem_cons_of_mem _ hraw), commit,
      OrdMap.getElem?_insert, hname']
    by_cases hname : name' = name
    · subst hname
      simp [recorded_of_ok hcode hlib]
    · simp [hname, fnKey_inj, Ne.symm hname]

/-- A restart gives the libraries of all records. -/
theorem getElem?_restoreRegistry (hproper : ProperRecords compile db) :
    (restoreRegistry compile db).libs[name]? = recorded compile db name := by
  rw [restoreRegistry, getElem?_restoreRecords hproper fun _ h => mem_scan_fnKey.mp h]
  split
  · rfl
  · next hnot =>
    have habsent : fnKey name ∉ db := fun hmem => hnot (mem_scan_fnKey.mpr ⟨name, rfl, hmem⟩)
    rw [recorded, ExtTreeMap.getElem?_eq_none habsent]
    simp

theorem FnRegistry.Persisted.proper (hp : r.Persisted db) (hnamed : r.Named)
    (hsourced : r.Sourced compile) : ProperRecords compile db := by
  intro name code hcode
  rw [hp name] at hcode
  obtain ⟨lib, hlib, rfl⟩ := map_eq_some_iff.mp hcode
  exact ⟨lib, hsourced name lib hlib, hnamed.libs name lib hlib⟩

/-- A registry with its records in the store survives a restart. -/
theorem libs_restoreRegistry (hp : r.Persisted db) (hnamed : r.Named)
    (hsourced : r.Sourced compile) : (restoreRegistry compile db).libs = r.libs := by
  apply ExtTreeMap.ext_getElem?
  intro name
  rw [getElem?_restoreRegistry (hp.proper hnamed hsourced)]
  have hrecord := hp name
  cases hlib : r.libs[name]? with
  | none =>
    rw [hlib, map_none] at hrecord
    rw [recorded, hrecord, bind_none]
  | some lib =>
    rw [hlib] at hrecord
    exact recorded_of_ok hrecord (hsourced name lib hlib)

/-- What entering a compiled library preserves, a restart establishes. -/
theorem restoreRegistry_induction {I : FnRegistry → Prop} (hempty : I {})
    (hcommit : ∀ r lib, I r → compileLibrary compile lib.code = .ok lib → I (commit r lib true)) :
    I (restoreRegistry compile db) := by
  rw [restoreRegistry]
  generalize scanKeys db (fnKey []) = raws
  have hstep (r : FnRegistry) (raw : Bytes) (hr : I r) : I (restoreRecord compile db r raw) := by
    rw [restoreRecord]
    split
    · exact hr
    · next code _ =>
      split
      · exact hr
      · next lib hlib =>
        refine hcommit r lib hr ?_
        rwa [compileLibrary_code hlib]
  exact run_invariant hstep hempty raws

theorem loadCode_eq {replace : Bool} {code : Bytes} :
    loadCode compile r replace code =
      match loadCodePlan compile r replace code with
      | .error reply => (r, reply)
      | .ok lib => (commit r lib replace, bulkOf lib.name) := by
  rw [loadCode, loadCodePlan]
  cases compileLibrary compile code with
  | error => rfl
  | ok lib =>
    dsimp only
    split
    · rfl
    · cases takenFunc r lib replace <;> rfl

/-- The plan says which library a load enters. -/
theorem load_eq {args : List Arg} :
    load compile r args =
      match loadPlan compile r args with
      | .error reply => (r, reply)
      | .ok (replace, lib) => (commit r lib replace, bulkOf lib.name) := by
  have hcode (replace : Bool) (code : Bytes) : loadCode compile r replace code =
      match (loadCodePlan compile r replace code).map (replace, ·) with
      | .error reply => (r, reply)
      | .ok (replace, lib) => (commit r lib replace, bulkOf lib.name) := by
    rw [loadCode_eq]
    cases loadCodePlan compile r replace code <;> rfl
  match args with
  | [] => rfl
  | [none] => rfl
  | [some code] => exact hcode false code
  | none :: _ :: _ => rfl
  | some opt :: code :: extra =>
    unfold load loadPlan
    dsimp only
    split
    · rfl
    · match code, extra with
      | none, _ => rfl
      | some code, [] => exact hcode true code
      | some _, arg :: _ => rfl

/-- A library that is entered and whose record is written is persisted with the others. -/
theorem persisted_set (hp : r.Persisted db) {replace : Bool} (hdb : s.db = db) {now : Int64}
    (hq : q = .set (fnKey lib.name) lib.code) (hspares : SparesLibraries s q) (hadm : Admitted s q)
    : (commit r lib replace).Persisted (s.answer now q).1.db := by
  subst hq hdb
  have hwritten : SameLibraries (s.db.insert (fnKey lib.name) lib.code)
      (s.answer now (.set (fnKey lib.name) lib.code)).1.db := by
    rcases answer_spares now hspares with ⟨hoom, -⟩ | ⟨-, hsame, -⟩
    · rcases s.set_cases (fnKey lib.name) lib.code with ⟨hfull, -⟩ | ⟨-, he⟩
      · rw [show _ = Outcome.ok from hadm] at hfull
        cases hfull
      · rw [Pebble.answer, he] at hoom
        cases hoom
    · exact hsame
  intro name
  rw [hwritten name, commit, OrdMap.getElem?_insert, OrdMap.getElem?_insert]
  by_cases hname : lib.name = name
  · rw [if_pos (fnKey_inj.mpr hname), if_pos hname, map_some]
  · rw [if_neg (mt fnKey_inj.mp hname), if_neg hname]
    exact hp name

/-- Libraries that are entered one after the other are persisted. -/
theorem persisted_persistLibs (hp : r.Persisted w.store.db) (libs : List FnLibrary) (replace : Bool)
    (h : (persistLibs libs).During World.answer (fun w q => SparesLibraries w.store q ∧ Admitted
      w.store q) w) :
    (commitAll r libs replace).Persisted ((persistLibs libs).exec World.answer w).1.store.db := by
  induction libs generalizing r w with
  | nil => exact hp
  | cons lib libs ih =>
    exact ih (persisted_set hp rfl rfl h.1.1 h.1.2) h.2

theorem exec_deleteAll (w : World) :
    ((deleteAll raws).exec World.answer w).1.store.db = eraseAll w.store.db raws := by
  induction raws generalizing w with
  | nil => rfl
  | cons raw raws ih =>
    have hdb : (w.answer (.delete raw)).1.store.db = w.store.db.erase raw :=
      Pebble.deleteInternal_db
    refine (ih _).trans ?_
    rw [hdb]
    rfl

theorem persisted_sweepKV : FnRegistry.Persisted {} (sweepKV.exec World.answer w).1.store.db := by
  intro name
  have hdb : (sweepKV.exec World.answer w).1.store.db =
      eraseAll w.store.db (scanKeys w.store.db (fnKey [])) := exec_deleteAll _
  rw [hdb]
  have habsent : fnKey name ∉ eraseAll w.store.db (scanKeys w.store.db (fnKey [])) := by
    intro hmem
    obtain ⟨hin, hnot⟩ := mem_eraseAll.mp hmem
    exact hnot (mem_scan_fnKey.mpr ⟨name, rfl, hin⟩)
  rw [ExtTreeMap.getElem?_eq_none habsent]
  simp

theorem persisted_delete (hp : r.Persisted w.store.db) (name : Bytes) (funcs : List FnDef) :
    FnRegistry.Persisted { libs := r.libs.erase name, fns := dropFuncs name r.fns funcs }
      ((Kv.delete (fnKey name)).exec World.answer w).1.store.db := by
  have hdb : ((Kv.delete (fnKey name)).exec World.answer w).1.store.db =
      w.store.db.erase (fnKey name) := Pebble.deleteInternal_db
  intro name'
  rw [hdb, OrdMap.getElem?_erase, OrdMap.getElem?_erase]
  by_cases hname : name = name'
  · rw [if_pos (fnKey_inj.mpr hname), if_pos hname, map_none]
  · rw [if_neg (mt fnKey_inj.mp hname), if_neg hname]
    exact hp name'

/-- A command whose writes of libraries are admitted keeps the registry persisted. -/
theorem persisted_function (hp : r.Persisted s.db) {c : FnCall} {clock : Nat → Int64} (h :
      (storeFunctions compile r c).During World.answer (fun w q => SparesLibraries w.store q ∧
      Admitted w.store q) ⟨s, clock⟩) : (stepFn compile r c).Persisted
      ((storeFunctions compile r c).exec World.answer ⟨s, clock⟩).1.store.db := by
  cases c with
  | load args =>
    rw [stepFn, handleFunction, load_eq]
    rw [storeFunctions] at h ⊢
    cases hplan : loadPlan compile r args with
    | error => exact hp
    | ok plan =>
      obtain ⟨replace, lib⟩ := plan
      rw [hplan] at h
      exact persisted_persistLibs hp [lib] replace h
  | delete args =>
    rw [stepFn, handleFunction]
    rcases args with _ | ⟨_ | name, _ | ⟨arg, args⟩⟩
    · exact hp
    · exact hp
    · exact hp
    · rw [deleteLibrary, storeFunctions]
      cases r.libs[name]? with
      | none => exact hp
      | some lib => exact persisted_delete hp name lib.funcs
    · exact hp
  | flush args =>
    rw [stepFn, handleFunction]
    rcases args with _ | ⟨opt, _ | ⟨arg, args⟩⟩
    · exact persisted_sweepKV
    · rw [flushFunctions, storeFunctions]
      split
      · exact hp
      · exact persisted_sweepKV
    · exact hp
  | restore args =>
    rw [storeFunctions] at h ⊢
    cases hplan : restorePlan compile r args with
    | error =>
      rw [restore_refused hplan]
      exact hp
    | ok plan =>
      obtain ⟨policy, libs⟩ := plan
      rw [restore_step hplan]
      rw [hplan] at h
      cases policy with
      | flush =>
        rw [Prog.during_bind] at h
        rw [Prog.exec_bind]
        exact persisted_persistLibs persisted_sweepKV libs _ h.2
      | append => exact persisted_persistLibs hp libs false h
      | replace => exact persisted_persistLibs hp libs true h

end Persisted

/-- The registry is in order and has its records in the store. -/
structure FnServer.Kept (compile : Bytes → Except Bytes Compiled) (st : FnServer) : Prop where
  named : st.registry.Named
  sourced : st.registry.Sourced compile
  persisted : st.registry.Persisted st.store.db

section Runs

variable {compile : Bytes → Except Bytes Compiled} {st : FnServer}

theorem FnServer.Kept.survives (h : st.Kept compile) : st.Survives compile :=
  libs_restoreRegistry h.persisted h.named h.sourced

/-- A safe step keeps the registry persisted. -/
theorem FnServer.Kept.step (h : st.Kept compile) {e : FnEvent} (hsafe : e.Safe compile st) :
    (st.step compile e).Kept compile := by
  cases e with
  | function c =>
    exact ⟨step_named _ c h.named, step_sourced _ c h.sourced, persisted_function h.persisted hsafe⟩
  | data =>
    exact ⟨h.named, h.sourced, h.persisted.congr (sameLibraries_exec hsafe)⟩
  | evict =>
    refine ⟨h.named, h.sourced, h.persisted.congr ?_⟩
    rcases st.store.evictOne_cases with ⟨raw, hraw, he⟩ | ⟨-, he⟩
    · have hdb : st.store.evictOne.1.db = st.store.db.erase raw := by
        rw [he]
        exact Pebble.deleteInternal_db
      rw [FnServer.step, hdb]
      exact sameLibraries_erase (hsafe raw hraw)
    · rw [FnServer.step, he]
      exact fun _ => rfl
  | setMaxBytes n | setPolicy policy => exact ⟨h.named, h.sourced, h.persisted⟩

/-- A server started over proper records is persisted. -/
theorem FnServer.kept_start (hproper : ProperRecords compile s.db) :
    (FnServer.start compile s).Kept compile where
  named := restoreRegistry_induction named_empty fun _ lib h _ => commit_named h
  sourced := restoreRegistry_induction sourced_empty fun _ _ h hlib => commit_sourced h hlib
  persisted := by
    intro name
    rw [FnServer.start, getElem?_restoreRegistry hproper]
    cases hcode : s.db[fnKey name]? with
    | none => rw [recorded, hcode, bind_none, map_none]
    | some code =>
      obtain ⟨lib, hlib, -⟩ := hproper name code hcode
      rw [recorded_of_ok hcode hlib, map_some, compileLibrary_code hlib]

/-- In a run whose steps are all safe, a restart gives the same libraries at every point. -/
theorem functions_survive {s : Pebble} (hproper : ProperRecords compile s.db) {events : List FnEvent}
    (hsafe : Along (FnServer.step compile) (fun st e => e.Safe compile st)
      (FnServer.start compile s) events) :
    ∀ before, before <+: events →
      (run (FnServer.step compile) (FnServer.start compile s) before).Survives compile := by
  rintro before ⟨after, rfl⟩
  have hkept : (run (FnServer.step compile) (FnServer.start compile s) before).Kept compile :=
    run_induction (fun _ _ h hsafe => h.step hsafe) (FnServer.kept_start hproper)
      (along_append.mp hsafe).1
  exact hkept.survives

end Runs

/-- Load a library, write a string, remove the library and load another one. -/
def roomyRun : List FnEvent :=
  [.function (.load [some [97]]) fun _ => 1,
    .data (DataCommand.mset [([107], [118])]).handler fun _ => 1,
    .function (.delete [some [97]]) fun _ => 1,
    .function (.load [some (ascii "REPLACE".toList), some [98]]) fun _ => 1]

theorem functions_survive_roomy :
    (run (FnServer.step twoSources) (FnServer.start twoSources emptyStore) roomyRun).registry.libs.keys
        = [[98]] ∧
      (run (FnServer.step twoSources) (FnServer.start twoSources emptyStore) roomyRun).Survives
        twoSources := by
  have hproper : ProperRecords twoSources emptyStore.db := by
    intro name code hcode
    have hempty : emptyStore.db = ∅ := rfl
    rw [hempty] at hcode
    simp at hcode
  have hsafe : Along (FnServer.step twoSources) (fun st e => e.Safe twoSources st)
      (FnServer.start twoSources emptyStore) roomyRun := by
    decide +kernel
  exact ⟨by decide +kernel, functions_survive hproper hsafe roomyRun (List.prefix_refl _)⟩

/-- A library is loaded when there is no memory left. -/
def refusedRun : List FnEvent :=
  [.setPolicy .noeviction, .setMaxBytes 1, .function (.load [some [97]]) fun _ => 1]

/-- A library is loaded and evicted when a string is written. -/
def evictedRun : List FnEvent :=
  [.setMaxBytes 14, .function (.load [some [97]]) fun _ => 1,
    .data (DataCommand.mset [([107], [118])]).handler fun _ => 1]

/-- Both times the library is in the registry and would be lost in a restart. -/
theorem functions_lost :
    ¬ (run (FnServer.step twoSources) (FnServer.start twoSources emptyStore) refusedRun).Survives
        twoSources ∧
      ¬ (run (FnServer.step twoSources) (FnServer.start twoSources emptyStore) evictedRun).Survives
        twoSources := by
  have hlost {st : FnServer} (hloaded : st.registry.libs.keys = [[97]])
      (hrebuilt : (restoreRegistry twoSources st.store.db).libs.keys = []) :
      ¬ st.Survives twoSources := by
    intro h
    rw [h, hloaded] at hrebuilt
    cases hrebuilt
  exact ⟨hlost (by decide +kernel) (by decide +kernel), hlost (by decide +kernel) (by decide +kernel)⟩

end Gedis.Commands
