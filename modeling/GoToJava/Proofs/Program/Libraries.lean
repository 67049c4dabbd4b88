import GoToJava.Proofs.Program.Symbols
import Mathlib.Data.List.Induction

/-!
Libraries are read for what they tell: the names and first results of their exported functions, and
the types or values of their exported variables. Nothing else in their files has any influence.
-/

namespace GoToJava

open Go (Decl Expr File ImportSpec Spec isExported title)
open Emit

/-! ## What a file tells -/

namespace Go

/-- The exported variables of a line with a type. -/
def Spec.typed : Spec → List (String × Expr)
  | .value names (some t) _ => (names.filter isExported).map fun name => (name, t)
  | _ => []

/-- The exported variables of a line without a type, each with the value at its position. -/
def Spec.valued : Spec → List (String × Expr)
  | .value names none values => (names.zip values).filter fun e => isExported e.1
  | _ => []

/-- The lines with variables or constants. -/
def Decl.lines : Decl → List Spec
  | .gen d => if d.kind = .type then [] else d.specs
  | .func _ => []

/-- The exported function with its first result. -/
def Decl.result? : Decl → Option (String × Expr)
  | .func d =>
    if d.receiver.isNone && isExported d.name then d.sig.firstResult.map fun r => (d.name, r)
    else none
  | .gen _ => none

/-- What a library file tells: its package, its exported functions with their first results, and its
exported variables and constants with their types or else their values, in the order they are
declared. -/
structure Signatures where
  package : String
  results : List (String × Expr)
  types : List (String × Expr)
  values : List (String × Expr)

def File.signatures (file : File) : Signatures where
  package := file.package
  results := file.decls.filterMap Decl.result?
  types := (file.decls.flatMap Decl.lines).flatMap Spec.typed
  values := (file.decls.flatMap Decl.lines).flatMap Spec.valued

end Go

open Go (Signatures)

/-- What a library file tells, or why it cannot be read. -/
def SourceFile.told (source : SourceFile) : Except ProgramError Signatures :=
  match Go.read source.text with
  | .ok file => .ok file.signatures
  | .error cause => .error (.unreadable source.path cause)

/-- For every path there are as many files in both, and they tell the same one by one. -/
def Libraries.Alike (l l' : Libraries) : Prop :=
  ∀ path, (l path).map SourceFile.told = (l' path).map SourceFile.told

/-- Gains entries one after the other. -/
def Table.addAll {α : Type} (t : Table α) (entries : List (String × α)) : Table α :=
  entries.foldl (fun t e => t.add e.1 e.2) t

theorem Table.addAll_append {α : Type} (t : Table α) (entries more : List (String × α)) :
    t.addAll (entries ++ more) = (t.addAll entries).addAll more := List.foldl_append

/-! ## What is entered of a file -/

namespace Symbols

/-- The symbols with more variables. -/
def withVars (s : Symbols) (types values : List (String × Expr)) : Symbols :=
  { s with vars := s.vars.addAll types, values := s.values.addAll values }

theorem withVars_append (s : Symbols) (types types' values values' : List (String × Expr)) :
    s.withVars (types ++ types') (values ++ values') =
      (s.withVars types values).withVars types' values' := by
  unfold withVars
  rw [Table.addAll_append, Table.addAll_append]

/-- The names of a line from the position `k` on. A name without a type and without a value at its
position is passed over. -/
theorem foldl_addSpec (names : List String) (type : Option Expr) (values : List Expr) (k : Nat)
    (s : Symbols) :
    ((names.zipIdx k).filter fun (name, _) => isExported name).foldl (fun s (name, position) =>
        match type, values[position]? with
        | some type, _ => s.addType name type
        | none, some value => s.addValue name value
        | none, none => s) s =
      s.withVars (Spec.value names type (values.drop k)).typed
        (Spec.value names type (values.drop k)).valued := by
  induction names generalizing k s with
  | nil => cases type <;> rfl
  | cons name names ih =>
    have htail : values.drop (k + 1) = (values.drop k).tail := by simp
    have hhead : values[k]? = (values.drop k).head? := by simp
    by_cases hname : isExported name = true
    · simp only [List.zipIdx_cons, List.filter_cons, hname, if_true, List.foldl_cons, ih, htail,
        hhead]
      cases type with
      | some t => simp [Spec.typed, Spec.valued, hname, addType, withVars, Table.addAll]
      | none =>
        cases values.drop k with
        | nil => simp [Spec.typed, Spec.valued]
        | cons value rest =>
          simp [Spec.typed, Spec.valued, hname, addValue, withVars, Table.addAll]
    · simp only [List.zipIdx_cons, List.filter_cons, hname, Bool.false_eq_true, if_false, ih, htail]
      cases type with
      | some t => simp [Spec.typed, Spec.valued, hname]
      | none => cases values.drop k <;> simp [Spec.typed, Spec.valued, hname]

theorem addSpec_eq (s : Symbols) (spec : Spec) :
    s.addSpec spec = s.withVars spec.typed spec.valued := by
  cases spec with
  | type name type isAlias => rfl
  | value names type values => exact foldl_addSpec names type values 0 s

theorem foldl_addSpec_eq (specs : List Spec) (s : Symbols) :
    specs.foldl addSpec s = s.withVars (specs.flatMap Spec.typed) (specs.flatMap Spec.valued) := by
  induction specs generalizing s with
  | nil => rfl
  | cons spec specs ih =>
    rw [List.foldl_cons, ih, addSpec_eq, List.flatMap_cons, List.flatMap_cons, withVars_append]

end Symbols

namespace CompilationUnit

/-- The unit with more functions and variables. -/
def knowing (u : CompilationUnit) (results types values : List (String × Expr)) :
    CompilationUnit :=
  { u with
    symbols := { u.symbols.withVars types values with funcs := u.symbols.funcs.addAll results }
    funcs := u.funcs.addAll results }

theorem knowing_append (u : CompilationUnit)
    (results results' types types' values values' : List (String × Expr)) :
    u.knowing (results ++ results') (types ++ types') (values ++ values') =
      (u.knowing results types values).knowing results' types' values' := by
  unfold knowing
  rw [Symbols.withVars_append, Table.addAll_append, Table.addAll_append]
  rfl

theorem addSymbols_eq (u : CompilationUnit) (d : Decl) : u.addSymbols d =
      u.knowing d.result?.toList (d.lines.flatMap Spec.typed) (d.lines.flatMap Spec.valued) := by
  cases d with
  | func d =>
    unfold addSymbols Decl.result?
    dsimp only
    cases d.receiver with
    | some receiver => rfl
    | none =>
      cases isExported d.name with
      | false => rfl
      | true => cases d.sig.firstResult <;> rfl
  | gen d =>
    unfold addSymbols Decl.lines
    dsimp only
    split
    · rfl
    · rw [Symbols.foldl_addSpec_eq]
      rfl

/-- All that a unit takes from a file is what the file tells. -/
theorem foldl_addSymbols (decls : List Decl) (u : CompilationUnit) :
    decls.foldl addSymbols u = u.knowing (decls.filterMap Decl.result?)
      ((decls.flatMap Decl.lines).flatMap Spec.typed)
      ((decls.flatMap Decl.lines).flatMap Spec.valued) := by
  induction decls generalizing u with
  | nil => rfl
  | cons d decls ih =>
    have hresults : (d :: decls).filterMap Decl.result? =
        d.result?.toList ++ decls.filterMap Decl.result? := by
      cases hd : d.result? <;> simp [hd]
    rw [List.foldl_cons, ih, addSymbols_eq, hresults, List.flatMap_cons, List.flatMap_append,
      List.flatMap_append, knowing_append]

end CompilationUnit

/-! ## What is read of libraries -/

namespace Program

variable {l l' : Libraries}

/-- What becomes of the unit of a library with one more of its files. -/
def heed (path : String) (told : Except ProgramError Signatures) (loaded : Option Nat) :
    Session (ForInStep (Option Nat)) :=
  match told with
  | .error e => throw e
  | .ok s => do
    if isImportable s.package then
      let (id, p) := (← get).packageUnit path (title s.package) true
      set (p.modifyUnit id fun u => u.knowing s.results s.types s.values)
      return .yield (some id)
    else return .yield loaded

/-- The unit of a library gets of a file what the file tells. -/
theorem heed_told (path : String) (source : SourceFile) (loaded : Option Nat) :
    heed path source.told loaded = (do
      let file ← readFile source.path source.text
      if isImportable file.package then
        let (id, p) := (← get).packageUnit path (title file.package) true
        set (p.modifyUnit id fun u => file.decls.foldl CompilationUnit.addSymbols u)
        return .yield (some id)
      else return .yield loaded) := by
  unfold readFile SourceFile.told
  cases Go.read source.text with
  | error cause => rfl
  | ok file =>
    simp only [CompilationUnit.foldl_addSymbols]
    rfl

/-- A library is read as far as its files tell something. -/
theorem loadLibrary_eq (l : Libraries) (path : String) :
    loadLibrary l path = (do
      match (← get).libraries.get? path with
      | some loaded => return loaded
      | none =>
        let loaded ← forIn ((l path).map SourceFile.told) none (heed path)
        modify fun p => { p with libraries := p.libraries.set path loaded }
        return loaded) := by
  have hloop : forIn ((l path).map SourceFile.told) none (heed path) = forIn (l path) none _ :=
    List.forIn_map.trans (congrArg (forIn (l path) none) (funext₂ (heed_told path)))
  rw [hloop]
  rfl

theorem loadLibrary_of_alike (h : l.Alike l') (path : String) :
    loadLibrary l path = loadLibrary l' path := by
  rw [loadLibrary_eq, loadLibrary_eq, h path]

theorem addImport_of_alike (h : l.Alike l') : addImport l = addImport l' := by
  funext unit i
  unfold addImport
  rw [loadLibrary_of_alike h]

theorem discover_of_alike (h : l.Alike l') : discover l = discover l' := by
  funext path source
  unfold discover discoverFile
  rw [addImport_of_alike h]

/-! ## Units of libraries -/

/-- The unit is started while the imports of a call's file are read. -/
def Call.Loads (c : Call) (p : Program) (u : Nat) : Prop :=
  ∃ file, c.read = .ok file ∧
    let r := p.packageUnit c.dir (title file.package) false
    r.2.units.size ≤ u ∧
      u < ((file.imports.forM (addImport c.libraries r.1)).run.run r.2).2.units.size

/-- The unit is started for a library that some call's file imports. -/
def Loaded (calls : List Call) (u : Nat) : Prop :=
  ∃ before c after, calls = before ++ c :: after ∧ c.Loads (discovered before) u

theorem discovered_snoc (calls : List Call) (c : Call) :
    discovered (calls ++ [c]) = (c.session.run.run (discovered calls)).2 := by
  simp [discovered]

theorem loaded_snoc (calls : List Call) (c : Call) (u : Nat) :
    Loaded (calls ++ [c]) u ↔ Loaded calls u ∨ c.Loads (discovered calls) u := by
  constructor
  · rintro ⟨before, d, after, heq, hloads⟩
    -- The last call is the one in question, or it comes after that one.
    rcases List.eq_nil_or_concat after with rfl | ⟨after, e, rfl⟩
    · obtain ⟨rfl, hd⟩ := List.append_inj' heq rfl
      cases hd
      exact .inr hloads
    · rw [List.concat_eq_append, ← List.cons_append, ← List.append_assoc] at heq
      obtain ⟨rfl, -⟩ := List.append_inj' heq rfl
      exact .inl ⟨before, d, after, rfl, hloads⟩
  · rintro (⟨before, d, after, rfl, hloads⟩ | hloads)
    · exact ⟨before, d, after ++ [c], by simp, hloads⟩
    · exact ⟨calls, c, [], rfl, hloads⟩

/-- All units stay as they are, and the units that are added are all libraries' or none is. -/
structure Gains (library : Bool) (p q : Program) : Prop where
  size : p.units.size ≤ q.units.size
  old : ∀ u < p.units.size, (q.unit u).library = (p.unit u).library
  new : ∀ u, p.units.size ≤ u → u < q.units.size → (q.unit u).library = library

variable {p q r : Program} {library : Bool}

theorem gains_of_same (h : p.SameUnits q) : p.Gains library q where
  size := Nat.le_of_eq h.size.symm
  old u _ := (h.unit u).library
  new u hle hlt := by
    have := h.size
    omega

theorem Gains.refl (p : Program) : p.Gains library p :=
  gains_of_same (sameUnits_of_eq rfl rfl rfl)

theorem Gains.trans (h : p.Gains library q) (h' : q.Gains library r) : p.Gains library r where
  size := Nat.le_trans h.size h'.size
  old u hu := (h'.old u (Nat.lt_of_lt_of_le hu h.size)).trans (h.old u hu)
  new u hle hlt := by
    by_cases hu : u < q.units.size
    · rw [h'.old u hu]
      exact h.new u hle hu
    · exact h'.new u (Nat.le_of_not_lt hu) hlt

theorem gains_of_extends (h : p.Extends q) : p.Gains false q :=
  ⟨h.extent.units, fun u hu => (h.unit u hu).library, fun u hle hlt => (h.fresh u hle hlt).2.1⟩

theorem gains_newUnit (p : Program) (dir name : String) (library : Bool) (package : Option Nat) :
    p.Gains library (p.newUnit dir name library package) where
  size := Nat.le_of_lt (lt_size_newUnit _ _ _ _ _)
  old u hu := by rw [unit_newUnit_old _ _ _ _ _ hu]
  new u hle hlt := by
    rw [size_units_newUnit] at hlt
    rw [unit_newUnit, if_pos (by omega)]
    rfl

theorem gains_packageUnit (p : Program) (dir name : String) (library : Bool) :
    p.Gains library (p.packageUnit dir name library).2 := by
  have hnew := p.gains_newUnit dir name library none
  unfold packageUnit
  split
  · exact .refl p
  · dsimp only
    split
    · exact hnew
    · exact hnew.trans (gains_of_same (sameUnits_startUnit _ _ (jots_println _)))

theorem importStable_gains (p : Program) {unit : Nat} {home : String} :
    ImportStable (fun _ _ => True) fun q => q.Sited unit home ∧ p.Gains true q where
  packageUnit q dir name hq :=
    ⟨stable_sited.imports.packageUnit q dir name hq.1,
      hq.2.trans (gains_packageUnit q dir name true)⟩
  learn q u file hq := by
    refine ⟨stable_sited.imports.learn q u file hq.1, hq.2.trans (gains_of_same ?_)⟩
    refine sameUnits_modifyUnit _ _ fun x => ?_
    obtain ⟨symbols, funcs, h⟩ := rest_learn file x
    rw [h]
    exact ⟨rfl, rfl, rfl, rfl, rfl, rfl, rfl⟩
  library q path loaded h hq :=
    ⟨stable_sited.imports.library q path loaded h hq.1,
      hq.2.trans (gains_of_same (sameUnits_of_eq rfl rfl rfl))⟩
  importName q u name target h hq :=
    ⟨stable_sited.imports.importName q u name target h hq.1, hq.2.trans (gains_of_same
      (sameUnits_modifyUnit _ _ fun _ => ⟨rfl, rfl, rfl, rfl, rfl, rfl, rfl⟩))⟩

theorem gains_imports {unit : Nat} {home : String} (l : Libraries) (imports : List ImportSpec)
    (hp : p.Sited unit home) : p.Gains true ((imports.forM (addImport l unit)).run.run p).2 := by
  have hkeeps : Session.Keeps (fun q => q.Sited unit home ∧ p.Gains true q)
      (imports.forM (addImport l unit)) :=
    stable_imports (importStable_gains p) (fun _ h => h.1.indexed) (fun _ h => h.1.key)
      fun _ _ => trivial
  exact (hkeeps.run ⟨hp, .refl p⟩).2

/-- A file is discovered in three steps, and only the one in the middle starts units of
libraries. -/
theorem gains_call {c : Call} {file : File} (hp : p.Growing False 0) (hindexed : p.Indexed)
    (hread : c.read = .ok file) :
    let r := p.packageUnit c.dir (title file.package) false
    let q := ((file.imports.forM (addImport c.libraries r.1)).run.run r.2).2
    p.Gains false r.2 ∧ r.2.Gains true q ∧ q.Gains false (c.session.run.run p).2 := by
  intro r q
  have hsited : r.2.Sited r.1 (unitKey c.dir (title file.package)) :=
    sited_packageUnit c.dir (title file.package) false hindexed
  have hgrowing : r.2.Growing False (r.1 + 1) :=
    { (growing_packageUnit false hp (fun h => h.elim) fun h => h.elim).1 with
      units := hsited.known }
  refine ⟨gains_packageUnit p _ _ false, gains_imports c.libraries file.imports hsited, ?_⟩
  have hq : q.Growing False (r.1 + 1) :=
    (growing_imports c.libraries r.1 file.imports).run hgrowing
  rw [run_call, hp.phase, hread]
  show q.Gains false ((fillPackage c.libraries file r.1).run.run r.2).2
  unfold fillPackage
  rcases hrun : (file.imports.forM (addImport c.libraries r.1)).run.run r.2 with ⟨e | v, s⟩
  · -- After an error nothing is written.
    rw [Session.run_bind_error hrun]
    rw [show q = s from congrArg Prod.snd hrun]
    exact .refl s
  · rw [Session.run_bind_ok hrun]
    rw [show q = s from congrArg Prod.snd hrun] at hq ⊢
    exact gains_of_extends (extends_decls hq file)

/-- The units of libraries are the old ones and those that are added in the middle. -/
theorem library_iff_of_gains {s : Program} (hfirst : p.Gains false q) (hmiddle : q.Gains true r)
    (hlast : r.Gains false s) (u : Nat) :
    (u < p.units.size ∧ (p.unit u).library = true) ∨ (q.units.size ≤ u ∧ u < r.units.size) ↔
      u < s.units.size ∧ (s.unit u).library = true := by
  have hpq := hfirst.size
  have hqr := hmiddle.size
  have hrs := hlast.size
  by_cases hr : u < r.units.size
  · rw [hlast.old u hr]
    by_cases hq : u < q.units.size
    · rw [hmiddle.old u hq]
      by_cases hp : u < p.units.size
      · rw [hfirst.old u hp]
        grind
      · have hnew := hfirst.new u (Nat.le_of_not_lt hp) hq
        grind
    · have hnew := hmiddle.new u (Nat.le_of_not_lt hq) hr
      grind
  · by_cases hs : u < s.units.size
    · have hnew := hlast.new u (Nat.le_of_not_lt hr) hs
      grind
    · omega

/-- The units of libraries are the ones that were started for imports. -/
theorem loaded_iff (calls : List Call) (u : Nat) : Loaded calls u ↔
      u < (discovered calls).units.size ∧ ((discovered calls).unit u).library = true := by
  induction calls using List.reverseRecOn with
  | nil =>
    refine ⟨?_, fun h => absurd h.1 (Nat.not_lt_zero u)⟩
    rintro ⟨before, c, after, heq, -⟩
    simp at heq
  | append_singleton calls c ih =>
    have hgrowing := loose_discovered calls
    have hregular := regular_discovered calls
    rw [loaded_snoc, ih, discovered_snoc]
    generalize discovered calls = p at hgrowing hregular ⊢
    cases hread : c.read with
    | error cause =>
      have hnone : ¬c.Loads p u := by
        rintro ⟨file, hfile, -⟩
        rw [hread] at hfile
        cases hfile
      rw [run_call, hgrowing.phase, hread]
      simp [hnone]
    | ok file =>
      obtain ⟨hfirst, himports, hrest⟩ := gains_call hgrowing hregular.indexed hread
      rw [← library_iff_of_gains hfirst himports hrest u]
      refine or_congr_right ⟨?_, fun h => ⟨file, hread, h⟩⟩
      rintro ⟨file', hfile, h⟩
      rw [hread] at hfile
      cases hfile
      exact h

/-- The Java texts are those of the units that were not started for imports. -/
theorem headings_of_translated {calls : List Call} {sources : List JavaSource}
    (h : translated calls = .ok sources) : ∃ ids : List Nat, sources.map JavaSource.heading =
          ids.map (fun u => ((discovered calls).settle.unit u).heading) ∧
        ids.Nodup ∧ (∀ u ∈ ids, ¬Loaded calls u) ∧
        ∀ u < (discovered calls).units.size, ¬Loaded calls u → u ∈ ids := by
  have hfinal := run_finalize_discovered calls
  have hsteps : Steps (fun _ _ => True) (discovered calls) (discovered calls).settle :=
    steps_settle _
  -- Whether a unit is a library's does not change when the program is made final.
  have hmem : ∀ u < (discovered calls).units.size,
      (u ∈ (List.range (discovered calls).settle.units.size).filter fun id =>
        !((discovered calls).settle.unit id).library) ↔ ¬Loaded calls u := by
    intro u hu
    obtain ⟨hknown, hlater⟩ := (remembers_of_steps hsteps).unit u hu
    rw [loaded_iff, List.mem_filter, List.mem_range, hlater.library]
    simp [hknown, hu]
  obtain ⟨q, hflat⟩ := flatten_of_translated h
  refine ⟨_, ?_, List.nodup_range.filter _, ?_, fun u hu hloaded => (hmem u hu).2 hloaded⟩
  · rw [headings_of_flatten hfinal hflat, written, List.map_map]
    rfl
  · intro u hu hloaded
    exact (hmem u ((loaded_iff calls u).1 hloaded).1).1 hu hloaded

/-- Of the files of libraries only what they tell has any influence: if two collections of libraries
tell the same, all programs have the same Java texts with both, or the same error. And no library is
written: the texts are those of all units but the ones that were started for imports. -/
theorem libraries_are_read_for_signatures {l l' : Libraries} (h : l.Alike l')
    (files : List SourceFile) :
    toJava l files = toJava l' files ∧
      ∀ sources, toJava l files = .ok sources →
        let calls := files.map fun f => Call.text l f.path f.text
        ∃ ids : List Nat,
          sources.map JavaSource.heading =
              ids.map (fun u => ((discovered calls).settle.unit u).heading) ∧
            ids.Nodup ∧ (∀ u ∈ ids, ¬Loaded calls u) ∧
            ∀ u < (discovered calls).units.size, ¬Loaded calls u → u ∈ ids := by
  refine ⟨?_, fun sources hsources => ?_⟩
  · unfold toJava
    rw [discover_of_alike h]
  · rw [toJava_eq_translated] at hsources
    exact headings_of_translated hsources

/-- A byte order mark at the start of a file is not read. -/
theorem told_mark (path : String) {text : List Char} (h : text.head? ≠ some '\uFEFF') :
    SourceFile.told ⟨path, String.ofList ('\uFEFF' :: text)⟩ =
      SourceFile.told ⟨path, String.ofList text⟩ := by
  have hplain : Go.structure? (String.ofList text) = Go.tables.read? (String.ofList text) := by
    unfold Go.structure?
    rw [String.toList_ofList]
    split
    · simp at h
    · rfl
  have hmarked : Go.structure? (String.ofList ('\uFEFF' :: text)) =
      Go.tables.read? (String.ofList text) := by
    unfold Go.structure?
    rw [String.toList_ofList]
    exact congrArg Go.tables.read? rfl
  unfold SourceFile.told Go.read
  rw [hplain, hmarked]

/-- A library of one file, with a byte order mark or without. -/
def sizeLibrary (mark : List Char) : Libraries := fun _ =>
  [⟨"lib/lib.go", String.ofList (mark ++ "package lib\n\nfunc Size() int".toList)⟩]

theorem marks_make_no_difference : sizeLibrary ['\uFEFF'] "lib" ≠ sizeLibrary [] "lib" ∧
      (sizeLibrary ['\uFEFF']).Alike (sizeLibrary []) ∧
      toJava (sizeLibrary ['\uFEFF']) [⟨"app/main.go", "package main\n\nimport \"lib\"\n"⟩] =
        toJava (sizeLibrary []) [⟨"app/main.go", "package main\n\nimport \"lib\"\n"⟩] := by
  have hdiffer : sizeLibrary ['\uFEFF'] "lib" ≠ sizeLibrary [] "lib" := by decide
  have halike : (sizeLibrary ['\uFEFF']).Alike (sizeLibrary []) := by
    intro path
    exact congrArg (fun told => [told]) (told_mark "lib/lib.go" (by decide))
  exact ⟨hdiffer, halike, (libraries_are_read_for_signatures halike _).1⟩

end Program

end GoToJava
