import GoToJava.Project.Run
import GoToJava.Proofs.Program.Refusals

/-!
Runs on file systems where reading and writing may fail. A run that cannot read all that it needs
changes nothing, and a Java source that cannot be written keeps no other from it.
-/

namespace GoToJava

open Session
open Program (Call AllLegible translated discoverFile flatten)

/-! ## Conversion -/

namespace Run

variable {α β : Type} {libs : Libraries} {inputs : List Input}

/-- A source that was read, as it is given to a program. -/
def Input.call (libs : Libraries) (i : Input) : Call :=
  .tree libs i.path (i.file.toOption.getD default)

/-- A session as a part of a run. -/
def raise (x : Session α) : ExceptT RunError (StateM Program) α :=
  ExceptT.mk do return (← x.run).mapError .program

theorem raise_bind (x : Session α) (f : α → Session β) :
    raise (x >>= f) = raise x >>= fun a => raise (f a) := by
  funext p
  have hraise : (raise x).run.run p = ((x.run.run p).1.mapError .program, (x.run.run p).2) := rfl
  show (((x >>= f).run.run p).1.mapError .program, ((x >>= f).run.run p).2) =
    (raise x >>= fun a => raise (f a)).run.run p
  rcases hrun : x.run.run p with ⟨e | a, q⟩
  · rw [hrun] at hraise
    rw [run_bind_error hrun, run_bind_error hraise]
    rfl
  · rw [hrun] at hraise
    rw [run_bind_ok hrun, run_bind_ok hraise]
    rfl

/-- What is done with a Go source. -/
def discoverInput (libs : Libraries) (i : Input) : ExceptT RunError (StateM Program) Unit := do
  match i.file with
  | .error e => throw e
  | .ok file =>
    match ← (discoverFile libs i.path file).run with
    | .ok _ => return
    | .error e => throw (.program e)

theorem convert_eq (libs : Libraries) (inputs : List Input) : convert libs inputs =
    ((inputs.forM (discoverInput libs) >>= fun _ => raise flatten).run.run {}).1 := by
  have hconvert : convert libs inputs =
      match (inputs.forM (discoverInput libs)).run.run {} with
      | (.error e, _) => .error e
      | (.ok _, p) => (flatten.run.run p).1.mapError .program := rfl
  rw [hconvert]
  rcases hrun : (inputs.forM (discoverInput libs)).run.run {} with ⟨e | u, p⟩
  · rw [run_bind_error hrun]
  · rw [run_bind_ok hrun]
    rfl

theorem discoverInput_eq {i : Input} (h : i.file.isOk = true) :
    discoverInput libs i = raise (i.call libs).session := by
  unfold discoverInput Input.call
  cases hfile : i.file with
  | error e =>
    rw [hfile] at h
    cases h
  | ok file =>
    funext p
    have hlift : (liftM (discoverFile libs i.path file).run :
        ExceptT RunError (StateM Program) (Except ProgramError Unit)).run.run p =
        (.ok ((discoverFile libs i.path file).run.run p).1,
          ((discoverFile libs i.path file).run.run p).2) := rfl
    refine (run_bind_ok hlift).trans ?_
    show _ = (((discoverFile libs i.path file).run.run p).1.mapError _, _)
    cases ((discoverFile libs i.path file).run.run p).1 <;> rfl

/-- Sources that were read are converted as the files of a program are. -/
theorem convert_of_read (h : ∀ i ∈ inputs, i.file.isOk = true) :
    convert libs inputs = (translated (inputs.map (Input.call libs))).mapError .program := by
  have hloop : inputs.forM (discoverInput libs) =
      raise ((inputs.map (Input.call libs)).forM Call.session) := by
    induction inputs with
    | nil => rfl
    | cons i inputs ih =>
      show (discoverInput libs i >>= fun _ => inputs.forM (discoverInput libs)) =
        raise ((i.call libs).session >>= fun _ =>
          (inputs.map (Input.call libs)).forM Call.session)
      rw [raise_bind, discoverInput_eq (h i List.mem_cons_self),
        ih fun j hj => h j (List.mem_cons_of_mem _ hj)]
  rw [convert_eq, hloop, ← raise_bind]
  rfl

theorem convert_of_unread {i : Input} (hi : i ∈ inputs) (h : i.file.isOk = false) :
    ∃ e, convert libs inputs = .error e := by
  have hread : ∀ i : Input, Gives (fun _ => True) (discoverInput libs i)
      (fun _ _ => True ∧ i.file.isOk = true) fun _ _ => True := by
    intro i p _
    unfold discoverInput
    cases i.file with
    | error e => trivial
    | ok file => split <;> trivial
  rw [convert_eq]
  rcases hrun : (inputs.forM (discoverInput libs)).run.run {} with ⟨e | u, p⟩
  · exact ⟨e, congrArg Prod.fst (run_bind_error hrun)⟩
  · rw [((gives_forM_each fun i _ => hread i).ok trivial hrun).2 i hi] at h
    cases h

end Run

open Run

/-- A file system: the texts of its files, how its directories are listed, and the paths where
reading or writing fails. -/
structure Volume where
  texts : String → Option String
  listing : (String → Option String) → String → List (List String)
  unreadable : String → Bool
  unwritable : String → Bool

namespace Volume

def read (v : Volume) (path : String) : Option String :=
  if v.unreadable path then none else v.texts path

def put (v : Volume) (file : OutputFile) : Volume :=
  { v with texts := fun path => if path = file.path then some file.text else v.texts path }

def disk : Disk (StateM Volume) where
  readText path := return (← get).read path
  walk dir := return (← get).listing (← get).texts dir
  makeDirs dir := return !(← get).unwritable dir
  writeText path text := modifyGet fun v =>
    (!v.unwritable path, if v.unwritable path then v else v.put ⟨path, text⟩)

/-! ## Reading -/

section

variable {α β : Type} {v w : Volume} {f : α → StateM Volume β}

theorem run_bind {x : StateM Volume α} {a : α} (h : x.run v = (a, w)) :
    (x >>= f).run v = (f a).run w := by
  rw [StateT.run_bind, h]
  rfl

theorem run_mapM {g : α → β} (h : ∀ a, (f a).run v = (g a, v)) (as : List α) :
    (as.mapM f).run v = (as.map g, v) := by
  induction as with
  | nil => rfl
  | cons a as ih =>
    rw [List.mapM_cons, run_bind (h a), run_bind ih]
    rfl

theorem run_filterMapM {f : α → StateM Volume (Option β)} {g : α → Option β}
    (h : ∀ a, (f a).run v = (g a, v)) (as : List α) :
    (as.filterMapM f).run v = (as.filterMap g, v) := by
  induction as with
  | nil => rfl
  | cons a as ih =>
    rw [List.filterMapM_cons, run_bind (h a)]
    cases hg : g a with
    | none => rw [ih, List.filterMap_cons_none hg]
    | some b =>
      rw [run_bind ih, List.filterMap_cons_some hg]
      rfl

end

variable (v : Volume)

/-- The sources of a library. -/
def library (goRoot path : String) : List SourceFile :=
  let src := Path.join goRoot "src"
  let dir := Path.join src path
  (goSources dir ((v.listing v.texts dir).filter (·.length = 1))).filterMap fun file =>
    (v.read file).map fun text => ⟨Path.relative file src, text⟩

/-- A Go source as a run reads it. -/
def input (root path : String) : Input where
  path := Path.relative path root
  file :=
    match v.read path with
    | none => .error (.unreadable path)
    | some text => (Go.read text).mapError fun cause =>
      .program (.unreadable (Path.relative path root) cause)

/-- The Go sources of a run. -/
def inputs (job : Directories) : List Input :=
  (goSources job.source ((v.listing v.texts job.source).filter fun names =>
    !names.any isPassedOver)).map (v.input job.root)

theorem run_readInput (root path : String) :
    (readInput disk root path).run v = (v.input root path, v) := by
  have hread : (disk.readText path).run v = (v.read path, v) := rfl
  unfold readInput input
  rw [run_bind hread]
  cases v.read path with
  | none => rfl
  | some text =>
    dsimp only
    cases Go.read text <;> rfl

theorem run_libraryFiles (goRoot path : String) :
    (do return (path, ← libraryFiles disk goRoot path) :
      StateM Volume (String × List SourceFile)).run v = ((path, v.library goRoot path), v) := by
  have hwalk : ∀ dir, (disk.walk dir).run v = (v.listing v.texts dir, v) := fun _ => rfl
  have hfiles : (libraryFiles disk goRoot path).run v = (v.library goRoot path, v) := by
    unfold libraryFiles
    rw [run_bind (hwalk _)]
    refine run_filterMapM (fun file => ?_) _
    rfl
  rw [run_bind hfiles]
  rfl

/-- The packages that the inputs import. -/
def importPaths (inputs : List Input) : List String :=
  inputs.flatMap fun i =>
    match i.file with
    | .ok file => file.imports.map (·.path)
    | .error _ => []

/-- There are the libraries that the sources import, and reading changes nothing. -/
theorem run_produce (job : Directories) (goRoot : String) : ∃ libs : Libraries,
    (∀ i ∈ v.inputs job, ∀ file, i.file = .ok file → ∀ spec ∈ file.imports,
      libs spec.path = v.library goRoot spec.path) ∧
    (produce disk job goRoot).run v = (convert libs (v.inputs job), v) := by
  let paths := importPaths (v.inputs job)
  have hfiles : (goFiles disk job.source).run v = (_, v) := rfl
  refine ⟨fun path => ((paths.eraseDups.map fun path => (path, v.library goRoot path)).lookup
    path).getD [], fun i hi file hfile spec hspec => ?_, ?_⟩
  · have hpath : spec.path ∈ paths := by
      refine List.mem_flatMap.2 ⟨i, hi, ?_⟩
      rw [hfile]
      exact List.mem_map_of_mem hspec
    dsimp only
    rw [List.lookup_graph _ (List.mem_eraseDups.2 hpath)]
    rfl
  · unfold produce libraries
    rw [run_bind hfiles, run_bind (run_mapM (v.run_readInput job.root) _), bind_assoc]
    rw [run_bind (run_mapM (v.run_libraryFiles goRoot) _)]
    rfl

/-! ## Writing -/

/-- A file can be written at the path. -/
def takes (path : String) : Bool :=
  (Path.parent? path).all (fun dir => !v.unwritable dir) && !v.unwritable path

def store (files : List OutputFile) : Volume := files.foldl put v

theorem takes_store (files : List OutputFile) : (v.store files).takes = v.takes :=
  List.foldlRecOn (motive := fun w : Volume => w.takes = v.takes) files put rfl fun _ h _ _ => h

theorem run_makeDirs (dir : String) : (liftM (disk.makeDirs dir) :
    ExceptT RunError (StateM Volume) Bool).run.run v = (.ok !v.unwritable dir, v) :=
  rfl

theorem run_writeFile (file : OutputFile) : ∃ e, (writeFile disk file).run.run v =
    if v.takes file.path then (.ok (), v.put file) else (.error e, v) := by
  have hwrite : (liftM (disk.writeText file.path file.text) :
      ExceptT RunError (StateM Volume) Bool).run.run v =
      (.ok !v.unwritable file.path, if v.unwritable file.path then v else v.put file) := rfl
  have hput : (do unless ← disk.writeText file.path file.text do throw (.cannotWrite file.path) :
      ExceptT RunError (StateM Volume) Unit).run.run v =
      if !v.unwritable file.path then (.ok (), v.put file)
      else (.error (.cannotWrite file.path), v) := by
    rw [run_bind_ok hwrite]
    cases v.unwritable file.path <;> rfl
  unfold writeFile takes
  cases Path.parent? file.path with
  | none => exact ⟨.cannotWrite file.path, hput⟩
  | some dir =>
    rw [run_bind_ok (v.run_makeDirs dir), Option.all_some]
    cases v.unwritable dir with
    | true => exact ⟨.cannotCreate dir, rfl⟩
    | false => exact ⟨.cannotWrite file.path, hput⟩

theorem run_writeFiles (files : List OutputFile) :
    ∃ e done rest, files = done ++ rest ∧ (files.forM (writeFile disk)).run.run v =
      if files.all (v.takes ·.path) then (.ok (), v.store files) else (.error e, v.store done) := by
  induction files generalizing v with
  | nil => exact ⟨.noGoSource, [], [], rfl, rfl⟩
  | cons file files ih =>
    obtain ⟨e, hfile⟩ := v.run_writeFile file
    rw [List.all_cons]
    cases htakes : v.takes file.path with
    | false =>
      rw [htakes] at hfile
      exact ⟨e, [], file :: files, rfl, run_bind_error hfile⟩
    | true =>
      rw [htakes] at hfile
      obtain ⟨e', done, rest, hfiles, hrest⟩ := ih (v.put file)
      exact ⟨e', file :: done, rest, congrArg (file :: ·) hfiles, (run_bind_ok hfile).trans hrest⟩

/-- Where a Java source is written. -/
def javaFile (target : String) (unit : JavaSource) : OutputFile :=
  ⟨Path.join (Scaffold.sources target) unit.path, unit.text⟩

/-- Writes a Java source, if it can be written. -/
def writeUnit (target : String) (unit : JavaSource) : StateM Volume (String × Bool) := do
  match ← (writeFile disk (javaFile target unit)).run with
  | .ok _ => return ((javaFile target unit).path, true)
  | .error _ => return ((javaFile target unit).path, false)

theorem run_writeUnits (target : String) (units : List JavaSource) :
    let files := units.map (javaFile target)
    (writeUnits disk target units).run v =
      (files.map fun file => (file.path, v.takes file.path),
        v.store (files.filter (v.takes ·.path))) := by
  show (units.mapM (writeUnit target)).run v = _
  induction units generalizing v with
  | nil => rfl
  | cons unit units ih =>
    obtain ⟨e, hfile⟩ := v.run_writeFile (javaFile target unit)
    rw [List.mapM_cons]
    cases htakes : v.takes (javaFile target unit).path with
    | false | true =>
      rw [htakes] at hfile
      have hunit : (writeUnit target unit).run v = _ := run_bind hfile
      rw [run_bind hunit, run_bind (ih _)]
      simp [htakes]
      rfl

/-- What a run has to show for some Java sources. If one of the files that every project has
cannot be written, there are none but those before it. Else each Java source is written that can be,
and all are accounted for. -/
def Accounts (target name : String) (units : List JavaSource)
    (result : Except RunError Summary × Volume) : Prop :=
  let scaffold := Scaffold.files target name
  let files := units.map (javaFile target)
  if !v.unwritable target && scaffold.all (v.takes ·.path) then
    result = (.ok { units
                    written := (scaffold ++ files.filter (v.takes ·.path)).map (·.path)
                    failed := (files.filter (!v.takes ·.path)).map (·.path) },
      v.store (scaffold ++ files.filter (v.takes ·.path)))
  else ∃ e done rest, scaffold = done ++ rest ∧ result = (.error e, v.store done)

theorem accounts_write (target name : String) (units : List JavaSource) :
    v.Accounts target name units ((write disk target name units).run v) := by
  have hmake := v.run_makeDirs target
  obtain ⟨e, done, rest, hdone, hfiles⟩ := v.run_writeFiles (Scaffold.files target name)
  unfold Accounts
  dsimp only
  cases htarget : v.unwritable target with
  | true =>
    rw [htarget] at hmake
    have hscaffold : (writeScaffold disk target name).run.run v = _ := run_bind_ok hmake
    exact ⟨.cannotCreate target, [], _, rfl, run_bind hscaffold⟩
  | false =>
    rw [htarget] at hmake
    have hscaffold : (writeScaffold disk target name).run.run v = _ := run_bind_ok hmake
    cases hall : (Scaffold.files target name).all (v.takes ·.path) with
    | true =>
      rw [hall] at hfiles
      have hwritten : (writeScaffold disk target name).run.run v = _ :=
        hscaffold.trans (run_bind_ok hfiles)
      have hwrite : (write disk target name units).run v = _ :=
        (run_bind hwritten).trans (run_bind ((v.store _).run_writeUnits target units))
      rw [hwrite, takes_store]
      simp [List.filter_map, Function.comp_def, store]
      rfl
    | false =>
      rw [hall] at hfiles
      have hstopped : (writeScaffold disk target name).run.run v = _ :=
        hscaffold.trans (run_bind_error hfiles)
      exact ⟨e, done, rest, hdone, run_bind hstopped⟩

end Volume

theorem Volume.run_of_directories {config : Config} {job : Directories} (v : Volume)
    (h : directories config = .ok job) : ∃ libs : Libraries,
      (∀ i ∈ v.inputs job, ∀ file, i.file = .ok file → ∀ spec ∈ file.imports,
        libs spec.path = v.library config.effectiveGoRoot spec.path) ∧
      (run disk config).run v =
        match convert libs (v.inputs job) with
        | .error e => (.error e, v)
        | .ok units => (write disk job.target (config.effectiveName.getD "go2j") units).run v := by
  obtain ⟨libs, hlibs, hproduce⟩ := v.run_produce job config.effectiveGoRoot
  refine ⟨libs, hlibs, ?_⟩
  unfold run
  rw [h]
  rw [run_bind hproduce]
  cases convert libs (v.inputs job) <;> rfl

/-- A run writes all or nothing. If a directory is not given or not below a source root, or if a
source, or a library that it imports, cannot be read, nothing changes. Else there are Java sources,
and the run accounts for each of them. -/
theorem runs_write_all_or_nothing (v : Volume) (config : Config) :
    let result := (run Volume.disk config).run v
    match config.goSource, config.javaTarget, config.goSource.bind Path.sourceRoot? with
    | some source, some target, some root =>
      let inputs := v.inputs ⟨source, target, root⟩
      ∃ libs : Libraries,
        (∀ i ∈ inputs, ∀ file, i.file = .ok file → ∀ spec ∈ file.imports,
          libs spec.path = v.library config.effectiveGoRoot spec.path) ∧
        let calls := inputs.map (Input.call libs)
        let ready := (∀ i ∈ inputs, i.file.isOk = true) ∧ AllLegible {} calls
        (¬ready → ∃ e, result = (.error e, v)) ∧
        (ready → ∃ units, translated calls = .ok units ∧
          v.Accounts target (config.effectiveName.getD "go2j") units result)
    | _, _, _ => ∃ e, result = (.error e, v) := by
  intro result
  have hnone : ∀ e, directories config = .error e → result = (.error e, v) := by
    intro e h
    show (run Volume.disk config).run v = _
    unfold run
    rw [h]
    rfl
  cases hsource : config.goSource with
  | none => exact ⟨_, hnone .noGoSource (by simp only [directories, hsource]; rfl)⟩
  | some source =>
    cases htarget : config.javaTarget with
    | none => exact ⟨_, hnone .noJavaTarget (by simp only [directories, hsource, htarget]; rfl)⟩
    | some target =>
      rw [Option.bind_some]
      cases hroot : Path.sourceRoot? source with
      | none => exact ⟨_, hnone _ (by simp only [directories, hsource, htarget, hroot]; rfl)⟩
      | some root =>
        have hdirs : directories config = .ok ⟨source, target, root⟩ := by
          simp only [directories, hsource, htarget, hroot]
          rfl
        obtain ⟨libs, hlibs, hrun⟩ := v.run_of_directories hdirs
        have hcalls : ∀ c ∈ (v.inputs ⟨source, target, root⟩).map (Input.call libs),
            c.libraries = libs := by
          simp [Input.call, Call.libraries]
        have hok := Program.translated_iff hcalls
        refine ⟨libs, hlibs, fun hnot => ?_, fun hready => ?_⟩
        · have herror : ∃ e, convert libs (v.inputs ⟨source, target, root⟩) = .error e := by
            by_cases hread : ∀ i ∈ v.inputs ⟨source, target, root⟩, i.file.isOk = true
            · rw [convert_of_read hread]
              cases hunits : translated _ with
              | error e => exact ⟨_, rfl⟩
              | ok units => exact absurd ⟨hread, hok.1 ⟨units, hunits⟩⟩ hnot
            · push Not at hread
              obtain ⟨i, hi, hunread⟩ := hread
              exact convert_of_unread hi (Bool.not_eq_true _ ▸ hunread)
          obtain ⟨e, he⟩ := herror
          rw [he] at hrun
          exact ⟨e, hrun⟩
        · obtain ⟨units, hunits⟩ := hok.2 hready.2
          rw [convert_of_read hready.1, hunits] at hrun
          refine ⟨units, hunits, ?_⟩
          show v.Accounts _ _ _ ((run Volume.disk config).run v)
          rw [hrun]
          exact v.accounts_write _ _ units

end GoToJava
