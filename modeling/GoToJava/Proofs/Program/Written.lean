import GoToJava.Proofs.Program.Refusals

/-!
Which files are written. A file is written into the unit with its key, whoever started that unit. So
no file is lost, unless a library with the same key was read before it.
-/

namespace GoToJava

open Go (File ImportSpec title)
open Emit

/-! ## Keys -/

theorem toList_unitKey (dir name : String) :
    (unitKey dir name).toList = dir.toList ++ '/' :: name.toList := by
  unfold unitKey
  rw [String.toList_append, String.toList_append]
  rw [List.append_assoc]
  rfl

/-- The first segment of a key is that of the directory. -/
theorem firstSegment_unitKey (dir name : String) :
    firstSegment (unitKey dir name) = firstSegment dir := by
  unfold firstSegment
  rw [toList_unitKey]
  congr 1
  induction dir.toList with
  | nil => rfl
  | cons c cs ih =>
    rw [List.cons_append, List.takeWhile_cons, List.takeWhile_cons, ih]

/-- A key tells the directory and the name, as long as names have no slashes. -/
theorem unitKey_inj {dir dir' name name' : String} (hname : '/' ∉ name.toList)
    (hname' : '/' ∉ name'.toList) (h : unitKey dir name = unitKey dir' name') :
    dir = dir' ∧ name = name' := by
  have hchars := congrArg String.toList h
  rw [toList_unitKey, toList_unitKey] at hchars
  -- If one directory were longer, the other name would have a slash.
  rcases List.append_eq_append_iff.1 hchars with ⟨more, hdir, hrest⟩ | ⟨more, hdir, hrest⟩
  · cases more with
    | nil =>
      rw [List.append_nil] at hdir
      rw [List.nil_append, List.cons.injEq] at hrest
      exact ⟨String.ext hdir.symm, String.ext hrest.2⟩
    | cons c more =>
      rw [List.cons_append, List.cons.injEq] at hrest
      rw [hrest.2] at hname
      exact absurd (List.mem_append_right _ List.mem_cons_self) hname
  · cases more with
    | nil =>
      rw [List.append_nil] at hdir
      rw [List.nil_append, List.cons.injEq] at hrest
      exact ⟨String.ext hdir, String.ext hrest.2.symm⟩
    | cons c more =>
      rw [List.cons_append, List.cons.injEq] at hrest
      rw [hrest.2] at hname'
      exact absurd (List.mem_append_right _ List.mem_cons_self) hname'

/-! ## Units that are written -/

/-- What a source says of its unit. -/
def JavaSource.heading (s : JavaSource) : JavaSource := { s with text := "" }

def CompilationUnit.heading (u : CompilationUnit) : JavaSource where
  path := u.path
  package := u.javaPackage
  cls := u.name
  qualifiedName := u.qualifiedName
  text := ""

/-- A file of the library at a path has the key. -/
def Libraries.HasKey (libraries : Libraries) (path key : String) : Prop :=
  ∃ source ∈ libraries path, ∃ file, Go.read source.text = .ok file ∧
    Program.isImportable file.package = true ∧ unitKey path (title file.package) = key

namespace Program

variable {p q : Program} {u : Nat} {library : Bool}

/-- The units that are written, in the order they were started. -/
def written (p : Program) : List CompilationUnit :=
  ((List.range p.units.size).filter fun id => !(p.unit id).library).map p.unit

theorem mem_written {u : CompilationUnit} :
    u ∈ p.written ↔ ∃ id < p.units.size, p.unit id = u ∧ u.library = false := by
  unfold written
  simp only [List.mem_map, List.mem_filter, List.mem_range, Bool.not_eq_true']
  constructor
  · rintro ⟨id, ⟨hid, hlibrary⟩, rfl⟩
    exact ⟨id, hid, rfl, hlibrary⟩
  · rintro ⟨id, hid, rfl, hlibrary⟩
    exact ⟨id, ⟨hid, hlibrary⟩, rfl⟩

theorem heading_of_flattenUnit {source : JavaSource}
    (h : (flattenUnit u).run.run p = (.ok source, q)) :
    source.heading = (p.unit u).heading ∧ q.units = p.units := by
  obtain ⟨r, hend⟩ :
      ∃ r, (if (p.unit u).isPackage then p.write (p.unit u).root "\x7d\n" else p) = r := ⟨_, rfl⟩
  have hunits : r.units = p.units := by
    rw [← hend]
    split
    · rw [write_eq]
    · rfl
  rw [flattenUnit_eq hend] at h
  cases hjoin : r.drafts.join (p.unit u).root with
  | error e =>
    rw [hjoin] at h
    cases h
  | ok joined =>
    rw [hjoin] at h
    cases h
    exact ⟨rfl, hunits⟩

theorem headings_of_mapM {ids : List Nat} {sources : List JavaSource}
    (h : (ids.mapM flattenUnit).run.run p = (.ok sources, q)) :
    sources.map JavaSource.heading = ids.map fun id => (p.unit id).heading := by
  induction ids generalizing p sources with
  | nil =>
    cases h
    rfl
  | cons id ids ih =>
    rw [List.mapM_cons] at h
    obtain ⟨source, r, hfirst, h⟩ := ok_of_bind h
    obtain ⟨rest, r', hrest, h⟩ := ok_of_bind h
    cases h
    obtain ⟨hheading, hunits⟩ := heading_of_flattenUnit hfirst
    have hsame : ∀ u, r.unit u = p.unit u := fun u => congrArg (·.getD u default) hunits
    rw [List.map_cons, List.map_cons, hheading, ih hrest]
    simp only [hsame]

/-- The Java texts of a program are those of its written units. -/
theorem headings_of_flatten {sources : List JavaSource} {r : Program}
    (hfinal : finalize.run.run p = (.ok (), q)) (h : flatten.run.run p = (.ok sources, r)) :
    sources.map JavaSource.heading = q.written.map CompilationUnit.heading := by
  unfold flatten at h
  rw [Session.run_bind_ok hfinal] at h
  rw [headings_of_mapM h, written, List.map_map]
  rfl

/-! ## Units of libraries -/

/-- The unit with the key is that of a library. -/
def IsLibrary (p : Program) (key : String) : Prop :=
  ∃ u < p.units.size, (p.unit u).key = key ∧ (p.unit u).library = true

variable {key : String}

theorem isLibrary_of_same (h : p.SameUnits q) : q.IsLibrary key ↔ p.IsLibrary key := by
  unfold IsLibrary
  rw [h.size]
  simp only [(h.unit _).key, (h.unit _).library]

theorem isLibrary_of_extends (h : p.Extends q) (hq : q.IsLibrary key) : p.IsLibrary key := by
  obtain ⟨u, hu, hkey, hlibrary⟩ := hq
  by_cases hold : u < p.units.size
  · have hlater := h.unit u hold
    refine ⟨u, hold, ?_, hlater.library.symm.trans hlibrary⟩
    rw [← hkey]
    unfold CompilationUnit.key
    rw [hlater.dir, hlater.name]
  · rw [(h.fresh u (Nat.le_of_not_lt hold) hu).2.1] at hlibrary
    cases hlibrary

theorem sameUnits_startUnit {text : Emit Unit} (p : Program) (id : Nat)
    (ht : Jots (fun _ => True) text) : p.SameUnits (p.startUnit id text) := by
  obtain ⟨drafts, refused, imports, h⟩ := p.startUnit_eq id ht
  rw [h]
  have hsame := sameUnits_modifyUnit { p with drafts, refused } id
    (f := fun u => { u with importsAt := some imports })
    fun _ => ⟨rfl, rfl, rfl, rfl, rfl, rfl, rfl⟩
  exact ⟨hsame.size, hsame.unit, hsame.unitIndex, hsame.typeUnits⟩

/-- Only a library's own unit is a new one of a library. -/
theorem isLibrary_packageUnit {dir name : String}
    (h : (p.packageUnit dir name library).2.IsLibrary key) :
    p.IsLibrary key ∨ library = true ∧ unitKey dir name = key := by
  have hnew : (p.newUnit dir name library none).IsLibrary key →
      p.IsLibrary key ∨ library = true ∧ unitKey dir name = key := by
    rintro ⟨u, hu, hkey, hlibrary⟩
    rw [size_units_newUnit] at hu
    rw [unit_newUnit] at hkey hlibrary
    split at hkey
    · rename_i hlast
      rw [if_pos hlast] at hlibrary
      exact .inr ⟨hlibrary, hkey⟩
    · rename_i hlast
      rw [if_neg hlast] at hlibrary
      exact .inl ⟨u, by omega, hkey, hlibrary⟩
  unfold packageUnit at h
  split at h
  · exact .inl h
  · dsimp only at h
    split at h
    · exact hnew h
    · exact hnew ((isLibrary_of_same (sameUnits_startUnit _ _ (jots_println _))).1 h)

/-! ## Where libraries come from -/

/-- A file of the directory that imports this reads a library with the key. -/
def Reads (libraries : Libraries) (dir : String) (i : ImportSpec) (key : String) : Prop :=
  i.name ≠ some "_" ∧ i.name ≠ some "." ∧
    (firstSegment dir = "" ∨ firstSegment i.path ≠ firstSegment dir) ∧
    libraries.HasKey i.path key

/-- The file of a call reads a library with the key. -/
def Call.Reads (c : Call) (key : String) : Prop :=
  ∃ file, c.read = .ok file ∧ ∃ i ∈ file.imports, Program.Reads c.libraries c.dir i key

/-- If the key is a library's, there is a reason for it. -/
def LibraryFor (key : String) (origin : Prop) (p : Program) : Prop := p.IsLibrary key → origin

section

open Session

variable {libraries : Libraries} {origin : Prop} {unit : Nat} {home name : String}

theorem libraryFor_of_same (h : p.SameUnits q) (hp : p.LibraryFor key origin) :
    q.LibraryFor key origin :=
  fun hq => hp ((isLibrary_of_same h).1 hq)

theorem libraryFor_loadLibrary {path : String} (h : libraries.HasKey path key → origin) :
    Keeps (LibraryFor key origin) (loadLibrary libraries path) := by
  refine gives_loadLibrary (Q := fun _ => LibraryFor key origin) (fun _ hp _ => hp) (fun _ => id)
    (fun _ _ _ _ _ _ => id) ?_ fun _ _ _ hq => hq
  intro source hsource file hfile himportable _ p hp
  refine libraryFor_of_same (sameUnits_modifyUnit _ _ fun x => ?_) fun hlibrary => ?_
  · obtain ⟨symbols, funcs, hlearn⟩ := rest_learn file x
    rw [hlearn]
    exact ⟨rfl, rfl, rfl, rfl, rfl, rfl, rfl⟩
  · rcases isLibrary_packageUnit hlibrary with hold | ⟨-, hkey⟩
    · exact hp hold
    · exact h ⟨source, hsource, file, hfile, himportable, hkey⟩

/-- What is known while a unit's files are read. -/
def Tracked (unit : Nat) (home key : String) (origin : Prop) (p : Program) : Prop :=
  p.Sited unit home ∧ p.LibraryFor key origin

/-- An import reads a library only if its path leads out of the program. -/
theorem tracked_addImport {i : ImportSpec} {dir : String} (h : Reads libraries dir i key → origin) :
    Keeps (Tracked unit (unitKey dir name) key origin) (addImport libraries unit i) := by
  refine gives_addImport (fun _ hp _ => hp) (fun p hp hforeign => ?_) fun name' target _ p hp => ?_
  · have hdir : firstSegment (p.unit unit).dir = firstSegment dir := by
      rw [← firstSegment_unitKey dir name, ← hp.1.key]
      exact (firstSegment_unitKey _ _).symm
    have hsegment : firstSegment dir = "" ∨ firstSegment i.path ≠ firstSegment dir := by
      rw [← hdir]
      exact hforeign.2.imp_left fun hempty => by rw [hempty]; rfl
    exact gives_and (stable_loadLibrary stable_sited.imports (fun _ hr => hr.indexed) i.path)
      (libraryFor_loadLibrary fun hkey => h ⟨hforeign.1.1, hforeign.1.2, hsegment, hkey⟩)
  · have hsame : p.SameUnits (p.modifyUnit unit fun u =>
        { u with importNames := u.importNames.set name' target }) :=
      sameUnits_modifyUnit p unit fun _ => ⟨rfl, rfl, rfl, rfl, rfl, rfl, rfl⟩
    exact ⟨stable_sited _ _ (.importName p unit name' target fun _ _ => trivial) hp.1,
      libraryFor_of_same hsame hp.2⟩

theorem extends_decls (hp : p.Growing False (unit + 1)) (file : File) :
    p.Extends (p.emit ⟨{ (p.unit unit).start unit with tabs := 1 }, true⟩
      (file.decls.forM Conversion.decl)).2 := by
  have hsits := sits_start hp.sound hp.units
  have hdecls : Balanced False (file.decls.forM Conversion.decl) := balanced_forM fun d _ =>
    Conversion.balanced_decl ((Go.File.spelled_of_all (fun _ h => h.elim) file).decls d ‹_›)
  exact (moves_emit ⟨{ (p.unit unit).start unit with tabs := 1 }, true⟩ hp.sound
    { hsits with } (hdecls p [])).1.ext

theorem libraryFor_fillPackage {dir : String} {file : File}
    (h : ∀ i ∈ file.imports, Reads libraries dir i key → origin) (hg : p.Growing False (unit + 1))
    (hp : p.Tracked unit (unitKey dir name) key origin) :
    ((fillPackage libraries file unit).run.run p).2.LibraryFor key origin := by
  have htracked : Keeps (Tracked unit (unitKey dir name) key origin)
      (file.imports.forM (addImport libraries unit)) :=
    gives_forM fun i hi => tracked_addImport (h i hi)
  have hlines : Gives (fun p => p.Growing False (unit + 1) ∧
        p.Tracked unit (unitKey dir name) key origin) (fillPackage libraries file unit)
      (fun _ => LibraryFor key origin) fun _ q => q.Growing False (unit + 1) ∧
        q.Tracked unit (unitKey dir name) key origin :=
    gives_bind (gives_and (growing_imports libraries unit file.imports) htracked) fun _ =>
      gives_modify fun q hq hlater =>
      hq.2.2 (isLibrary_of_extends (extends_decls hq.1 file) hlater)
  rcases hrun : (fillPackage libraries file unit).run.run p with ⟨e | v, q⟩
  · exact (hlines.error ⟨hg, hp⟩ hrun).2.2
  · exact hlines.ok ⟨hg, hp⟩ hrun

theorem libraryFor_call {c : Call} (h : c.Reads key → origin) (hg : p.Growing False 0)
    (hindexed : p.Indexed) (hp : p.LibraryFor key origin) :
    (c.session.run.run p).2.LibraryFor key origin := by
  rw [run_call, hg.phase]
  cases hread : c.read with
  | error cause => exact hp
  | ok file =>
    have hgrowing : (p.packageUnit c.dir (title file.package) false).2.Growing False 0 :=
      (growing_packageUnit false hg (fun h => h.elim) fun h => h.elim).1
    have hsited := sited_packageUnit c.dir (title file.package) false hindexed
    refine libraryFor_fillPackage (fun i hi hreads => h ⟨file, hread, i, hi, hreads⟩)
      { hgrowing with units := hsited.known } ⟨hsited, fun hlibrary => ?_⟩
    rcases isLibrary_packageUnit hlibrary with hold | ⟨hfalse, -⟩
    · exact hp hold
    · cases hfalse

theorem libraryFor_discovered (calls : List Call) :
    (discovered calls).LibraryFor key (∃ c ∈ calls, c.Reads key) := by
  refine (List.foldlRecOn (motive := fun p : Program =>
    p.Growing False 0 ∧ p.Regular (fun _ _ => True) ∧
    p.LibraryFor key (∃ c ∈ calls, c.Reads key)) calls _ ⟨growing_empty, regular_empty, ?_⟩ ?_).2.2
  · rintro ⟨u, hu, -⟩
    cases hu
  · rintro p ⟨hg, hr, hp⟩ c hc
    exact ⟨growing_call c p hg, stable_call (fun _ _ => regular_of_step) (fun _ hq => hq.indexed)
      (fun _ _ _ => trivial) p hr, libraryFor_call (fun h => ⟨c, hc, h⟩) hg hr.indexed hp⟩

end

/-! ## Files that are kept -/

/-- The unit with a key is a library's or not, as long as units keep their numbers. -/
theorem isLibrary_iff (hp : p.Sited u key) : p.IsLibrary key ↔ (p.unit u).library = true := by
  refine ⟨?_, fun h => ⟨u, hp.known, hp.key, h⟩⟩
  rintro ⟨v, hv, hkey, hlibrary⟩
  have hu := (hp.indexed key u).2 ⟨hp.known, hp.key⟩
  rw [(hp.indexed key v).2 ⟨hv, hkey⟩] at hu
  cases hu
  exact hlibrary

/-- There is one unit for a key, so it is written or it is a library's. -/
theorem written_iff (hp : p.Sited u key) : (∃ x ∈ p.written, x.key = key) ↔ ¬p.IsLibrary key := by
  rw [isLibrary_iff hp, Bool.not_eq_true]
  refine ⟨?_, fun h => ⟨p.unit u, mem_written.2 ⟨u, hp.known, rfl, h⟩, hp.key⟩⟩
  rintro ⟨x, hx, hkey⟩
  obtain ⟨v, hv, rfl, hlibrary⟩ := mem_written.1 hx
  have hu := (hp.indexed key u).2 ⟨hp.known, hp.key⟩
  rw [(hp.indexed key v).2 ⟨hv, hkey⟩] at hu
  cases hu
  exact hlibrary

/-- The unit has the key, and is a library's or not. -/
structure Placed (u : Nat) (key : String) (library : Bool) (p : Program) : Prop where
  sited : p.Sited u key
  library : (p.unit u).library = library

theorem stable_placed : Stable (fun _ _ => True) (Placed u key library) :=
  fun _ _ hstep hp => ⟨stable_sited _ _ hstep hp.sited,
    (namesake_of_step hstep hp.sited.known).2.library.trans hp.library⟩

theorem stable_isLibrary : Stable (fun _ _ => True) (IsLibrary · key) := by
  rintro p q hstep ⟨u, hu, hkey, hlibrary⟩
  obtain ⟨hu', hsame⟩ := namesake_of_step hstep hu
  exact ⟨u, hu', hsame.key.trans hkey, hsame.library.trans hlibrary⟩

/-- The unit of a file is a library's only if it was one before the file came. -/
theorem placed_call {c : Call} {file : File} (hread : c.read = .ok file)
    (hg : p.Growing False 0) (hindexed : p.Indexed) :
    ∃ u library, (c.session.run.run p).2.Placed u (unitKey c.dir (title file.package)) library ∧
      (library = true ↔ p.IsLibrary (unitKey c.dir (title file.package))) := by
  have hsteps : Steps (fun _ _ => True) p (p.packageUnit c.dir (title file.package) false).2 :=
    steps_packageUnit p c.dir (title file.package) false
  have hsited := sited_packageUnit c.dir (title file.package) false hindexed
  have hlibrary : (p.packageUnit c.dir (title file.package) false).2.IsLibrary
      (unitKey c.dir (title file.package)) ↔ p.IsLibrary (unitKey c.dir (title file.package)) := by
    refine ⟨fun h => ?_, stable_isLibrary.steps hsteps⟩
    rcases isLibrary_packageUnit h with hold | ⟨hfalse, -⟩
    · exact hold
    · cases hfalse
  rw [run_call, hg.phase, hread]
  dsimp only
  generalize p.packageUnit c.dir (title file.package) false = r at hlibrary hsited ⊢
  refine ⟨r.1, (r.2.unit r.1).library, ?_, (isLibrary_iff hsited).symm.trans hlibrary⟩
  exact stable_fillPackage stable_placed (fun _ _ _ => trivial) hsited ⟨hsited, rfl⟩

theorem stable_calls {I : Program → Prop} (hI : Stable (fun _ _ => True) I)
    (hindexed : ∀ p, I p → p.Indexed) (calls : List Call) (hp : I p) :
    I (calls.foldl (fun p call => (call.session.run.run p).2) p) :=
  List.foldlRecOn calls _ hp fun q hq _ _ => stable_call hI hindexed (fun _ _ _ => trivial) q hq

/-- A file is written, in the unit with its key, unless that unit is a library's when the file
comes; and then an earlier file has imported the library. -/
theorem files_are_written_unless_libraries_have_their_keys {before after : List Call} {c : Call}
    {file : File} {sources : List JavaSource} (hread : c.read = .ok file)
    (h : translated (before ++ c :: after) = .ok sources) :
    let key := unitKey c.dir (title file.package)
    let final := (discovered (before ++ c :: after)).settle
    sources.map JavaSource.heading = final.written.map CompilationUnit.heading ∧
      ((∃ u ∈ final.written, u.key = key) ↔ ¬(discovered before).IsLibrary key) ∧
      ((discovered before).IsLibrary key → ∃ d ∈ before, d.Reads key) ∧
      ∀ u ∈ final.written, u.key = key → '/' ∉ u.name.toList → '/' ∉ (title file.package).toList →
        u.dir = c.dir ∧ u.name = title file.package := by
  have hgrowing : ∀ calls, (discovered calls).Growing False 0 := fun calls =>
    growing_discovered fun c _ => Call.spelled_of_all (fun _ h => h.elim) c
  obtain ⟨r, hflat⟩ := flatten_of_translated h
  have hfinal : finalize.run.run (discovered (before ++ c :: after)) =
      (.ok (), (discovered (before ++ c :: after)).settle) := by
    rw [run_finalize, (hgrowing _).phase]
  obtain ⟨u, library, hplaced, hlibrary⟩ :=
    placed_call hread (hgrowing before) (regular_discovered before).indexed
  have hlast : (discovered (before ++ c :: after)).settle.Placed u
      (unitKey c.dir (title file.package)) library := by
    refine stable_placed.steps (steps_settle _) ?_
    unfold discovered
    rw [List.foldl_append, List.foldl_cons]
    exact stable_calls stable_placed (fun _ hq => hq.sited.indexed) after hplaced
  refine ⟨headings_of_flatten hfinal hflat, ?_, libraryFor_discovered before, ?_⟩
  · rw [written_iff hlast.sited, isLibrary_iff hlast.sited, hlast.library, hlibrary]
  · intro x hx hkey hname hname'
    exact unitKey_inj hname hname' hkey

/-- A file that imports another package. -/
def importer : File where
  package := "app"
  imports := [⟨none, "shop"⟩]
  decls := []

def emptyShop : File where
  package := "shop"
  imports := []
  decls := []

/-- A package that is imported before its file comes is written, if no library has its path. -/
theorem emptyShop_is_written : ∃ sources, translated [.tree (fun _ => []) "app/main.go" importer,
        .tree (fun _ => []) "shop/shelf.go" emptyShop] = .ok sources ∧
      ∃ u ∈ (discovered [.tree (fun _ => []) "app/main.go" importer,
        .tree (fun _ => []) "shop/shelf.go" emptyShop]).settle.written,
        u.key = unitKey (parentDir (slashed "shop/shelf.go")) (title "shop") := by
  have hlegible : ∀ path file p, (Call.tree (fun _ => []) path file).Legible p := fun _ file _ =>
    ⟨file, rfl, fun _ _ _ => nofun⟩
  obtain ⟨sources, h⟩ := (@translated_iff (fun _ => [])
    [.tree (fun _ => []) "app/main.go" importer, .tree (fun _ => []) "shop/shelf.go" emptyShop]
    (by simp [Call.libraries])).2 ⟨hlegible _ _ _, hlegible _ _ _, trivial⟩
  have hshelf : (Call.tree (fun _ => []) "shop/shelf.go" emptyShop).read = .ok emptyShop := rfl
  have hboth : translated ([.tree (fun _ => []) "app/main.go" importer] ++
      .tree (fun _ => []) "shop/shelf.go" emptyShop :: []) = .ok sources := h
  have hkept := files_are_written_unless_libraries_have_their_keys hshelf hboth
  refine ⟨sources, h, hkept.2.1.2 fun hlibrary => ?_⟩
  -- There are no libraries to read.
  obtain ⟨d, hd, -, -, i, -, -, -, -, source, hsource, -⟩ := hkept.2.2.1 hlibrary
  rw [List.mem_singleton.1 hd] at hsource
  cases hsource

end Program

end GoToJava
