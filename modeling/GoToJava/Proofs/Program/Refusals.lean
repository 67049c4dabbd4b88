import GoToJava.Proofs.Program.Calls

/-!
Which files are refused. A program is brought to Java if its files can be read, and with them all
libraries that they import from outside the program.
-/

namespace GoToJava

open Go (File ImportSpec title)
open Emit

/-- All files of a library can be read. -/
def Libraries.Legible (libraries : Libraries) (path : String) : Prop :=
  ∀ source ∈ libraries path, ∃ file, Go.read source.text = .ok file

/-! ## The table of libraries -/

namespace Program

theorem libraries_startUnit {text : Emit Unit} (p : Program) (id : Nat)
    (ht : Jots (fun _ => True) text) : (p.startUnit id text).libraries = p.libraries := by
  obtain ⟨drafts, refused, imports, h⟩ := p.startUnit_eq id ht
  rw [h]
  rfl

theorem libraries_packageUnit (p : Program) (dir name : String) (library : Bool) :
    (p.packageUnit dir name library).2.libraries = p.libraries := by
  unfold packageUnit
  split
  · rfl
  · dsimp only
    split
    · rfl
    · exact libraries_startUnit _ _ (jots_println _)

theorem libraries_typeUnit (p : Program) (place : Place) (name : String) :
    (p.typeUnit place name).2.libraries = p.libraries := by
  unfold typeUnit
  dsimp only
  split
  · rfl
  · dsimp only
    rw [libraries_startUnit _ _ (.pure ())]
    rfl

end Program

/-- What is written loads no library. -/
def Outlook.shelves : Chronicle .free where
  fits _ _ _ := True
  tells _ p q := q.libraries = p.libraries
  refl _ := rfl
  trans _ h h' := h'.trans h
  stays _ _ := trivial
  knows := @Outlook.knows_free
  steer _ _ := ⟨trivial, fun _ => id⟩
  does _ h := by
    cases h with
    | write text => rw [Program.write_eq]
    | note h owed => exact Program.libraries_make _ _ _
    | var | scope => exact Program.libraries_make _ _ _
    | hole | task | register => rfl
  opening _ _ _ := trivial
  enrolled _ _ := trivial
  goes {_ _ place p _ _} _ h := by
    refine ⟨trivial, fun q hq => ?_⟩
    cases h with
    | look | methods | implementing => exact hq
    | @typeUnit name => exact hq.trans (p.libraries_typeUnit place name)

namespace Program

open Session

variable {p : Program} {libraries : Libraries} {unit : Nat} {dir : String}

theorem libraries_decls (cursor : Cursor) (file : File) :
    (p.emit cursor (file.decls.forM Conversion.decl)).2.libraries = p.libraries := by
  have hdecls : Parallel .free .all [] [] Eq (file.decls.forM Conversion.decl)
      (file.decls.forM Conversion.decl) := parallel_forM fun d _ => free_decl d _ _ trivial
  exact (Outlook.shelves.tells_of_parallel hdecls trivial cursor.owed).1

/-! ## Imports -/

/-- The libraries that were loaded can be read. -/
def Informed (libraries : Libraries) (p : Program) : Prop :=
  ∀ path, (p.libraries.get? path).isSome = true → libraries.Legible path

theorem informed_loadLibrary (path : String) : Gives (Informed libraries)
    (loadLibrary libraries path) (fun _ p => p.Informed libraries ∧ libraries.Legible path)
    fun _ _ => ¬libraries.Legible path := by
  refine gives_loadLibrary (Q := fun _ => Informed libraries)
    (fun p hp hknown => ⟨hp, hp path hknown⟩) (fun _ => id) ?_ ?_ ?_
  · rintro source hsource cause hcause - - - hlegible
    obtain ⟨file, hfile⟩ := hlegible source hsource
    cases hfile.symm.trans hcause
  · intro source _ file _ _ _ p hp r other
    show (r.2.libraries.get? other).isSome = true → _
    rw [libraries_packageUnit]
    exact hp other
  · intro hall loaded p hp
    refine ⟨fun other => ?_, hall⟩
    rw [Table.get?_set]
    split
    · rename_i hsame
      exact fun _ => hsame ▸ hall
    · exact hp other

/-- The unit is in the directory. -/
structure InDirectory (unit : Nat) (dir : String) (p : Program) : Prop where
  indexed : p.Indexed
  known : unit < p.units.size
  dir : (p.unit unit).dir = dir

theorem stable_inDirectory : Stable (fun _ _ => True) (InDirectory unit dir) := by
  intro p q hstep hp
  obtain ⟨hknown, hsame⟩ := namesake_of_step hstep hp.known
  exact ⟨indexed_of_step hstep hp.indexed, hknown, hsame.dir.trans hp.dir⟩

/-- The libraries that the file imports into a package of the directory can be read. -/
def LegibleFrom (libraries : Libraries) (dir : String) (file : File) : Prop :=
  ∀ i ∈ file.imports, Foreign i dir → libraries.Legible i.path

theorem legible_fillPackage (file : File) :
    Gives (fun p => p.InDirectory unit dir ∧ p.Informed libraries) (fillPackage libraries file unit)
      (fun _ p => p.Informed libraries ∧ LegibleFrom libraries dir file)
      fun _ _ => ¬LegibleFrom libraries dir file := by
  refine gives_bind (gives_forM_each (C := fun i => Foreign i dir → libraries.Legible i.path)
    fun i hi => gives_addImport ?_ ?_ ?_) fun _ => gives_modify fun q hq => ⟨fun path => ?_, hq.2⟩
  · exact fun p hp hnear => ⟨hp, fun hforeign => absurd (hp.1.dir ▸ hforeign) hnear⟩
  · intro p hp hforeign
    rw [hp.1.dir] at hforeign
    exact (gives_and (stable_loadLibrary stable_inDirectory.imports (fun _ hq => hq.indexed) i.path)
      (informed_loadLibrary i.path)).mono (fun _ _ hq => ⟨⟨hq.1, hq.2.1⟩, fun _ => hq.2.2⟩)
      fun _ _ hq hall => hq.2 (hall i hi hforeign)
  · exact fun name target _ p hp =>
      ⟨⟨stable_inDirectory _ _ (.importName p unit name target fun _ _ => trivial) hp.1.1,
        hp.1.2⟩, hp.2⟩
  · rw [libraries_decls]
    exact hq.1.2 path

/-! ## Files -/

/-- The file of a call can be read, and the libraries it imports. Imports are seen from the
directory of the unit that the file is written into. -/
def Call.Legible (c : Call) (p : Program) : Prop :=
  ∃ file, c.read = .ok file ∧
    let r := p.packageUnit c.dir (title file.package) false
    LegibleFrom c.libraries (r.2.unit r.1).dir file

/-- Each call can be read when its turn comes. -/
def AllLegible : Program → List Call → Prop
  | _, [] => True
  | p, c :: calls => c.Legible p ∧ AllLegible (c.session.run.run p).2 calls

/-- A file is refused if it cannot be read, or a library it imports. -/
theorem legible_call {c : Call} (hphase : p.phase = .discovery) (hindexed : p.Indexed) :
    Gives (fun q => q = p ∧ q.Informed c.libraries) c.session
      (fun _ q => q.Informed c.libraries ∧ c.Legible p) fun _ _ => ¬c.Legible p := by
  rintro _ ⟨rfl, hp⟩
  rw [run_call, hphase]
  cases hread : c.read with
  | error cause =>
    rintro ⟨file, hfile, -⟩
    cases hfile.symm.trans hread
  | ok file =>
    have hsited := sited_packageUnit c.dir (title file.package) false hindexed
    refine (legible_fillPackage file).mono (fun _ q hq => ⟨hq.1, file, hread, hq.2⟩)
      (fun _ q hq => ?_) _ ⟨⟨hsited.indexed, hsited.known, rfl⟩, fun path => ?_⟩
    · rintro ⟨other, hother, hlegible⟩
      cases hread.symm.trans hother
      exact hq hlegible
    · rw [libraries_packageUnit]
      exact hp path

theorem legible_calls {calls : List Call} (hl : ∀ c ∈ calls, c.libraries = libraries)
    (hg : p.Growing False 0) (hr : p.Regular fun _ _ => True) :
    Gives (fun q => q = p ∧ q.Informed libraries) (calls.forM Call.session)
      (fun _ q => q.Growing False 0 ∧ AllLegible p calls) fun _ _ => ¬AllLegible p calls := by
  induction calls generalizing p with
  | nil =>
    rintro _ ⟨rfl, -⟩
    exact ⟨hg, trivial⟩
  | cons c calls ih =>
    have hcall := legible_call (c := c) hg.phase hr.indexed
    rw [hl c List.mem_cons_self] at hcall
    have hcons : (c :: calls).forM Call.session =
      c.session >>= fun _ => calls.forM Call.session := rfl
    rintro _ ⟨rfl, hp⟩
    rw [hcons]
    rcases hrun : c.session.run.run _ with ⟨e | v, q⟩
    · rw [run_bind_error hrun]
      exact fun hall => hcall.error ⟨rfl, hp⟩ hrun hall.1
    · obtain ⟨hinformed, hlegible⟩ := hcall.ok ⟨rfl, hp⟩ hrun
      have hq := congrArg Prod.snd hrun
      have hrest := ih (fun d hd => hl d (List.mem_cons_of_mem _ hd)) (growing_call c _ hg)
        (stable_call (fun _ _ => regular_of_step) (fun _ h => h.indexed)
          (fun _ _ _ => trivial) _ hr)
      rw [run_bind_ok hrun]
      exact hrest.mono (fun _ _ h => ⟨h.1, hlegible, h.2⟩) (fun _ _ h hall => h hall.2) q
        ⟨hq.symm, hinformed⟩

/-- Files are brought to Java if each can be read when its turn comes. -/
theorem translated_iff {calls : List Call} (hl : ∀ c ∈ calls, c.libraries = libraries) :
    (∃ sources, translated calls = .ok sources) ↔ AllLegible {} calls := by
  have hcalls := legible_calls hl growing_empty regular_empty {} ⟨rfl, nofun⟩
  unfold translated
  dsimp only
  rcases hrun : (calls.forM Call.session).run.run {} with ⟨e | v, q⟩
  · rw [run_bind_error hrun]
    rw [hrun] at hcalls
    exact ⟨nofun, fun hall => absurd hall hcalls⟩
  · rw [run_bind_ok hrun]
    rw [hrun] at hcalls
    obtain ⟨sources, r, hflat, -⟩ := turns_flatten hcalls.1
    exact ⟨fun _ => hcalls.2, fun _ => ⟨sources, congrArg Prod.fst hflat⟩⟩

end Program

end GoToJava
