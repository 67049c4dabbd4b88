import GoToJava.Proofs.Program.Invariants

/-!
Sessions change programs by steps: discovery, whichever files are given and whether or not they are
refused, and finalization.
-/

namespace GoToJava

open Go (Decl File ImportSpec title)
open Emit Conversion

variable {own : String → String → Prop} {I : Program → Prop} {libraries : Libraries}

namespace Program

open Session

variable {p q : Program} {α : Type}

/-- Every step keeps the property. -/
def Stable (own : String → String → Prop) (I : Program → Prop) : Prop :=
  ∀ p q, Step own p q → I p → I q

theorem Stable.steps (hI : Stable own I) (h : Steps own p q) (hp : I p) : I q := by
  induction h with
  | refl => exact hp
  | tail _ hstep ih => exact hI _ _ hstep ih

/-! ## Discovery -/

/-- The unit has the key. -/
structure Sited (unit : Nat) (home : String) (p : Program) : Prop where
  indexed : p.Indexed
  known : unit < p.units.size
  key : (p.unit unit).key = home

theorem sited_of_step {unit : Nat} {home : String} (hstep : Step own p q) (hp : p.Sited unit home) :
    q.Sited unit home :=
  have hkey := key_of_step hstep ⟨hp.known, hp.key⟩
  ⟨indexed_of_step hstep hp.indexed, hkey.1, hkey.2⟩

theorem stable_sited {unit : Nat} {home : String} : Stable (fun _ _ => True) (Sited unit home) :=
  fun _ _ => sited_of_step

theorem key_packageUnit (dir name : String) (library : Bool) (hp : p.Indexed) :
    let r := p.packageUnit dir name library
    r.1 < r.2.units.size ∧ (r.2.unit r.1).key = unitKey dir name := by
  have hnew : p.units.size < (p.newUnit dir name library none).units.size ∧
      ((p.newUnit dir name library none).unit p.units.size).key = unitKey dir name := by
    rw [size_units_newUnit, unit_newUnit, if_pos rfl]
    exact ⟨Nat.lt_succ_self _, rfl⟩
  unfold packageUnit
  split
  · rename_i id hid
    exact (hp _ id).1 hid
  · dsimp only
    split
    · exact hnew
    · have hkey : Stable (fun _ _ => False) fun q : Program =>
          p.units.size < q.units.size ∧ (q.unit p.units.size).key = unitKey dir name :=
        fun _ _ h => key_of_step h
      exact hkey.steps (steps_startUnit _ _ (jots_println _)) hnew

theorem sited_packageUnit (dir name : String) (library : Bool) (hp : p.Indexed) :
    let r := p.packageUnit dir name library
    r.2.Sited r.1 (unitKey dir name) := by
  have hkey := key_packageUnit dir name library hp
  have hindexed : Stable (fun _ _ => False) Indexed := fun _ _ => indexed_of_step
  exact ⟨hindexed.steps (steps_packageUnit p dir name library) hp, hkey.1, hkey.2⟩

/-- All that is done for imports keeps the property. -/
structure ImportStable (own : String → String → Prop) (I : Program → Prop) : Prop where
  packageUnit : ∀ p dir name, I p → I (p.packageUnit dir name true).2
  learn : ∀ p u (file : File), I p →
    I (p.modifyUnit u fun x => file.decls.foldl CompilationUnit.addSymbols x)
  library : ∀ p path loaded, (∀ u ∈ loaded, u < p.units.size) → I p →
    I { p with libraries := p.libraries.set path loaded }
  importName : ∀ p u name (target : ImportName),
    (∀ qualified, target.qualified = some qualified → own (p.unit u).key qualified) → I p →
    I (p.modifyUnit u fun x => { x with importNames := x.importNames.set name target })

theorem Stable.imports (hI : Stable own I) : ImportStable own I where
  packageUnit p dir name := hI.steps (steps_packageUnit p dir name true)
  learn p u file := hI _ _ (.learn p u file)
  library p path loaded h := hI _ _ (.library p path loaded h)
  importName p u name target h := hI _ _ (.importName p u name target h)

theorem stable_loadLibrary (hI : ImportStable own I) (hindexed : ∀ p, I p → p.Indexed)
    (path : String) : Keeps I (loadLibrary libraries path) := by
  -- The units of the library's files are there when the library is entered.
  refine gives_loadLibrary (Q := fun loaded q => I q ∧ ∀ u ∈ loaded, u < q.units.size)
    (fun _ hp _ => hp) (fun _ hp => ⟨hp, nofun⟩) (fun _ _ _ _ _ _ hq => hq.1) ?_
    fun _ loaded q hq => hI.library q path loaded hq.2 hq.1
  intro source _ file _ _ _ q hq
  have hkey := key_packageUnit path (title file.package) true (hindexed q hq.1)
  have hpackage := hI.packageUnit q path (title file.package) hq.1
  refine ⟨hI.learn _ _ file hpackage, ?_⟩
  rintro u ⟨⟩
  exact Nat.lt_of_lt_of_eq hkey.1 (size_units_modifyUnit _ _ _).symm

/-- A file of the package `key` imports the package of the class `qualified`. -/
def fileImports (path : String) (file : File) (key qualified : String) : Prop :=
  key = unitKey (parentDir (slashed path)) (title file.package) ∧
    ∃ i ∈ file.imports, qualified = dotted i.path ++ "." ++ title (lastSegment i.path)

theorem stable_imports {unit : Nat} {key : String} {imports : List ImportSpec}
    (hI : ImportStable own I) (hindexed : ∀ p, I p → p.Indexed)
    (hkey : ∀ p, I p → (p.unit unit).key = key)
    (hi : ∀ i ∈ imports, own key (dotted i.path ++ "." ++ title (lastSegment i.path))) :
    Keeps I (imports.forM (addImport libraries unit)) := by
  refine gives_forM fun i hmem => gives_addImport (fun _ hp _ => hp)
    (fun _ _ _ => stable_loadLibrary hI hindexed i.path) ?_
  intro name target htarget p hp
  refine hI.importName p unit name target (fun qualified hq => ?_) hp
  rw [hkey p hp, htarget qualified hq]
  exact hi i hmem

theorem free_decl (d : Decl) : ScriptedIn .free (decl d) :=
  scripted_decl trivial (fun _ => Or.inl trivial) (fun _ h => h) trivial
    (Go.Decl.obeys_of_lax Go.Rules.lax_free d) (Go.Decl.spelled_of_all (fun _ => False.elim) d)

theorem takes_decl (d : Decl) : Takes own (decl d) := takes_of_scriptedIn (free_decl d)

/-- Filling the unit of a file keeps what all steps keep. -/
theorem stable_fillPackage {c : Call} {file : File} {u : Nat} (hI : Stable own I)
    (hfile : ∀ key qualified, fileImports c.path file key qualified → own key qualified)
    (hsited : p.Sited u (unitKey c.dir (title file.package))) (hp : I p) :
    I ((fillPackage c.libraries file u).run.run p).2 := by
  -- While the imports are read, the unit stays the one of the file.
  let J (q : Program) : Prop := I q ∧ q.Sited u (unitKey c.dir (title file.package))
  have hJ : Stable own J := fun _ _ h hq => ⟨hI _ _ h hq.1, sited_of_step h hq.2⟩
  have hrest : Keeps J (fillPackage c.libraries file u) := by
    refine gives_bind (stable_imports hJ.imports (fun q hq => hq.2.indexed) (fun q hq => hq.2.key)
      fun i hi => hfile _ _ ⟨rfl, i, hi, rfl⟩) fun _ => gives_modify fun r hr => ?_
    have hdecls : Takes own (file.decls.forM decl) := takes_forM fun d _ => takes_decl d
    exact hJ.steps (hdecls _ ⟨r, true⟩) hr
  exact (hrest.run ⟨hp, hsited⟩).1

/-- What the files of a call import. -/
def Call.Imports : Call → String → String → Prop
  | tree _ path file => fileImports path file
  | text _ path source => fun key qualified =>
    ∃ file, Go.read source = .ok file ∧ fileImports path file key qualified

theorem stable_call {call : Call} (hI : Stable own I) (hindexed : ∀ p, I p → p.Indexed)
    (hcall : ∀ key qualified, call.Imports key qualified → own key qualified) (p : Program)
    (hp : I p) : I (call.session.run.run p).2 := by
  refine run_call_keeps hp fun file hread _ => ?_
  refine stable_fillPackage hI (fun key qualified h => hcall _ _ ?_)
    (sited_packageUnit call.dir (title file.package) false (hindexed p hp))
    (hI.steps (steps_packageUnit p _ _ _) hp)
  cases call with
  | tree libraries path file' => exact Except.ok.inj hread ▸ h
  | text libraries path source => exact ⟨file, hread, h⟩

/-! ## Finalization -/

theorem steps_emit {x : Emit α} (p : Program) (cursor : Cursor) (hx : Takes own x) :
    Steps own p (p.emit cursor x).2 :=
  hx cursor.place ⟨p, cursor.owed⟩

theorem steps_foldl {f : Program → α → Program} (hf : ∀ p x, Steps own p (f p x)) (xs : List α)
    (p : Program) : Steps own p (xs.foldl f p) :=
  List.foldlRecOn xs f .refl fun q hq x _ => hq.trans (hf q x)

theorem steps_releaseAll (p : Program) : Steps own p p.releaseAll := by
  have hmethod : ∀ (q : Program) (m : ParkedMethod),
      Steps own q (q.emit m.cursor (staticMethod m.decl)).2 := fun q m =>
    steps_emit q m.cursor (takes_of_scripted (scripted_staticMethod trivial
      (fun _ => Or.inl trivial) (fun _ h => h) trivial
      (Go.FuncDecl.obeys_of_lax Go.Rules.lax_free m.decl)
      (Go.FuncDecl.spelled_of_all (fun _ => False.elim) m.decl)))
  exact .head (.unpark p) (steps_foldl hmethod _ _)

theorem takes_run (task : Task) : Takes own (Conversion.run fill.release task) :=
  takes_of_scriptedIn fun _ _ hb => parallel_run trivial
    (free_releaseAt 0)
    (Task.obeys_of_lax Go.Rules.lax_free task)
    (Task.spelled_of_all (fun _ => False.elim) task) fun _ => hb

theorem steps_answer (p : Program) (id : Nat) : Steps own p (p.answer id) := by
  have hresolve : Step own p { p with drafts := (p.drafts.resolve id).2 } := .resolve p id
  unfold answer
  dsimp only
  split
  · exact .head hresolve (steps_emit _ _ (takes_run _))
  · exact .single hresolve

theorem steps_fill (depth : Nat) (p : Program) (id : Nat) : Steps own p (p.fill depth id) := by
  induction depth generalizing p id with
  | zero => exact .refl
  | succ depth ih =>
    cases hopen : (p.drafts.hole id).resolved with
    | true =>
      rw [fill_of_resolved hopen]
    | false =>
      rw [fill_of_open hopen]
      exact ((steps_foldl ih _ _).trans (steps_answer _ _)).trans (steps_foldl ih _ _)

theorem steps_fillUnit (p : Program) (id : Nat) : Steps own p (p.fillUnit id) := by
  unfold fillUnit
  dsimp only
  split
  · exact .refl
  · rw [← Array.foldl_toList]
    exact steps_foldl (steps_fill _) _ _

theorem scripted_importLines {W : Outlook} (hW : ¬W.tidy) (names : List String) : Scripted W (do
    names.forM fun name => println ("import " ++ name ++ ";")
    unless names.isEmpty do println "") :=
  scripted_seq (scripted_forM fun _ _ => scripted_println fun ht => absurd ht hW)
    (scripted_unless (scripted_println fun ht => absurd ht hW))

theorem steps_writeImports (p : Program) (id : Nat) : Steps own p (p.writeImports id) := by
  unfold writeImports
  dsimp only
  split
  · exact steps_emit _ _ (takes_of_scripted (scripted_importLines False.elim _))
  · exact .refl

theorem steps_settle (p : Program) : Steps own p p.settle := by
  have hreleased : Steps own p { p.releaseAll with phase := .finalization } :=
    (steps_releaseAll p).tail (.phase _ _)
  exact (hreleased.trans (steps_foldl steps_fillUnit _ _)).trans
    (steps_foldl steps_writeImports _ _)

/-! ## Discovered programs -/

/-- A package of the program that some call imports. -/
def Imported (calls : List Call) (key qualified : String) : Prop :=
  ∃ c ∈ calls, c.Imports key qualified

theorem regular_discovered (calls : List Call) : (discovered calls).Regular (Imported calls) :=
  List.foldlRecOn calls _ regular_empty fun p hp c hc =>
    stable_call (fun _ _ => regular_of_step) (fun _ hq => hq.indexed) (fun _ _ h => ⟨c, hc, h⟩) p hp

theorem regular_settle (hp : p.Regular own) : p.settle.Regular own :=
  regular_of_steps (steps_settle p) hp

end Program

end GoToJava
