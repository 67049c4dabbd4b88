import GoToJava.Proofs.Methods.Classes
import GoToJava.Proofs.Program.Protocol
import GoToJava.Proofs.Program.Written

/-!
What is known of functions, variables and methods. A file enters its functions in the tables of its
package, and an entry is neither changed nor dropped: of all declarations of a name the first one
counts.
-/

namespace GoToJava

open Go (Decl Expr Field File FuncDecl Signature isExported title)
open Emit Conversion Forms Program CompilationUnit Table

variable {own : String → String → Prop} {α β : Type}

namespace Program

variable {p q r : Program}

/-! ## Entries that stay -/

/-- All units and classes of the first program are still there in the second, and all entries of
their tables are there with the same values. -/
structure Remembers (p q : Program) : Prop where
  unit : ∀ u < p.units.size, u < q.units.size ∧ (p.unit u).Later (q.unit u)
  cls : ∀ c < p.classes.size, c < q.classes.size ∧ (p.classAt c).Later (q.classAt c)

theorem remembers_of_eq (hu : q.units = p.units) (hc : q.classes = p.classes) : p.Remembers q := by
  refine ⟨fun u h => ?_, fun c h => ?_⟩
  · unfold unit
    rw [hu]
    exact ⟨h, .refl _⟩
  · unfold classAt
    rw [hc]
    exact ⟨h, .refl _⟩

theorem Remembers.refl (p : Program) : p.Remembers p := remembers_of_eq rfl rfl

theorem Remembers.trans (h : p.Remembers q) (h' : q.Remembers r) : p.Remembers r := by
  refine ⟨fun u hu => ?_, fun c hc => ?_⟩
  · obtain ⟨hq, hlater⟩ := h.unit u hu
    exact ⟨(h'.unit u hq).1, hlater.trans (h'.unit u hq).2⟩
  · obtain ⟨hq, hlater⟩ := h.cls c hc
    exact ⟨(h'.cls c hq).1, hlater.trans (h'.cls c hq).2⟩

theorem remembers_modifyUnit {f : CompilationUnit → CompilationUnit} (p : Program) (id : Nat)
    (hf : ∀ x : CompilationUnit, x.Later (f x)) : p.Remembers (p.modifyUnit id f) := by
  refine ⟨fun u hu => ?_, (Remembers.refl p).cls⟩
  rw [size_units_modifyUnit, unit_modifyUnit]
  split
  · exact ⟨hu, hf _⟩
  · exact ⟨hu, .refl _⟩

theorem remembers_modifyClass {f : JavaClass → JavaClass} (p : Program) (id : Nat)
    (hf : ∀ x : JavaClass, x.Later (f x)) : p.Remembers (p.modifyClass id f) := by
  refine ⟨(Remembers.refl p).unit, fun c hc => ?_⟩
  have hsize : (p.modifyClass id f).classes.size = p.classes.size := Array.size_modify
  rw [hsize, classAt_modifyClass]
  split
  · exact ⟨hc, hf _⟩
  · exact ⟨hc, .refl _⟩

theorem remembers_newUnit (p : Program) (dir name : String) (library : Bool)
    (package : Option Nat) : p.Remembers (p.newUnit dir name library package) := by
  refine ⟨fun u hu => ?_, (Remembers.refl p).cls⟩
  rw [size_units_newUnit, unit_newUnit, if_neg (Nat.ne_of_lt hu)]
  exact ⟨Nat.lt_succ_of_lt hu, .refl _⟩

/-- All that is entered in a table of results or types is added, never set. -/
theorem remembers_note (p : Program) (cursor : Cursor) (n : Note) :
    p.Remembers (n.make cursor p) := by
  cases n with
  | method cls name result =>
    exact remembers_modifyClass _ _ fun c =>
      { JavaClass.Later.refl c with methods := kept_add _ _ _ }
  | conformance cls name =>
    exact remembers_modifyClass _ _ fun c => { JavaClass.Later.refl c with }
  | need _ | refer _ =>
    exact remembers_modifyUnit _ _ fun u => { CompilationUnit.Later.refl u with }
  | package name =>
    dsimp only [Note.make]
    split
    · exact remembers_modifyUnit _ _ fun u => { CompilationUnit.Later.refl u with }
    · exact .refl p
  | func name result =>
    refine remembers_modifyUnit _ _ fun u => ?_
    split
    · exact { CompilationUnit.Later.refl u with
        funcs := kept_add _ _ _
        symbolFuncs := kept_add _ _ _ }
    · exact { CompilationUnit.Later.refl u with funcs := kept_add _ _ _ }
  | varType name type =>
    exact remembers_modifyUnit _ _ fun u =>
      { CompilationUnit.Later.refl u with symbolVars := kept_add _ _ _ }
  | varValue name value =>
    exact remembers_modifyUnit _ _ fun u =>
      { CompilationUnit.Later.refl u with symbolValues := kept_add _ _ _ }
  | _ => exact remembers_of_eq rfl rfl

theorem later_learn (file : File) (u : CompilationUnit) : u.Later (file.decls.foldl addSymbols u) :=
  later_of_learns (learns_file
    (Go.File.spelled_of_all (P := fun _ => True) (fun _ => trivial) file) u)

theorem remembers_of_step (h : Step own p q) : p.Remembers q := by
  cases h with
  | write draft text =>
    rw [write_eq]
    exact remembers_of_eq rfl rfl
  | note cursor _ => exact remembers_note p cursor _
  | register cls =>
    refine ⟨(Remembers.refl p).unit, fun c hc => ?_⟩
    show c < (p.registered cls).classes.size ∧ (p.classAt c).Later ((p.registered cls).classAt c)
    rw [size_registered, classAt_registered, if_neg (Nat.ne_of_lt hc)]
    exact ⟨Nat.lt_succ_of_lt hc, .refl _⟩
  | newPackage dir name library _ => exact remembers_newUnit p dir name library none
  | newType u name _ =>
    exact (remembers_newUnit p _ name false (some (p.unit u).packageUnit)).trans
      (remembers_of_eq rfl rfl)
  | started u draft | importName u name target _ =>
    exact remembers_modifyUnit _ _ fun x => { CompilationUnit.Later.refl x with }
  | learn u file => exact remembers_modifyUnit _ _ (later_learn file)
  | newDraft | reserve _ _ | resolve _ | library _ _ _ | unpark | phase _ =>
    exact remembers_of_eq rfl rfl

theorem stable_remembers (p : Program) : Stable own p.Remembers :=
  fun _ _ hstep hp => hp.trans (remembers_of_step hstep)

theorem remembers_of_steps (h : Steps own p q) : p.Remembers q :=
  (stable_remembers p).steps h (.refl p)

/-- Files only add to the tables, also if they are refused halfway. -/
theorem remembers_call (call : Call) (hp : p.Indexed) : p.Remembers (call.session.run.run p).2 := by
  have hstable : Stable (fun _ _ => True) fun q => p.Remembers q ∧ q.Indexed :=
    fun _ _ hstep hq => ⟨stable_remembers p _ _ hstep hq.1, indexed_of_step hstep hq.2⟩
  exact (stable_call hstable (fun _ hq => hq.2) (fun _ _ _ => trivial) p ⟨.refl p, hp⟩).1

theorem remembers_of_joins {phase : Phase} (h : Joins { p with phase } q) : p.Remembers q := by
  rw [h.rest]
  exact remembers_of_eq rfl rfl

theorem remembers_finalize (p : Program) : p.Remembers (finalize.run.run p).2 := by
  rw [run_finalize]
  cases p.phase with
  | discovery =>
    have hsteps : Steps (fun _ _ => True) p p.settle := steps_settle p
    exact remembers_of_steps hsteps
  | finalization | flattened => exact .refl p

/-- Flattening changes drafts only, once the program is final. -/
theorem remembers_flatten (h : p.Stage) : p.Remembers (flatten.run.run p).2 := by
  by_cases hphase : p.phase = .flattened
  · rw [run_flatten_of_flattened hphase]
    exact .refl p
  · obtain ⟨q, hfinal, hq⟩ := finalize_of_stage h hphase
    obtain ⟨sources, r, hrun, hjoins, -⟩ := flat_of_final hfinal hq
    have hfirst := remembers_finalize p
    rw [hfinal] at hfirst
    rw [hrun]
    exact hfirst.trans (remembers_of_joins hjoins)

theorem remembers_run (command : Command) (h : p.Stage) : p.Remembers (command.run p) := by
  cases command with
  | file call =>
    by_cases hphase : p.phase = .discovery
    · exact remembers_call call (growing_of_stage h hphase).2.indexed
    · show p.Remembers (call.session.run.run p).2
      rw [run_call_of_phase call hphase]
      exact .refl p
  | finalize => exact remembers_finalize p
  | flatten => exact remembers_flatten h

theorem remembers_runs (commands : List Command) (h : p.Stage) :
    p.Remembers (commands.foldl Command.run p) := by
  induction commands generalizing p with
  | nil => exact .refl p
  | cons c commands ih => exact (remembers_run c h).trans (ih (stage_run c h))

end Program

/-! ## Entries that are made -/

/-- The tables of the unit have a result for the function. -/
structure CompilationUnit.Lists (name : String) (u : CompilationUnit) : Prop where
  funcs : ∃ result, u.funcs.get? name = some result
  symbols : isExported name = true → ∃ result, u.symbols.funcs.get? name = some result

theorem CompilationUnit.Lists.later {name : String} {u v : CompilationUnit} (hu : u.Lists name)
    (h : u.Later v) : v.Lists name := by
  refine ⟨?_, fun hexported => ?_⟩
  · obtain ⟨result, hresult⟩ := hu.funcs
    exact ⟨result, h.funcs _ _ hresult⟩
  · obtain ⟨result, hresult⟩ := hu.symbols hexported
    exact ⟨result, h.symbolFuncs _ _ hresult⟩

/-- After a name is added it has a value, the new one or an older one. -/
theorem Table.exists_get?_add (t : Table α) (name : String) (value : α) :
    ∃ v, (t.add name value).get? name = some v := by
  unfold add
  split
  · rename_i h
    exact Option.isSome_iff_exists.1 h
  · exact ⟨value, by rw [get?_set, if_pos rfl]⟩

namespace Emit

/-- Afterwards the unit around lists the function. -/
def Enters (name : String) (x : Emit α) : Prop :=
  ∀ place desk, place.unit < desk.program.units.size →
    place.unit < (x place desk).2.program.units.size ∧
      ((x place desk).2.program.unit place.unit).Lists name

variable {name : String} {result : Expr} {d : FuncDecl} {f : α → Emit β} {x : Emit α}

theorem enters_then (hx : Enters name x) (hf : ∀ a, Takes (fun _ _ => True) (f a)) :
    Enters name (x >>= f) := by
  intro place desk hunit
  obtain ⟨hknown, hlists⟩ := hx place desk hunit
  have hremembers := remembers_of_steps (hf (x place desk).1 place (x place desk).2)
  exact ⟨(hremembers.unit _ hknown).1, hlists.later (hremembers.unit _ hknown).2⟩

theorem then_enters (hx : Takes (fun _ _ => True) x) (hf : ∀ a, Enters name (f a)) :
    Enters name (x >>= f) := by
  intro place desk hunit
  exact hf _ place _ ((remembers_of_steps (hx place desk)).unit _ hunit).1

theorem enters_noteResult (name : String) (result : Expr) :
    Enters name (noteResult name result) := by
  intro place desk hunit
  show place.unit < (desk.program.modifyUnit place.unit _).units.size ∧
    ((desk.program.modifyUnit place.unit _).unit place.unit).Lists name
  rw [size_units_modifyUnit, unit_modifyUnit, if_pos ⟨rfl, hunit⟩]
  refine ⟨hunit, exists_get?_add _ _ _, fun hexported => ?_⟩
  rw [if_pos hexported]
  exact exists_get?_add _ _ _

theorem enters_signature {sig : Signature} (hresult : sig.firstResult = some result) (name : String)
    (receiver : Option Field) (scope : Nat) : Enters name (signature name sig receiver scope) := by
  have htype : ∀ type, Scripted .free (writeType .references type) :=
    free_writeTypeAt _ .references
  unfold Signature.firstResult at hresult
  unfold signature
  split
  · rename_i hnone
    rw [hnone] at hresult
    cases hresult
  · refine then_enters (takes_of_scripted (htype _)) fun _ =>
      enters_then (enters_noteResult _ _) fun _ => ?_
    refine takes_bind (takes_of_scripted (scripted_forM fun extra _ =>
      scripted_seq (scripted_word rfl) (scripted_seq (htype _) (scripted_word rfl)))) fun _ => ?_
    refine takes_of_parallel (a := []) (parallel_parameters (W := .free) trivial False.elim
      (fun v _ => ⟨False.elim, v.2.spelled_of_all fun _ => False.elim⟩) _ rfl)

theorem enters_function {stmts : Emit Unit} (hresult : d.sig.firstResult = some result)
    (receiver : Option Field) (hstmts : ScriptedIn .free stmts) :
    Enters d.name (function d receiver stmts) := by
  have hscope : Takes (fun _ _ => True) (openScope false []) := fun place desk => by
    rw [openScope_apply]
    exact .single (.note _ ⟨place, desk.owed⟩
      (n := .newScope (scopeAround false desk.program place) []) trivial)
  rw [function_eq]
  refine then_enters hscope fun scope => ?_
  refine then_enters (takes_of_jots (.print _)) fun _ =>
    then_enters (takes_of_jots (.print _)) fun _ => ?_
  exact enters_then (enters_signature hresult _ _ _) fun _ => takes_of_parallel (a := [])
    (parallel_body trivial (fun _ _ => trivial)
      (Go.Signature.spelled_of_all (fun _ => False.elim) _) hstmts)

theorem enters_decl (hreceiver : d.receiver = none) (hresult : d.sig.firstResult = some result) :
    Enters d.name (decl (.func d)) := by
  intro place desk
  have hbody : ScriptedIn .free
      (bodyOf (releaseAt desk.program.parked.length) d) :=
    scripted_bodyOf
      (free_releaseAt _)
      (Go.FuncDecl.obeys_of_lax Go.Rules.lax_free d)
      (Go.FuncDecl.spelled_of_all (fun _ => False.elim) d)
  show place.unit < _ → _ < (funcDecl
    (releaseAt desk.program.parked.length) d place desk).2.program.units.size ∧
    ((funcDecl (releaseAt desk.program.parked.length) d
      place desk).2.program.unit place.unit).Lists d.name
  unfold funcDecl
  rw [hreceiver]
  exact enters_function hresult none hbody place desk

theorem takes_decls (ds : List Decl) : Takes (fun _ _ => True) (ds.forM decl) :=
  takes_forM fun d _ => takes_decl d

/-- Other declarations, before the function or after it, leave it entered. -/
theorem enters_decls {ds : List Decl} (hd : .func d ∈ ds) (hreceiver : d.receiver = none)
    (hresult : d.sig.firstResult = some result) : Enters d.name (ds.forM decl) := by
  induction ds with
  | nil => cases hd
  | cons e ds ih =>
    rcases List.mem_cons.1 hd with rfl | hd
    · exact enters_then (enters_decl hreceiver hresult) fun _ => takes_decls ds
    · exact then_enters (takes_decl e) fun _ => ih hd

end Emit

namespace Program

variable {p : Program}

/-- A file that is not refused has its functions in the tables of its package. -/
theorem lists_call {c : Call} {file : File} {d : FuncDecl} {result : Expr} {q : Program}
    (hp : p.Indexed) (hphase : p.phase = .discovery) (hread : c.read = .ok file)
    (hrun : c.session.run.run p = (.ok (), q)) (hd : .func d ∈ file.decls)
    (hreceiver : d.receiver = none) (hresult : d.sig.firstResult = some result) :
    ∃ u, q.Sited u (unitKey c.dir (title file.package)) ∧ (q.unit u).Lists d.name := by
  have hthere := sited_packageUnit c.dir (title file.package) false hp
  rw [run_call, hphase, hread] at hrun
  dsimp only at hrun
  generalize p.packageUnit c.dir (title file.package) false = r at hthere hrun
  obtain ⟨u, r⟩ := r
  -- The imports may add units, but the unit of the file keeps its number and key.
  have himports : Session.Keeps (Sited u (unitKey c.dir (title file.package)))
      (file.imports.forM (addImport c.libraries u)) :=
    stable_imports stable_sited.imports (fun _ h => h.indexed) (fun _ h => h.key)
      fun _ _ => trivial
  obtain ⟨v, s, himported, hwritten⟩ := ok_of_bind hrun
  have hsited := himports.run hthere
  rw [himported] at hsited
  cases hwritten
  refine ⟨u, stable_sited.steps (steps_emit s _ (takes_decls file.decls)) hsited, ?_⟩
  exact (enters_decls hd hreceiver hresult _ ⟨s, true⟩ hsited.known).2

/-- Whatever is asked of a program, and whether or not it is refused, all that its tables say of the
functions and variables of units and of the methods of classes stays as it is, since the first
declaration of a name counts. The tables do not stay empty: a file that is not refused enters its
functions with their results. -/
theorem first_declarations_count (commands more : List Command) :
    (reached commands).Remembers (reached (commands ++ more)) ∧
      ∀ (c : Call) (file : File) (d : FuncDecl) (result : Expr) (q : Program),
        (reached commands).phase = .discovery → c.read = .ok file →
        c.session.run.run (reached commands) = (.ok (), q) → .func d ∈ file.decls →
        d.receiver = none → d.sig.firstResult = some result →
        ∃ u, q.unitIndex.get? (unitKey c.dir (title file.package)) = some u ∧
          (q.unit u).Lists d.name := by
  have hstage := stage_reached commands
  refine ⟨?_, ?_⟩
  · unfold reached at hstage ⊢
    rw [List.foldl_append]
    exact remembers_runs more hstage
  · intro c file d result q hphase hread hrun hd hreceiver hresult
    obtain ⟨u, hsited, hlists⟩ := lists_call (growing_of_stage hstage hphase).2.indexed hphase
      hread hrun hd hreceiver hresult
    exact ⟨u, (hsited.indexed _ u).2 ⟨hsited.known, hsited.key⟩, hlists⟩

/-- A file with the function `func Price() type`. -/
def priceFile (type : String) : Call :=
  .tree (fun _ => []) "shop/price.go"
    { package := "shop"
      imports := []
      decls := [.func ⟨none, "Price", ⟨[], [⟨[], .ident type⟩]⟩, none⟩] }

theorem run_first_file {c : Call} (h : (c.session.run.run {}).1 = .ok ()) :
    c.session.run.run (reached []) = (.ok (), reached [.file c]) := Prod.ext h rfl

theorem the_first_price_counts : (∃ u, (reached [.file (priceFile "int")]).unitIndex.get?
          (unitKey (priceFile "int").dir (title "shop")) = some u ∧
        ((reached [.file (priceFile "int")]).unit u).Lists "Price") ∧
      (((reached [.file (priceFile "int")]).unit 0).funcs.get? "Price").bind Expr.ident? =
        some "int" ∧
      (((reached [.file (priceFile "int"), .file (priceFile "string")]).unit 0).funcs.get?
        "Price").bind Expr.ident? = some "int" := by
  have hfirst : (((reached [.file (priceFile "int")]).unit 0).funcs.get? "Price").bind
      Expr.ident? = some "int" := by decide +kernel
  have hphase : (reached []).phase = .discovery := rfl
  have hrun := run_first_file (c := priceFile "int") (by decide +kernel)
  have hlists := (first_declarations_count [] []).2 (priceFile "int") _ _ (.ident "int") _ hphase
    rfl hrun List.mem_cons_self
  have hstay := (first_declarations_count [.file (priceFile "int")]
    [.file (priceFile "string")]).1
  refine ⟨hlists rfl rfl, hfirst, ?_⟩
  obtain ⟨result, hget, hname⟩ := Option.bind_eq_some_iff.1 hfirst
  exact Option.bind_eq_some_iff.2
    ⟨result, (hstay.unit 0 (by decide +kernel)).2.funcs _ _ hget, hname⟩

end Program

end GoToJava
