import GoToJava.Proofs.Homes.Blocks
import GoToJava.Proofs.Methods.Accounts

/-!
Methods are written once. Discovery keeps the account of the methods it meets, and finalization
writes those that still wait as functions of their packages. Which class a method goes to is decided
by its name alone.
-/

namespace GoToJava

open Go (Decl File FuncDecl title)
open Emit Conversion CompilationUnit

/-- The method that a declaration is, if it is one. -/
def Go.Decl.method? : Decl → Option FuncDecl
  | .func d => d.receiver.map fun _ => d
  | .gen _ => none

/-- Whichever methods are declared are met, each in the place of the declarations. -/
theorem map_meetings {α : Type} (g : Place → α) (place : Place) (ds : List Decl) (desk : Desk) :
    (meetings place ds desk).map (fun m => (g m.cursor.place, m.decl)) =
      (ds.filterMap Decl.method?).map fun d => (g place, d) := by
  induction ds generalizing desk with
  | nil => rfl
  | cons d ds ih =>
    have hfirst : (Meeting.of? place desk d).toList.map
        (fun m => (g m.cursor.place, m.decl)) = d.method?.toList.map fun d => (g place, d) := by
      cases d with
      | gen d => rfl
      | func d =>
        cases hreceiver : d.receiver with
        | none =>
          have hnone : Decl.method? (.func d) = none := Option.map_eq_none_iff.2 hreceiver
          rw [Meeting.of?_function hreceiver, hnone]
          rfl
        | some receiver =>
          have hsome : Decl.method? (.func d) = some d :=
            Option.map_eq_some_iff.2 ⟨receiver, hreceiver, rfl⟩
          rw [Meeting.of?_method hreceiver, hsome]
          rfl
    rw [meetings, List.map_append, hfirst, ih, List.filterMap_cons]
    cases d.method? with
    | none => rfl
    | some d => rfl

namespace Program

open Session

variable {p q base : Program} {met : List Meeting} {draft u : Nat} {key : String}

/-! ## Calls -/

/-- The methods of a call's file, as they are met. A file that is refused is not read that far. -/
def Call.meetings (c : Call) (p : Program) : List Meeting :=
  match c.read with
  | .error _ => []
  | .ok file =>
    let r := p.packageUnit c.dir (title file.package) false
    match (file.imports.forM (addImport c.libraries r.1)).run.run r.2 with
    | (.ok _, q) => GoToJava.meetings (q.inside r.1) file.decls ⟨q, true⟩
    | (.error _, _) => []

/-- The methods of the files that some calls give, as they are met. -/
def meetingsFrom (p : Program) : List Call → List Meeting
  | [] => []
  | c :: calls => c.meetings p ++ meetingsFrom (c.session.run.run p).2 calls

/-- A package's unit is there, and the account is kept, since the program was `base`. -/
structure Keeping (base : Program) (met : List Meeting) (u : Nat) (key : String) (p : Program) :
    Prop where
  accounted : Accounted met p
  abides : base.Abides p
  phase : p.phase = .discovery
  known : u < p.units.size
  key : (p.unit u).key = key

theorem Accounted.elsewhere (h : Accounted met p) (hcourse : Course p.drafts.next p q) :
    Accounted met q :=
  h.course hcourse fun _ hc => Nat.ne_of_lt (h.filed.known hc)

theorem Keeping.elsewhere (h : Keeping base met u key p) (hcourse : Course p.drafts.next p q) :
    Keeping base met u key q where
  accounted := h.accounted.elsewhere hcourse
  abides := h.abides.trans hcourse.abides
  phase := hcourse.phase.trans h.phase
  known := hcourse.leads.units h.known
  key := (hcourse.leads.namesake h.known).2.key.trans h.key

theorem Keeping.frame (h : Keeping base met u key p) (hframe : p.Frame q)
    (hstep : Step (fun _ _ => True) p q) (hdrafts : q.drafts = p.drafts)
    (hphase : q.phase = p.phase)
    (hiota : q.iota = p.iota) (hparked : q.parked = p.parked) : Keeping base met u key q :=
  h.elsewhere (hframe.course_tables h.accounted.filed (.single hstep) hdrafts hphase
    (fun hnone => hiota.trans hnone) hparked)

theorem importStable_keeping : ImportStable (fun _ _ => True) (Keeping base met u key) where
  packageUnit p dir name h := h.elsewhere (course_packageUnit h.accounted.filed dir name true)
  learn p v file h := by
    have hrest : ∀ x, (file.decls.foldl addSymbols x).root = x.root ∧
        (file.decls.foldl addSymbols x).importsAt = x.importsAt := by
      intro x
      obtain ⟨symbols, funcs, hrest⟩ := rest_learn file x
      rw [hrest]
      exact ⟨rfl, rfl⟩
    exact h.frame ⟨sameRoots_modifyUnit p v (fun x => (hrest x).1) fun x => (hrest x).2,
      sameClasses_of_eq rfl rfl⟩ (.learn p v file) rfl rfl rfl rfl
  library p path loaded hloaded h := h.frame ⟨sameRoots_of_eq rfl, sameClasses_of_eq rfl rfl⟩
    (.library p path loaded hloaded) rfl rfl rfl rfl
  importName p v name target htarget h := h.frame ⟨sameRoots_modifyUnit p v (fun _ => rfl)
    fun _ => rfl, sameClasses_of_eq rfl rfl⟩ (.importName p v name target htarget) rfl rfl rfl rfl

theorem keeps_imports (libraries : Libraries) (file : File) :
    Keeps (Keeping base met u key) (file.imports.forM (addImport libraries u)) :=
  stable_imports importStable_keeping (fun _ h => h.accounted.filed.indexed) (fun _ h => h.key)
    fun _ _ => trivial

/-- The methods of a call's file, each with its package. -/
def Call.methods (c : Call) : List (String × FuncDecl) :=
  match c.read with
  | .error _ => []
  | .ok file =>
    (file.decls.filterMap Decl.method?).map fun d => (unitKey c.dir (title file.package), d)

/-- A file that is read: the imports may add units, but the unit of the file keeps its number and
key. -/
theorem keeping_read (c : Call) (file : File) (h : Accounted met p)
    (hphase : p.phase = .discovery) :
    let r := p.packageUnit c.dir (title file.package) false
    Keeping p met r.1 (unitKey c.dir (title file.package))
      ((file.imports.forM (addImport c.libraries r.1)).run.run r.2).2 := by
  intro r
  have hcourse : Course p.drafts.next p r.2 := course_packageUnit h.filed _ _ false
  obtain ⟨hlt, hkey⟩ := key_packageUnit c.dir (title file.package) false h.filed.indexed
  have himports := keeps_imports c.libraries file r.2
    ⟨h.elsewhere hcourse, hcourse.abides, hcourse.phase.trans hphase, hlt, hkey⟩
  rcases hrun : (file.imports.forM (addImport c.libraries r.1)).run.run r.2 with ⟨e | v, s⟩
  · rw [show (p.packageUnit c.dir (title file.package) false).1 = r.1 from rfl, hrun] at himports
    exact himports
  · rw [show (p.packageUnit c.dir (title file.package) false).1 = r.1 from rfl, hrun] at himports
    exact himports

/-- One more file: its methods were met, in the unit of its package. -/
theorem accounted_call (c : Call) (h : Accounted met p) (hphase : p.phase = .discovery) :
    Accounted (met ++ c.meetings p) (c.session.run.run p).2 ∧
      (c.session.run.run p).2.phase = .discovery ∧ p.Abides (c.session.run.run p).2 ∧
      (c.meetings p).map (fun m =>
          (((c.session.run.run p).2.unit m.cursor.place.unit).key, m.decl)) =
        match (c.session.run.run p).1 with
        | .ok _ => c.methods
        | .error _ => [] := by
  rw [run_call, hphase]
  unfold Call.meetings Call.methods
  cases hread : c.read with
  | error cause =>
    rw [List.append_nil]
    exact ⟨h, hphase, .refl h.filed.tidy.whole, rfl⟩
  | ok file =>
    have himports := keeping_read c file h hphase
    dsimp only at himports ⊢
    generalize p.packageUnit c.dir (title file.package) false = r at himports ⊢
    obtain ⟨u, r⟩ := r
    unfold fillPackage
    rcases hrun : (file.imports.forM (addImport c.libraries u)).run.run r with ⟨e | v, s⟩
    · rw [hrun] at himports
      rw [run_bind_error hrun]
      rw [List.append_nil]
      exact ⟨himports.accounted, himports.phase, himports.abides, rfl⟩
    · rw [hrun] at himports
      rw [run_bind_ok hrun]
      obtain ⟨habides, hphase', hall⟩ := accounted_decls file.decls true himports.accounted
        himports.known rfl himports.phase
      refine ⟨hall, hphase', himports.abides.trans habides, ?_⟩
      have hkey : ((file.decls.forM decl (s.inside u) ⟨s, true⟩).2.program.unit
          (s.inside u).unit).key = unitKey c.dir (title file.package) :=
        (habides.leads.namesake himports.known).2.key.trans himports.key
      rw [← hkey]
      exact map_meetings (fun place => ((file.decls.forM decl (s.inside u)
        ⟨s, true⟩).2.program.unit place.unit).key) (s.inside u) file.decls ⟨s, true⟩

/-- The calls whose files are not refused. -/
def accepted (p : Program) : List Call → List Call
  | [] => []
  | c :: calls =>
    (match (c.session.run.run p).1 with
      | .ok _ => [c]
      | .error _ => []) ++ accepted (c.session.run.run p).2 calls

/-- Files one after the other: whichever are not refused, their methods were met. -/
theorem accounted_calls (calls : List Call) (h : Accounted met p) (hphase : p.phase = .discovery) :
    let q := calls.foldl (fun p c => (c.session.run.run p).2) p
    Accounted (met ++ meetingsFrom p calls) q ∧ q.phase = .discovery ∧ p.Abides q ∧
      (meetingsFrom p calls).map (fun m => ((q.unit m.cursor.place.unit).key, m.decl)) =
        (accepted p calls).flatMap Call.methods := by
  induction calls generalizing met p with
  | nil =>
    rw [meetingsFrom, List.append_nil]
    exact ⟨h, hphase, .refl h.filed.tidy.whole, rfl⟩
  | cons c calls ih =>
    obtain ⟨hfirst, hphase', habides, hmethods⟩ := accounted_call c h hphase
    obtain ⟨hrest, hlast, habides', hall⟩ := ih hfirst hphase'
    rw [List.append_assoc] at hrest
    refine ⟨hrest, hlast, habides.trans habides', ?_⟩
    -- The units of the methods of the first file have kept their keys.
    have hkeys : (c.meetings p).map (fun m => (((calls.foldl (fun p c => (c.session.run.run p).2)
        (c.session.run.run p).2).unit m.cursor.place.unit).key, m.decl)) =
        (c.meetings p).map fun m =>
          (((c.session.run.run p).2.unit m.cursor.place.unit).key, m.decl) := by
      refine List.map_congr_left fun m hm => ?_
      rw [(habides'.leads.namesake (hfirst.fits m (List.mem_append_right _ hm)).known).2.key]
    rw [meetingsFrom, accepted, List.map_append, List.flatMap_append, List.foldl_cons, hall, hkeys,
      hmethods]
    cases (c.session.run.run p).1 with
    | ok v => simp
    | error e => rfl

/-! ## Finalization -/

/-- Since the program was `base` no method waits, and each class has those that `decls` says. -/
structure Settled (base : Program) (decls : Nat → List FuncDecl) (p : Program) : Prop
    extends p.Resting where
  abides : base.Abides p
  parked : p.parked = []
  blank : ∀ c, p.classes.size ≤ c → decls c = []
  written : ∀ c < p.classes.size, Section c p (decls c)

section

variable {decls : Nat → List FuncDecl}

theorem Settled.course (h : Settled base decls p) (hcourse : Course draft p q)
    (hne : ∀ c < p.classes.size, p.methodsAt c ≠ draft) : Settled base decls q where
  toResting := h.toResting.course hcourse
  abides := h.abides.trans hcourse.abides
  parked := by
    rw [hcourse.parked, h.parked]
    rfl
  blank := fun c hc => h.blank c (Nat.le_trans hcourse.leads.keeps.size hc)
  written := by
    intro c hc
    by_cases hold : c < p.classes.size
    · refine (h.written c hold).stays hcourse.leads ?_
      rw [hcourse.leads.methodsAt hold, hcourse.methods h.filed hold (hne c hold)]
    · have hnew := hcourse.written c (Nat.le_of_not_lt hold) hc
      rw [h.parked] at hnew
      rw [h.blank c (Nat.le_of_not_lt hold)]
      exact hnew

theorem Settled.rebase (h : Settled base decls p) : Settled p decls p :=
  { h with abides := .refl h.filed.tidy.whole }

section

variable {x : Emit Unit} {cursor : Cursor} (h : Settled base decls p)
  (hplace : p.Seats cursor.place) (hx : Courses 0 x)
include h hplace hx

theorem Settled.course_emit : Course cursor.place.draft p (p.emit cursor x).2 := by
  refine hx cursor.place p cursor.owed h.filed hplace ?_
  rw [h.parked]
  exact Nat.le_refl _

/-- What is written to a busy draft is no method of a class. -/
theorem Settled.emit (hbusy : p.Busy cursor.place.draft) :
    Settled base decls (p.emit cursor x).2 := by
  refine h.course (h.course_emit hplace hx) fun c hc heq => ?_
  rw [← heq] at hbusy
  exact h.filed.apart c hc hbusy

end

theorem courses_staticMethod (n : Nat) (d : FuncDecl) : Courses n (staticMethod d) :=
  fun place p owed hp hplace _ => courses_function p.parked.length d d.receiver place p owed hp
    hplace (Nat.le_refl _)

/-- The methods of each class while those that wait are written. -/
def decided (met : List Meeting) (p : Program) (c : Nat) : List FuncDecl :=
  (met.filter fun m => m.home p == some c).map (·.decl)

/-- A class that is not known yet is no method's class, so new classes start without methods. -/
theorem settled_unparked (h : Accounted met p) :
    Settled p (decided met p) { p with parked := [] } := by
  have hleads : p.Leads { p with parked := [] } := .single (.unpark p)
  obtain ⟨habides, hresting⟩ := h.toResting.frame (q := { p with parked := [] })
    ⟨sameRoots_of_eq rfl, sameClasses_of_eq rfl rfl⟩ hleads rfl rfl nofun
  refine ⟨hresting, habides, rfl, fun c hc => ?_, fun c hc => (h.written c hc).stays hleads rfl⟩
  refine List.map_eq_nil_iff.2 (List.filter_eq_nil_iff.2 fun m hm hhome => ?_)
  have hlt := (Meeting.name_of_home (h.fits m hm).early (beq_iff_eq.1 hhome)).1
  exact Nat.not_lt_of_le hc hlt

/-- A method that waits was met in the unit of its package, and no class has its methods in the text
of a unit. -/
theorem seats_parked {m : ParkedMethod} (h : Accounted met p) (hm : m ∈ p.parked)
    (hleads : p.Leads q)
    (hq : q.Filed) : q.Seats m.cursor.place ∧ q.Busy m.cursor.place.draft := by
  rw [h.parked, List.mem_map] at hm
  obtain ⟨x, hx, rfl⟩ := hm
  have hfits := (h.fits x (List.mem_filter.1 hx).1).stays hleads
  refine ⟨hq.seats_inside hfits.known hfits.place, ?_⟩
  rw [hfits.place]
  exact .root hfits.known

/-- Methods that wait are written as functions of their packages. -/
theorem settled_static {ms : List ParkedMethod} (h : Accounted met p) (hms : ∀ m ∈ ms, m ∈ p.parked)
    (hbase : p.Leads base) (hq : Settled base decls q) :
    Settled base decls (ms.foldl (fun q m => (q.emit m.cursor (staticMethod m.decl)).2) q) := by
  refine List.foldlRecOn ms _ hq fun q hq m hm => ?_
  obtain ⟨hplace, hbusy⟩ := seats_parked h (hms m hm) (hbase.trans hq.abides.leads) hq.filed
  exact hq.emit hplace (courses_staticMethod 0 m.decl) hbusy

theorem settled_releaseAll (h : Accounted met p) : Settled p (decided met p) p.releaseAll :=
  settled_static h (fun _ hm => hm) .refl (settled_unparked h)

/-- All methods are written before what was put off. -/
theorem Settled.released (h : Settled base decls p.releaseAll) : Settled base decls p.released := by
  have hleads : p.releaseAll.Leads p.released := .single (.phase _ _)
  obtain ⟨habides, hresting⟩ := h.toResting.frame (q := p.released)
    ⟨sameRoots_of_eq rfl, sameClasses_of_eq rfl rfl⟩ hleads rfl rfl h.filed.waiting
  exact ⟨hresting, h.abides.trans habides, h.parked, h.blank,
    fun c hc => (h.written c hc).stays hleads rfl⟩

theorem courses_run (task : Task) : Courses 0 (Conversion.run fill.release task) :=
  courses_of_entire (parallel_run trivial (steady_entire _)
    (Task.obeys_of_lax Go.Rules.lax_free task) (Task.spelled_of_all (fun _ => False.elim) task)
    fun _ => trivial)

theorem task_of_resolve {τ : Type} {d : Drafts τ} {id : Nat} {task : Option τ}
    (h : (d.resolve id).1 = some task) : (d.hole id).task = task := by
  unfold Drafts.resolve at h
  dsimp only at h
  split at h
  · cases h
  · exact Option.some.inj h

end

end Program

namespace Ledger

open Program

variable {base q : Program} {decls : Nat → List FuncDecl} {s : Ledger} {draft : Nat}

/-- The program is settled, and so was the program of each task that was run. -/
structure Settles (base : Program) (decls : Nat → List FuncDecl) (s : Ledger) : Prop where
  settled : Settled base decls s.program
  runs : ∀ run ∈ s.runs, run.program.Filed ∧ run.program.parked = [] ∧
    run.program.Seats run.pending.cursor.place ∧ run.outcome.Abides s.program

theorem Settles.course (h : s.Settles base decls) (hcourse : Course draft s.program q)
    (hne : ∀ c < s.program.classes.size, s.program.methodsAt c ≠ draft) :
    Settles base decls ⟨q, s.runs⟩ where
  settled := h.settled.course hcourse hne
  runs run hrun := by
    obtain ⟨hfiled, hparked, hplace, habides⟩ := h.runs run hrun
    exact ⟨hfiled, hparked, hplace, habides.trans hcourse.abides⟩

theorem settles_resolve (h : s.Settles base decls) (id : Nat) :
    (s.resolve id).Settles base decls := by
  have hfiled := h.settled.filed
  have hresolve : Course s.program.drafts.next s.program
      { s.program with drafts := (s.program.drafts.resolve id).2 } :=
    course_resolve hfiled (hfiled.tidy.not_setAside_new (Nat.le_refl _)) id
  have hresolved := h.course hresolve fun _ hc => Nat.ne_of_lt (hfiled.known hc)
  unfold resolve
  dsimp only
  split
  · rename_i pending hpending
    -- The place of the task was busy until its hole was resolved.
    have htask := task_of_resolve hpending
    have hplace := hresolve.seats (hfiled.tidy.tasks _ _ htask)
    have hcourse := hresolved.settled.course_emit hplace (courses_run pending.task)
    have hran := hresolved.course hcourse fun c hc heq => by
      have hbusy : s.program.Busy pending.cursor.place.draft := .task htask
      rw [← heq] at hbusy
      exact hfiled.apart c hc hbusy
    refine ⟨hran.settled, fun run hrun => ?_⟩
    rcases List.mem_append.1 hrun with hold | hnew
    · exact hran.runs run hold
    · rw [List.mem_singleton.1 hnew]
      exact ⟨hresolved.settled.filed, hresolved.settled.parked, hplace,
        .refl hcourse.filed.tidy.whole⟩
  · exact hresolved

theorem settles_fill (depth : Nat) (s : Ledger) (id : Nat) (h : s.Settles base decls) :
    (s.fill depth id).Settles base decls := by
  induction depth generalizing s id with
  | zero => exact h
  | succ depth ih =>
    have hfold : ∀ (ids : List Nat) (s : Ledger), s.Settles base decls →
        (ids.foldl (fill depth) s).Settles base decls :=
      fun ids s hs => List.foldlRecOn ids _ hs fun r hr x _ => ih r x hr
    cases hopen : (s.program.drafts.hole id).resolved with
    | true =>
      rw [fill_of_resolved hopen]
      exact h
    | false =>
      rw [fill_of_open hopen]
      exact hfold _ _ (settles_resolve (hfold _ _ h) id)

theorem settles_fillUnit (s : Ledger) (id : Nat) (h : s.Settles base decls) :
    (s.fillUnit id).Settles base decls := by
  unfold fillUnit
  dsimp only
  split
  · exact h
  · rw [← Array.foldl_toList]
    exact List.foldlRecOn _ _ h fun s hs x _ => settles_fill _ s x hs

end Ledger

namespace Program

open Session

variable {p q base : Program} {met : List Meeting} {draft u : Nat}

/-- The program when all that was put off is written, with the tasks that were run for it. -/
def allRuns (p : Program) : Ledger :=
  (List.range p.released.units.size).foldl Ledger.fillUnit ⟨p.released, []⟩

theorem runs_finalized (h : p.phase = .discovery) : p.finalized.runs = p.allRuns.runs := by
  unfold finalized
  rw [h]
  rfl

theorem program_allRuns (p : Program) : p.allRuns.program = p.filled :=
  Ledger.program_foldl Ledger.program_fillUnit _ _

/-- All that was put off is written, except for imports. -/
theorem Settled.allRuns {decls : Nat → List FuncDecl} (h : Settled base decls p.releaseAll) :
    p.allRuns.Settles base decls := by
  have hstart : Ledger.Settles base decls ⟨p.released, []⟩ :=
    ⟨h.released, fun _ hrun => absurd hrun List.not_mem_nil⟩
  exact List.foldlRecOn (List.range p.released.units.size) Ledger.fillUnit hstart
    fun s hs u _ => Ledger.settles_fillUnit s u hs

theorem Settled.filled {decls : Nat → List FuncDecl} (h : Settled base decls p.releaseAll) :
    Settled base decls p.filled := by
  rw [← program_allRuns]
  exact h.allRuns.settled

theorem settled_filled (h : Accounted met p) : Settled p (decided met p) p.filled :=
  (settled_releaseAll h).filled

theorem written_settle {c : Nat} (h : Accounted met p) (hc : c < p.settle.classes.size) :
    Section c p.settle (decided met p c) := by
  have hfilled := settled_filled h
  obtain ⟨drafts, hsettle, hblocks⟩ := blocks_imported hfilled.filed.tidy p.filled.units.size
  have hleads : p.filled.Leads (p.imported p.filled.units.size) :=
    steps_foldl steps_writeImports _ _
  rw [settle_eq_imported]
  rw [settle_eq_imported] at hc
  rw [hsettle] at hc hleads ⊢
  have hstill : drafts.draft (p.filled.methodsAt c) =
      p.filled.drafts.draft (p.filled.methodsAt c) :=
    hblocks.still _ fun u hu himports =>
      (hfilled.filed.tidy.methods c hc).free ⟨.imports u, hu, himports⟩
  exact (hfilled.written c hc).stays hleads hstill

/-! ## Once -/

theorem accounted_discovered (calls : List Call) :
    Accounted (meetingsFrom {} calls) (discovered calls) ∧ (discovered calls).phase = .discovery ∧
      (meetingsFrom {} calls).map
          (fun m => (((discovered calls).unit m.cursor.place.unit).key, m.decl)) =
        (accepted {} calls).flatMap Call.methods := by
  obtain ⟨hall, hphase, -, hmethods⟩ := accounted_calls calls accounted_empty rfl
  exact ⟨hall, hphase, hmethods⟩

theorem finalize_discovered (calls : List Call) :
    (finalize.run.run (discovered calls)).2 = (discovered calls).settle := by
  rw [run_finalize, (accounted_discovered calls).2.1]

/-- A package whose methods come before their types. One type is declared in the first method, and
one is not declared at all. -/
def fair : List Call :=
  let stall : Go.GenDecl := .mk .type false [.type "Stall" (.structType []) false]
  let bench : Go.GenDecl := .mk .type false [.type "Bench" (.structType []) false]
  let method (type : Go.Expr) (name : String) (body : List Go.Stmt) : Decl := .func {
    receiver := some (.mk ["x"] type)
    name
    sig := .mk [] []
    body := some body }
  [.tree (fun _ => []) "fair/fair.go" ⟨"fair", [], [
    method (.star (.ident "Stall")) "Open" [.decl bench],
    method (.ident "Bench") "Sit" [],
    method (.ident "Ghost") "Haunt" [],
    .gen stall]⟩]

end Program

/-! ## Namesakes -/

/-- The class is the last one with the method's name that was known when the method was met, or the
first one that became known later if there was none. -/
def Meeting.Nearest (m : Meeting) (p : Program) (c : Nat) : Prop :=
  c < p.classes.size ∧ (p.classAt c).name = m.cls ∧
    if c < m.classes then ∀ b < m.classes, c < b → (p.classAt b).name ≠ m.cls
    else ∀ b < c, (p.classAt b).name ≠ m.cls

instance (m : Meeting) (p : Program) (c : Nat) : Decidable (m.Nearest p c) :=
  inferInstanceAs (Decidable (_ ∧ _ ∧ ite _ _ _))

namespace Program

theorem home_eq_some_iff {m : Meeting} {c : Nat} (hm : m.classes ≤ p.classes.size) :
    m.home p = some c ↔ m.Nearest p c := by
  unfold Meeting.Nearest
  cases hlast : p.lastClass? m.cls m.classes with
  | some b =>
    rw [Meeting.home_of_last hlast]
    obtain ⟨hb, hname, -⟩ := lastClass?_eq_some_iff.1 hlast
    refine ⟨?_, ?_⟩
    · rintro ⟨⟩
      obtain ⟨-, -, hbetween⟩ := lastClass?_eq_some_iff.1 hlast
      rw [if_pos hb]
      exact ⟨Nat.lt_of_lt_of_le hb hm, hname, hbetween⟩
    · rintro ⟨hc, hcname, hnear⟩
      split at hnear
      · rename_i hlt
        rw [← hlast]
        exact lastClass?_eq_some_iff.2 ⟨hlt, hcname, hnear⟩
      · rename_i hge
        exact absurd hname (hnear b (Nat.lt_of_lt_of_le hb (Nat.le_of_not_lt hge)))
  | none =>
    rw [Meeting.home_of_first hlast, firstClass?_eq_some_iff]
    refine and_congr_right fun hc => and_congr_right fun hname => ?_
    have hge : ¬c < m.classes := fun hlt => lastClass?_eq_none_iff.1 hlast c hlt hname
    rw [if_neg hge]

/-- Whatever files are discovered before a program is made final, a class has the methods to which
it is the nearest one of their name, whether or not their packages are its own. A method has one
nearest class if there is any of its name. That is one of its own package if no other package has
classes of the name. -/
theorem methods_go_to_the_nearest_namesake (calls : List Call) :
    let p := discovered calls
    let f := (finalize.run.run p).2
    let met := meetingsFrom {} calls
    (∀ c < f.classes.size, Section c f ((met.filter fun m => m.Nearest p c).map (·.decl))) ∧
      ∀ m ∈ met, ((∃ b < p.classes.size, (p.classAt b).name = m.cls) → ∃! c, m.Nearest p c) ∧
        ((∀ b < p.classes.size, (p.classAt b).name = m.cls →
            (f.unit (p.classAt b).unit).dir = (f.unit m.cursor.place.unit).dir) →
          ∀ c, m.Nearest p c →
            (f.unit (p.classAt c).unit).dir = (f.unit m.cursor.place.unit).dir) := by
  intro p f met
  obtain ⟨hall, -, -⟩ := accounted_discovered calls
  refine ⟨fun c hc => ?_, fun m hm => ⟨fun hsome => ?_, fun hown c hc => ?_⟩⟩
  · have hwritten := written_settle hall (c := c)
    rw [← finalize_discovered calls] at hwritten
    have hnearest : ∀ m ∈ met, decide (m.Nearest p c) = (m.home p == some c) := by
      intro m hm
      rw [Bool.eq_iff_iff, decide_eq_true_iff, beq_iff_eq]
      exact (home_eq_some_iff (hall.fits m hm).early).symm
    rw [List.filter_congr hnearest]
    exact hwritten hc
  · have hearly := (hall.fits m hm).early
    cases hhome : m.home p with
    | none =>
      obtain ⟨b, hb, hname⟩ := hsome
      have hnone := (Meeting.home_eq_none hearly).1 hhome
      exact absurd hname (firstClass?_eq_none_iff.1 hnone b hb)
    | some c =>
      refine ⟨c, (home_eq_some_iff hearly).1 hhome, fun b hb => ?_⟩
      exact Option.some.inj (((home_eq_some_iff hearly).2 hb).symm.trans hhome)
  · exact hown c hc.1 hc.2.1

/-- Two packages, each with a type of the same name. The second one has a method of its own type,
which comes before it. -/
def strangers : List Call :=
  let stall : Decl := .gen (.mk .type false [.type "Stall" (.structType []) false])
  let method : Decl := .func {
    receiver := some (.mk ["s"] (.ident "Stall"))
    name := "Open"
    sig := .mk [] []
    body := some [] }
  [.tree (fun _ => []) "north/shop.go" ⟨"north", [], [stall]⟩,
    .tree (fun _ => []) "south/shop.go" ⟨"south", [], [method, stall]⟩]

/-- The method goes to the other package's class, and its own class has none. -/
theorem strangers_get_the_method :
    let p := discovered strangers
    let f := (finalize.run.run p).2
    let met := meetingsFrom {} strangers
    let of (c : Nat) := (met.filter fun m => m.Nearest p c).map (·.decl)
    f.classes.toList.map (fun cls => (cls.name, (f.unit cls.unit).dir)) =
        [("Stall", "north"), ("Stall", "south")] ∧
      met.map (fun m => (m.cls, (f.unit m.cursor.place.unit).dir)) = [("Stall", "south")] ∧
      (of 0).map (·.name) = ["Open"] ∧ (of 1).map (·.name) = [] ∧
      Section 0 f (of 0) ∧ Section 1 f (of 1) := by
  have hsize : 1 < ((finalize.run.run (discovered strangers)).2).classes.size := by decide +kernel
  obtain ⟨hwritten, -⟩ := methods_go_to_the_nearest_namesake strangers
  refine ⟨?_, ?_, ?_, ?_, hwritten 0 (Nat.lt_trans Nat.zero_lt_one hsize), hwritten 1 hsize⟩
  · decide +kernel
  · decide +kernel
  · decide +kernel
  · decide +kernel

end Program

end GoToJava
