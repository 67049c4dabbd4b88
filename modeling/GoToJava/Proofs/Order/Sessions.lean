import GoToJava.Proofs.Order.Agreement
import GoToJava.Proofs.Program.Calls

/-!
Sessions on programs that agree on names. Discovering a file that keeps the rules, and joining the
texts once all names are known, do the same in both programs and have the same answers.
-/

namespace GoToJava

open Go (Expr File ImportSpec title)
open Emit Conversion

namespace Program

theorem packageUnit_withNames (p : Program) (dir name : String) (library : Bool)
    (names : Table Expr) : (p.withNames names).packageUnit dir name library =
      ((p.packageUnit dir name library).1, (p.packageUnit dir name library).2.withNames names) := by
  have hstart : ∀ text : String,
      ((p.withNames names).newUnit dir name library none).startUnit p.units.size (println text) =
      ((p.newUnit dir name library none).startUnit p.units.size (println text)).withNames names :=
    fun text =>
    startUnit_aside (aside_withNames names) (p.newUnit dir name library none) p.units.size
      (jots_println text)
  unfold packageUnit
  simp only [units_withNames, unitIndex_withNames]
  cases p.unitIndex.get? (unitKey dir name) with
  | some id => rfl
  | none =>
    cases library with
    | true => rfl
    | false =>
      simp only [Bool.false_eq_true, if_false]
      rw [hstart]

theorem sameNames_packageUnit (p : Program) (dir name : String) (library : Bool) :
    p.SameNames (p.packageUnit dir name library).2 := by
  unfold packageUnit
  split
  · exact .refl p
  · have hnew := p.sameNames_newUnit dir name library none
    dsimp only
    split
    · exact hnew
    · exact hnew.trans (sameNames_startUnit _ _ (jots_println _))

end Program

namespace Naming

variable {N : Naming} {α β γ : Type} {xs : List α} {g : Program → Program} {f : α → Session β}

/-! ## Changes -/

/-- The change is the same in programs that agree, but for the names. -/
def Keeps (N : Naming) (g : Program → Program) : Prop :=
  ∀ p names, N.Agrees p names → ∃ names',
    g (p.withNames names) = (g p).withNames names' ∧ N.Agrees (g p) names'

theorem keeps_id : N.Keeps fun p => p := fun _ names hp => ⟨names, rfl, hp⟩

theorem keeps_comp {h : Program → Program} (hg : N.Keeps g) (hh : N.Keeps h) :
    N.Keeps fun p => h (g p) := by
  intro p names hp
  obtain ⟨names', hrun, hp'⟩ := hg p names hp
  dsimp only
  rw [hrun]
  exact hh (g p) names' hp'

theorem keeps_foldl {f : Program → α → Program} (hf : ∀ x, N.Keeps (f · x)) (xs : List α) :
    N.Keeps (xs.foldl f ·) := by
  induction xs with
  | nil => exact keeps_id
  | cons x xs ih => exact keeps_comp (hf x) ih

theorem keeps_on {s : Program → γ} {f : γ → Program → Program}
    (hs : ∀ p names, s (p.withNames names) = s p) (hf : ∀ v, N.Keeps (f v)) :
    N.Keeps fun p => f (s p) p := by
  intro p names hp
  dsimp only
  rw [hs]
  exact hf (s p) p names hp

theorem keeps_of_same (hsame : ∀ p : Program, p.SameNames (g p))
    (hg : ∀ p names, g (p.withNames names) = (g p).withNames names) : N.Keeps g :=
  fun p names hp => ⟨names, hg p names, agrees_of_same hp (hsame p)⟩

theorem keeps_emit {x : Emit α} {c : Cursor} {R : α → α → Prop} (hx : N.Mimics R x x)
    (hc : N.eager ∨ c.place.scratch = false) : N.Keeps fun p => (p.emit c x).2 := by
  intro p names hp
  obtain ⟨names', -, hdesk, hp'⟩ := hx c.place p names c.owed hc hp
  exact ⟨names', congrArg (·.program) hdesk, hp'⟩

/-! ## Sessions -/

/-- The session does the same in programs that agree, but for the names, and has the same answer. -/
def Follows (N : Naming) (x : Session α) : Prop :=
  ∀ p names, N.Agrees p names → ∃ names',
    x.run.run (p.withNames names) =
      ((x.run.run p).1, (x.run.run p).2.withNames names') ∧
    N.Agrees (x.run.run p).2 names'

theorem follows_pure (v : α) : N.Follows (pure v) := fun _ names hp => ⟨names, rfl, hp⟩

theorem follows_throw (e : ProgramError) : N.Follows (throw e : Session α) :=
  fun _ names hp => ⟨names, rfl, hp⟩

theorem follows_bind {x : Session α} (hx : N.Follows x) (hf : ∀ v, N.Follows (f v)) :
    N.Follows (x >>= f) := by
  intro p names hp
  obtain ⟨names', hrun, hp'⟩ := hx p names hp
  have hrest : ∀ r : Except ProgramError α × Program, N.Agrees r.2 names' → ∃ names'',
      ExceptT.bindCont f r.1 (r.2.withNames names') =
        ((ExceptT.bindCont f r.1 r.2).1, (ExceptT.bindCont f r.1 r.2).2.withNames names'') ∧
      N.Agrees (ExceptT.bindCont f r.1 r.2).2 names'' := by
    rintro ⟨e | v, q⟩ hq
    · exact ⟨names', rfl, hq⟩
    · exact hf v q names' hq
  obtain ⟨names'', hrun', hp''⟩ := hrest _ hp'
  refine ⟨names'', ?_, hp''⟩
  show ExceptT.bindCont f (x.run.run (p.withNames names)).1
    (x.run.run (p.withNames names)).2 = _
  rw [hrun]
  exact hrun'

theorem follows_get {f : Program → Session α}
    (hf : ∀ p names, f (p.withNames names) = f p) (h : ∀ p, N.Follows (f p)) :
    N.Follows (get >>= f) := by
  intro p names hp
  obtain ⟨names', hrun, hp'⟩ := h p p names hp
  refine ⟨names', ?_, hp'⟩
  show (f (p.withNames names)).run.run (p.withNames names) = _
  rw [hf]
  exact hrun

theorem follows_modify (hg : N.Keeps g) : N.Follows (modify g : Session PUnit) := by
  intro p names hp
  obtain ⟨names', hrun, hp'⟩ := hg p names hp
  exact ⟨names', congrArg (Except.ok (), ·) hrun, hp'⟩

theorem follows_unit {dir name : String} {library : Bool} {f : Nat → Program → Program}
    {r : Nat → Session α} (hf : ∀ id, N.Keeps (f id)) (hr : ∀ id, N.Follows (r id)) :
    N.Follows (do
      let p ← get
      set (f (p.packageUnit dir name library).1 (p.packageUnit dir name library).2)
      r (p.packageUnit dir name library).1) := by
  intro p names hp
  have hunit := agrees_of_same hp (p.sameNames_packageUnit dir name library)
  obtain ⟨names', hrun, hp'⟩ := hf (p.packageUnit dir name library).1 _ names hunit
  obtain ⟨names'', hrun', hp''⟩ := hr (p.packageUnit dir name library).1 _ names' hp'
  refine ⟨names'', ?_, hp''⟩
  show (r ((p.withNames names).packageUnit dir name library).1).run.run
    (f ((p.withNames names).packageUnit dir name library).1
      ((p.withNames names).packageUnit dir name library).2) = _
  rw [p.packageUnit_withNames dir name library names, hrun]
  exact hrun'

theorem follows_forM {f : α → Session PUnit} (h : ∀ x, N.Follows (f x)) :
    N.Follows (xs.forM f) := by
  induction xs with
  | nil => exact follows_pure _
  | cons x xs ih => exact follows_bind (h x) fun _ => ih

theorem follows_forIn {f : α → β → Session (ForInStep β)} (h : ∀ x s, N.Follows (f x s)) (s : β) :
    N.Follows (forIn xs s f) := by
  induction xs generalizing s with
  | nil => exact follows_pure _
  | cons x xs ih =>
    rw [List.forIn_cons]
    refine follows_bind (h x s) fun step => ?_
    cases step with
    | done s => exact follows_pure _
    | yield s => exact ih s

theorem follows_mapM (h : ∀ x, N.Follows (f x)) : N.Follows (xs.mapM f) := by
  induction xs with
  | nil => exact follows_pure _
  | cons x xs ih =>
    rw [List.mapM_cons]
    exact follows_bind (h x) fun _ => follows_bind ih fun _ => follows_pure _

/-! ## Discovery -/

section

open Program

variable {libraries : Libraries}

theorem follows_readFile (path source : String) : N.Follows (readFile path source) := by
  unfold readFile
  split
  · exact follows_pure _
  · exact follows_throw _

theorem keeps_modifyUnit (id : Nat) (f : CompilationUnit → CompilationUnit) :
    N.Keeps (·.modifyUnit id f) :=
  keeps_of_same (fun _ => ⟨rfl, rfl, rfl, rfl, fun _ => rfl, fun _ => rfl⟩) fun _ _ => rfl

theorem follows_loadLibrary (path : String) : N.Follows (loadLibrary libraries path) := by
  refine follows_get (fun _ _ => rfl) fun p => ?_
  split
  · exact follows_pure _
  · refine follows_bind (follows_forIn (fun source loaded => ?_) none) fun loaded => ?_
    · refine follows_bind (follows_readFile _ _) fun file => ?_
      split
      · exact follows_unit
          (f := fun id p => p.modifyUnit id fun u => file.decls.foldl CompilationUnit.addSymbols u)
          (r := fun id => pure (ForInStep.yield (some id)))
          (fun id => keeps_modifyUnit id _) fun _ => follows_pure _
      · exact follows_pure _
    · refine follows_bind (follows_modify (keeps_of_same (fun q => ?_) fun _ _ => rfl))
        fun _ => follows_pure _
      exact ⟨rfl, rfl, rfl, rfl, fun _ => rfl, fun _ => rfl⟩

theorem follows_addImport (unit : Nat) (i : ImportSpec) :
    N.Follows (addImport libraries unit i) := by
  have hset : ∀ (name : String) (target : ImportName), N.Follows (modify fun p : Program =>
      p.modifyUnit unit fun u => { u with importNames := u.importNames.set name target }) :=
    fun _ _ => follows_modify (keeps_modifyUnit unit _)
  unfold addImport
  dsimp only
  split
  · exact follows_pure _
  · refine follows_get (fun _ _ => rfl) fun p => ?_
    split
    · exact hset _ _
    · refine follows_bind (follows_loadLibrary i.path) fun loaded => ?_
      split
      · exact follows_get (fun _ _ => rfl) fun q => hset _ _
      · exact hset _ _

theorem follows_fillPackage {file : File} (unit : Nat) (h : ∀ d ∈ file.decls, d.Obeys N.rules) :
    N.Follows (fillPackage libraries file unit) := by
  have hdecls : ScriptedIn N.outlook (file.decls.forM decl) := fun K a hb =>
    parallel_forM fun d hd => scripted_decl (W := N.outlook) trivial (fun _ => Or.inl trivial)
      (fun _ h => h) trivial (h d hd) (Go.Decl.spelled_of_all (fun _ => False.elim) d) K a hb
  refine follows_bind (follows_forM fun i => follows_addImport unit i) fun _ => follows_modify ?_
  exact keeps_on (s := fun p => p.unit unit) (fun _ _ => rfl) fun u =>
    keeps_emit (c := ⟨{ u.start unit with tabs := 1 }, true⟩)
      (mimics_of_parallel (hdecls .all [] trivial)) (.inr rfl)

end

/-! ## Finalization -/

section

open Program

variable (he : N.eager)
include he

/-- Once everything is known, it only matters what the names stand for. -/
theorem agrees_of_eager {p q : Program} {names : Table Expr} (hp : N.Agrees p names)
    (hq : q.typeNames = p.typeNames) : N.Agrees q names :=
  ⟨hq ▸ hp.same, hp.given, .inl he, .inl he, .inl he⟩

theorem keeps_releaseAll : N.Keeps releaseAll := by
  have hempty : N.Keeps fun p => { p with parked := [] } :=
    fun p names hp => ⟨names, rfl, agrees_of_eager he hp rfl⟩
  have hmethod : ∀ m : ParkedMethod,
      N.Keeps fun p => (p.emit m.cursor (staticMethod m.decl)).2 := fun m =>
    keeps_emit (mimics_of_parallel (scripted_staticMethod (W := N.outlook) trivial
      (fun _ => Or.inl trivial) (fun _ h => h) trivial (Go.FuncDecl.obeys_of_lax (N.lax he) m.decl)
      (Go.FuncDecl.spelled_of_all (fun _ => False.elim) m.decl) .all [])) (.inl he)
  exact keeps_on (s := (·.parked)) (fun _ _ => rfl) fun methods =>
    keeps_comp hempty (keeps_foldl hmethod methods)

/-- The task of a hole that was resolved writes its text. -/
theorem keeps_resolved (r : Option (Option Pending) × Drafts Pending) : N.Keeps fun p =>
    match r.1 with
    | some (some pending) =>
      (Program.emit { p with drafts := r.2 } pending.cursor
        (Conversion.run fill.release pending.task)).2
    | _ => { p with drafts := r.2 } := by
  have hdrafts : ∀ drafts, N.Keeps fun p => { p with drafts } :=
    fun drafts p names hp => ⟨names, rfl, agrees_of_eager he hp rfl⟩
  have hrun : ∀ pending : Pending, N.Keeps fun p =>
      (p.emit pending.cursor (Conversion.run fill.release pending.task)).2 := fun pending =>
    keeps_emit (mimics_of_parallel (parallel_run (K := .all) (a := []) he
      (steady_releaseAt 0 trivial (fun _ => Or.inl trivial) (fun _ h => h) (Or.inr rfl))
      (Task.obeys_of_lax (N.lax he) _) (Task.spelled_of_all (fun _ => False.elim) _)
      fun _ => trivial)) (.inl he)
  split
  · exact keeps_comp (hdrafts _) (hrun _)
  · exact hdrafts _

theorem keeps_answer (id : Nat) : N.Keeps (·.answer id) :=
  keeps_on (s := (·.drafts.resolve id)) (fun _ _ => rfl) (keeps_resolved he)

theorem keeps_fill (depth id : Nat) : N.Keeps (·.fill depth id) := by
  induction depth generalizing id with
  | zero => exact keeps_id
  | succ depth ih =>
    intro p names hp
    dsimp only
    cases hopen : (p.drafts.hole id).resolved with
    | true =>
      rw [fill_of_resolved hopen, fill_of_resolved (p := p.withNames names) hopen]
      exact ⟨names, rfl, hp⟩
    | false =>
      rw [fill_of_open hopen, fill_of_open (p := p.withNames names) hopen]
      obtain ⟨names₁, hrun₁, hp₁⟩ :=
        keeps_foldl ih (p.drafts.draft (p.drafts.hole id).child).holes.toList p names hp
      obtain ⟨names₂, hrun₂, hp₂⟩ := keeps_answer he id _ names₁ hp₁
      dsimp only [drafts_withNames] at hrun₁ hrun₂ ⊢
      rw [hrun₁, hrun₂]
      exact keeps_foldl ih _ _ names₂ hp₂

theorem keeps_fillUnit (id : Nat) : N.Keeps (·.fillUnit id) := by
  refine keeps_on (s := fun p => (p.unit id, p.drafts)) (f := fun r p =>
    if r.1.library then p
    else (r.2.draft r.1.root).holes.foldl (fill r.2.next) p) (fun _ _ => rfl) fun r => ?_
  split
  · exact keeps_id
  · simp only [← Array.foldl_toList]
    exact keeps_foldl (keeps_fill he _) _

/-- The imports of a unit are written where their place is. -/
theorem keeps_importsAt (id : Nat) (r : CompilationUnit × List String) : N.Keeps fun p =>
    match r.1.library, r.1.importsAt with
    | false, some draft =>
      (p.emit ⟨{ r.1.start id with draft }, true⟩ do
        r.2.forM fun name => println ("import " ++ name ++ ";")
        unless r.2.isEmpty do println "").2
    | _, _ => p := by
  split
  · exact keeps_emit (mimics_of_parallel (scripted_importLines False.elim _ .all [])) (.inl he)
  · exact keeps_id

theorem keeps_writeImports (id : Nat) : N.Keeps (·.writeImports id) :=
  keeps_on (s := fun p => (p.unit id, p.importsOf (p.unit id))) (fun _ _ => rfl)
    (keeps_importsAt he id)

theorem keeps_settle : N.Keeps settle := by
  have hphase : N.Keeps fun p => { p with phase := .finalization } :=
    fun p names hp => ⟨names, rfl, agrees_of_eager he hp rfl⟩
  have hunits : ∀ {f : Program → Nat → Program}, (∀ id, N.Keeps (f · id)) →
      N.Keeps fun p => (List.range p.units.size).foldl f p := fun hf =>
    keeps_on (s := (·.units.size)) (fun _ _ => rfl) fun n => keeps_foldl hf (List.range n)
  have hfilled := keeps_comp (keeps_comp (keeps_releaseAll he) hphase) (hunits (keeps_fillUnit he))
  have hwritten := keeps_comp hfilled (hunits (keeps_writeImports he))
  exact hwritten

theorem follows_finalize : N.Follows finalize := by
  refine follows_get (fun _ _ => rfl) fun p => ?_
  split
  · exact follows_modify (keeps_settle he)
  · exact follows_pure _
  · exact follows_throw _

theorem follows_flattenUnit (id : Nat) : N.Follows (flattenUnit id) := by
  intro p names hp
  -- The unit's last line does not see names, and neither does joining.
  obtain ⟨q, hq⟩ :
      ∃ q, (if (p.unit id).isPackage then p.write (p.unit id).root "\x7d\n" else p) = q := ⟨_, rfl⟩
  have hsecond : (if (p.unit id).isPackage then
      (p.withNames names).write (p.unit id).root "\x7d\n" else p.withNames names) =
      q.withNames names := by
    rw [← hq]
    split
    · exact (write_of_blind p (g := (·.withNames names)) _ _ (aside_withNames names).drafts).symm
    · rfl
  have hnames : q.typeNames = p.typeNames := by
    rw [← hq]
    split
    · rw [write_eq]
    · rfl
  refine ⟨names, ?_⟩
  rw [flattenUnit_eq hq, flattenUnit_eq (p := p.withNames names) hsecond]
  cases hjoin : q.drafts.join (p.unit id).root with
  | error e =>
    rw [unit_withNames, drafts_withNames, hjoin]
    exact ⟨rfl, hp⟩
  | ok joined =>
    rw [unit_withNames, drafts_withNames, hjoin]
    exact ⟨rfl, agrees_of_eager he hp hnames⟩

theorem follows_flatten : N.Follows flatten := by
  have hphase : N.Keeps fun p => { p with phase := .flattened } :=
    fun p names hp => ⟨names, rfl, agrees_of_eager he hp rfl⟩
  refine follows_bind (follows_finalize he) fun _ =>
    follows_bind (follows_modify hphase) fun _ => ?_
  exact follows_get (fun _ _ => rfl) fun p => follows_mapM fun id => follows_flattenUnit he id

end

end Naming

end GoToJava
