import GoToJava.Proofs.Program.Ledger
import GoToJava.Proofs.Script.Chronicle
import Mathlib.Logic.Relation

/-!
Steps. Whatever is discovered and whatever is made final, a program changes by steps of a few kinds.
What each step keeps holds of all programs that come about.
-/

namespace GoToJava

open Go (File ImportSpec title)
open Emit

/-- By itself, conversion imports only classes of its list. -/
def Note.Common : Note → Prop
  | .need i => i ∈ Java.Import.all
  | _ => True

namespace Program

variable {g : Program → Program}

/-- Adds a unit for an exported type to the package of the unit `u`. -/
def newTypeUnit (p : Program) (u : Nat) (name : String) : Program :=
  let package := (p.unit u).packageUnit
  { p.newUnit (p.unit package).dir name false (some package) with
    typeUnits := p.typeUnits.set name p.units.size }

/-- How a program changes. `own key qualified` says that the files of the unit `key` may import the
class of a package of the program. -/
inductive Step (own : String → String → Prop) : Program → Program → Prop
  | write (p : Program) (draft : Nat) (text : String) : Step own p (p.write draft text)
  | newDraft (p : Program) : Step own p { p with drafts := p.drafts.new }
  | reserve (p : Program) (parent : Nat) (task : Option Pending) :
      Step own p { p with drafts := p.drafts.reserve parent task }
  | resolve (p : Program) (hole : Nat) : Step own p { p with drafts := (p.drafts.resolve hole).2 }
  | note (p : Program) (cursor : Cursor) {n : Note} (h : n.Common) : Step own p (n.make cursor p)
  | register (p : Program) (cls : JavaClass) : Step own p { p with
      classes := p.classes.push cls
      classIndex := p.classIndex.set cls.name p.classes.size
      parked := p.parked.filter (·.cls != cls.name) }
  | newPackage (p : Program) (dir name : String) (library : Bool)
      (h : p.unitIndex.get? (unitKey dir name) = none) :
      Step own p (p.newUnit dir name library none)
  | newType (p : Program) (u : Nat) (name : String)
      (h : p.unitIndex.get? (unitKey (p.unit (p.unit u).packageUnit).dir name) = none) :
      Step own p (p.newTypeUnit u name)
  | started (p : Program) (u draft : Nat) :
      Step own p (p.modifyUnit u fun x => { x with importsAt := some draft })
  | importName (p : Program) (u : Nat) (name : String) (target : ImportName)
      (h : ∀ qualified, target.qualified = some qualified → own (p.unit u).key qualified) :
      Step own p (p.modifyUnit u fun x =>
        { x with importNames := x.importNames.set name target })
  | learn (p : Program) (u : Nat) (file : File) :
      Step own p (p.modifyUnit u fun x => file.decls.foldl CompilationUnit.addSymbols x)
  | library (p : Program) (path : String) (loaded : Option Nat)
      (h : ∀ u ∈ loaded, u < p.units.size) :
      Step own p { p with libraries := p.libraries.set path loaded }
  | unpark (p : Program) : Step own p { p with parked := [] }
  | phase (p : Program) (phase : Phase) : Step own p { p with phase }

theorem write_eq (p : Program) (draft : Nat) (text : String) :
    p.write draft text = { p with
      drafts := if p.drafts.isJoined draft then p.drafts else p.drafts.put draft text
      refused := if p.drafts.isJoined draft then some .writeToJoined else p.refused } := by
  unfold write Drafts.write
  cases p.drafts.isJoined draft with
  | true => rfl
  | false => rfl

/-- A change of the program that does not see drafts leaves them alone. -/
theorem drafts_of_blind (p : Program)
    (hg : ∀ p drafts refused, g { p with drafts, refused } = { g p with drafts, refused }) :
    (g p).drafts = p.drafts :=
  congrArg (·.drafts) (hg p p.drafts p.refused)

theorem write_of_blind (p : Program) (id : Nat) (t : String)
    (hg : ∀ p drafts refused, g { p with drafts, refused } = { g p with drafts, refused }) :
    g (p.write id t) = (g p).write id t := by
  have hrefused : (g p).refused = p.refused := congrArg (·.refused) (hg p p.drafts p.refused)
  rw [write_eq, hg, write_eq, p.drafts_of_blind hg, hrefused]

/-- Any number of steps. -/
abbrev Steps (own : String → String → Prop) : Program → Program → Prop :=
  Relation.ReflTransGen (Step own)

end Program

open Program (Step Steps)

variable {own : String → String → Prop} {α β : Type} {x : Emit α}

/-! ## Actions -/

namespace Emit

variable {f : α → Emit β} {x : Emit α}

/-- The action changes programs by steps. -/
def Takes (own : String → String → Prop) (x : Emit α) : Prop :=
  ∀ place desk, Steps own desk.program (x place desk).2.program

theorem takes_pure (a : α) : Takes own (pure a : Emit α) := fun _ _ => .refl

theorem takes_bind (hx : Takes own x) (hf : ∀ a, Takes own (f a)) : Takes own (x >>= f) :=
  fun place desk => (hx place desk).trans (hf _ place _)

theorem takes_forM {xs : List α} {f : α → Emit Unit} (h : ∀ x ∈ xs, Takes own (f x)) :
    Takes own (xs.forM f) := by
  induction xs with
  | nil => exact takes_pure ()
  | cons x xs ih =>
    exact takes_bind (h x List.mem_cons_self) fun _ => ih fun y hy =>
      h y (List.mem_cons_of_mem _ hy)

/-- The action changes no tables. -/
def OnlyWrites (x : Emit α) : Prop :=
  ∀ place desk, ∃ drafts refused,
    (x place desk).2.program = { desk.program with drafts, refused }

theorem onlyWrites_bind (hx : OnlyWrites x) (hf : ∀ a, OnlyWrites (f a)) :
    OnlyWrites (x >>= f) := by
  intro place desk
  obtain ⟨drafts, refused, h⟩ := hx place desk
  obtain ⟨drafts', refused', h'⟩ := hf (x place desk).1 place (x place desk).2
  refine ⟨drafts', refused', h'.trans ?_⟩
  rw [h]

/-- The action writes and reserves text and does nothing else. `T` holds of the tasks it leaves. -/
inductive Jots (T : Task → Prop) : {α : Type} → Emit α → Prop
  | pure {α : Type} (a : α) : Jots T (pure a)
  | bind {α β : Type} {x : Emit α} {f : α → Emit β} (hx : Jots T x) (hf : ∀ a, Jots T (f a)) :
      Jots T (x >>= f)
  | read {α : Type} {f : Place → Emit α} (hf : ∀ place, Jots T (f place)) :
      Jots T (read >>= f)
  | owe : Jots T owe
  | print (text : String) : Jots T (print text)
  | newline : Jots T newline
  | reserve (owed : Bool) {task : Option Task} (h : ∀ t ∈ task, T t) : Jots T (reserve owed task)

section

variable {T : Task → Prop} {x : Emit α}

theorem jots_println (text : String) : Jots T (println text) := by
  unfold println
  split
  · exact .newline
  · exact .bind (.print _) fun _ => .newline

theorem jots_forM {l : List α} {f : α → Emit Unit} (h : ∀ a, Jots T (f a)) : Jots T (l.forM f) := by
  induction l with
  | nil => exact .pure ()
  | cons a l ih => exact .bind (h a) fun _ => ih

theorem jots_leave {task : Task} (h : T task) : Jots T (leave task) := by
  have hdiscard : ∀ {x : Emit Cursor}, Jots T x → Jots T (discard x) := fun hx =>
    .bind hx fun _ => .pure ()
  have htask : ∀ owed, Jots T (reserve owed (some task)) := fun _ => .reserve _ fun t ht => by
    cases ht
    exact h
  have hinline : Jots T (discard (reserveInline (some task))) :=
    hdiscard (.bind (.print _) fun _ => htask _)
  unfold leave
  split
  · exact hinline
  · refine .bind hinline fun _ => .read fun place => ?_
    split
    · exact .pure ()
    · exact .owe
  · exact hdiscard (htask _)

theorem jots_header (unit : CompilationUnit) : Jots T (Program.header unit) := by
  have hblock : Jots T (reserveBlock none) := .reserve _ nofun
  unfold Program.header
  split
  · exact hblock
  · exact .bind (jots_println _) fun _ => .bind (jots_println _) fun _ => hblock

theorem takes_of_jots (h : Jots (fun _ => True) x) : Takes own x := by
  induction h with
  | bind _ _ ihx ihf => exact takes_bind ihx ihf
  | read _ ih => exact fun place => ih place place
  | print | newline => exact fun _ _ => .single (.write _ _ _)
  | reserve => exact fun _ _ => .single (.reserve _ _ _)
  | pure | owe => exact fun _ _ => .refl

theorem Jots.onlyWrites (h : Jots (fun _ => True) x) : OnlyWrites x := by
  induction h with
  | bind _ _ ihx ihf => exact onlyWrites_bind ihx ihf
  | read _ ih => exact fun place => ih place place
  | print | newline => exact fun _ _ => ⟨_, _, Program.write_eq _ _ _⟩
  | pure | owe | reserve => exact fun _ _ => ⟨_, _, rfl⟩

end

end Emit

/-! ## Starting units -/

namespace Program

variable {text : Emit Unit} {g : Program → Program} {x : Emit α}

theorem jots_start {T : Task → Prop} (unit : CompilationUnit) (ht : Jots T text) :
    Jots T (header unit >>= fun imports => text >>= fun _ => pure imports) :=
  .bind (jots_header unit) fun _ => .bind ht fun _ => .pure _

/-- Where a unit starts, only its imports are a table's. -/
theorem startUnit_eq (p : Program) (id : Nat) (ht : Jots (fun _ => True) text) :
    ∃ drafts refused imports, p.startUnit id text =
      modifyUnit { p with drafts, refused } id fun u => { u with importsAt := some imports } := by
  obtain ⟨drafts, refused, h⟩ := (jots_start (p.unit id) ht).onlyWrites
    ((p.unit id).start id) ⟨p, true⟩
  exact ⟨drafts, refused, _, congrArg (modifyUnit · id _) h⟩

theorem steps_startUnit (p : Program) (id : Nat) (ht : Jots (fun _ => True) text) :
    Steps own p (p.startUnit id text) :=
  (takes_of_jots (jots_start _ ht) _ ⟨p, true⟩).tail (.started _ _ _)

theorem steps_packageUnit (p : Program) (dir name : String) (library : Bool) :
    Steps own p (p.packageUnit dir name library).2 := by
  unfold packageUnit
  split
  · exact .refl
  · rename_i hnone
    dsimp only
    split
    · exact .single (.newPackage _ _ _ _ hnone)
    · exact .head (.newPackage _ _ _ _ hnone) (steps_startUnit _ _ (jots_println _))

/-- A change of tables that has nothing to do with drafts and units. -/
structure Aside (g : Program → Program) : Prop where
  drafts : ∀ p drafts refused, g { p with drafts, refused } = { g p with drafts, refused }
  unit : ∀ p u, (g p).unit u = p.unit u
  modifyUnit : ∀ p id f, g (p.modifyUnit id f) = (g p).modifyUnit id f

theorem aside_typeUnits (types : Table Nat) : Aside fun p => { p with typeUnits := types } :=
  ⟨fun _ _ _ => rfl, fun _ _ => rfl, fun _ _ _ => rfl⟩

/-- It makes no difference whether the action comes before or after the change. -/
def Blind (g : Program → Program) (x : Emit α) : Prop :=
  ∀ (place : Place) (desk : Desk), x place { desk with program := g desk.program } =
    ((x place desk).1, { (x place desk).2 with program := g (x place desk).2.program })

theorem blind_bind {f : α → Emit β} (hx : Blind g x) (hf : ∀ a, Blind g (f a)) :
    Blind g (x >>= f) := by
  intro place desk
  show f (x place _).1 place (x place _).2 = _
  rw [hx]
  exact hf _ place _

theorem blind_of_jots (hg : Aside g) (h : Jots (fun _ => True) x) : Blind g x := by
  induction h with
  | bind _ _ ihx ihf => exact blind_bind ihx ihf
  | read _ ih => exact fun place => ih place place
  | print text =>
    exact fun _ _ => congrArg (fun p => ((), Desk.mk p false)) (write_of_blind _ _ _ hg.drafts).symm
  | newline =>
    exact fun _ _ => congrArg (fun p => ((), Desk.mk p true)) (write_of_blind _ _ _ hg.drafts).symm
  | pure | owe => exact fun _ _ => rfl
  | reserve owed _ =>
    intro place desk
    have hrefused : (g desk.program).refused = desk.program.refused :=
      congrArg (·.refused) (hg.drafts desk.program desk.program.drafts desk.program.refused)
    have hdrafts : ∀ drafts, g { desk.program with drafts } = { g desk.program with drafts } := by
      intro drafts
      refine (hg.drafts desk.program drafts desk.program.refused).trans ?_
      rw [← hrefused]
    show (Cursor.mk { place with draft := (g desk.program).drafts.next } owed,
      (⟨{ g desk.program with
        drafts := (g desk.program).drafts.reserve place.draft _ }, desk.owed⟩ : Desk)) = _
    rw [drafts_of_blind desk.program hg.drafts]
    exact congrArg (fun p => (_, Desk.mk p _)) (hdrafts _).symm

theorem startUnit_aside (hg : Aside g) (p : Program) (id : Nat) (ht : Jots (fun _ => True) text) :
    startUnit (g p) id text = g (p.startUnit id text) := by
  have h := blind_of_jots hg (jots_start (p.unit id) ht) ((p.unit id).start id) ⟨p, true⟩
  unfold startUnit emit
  dsimp only at h ⊢
  rw [hg.unit, h]
  generalize (header (p.unit id) >>= _ : Emit Cursor) _ _ = r
  exact (hg.modifyUnit r.2.program id _).symm

/-- A new unit for a type may be entered under the name of the type before it is started. -/
theorem typeUnit_of_none {p : Program} {place : Place} {name : String}
    (hnone : p.unitIndex.get? (unitKey (p.unit (p.unit place.unit).packageUnit).dir name) = none) :
    p.typeUnit place name =
      let q := (p.newTypeUnit place.unit name).startUnit p.units.size (pure ())
      (⟨(q.unit p.units.size).start p.units.size, true⟩, q) := by
  have haside := fun types (q : Program) =>
    startUnit_aside (aside_typeUnits types) q p.units.size (.pure ())
  have hsame : ∀ q : Program, (q.startUnit p.units.size (pure ())).typeUnits = q.typeUnits :=
    fun q => congrArg (·.typeUnits) (haside q.typeUnits q)
  have hentered : ∀ (r q : Program) (types : Table Nat), r.typeUnits = types →
      q = { r with typeUnits := types.set name p.units.size } →
      ((⟨(r.unit p.units.size).start p.units.size, true⟩,
        { r with typeUnits := r.typeUnits.set name p.units.size }) : Cursor × Program) =
        (⟨(q.unit p.units.size).start p.units.size, true⟩, q) := by
    rintro r q types rfl rfl
    rfl
  unfold typeUnit
  dsimp only
  rw [hnone]
  exact hentered _ _ p.typeUnits (hsame _) (haside _ _)

theorem steps_typeUnit (p : Program) (place : Place) (name : String) :
    Steps own p (p.typeUnit place name).2 := by
  cases hid : p.unitIndex.get? (unitKey (p.unit (p.unit place.unit).packageUnit).dir name) with
  | none =>
    have hstart : Steps own (p.newTypeUnit place.unit name)
        ((p.newTypeUnit place.unit name).startUnit p.units.size (pure ())) :=
      steps_startUnit _ _ (.pure ())
    rw [typeUnit_of_none hid]
    exact .head (.newType p place.unit name hid) hstart
  | some id =>
    unfold typeUnit
    dsimp only
    rw [hid]

end Program

/-! ## Conversion -/

/-- Nothing is asked of what is written. -/
def Outlook.free : Outlook :=
  { sure .free Eq with
    methods := True
    parked := fun _ _ _ m _ => Go.FuncDecl.obeys_of_lax Go.Rules.lax_free m.decl }

theorem Outlook.knows_free {_ : Ken} {place : Place} {p : Program} (_ : True) :
    Outlook.free.knows p ∧ Outlook.free.Sees place ∧ True :=
  ⟨trivial, sees_of_loose _ False.elim _, trivial⟩

/-- What is written changes programs by steps. -/
def Outlook.steps (own : String → String → Prop) : Chronicle .free where
  fits _ _ _ := True
  tells _ := Steps own
  refl _ := .refl
  trans _ := .trans
  stays _ _ := trivial
  knows := @Outlook.knows_free
  steer _ _ := ⟨trivial, fun _ => id⟩
  does _ h := by
    cases h with
    | @note n h owed =>
      refine .single (.note _ _ ?_)
      cases n with
      | need i => exact h
      | _ => trivial
    | write text => exact .single (.write _ _ _)
    | var | scope => exact .single (.note _ _ trivial)
    | hole | task => exact .single (.reserve _ _ _)
    | register => exact .single (.register _ _)
  opening _ _ _ := trivial
  enrolled _ _ := trivial
  goes _ h := by
    refine ⟨trivial, fun q hq => ?_⟩
    cases h with
    | look => exact .head (.newDraft _) hq
    | methods | implementing => exact hq
    | typeUnit => exact (Program.steps_typeUnit _ _ _).trans hq

theorem takes_of_parallel {a b : List Char} {R : α → α → Prop} (h : Parallel .free .all a b R x x) :
    Takes own x :=
  fun _ desk => ((Outlook.steps own).tells_of_parallel h trivial desk.owed).1

theorem takes_of_scriptedIn {x : Emit Unit} (h : ScriptedIn .free x) : Takes own x :=
  takes_of_parallel (h .all [] trivial)

theorem takes_of_scripted (h : Scripted .free x) : Takes own x :=
  takes_of_parallel (h .all [])

theorem free_writeTypeAt (room : Nat) (style : Style) (type : Go.Expr) :
    Scripted .free (writeTypeAt room style type) :=
  scripted_writeTypeAt room (fun _ => trivial) (type.spelled_of_all fun _ => False.elim)

theorem Conversion.free_releaseAt (n : Nat) : Release.Steady .free (releaseAt n) :=
  steady_releaseAt n trivial (fun _ => Or.inl trivial) (fun _ h => h) (Or.inl trivial)

end GoToJava
