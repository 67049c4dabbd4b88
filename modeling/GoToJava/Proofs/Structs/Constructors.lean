import GoToJava.Proofs.Deferral.Lines
import GoToJava.Proofs.Methods.Release
import GoToJava.Proofs.Program.Texts

/-!
Constructors. A struct with fields has a constructor that takes all of them. Main lemma: it takes
them in the order in which they are declared.
-/

namespace GoToJava

open Go (Expr Field FuncDecl)
open Emit Conversion

variable {own : String → String → Prop}

/-! ## Parameters -/

/-- A text that a type is written as. What is put off is no part of it. -/
def TypeText.Spells (type : Expr) (text : String) : Prop :=
  ∃ place desk, desk.program.Open place.draft ∧ desk.owed = false ∧
    AddsAt place desk (writeType .references type) text

theorem exists_spelled {place : Place} {desk : Desk} (type : Expr)
    (hopen : desk.program.Open place.draft) (howed : desk.owed = false) :
    ∃ text, TypeText.Spells type text ∧ AddsAt place desk (writeType .references type) text := by
  have hsteps : Takes (fun _ _ => True) (writeType .references type) :=
    takes_of_scripted (free_writeTypeAt _ .references type)
  have hmore := goesOn_of_takes hsteps hopen
  obtain ⟨text, htext⟩ := hmore.text
  have hadds : AddsAt place desk (writeType .references type) text := by
    refine ⟨hmore.opened, (inline_writeType .references type).rests place desk, ?_⟩
    rw [howed]
    show _ = _ ++ ("" ++ text)
    rw [String.empty_append]
    exact htext
  exact ⟨text, ⟨place, desk, hopen, howed, hadds⟩, hadds⟩

namespace Forms

/-- The text of parameters whose types are written as `types`. -/
def parametersText (types : List String) (fields : List (String × Expr)) : String :=
  ", ".intercalate (List.zipWith (fun type field => type ++ (" " ++ field.1)) types fields)

theorem addsAt_parameters {place : Place} {desk : Desk} (fields : List (String × Expr))
    (hopen : desk.program.Open place.draft) (howed : desk.owed = false) :
    ∃ types, List.Forall₂ (fun type field => TypeText.Spells field.2 type) types fields ∧
      AddsAt place desk (separated ", " (fields.map fun (field, type) => do
        writeType .references type
        print " "
        print field)) (parametersText types fields) := by
  induction fields generalizing desk with
  | nil =>
    refine ⟨[], .nil, hopen, howed, ?_⟩
    rw [howed]
    exact (String.append_empty).symm
  | cons field rest ih =>
    obtain ⟨name, type⟩ := field
    obtain ⟨text, hspells, htype⟩ := exists_spelled type hopen howed
    have hblank := addsAt_print " " htype.opened
    have hparam := addsAt_seq htype (addsAt_seq hblank (addsAt_print name hblank.opened))
    cases rest with
    | nil =>
      refine ⟨[text], .cons hspells .nil, ?_⟩
      rw [parametersText, List.zipWith_cons_cons, List.zipWith_nil_left,
        String.intercalate_singleton]
      exact hparam
    | cons next rest =>
      have hcomma := addsAt_print ", " hparam.opened
      obtain ⟨types, htypes, hrest⟩ := ih hcomma.opened hcomma.owed
      refine ⟨text :: types, .cons hspells htypes, ?_⟩
      obtain ⟨other, others, rfl⟩ : ∃ other others, types = other :: others := by
        cases htypes with
        | cons _ _ => exact ⟨_, _, rfl⟩
      rw [parametersText, List.zipWith_cons_cons, List.zipWith_cons_cons,
        String.intercalate_cons_cons, String.append_assoc]
      exact addsAt_seq hparam (addsAt_seq hcomma hrest)

/-- The text that a constructor of all fields starts with. -/
def IsConstructor (name : String) (fields : List (String × Expr)) (text : String) : Prop :=
  ∃ types, List.Forall₂ (fun type field => TypeText.Spells field.2 type) types fields ∧
    text = "public " ++ (name ++ ("(" ++ (parametersText types fields ++ ") \x7b")))

/-- What stands before the body of a constructor. -/
def constructorHead (name : String) (fields : List (String × Expr)) : Emit Unit := do
  bare do
    print "public "
    print name
    print "("
    separated ", " (fields.map fun (field, type) => do
      writeType .references type
      print " "
      print field)
  print ") \x7b"

def constructorBody (fields : List (String × Expr)) : Emit Unit := do
  newline
  indented (fields.forM fun (field, _) => println ("this." ++ field ++ " = " ++ field ++ ";"))
  println "\x7d"
  println ""

theorem constructor_eq (name : String) (fields : List (String × Expr)) :
    constructor name fields = (do
      constructorHead name fields
      constructorBody fields) := rfl

theorem addsAt_constructorHead {place : Place} {desk : Desk} (name : String)
    (fields : List (String × Expr)) (hopen : desk.program.Open place.draft) :
    ∃ text, IsConstructor name fields text ∧
      AddsAt place desk (constructorHead name fields) text := by
  have hpublic : AddsAt { place with bare := true } desk (print "public ") "public " :=
    addsAt_print _ hopen
  have hname := addsAt_print name hpublic.opened
  have hleft := addsAt_print "(" hname.opened
  obtain ⟨types, htypes, hparams⟩ := addsAt_parameters fields hleft.opened hleft.owed
  have hbare := addsAt_bare (addsAt_seq hpublic (addsAt_seq hname (addsAt_seq hleft hparams)))
  have hall := addsAt_seq hbare (addsAt_print ") \x7b" hbare.opened)
  simp only [String.append_assoc] at hall
  exact ⟨_, ⟨types, htypes, rfl⟩, hall⟩

theorem takes_constructorBody (fields : List (String × Expr)) :
    Takes own (constructorBody fields) := by
  have hlines : Scripted .free (indented (fields.forM fun (field, _) =>
      println ("this." ++ field ++ " = " ++ field ++ ";"))) :=
    fun K a => .indented (parallel_forM fun _ _ => .println fun h => h.elim)
  exact takes_bind (takes_of_jots .newline) fun _ => takes_bind (takes_of_scripted hlines) fun _ =>
    takes_of_jots (.bind (jots_println _) fun _ => jots_println _)

theorem includes_constructor (name : String) (fields : List (String × Expr)) (place : Place) :
    Includes (IsConstructor name fields) place (constructor name fields) := by
  rw [constructor_eq]
  exact includes_bind (includes_of_adds fun _ => addsAt_constructorHead name fields)
    fun _ => takes_constructorBody fields

theorem includes_classLines {fields : List (String × Expr)} (name : String) (hne : fields ≠ [])
    (place : Place) : Includes (IsConstructor name fields) place (classLines name fields) := by
  have hlast : Includes (IsConstructor name fields) place
      (unless fields.isEmpty do constructor name fields) := by
    rw [List.isEmpty_eq_false_iff.2 hne]
    exact includes_constructor name fields place
  refine bind_includes (takes_of_scripted (scripted_forM fun x _ =>
    scripted_classField False.elim (x.2.spelled_of_all fun _ => False.elim))) ?_
  intro _
  have hword : ∀ text, Takes (fun _ _ => True) (print text) :=
    fun text => takes_of_jots (.print text)
  have hline : ∀ text, Takes (fun _ _ => True) (println text) := fun text =>
    takes_of_jots (jots_println text)
  refine bind_includes (hline _) fun _ => bind_includes (hword _) fun _ => ?_
  refine bind_includes (hword _) fun _ => bind_includes (hline _) fun _ => ?_
  exact bind_includes (hline _) fun _ => bind_includes (hline _) fun _ => hlast

end Forms

theorem takes_releaseAt (n cls : Nat) (decl : FuncDecl) : Takes own (releaseAt n cls decl) := by
  cases n with
  | zero => exact takes_pure ()
  | succ n =>
    have hspelled : decl.Spelled (Plain False) := Go.FuncDecl.spelled_of_all (fun _ => False.elim) _
    have hbody : ScriptedIn .free (bodyOf (releaseAt n) decl) :=
      scripted_bodyOf (free_releaseAt n)
        (Go.FuncDecl.obeys_of_lax Go.Rules.lax_free decl) hspelled
    exact takes_of_parallel (a := []) (Forms.parallel_method trivial trivial hspelled trivial hbody)

namespace Forms

theorem takes_addClass (n : Nat) (cls : JavaClass) : Takes own (addClass (releaseAt n) cls) := by
  intro place desk
  have hready : Takes own ((desk.program.parked.filter (·.cls == cls.name)).forM fun m =>
      releaseAt n desk.program.classes.size m.decl) :=
    takes_forM fun m _ => takes_releaseAt n _ m.decl
  exact .head (.register desk.program cls) (hready place ⟨_, desk.owed⟩)

/-- A struct with fields has a constructor that takes them in the order they are declared. -/
theorem includes_struct (n : Nat) (name : String) (fields : List Field)
    (hne : namedFields fields ≠ []) (place : Place) :
    Includes (IsConstructor name (namedFields fields)) place
      (struct (releaseAt n) name fields) := by
  rw [struct_eq]
  refine bind_includes (takes_of_scripted (scripted_structStart False.elim
    fun t _ => t.spelled_of_all fun _ => False.elim)) fun _ => ?_
  refine bind_includes (takes_of_jots (.reserve _ fun _ _ => trivial)) fun _ => ?_
  refine includes_bind ?_ fun _ => ?_
  · refine bind_includes (takes_of_jots (jots_println _)) fun _ =>
      bind_includes (fun _ _ => .refl) fun _ => ?_
    exact includes_deeper (includes_classLines name hne place.deeper)
  · refine takes_bind (fun place desk => takes_of_jots (.reserve _ fun _ _ => trivial) place.deeper
    desk) fun _ => ?_
    refine takes_bind (takes_of_parallel (b := []) parallel_structEnd) fun _ => ?_
    exact takes_bind (fun _ _ => .refl) fun _ => takes_addClass n _

end Forms

end GoToJava
