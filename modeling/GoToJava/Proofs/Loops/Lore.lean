import GoToJava.Proofs.Deferral.Glances

/-!
What a program knows of types and variables. Text is written without a change to it, types and
expressions without functions are too, and binding a variable changes it for the name of the
variable only.
-/

namespace GoToJava

open Go (Expr)
open Emit

/-! ## The same lore -/

/-- The units have the same tables. They may name and need different classes. -/
def CompilationUnit.SameTables (u v : CompilationUnit) : Prop :=
  v = { u with referenced := v.referenced, imports := v.imports }

/-- The programs know the same of all types, and of the variables of some names in some scopes. -/
structure Program.SameLore (S : Nat → String → Prop) (p q : Program) : Prop where
  unit : ∀ u, (p.unit u).SameTables (q.unit u)
  unitIndex : q.unitIndex = p.unitIndex
  typeUnits : q.typeUnits = p.typeUnits
  classes : q.classes = p.classes
  classIndex : q.classIndex = p.classIndex
  typeNames : q.typeNames = p.typeNames
  var : ∀ scope name, S scope name → q.scopes.var scope name = p.scopes.var scope name

variable {S T : Nat → String → Prop} {p q r : Program}

namespace CompilationUnit.SameTables

variable {u v w : CompilationUnit}

theorem refl (u : CompilationUnit) : u.SameTables u := rfl

theorem trans (h : u.SameTables v) (h' : v.SameTables w) : u.SameTables w := by
  unfold SameTables at *
  rw [h', h]

end CompilationUnit.SameTables

namespace Program

namespace SameLore

theorem refl (S : Nat → String → Prop) (p : Program) : p.SameLore S p where
  unit _ := .refl _
  unitIndex := rfl
  typeUnits := rfl
  classes := rfl
  classIndex := rfl
  typeNames := rfl
  var _ _ _ := rfl

theorem trans (h : p.SameLore S q) (h' : q.SameLore S r) : p.SameLore S r where
  unit u := (h.unit u).trans (h'.unit u)
  unitIndex := h'.unitIndex.trans h.unitIndex
  typeUnits := h'.typeUnits.trans h.typeUnits
  classes := h'.classes.trans h.classes
  classIndex := h'.classIndex.trans h.classIndex
  typeNames := h'.typeNames.trans h.typeNames
  var scope name hs := (h'.var scope name hs).trans (h.var scope name hs)

theorem mono (h : p.SameLore T q) (hST : ∀ scope name, S scope name → T scope name) :
    p.SameLore S q :=
  { h with var := fun scope name hs => h.var scope name (hST scope name hs) }

end SameLore

theorem Mentions.sameLore (h : p.Mentions q) : p.SameLore S q where
  unit u := (h.unit u).same
  unitIndex := congrArg (·.unitIndex) h.same
  typeUnits := congrArg (·.typeUnits) h.same
  classes := congrArg (·.classes) h.same
  classIndex := congrArg (·.classIndex) h.same
  typeNames := congrArg (·.typeNames) h.same
  var scope name _ := congrArg (·.scopes.var scope name) h.same

theorem sameLore_drafts (p : Program) (drafts : Drafts Pending) (refused : Option DraftError) :
    p.SameLore S { p with drafts, refused } :=
  (p.mentions_drafts drafts refused).sameLore

end Program

theorem Scopes.var_setVar_of_ne (s : Scopes) (scope : Nat) {name other : String} (type : Expr)
    (h : other ≠ name) (from_ : Nat) :
    (s.setVar scope name type).var from_ other = s.var from_ other := by
  have hhere : ∀ i, ((s.setVar scope name type).scopes.getD i {}).vars.get? other =
        (s.scopes.getD i {}).vars.get? other ∧
      ((s.setVar scope name type).scopes.getD i {}).parent = (s.scopes.getD i {}).parent := by
    intro i
    unfold Scopes.setVar
    rw [getD_modify]
    split
    · exact ⟨(Table.get?_set _ _ _ _).trans (if_neg h), rfl⟩
    · exact ⟨rfl, rfl⟩
  induction from_ using Nat.strongRecOn with
  | ind from_ ih =>
    rw [Scopes.var, Scopes.var, (hhere from_).1, (hhere from_).2]
    split
    · rfl
    · split
      · split
        · rename_i hlt
          exact ih _ hlt
        · rfl
      · rfl

/-! ## Discretion -/

variable {α β : Type}

/-- Whatever the action does, the program knows the same afterwards. -/
def Discreet (S : Nat → String → Prop) (x : Emit α) : Prop :=
  ∀ (place : Place) (desk : Desk), desk.program.SameLore S (x place desk).2.program

theorem discreet_pure (a : α) : Discreet S (pure a : Emit α) := fun _ _ => .refl _ _

theorem discreet_bind {x : Emit α} {f : α → Emit β} (hx : Discreet S x)
    (hf : ∀ a, Discreet S (f a)) : Discreet S (x >>= f) :=
  fun place desk => (hx place desk).trans (hf _ place _)

theorem discreet_print (text : String) : Discreet S (print text) :=
  fun _ desk => (desk.program.mentions_write _ _).sameLore

theorem discreet_println (text : String) : Discreet S (println text) := by
  have hline : Discreet S newline := fun _ desk => (desk.program.mentions_write _ _).sameLore
  unfold println
  split
  · exact hline
  · exact discreet_bind (discreet_print _) fun _ => hline

theorem discreet_need (i : Java.Import) : Discreet S (need i) :=
  fun _ desk => (desk.program.mentions_import _ _).sameLore

theorem discreet_setVar {name : String} (type : Expr) (h : ∀ scope, ¬S scope name) :
    Discreet S (setVar name type) := by
  intro place desk
  refine { Program.SameLore.refl S desk.program with var := fun scope other hs => ?_ }
  have hne : other ≠ name := by
    rintro rfl
    exact h scope hs
  exact Scopes.var_setVar_of_ne _ _ _ hne scope

/-! ## Types and expressions -/

/-- What declares nothing changes nothing that the program knows. -/
theorem discreet_of_quiet {a b : List Char} {R : α → α → Prop} {x : Emit α}
    (h : Parallel .quiet {} a b R x x) : Discreet S x :=
  fun place desk => (glances_of_quiet h place desk).mentions.sameLore

theorem discreet_writeTypeAt (room : Nat) (style : Style) (type : Expr) :
    Discreet S (writeTypeAt room style type) :=
  discreet_of_quiet (quiet_writeTypeAt room style type {} [])

theorem discreet_writeType (style : Style) (type : Expr) : Discreet S (writeType style type) :=
  discreet_writeTypeAt _ style type

theorem discreet_sourceType (e : Expr) : Discreet S (sourceType e) :=
  discreet_of_quiet (answers_sourceType (K := {}) (a := []) trivial
    (e.spelled_of_all fun _ => False.elim))

theorem Conversion.discreet_expr (release : Release) {e : Expr} (h : e.LacksFunctions) :
    Discreet S (expr release none e) :=
  discreet_of_quiet (scripted_expr (W := .quiet) fits_none e (.inr h)
    (Expr.obeys_of_lax Go.Rules.lax_free e) (e.spelled_of_all fun _ => False.elim) {} [])

end GoToJava
