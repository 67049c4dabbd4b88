import GoToJava.Proofs.Program.Steps
import Mathlib.Data.List.Induction

/-!
Groups of constants. A line without values repeats those of the nearest line before it that has
some, and `iota` is the number of the line. Any declaration of values in a function literal of the
line takes the number away, so the names after it may be left with an `iota` that nothing declares.
-/

namespace GoToJava

open Go (Expr Spec)
open Emit Forms

/-! ## Lines -/

namespace Go.Spec

def values : Spec → List Expr
  | .value _ _ values => values
  | .type .. => []

/-- The values of the last line that has some. -/
def nearestValues (specs : List Spec) : List Expr :=
  ((specs.reverse.map values).find? (!·.isEmpty)).getD []

/-- The type of the last line: its own, or without values perhaps that of the line before. -/
def nearestType (specs : List Spec) : Option Expr :=
  specs.foldl (fun before spec => match spec with
    | .value _ own values => if values.isEmpty then own <|> before else own
    | .type .. => before) none

end Go.Spec

namespace Conversion

variable {release : Release} {local_ : Bool}

/-- The type and the values of a line, after a line that has those of `group`. -/
def lineAfter (release : Release) (group : ConstGroup) : Spec → ConstGroup
  | .value _ type values =>
    if values.isEmpty then ⟨type <|> group.type, group.values⟩ else ⟨type, terms release values⟩
  | .type .. => group

theorem foldl_lineAfter (specs : List Spec) : specs.foldl (lineAfter release) {} =
    ⟨Spec.nearestType specs, terms release (Spec.nearestValues specs)⟩ := by
  induction specs using List.reverseRecOn with
  | nil => rfl
  | append_singleton specs spec ih =>
    unfold Spec.nearestType Spec.nearestValues
    rw [List.foldl_append, List.foldl_append, List.reverse_append, ih]
    cases spec with
    | type name type isAlias => rfl
    | value names type values => cases values <;> rfl

/-- Writes a line of a group of constants. -/
def constantLine (local_ : Bool) (i : Nat) (names : List String) (line : ConstGroup) :
    Emit Unit := do
  note (.iota (some i))
  variableGroup true local_ names line.type line.values
  note (.iota none)

theorem valueSpecs_cons (i : Nat) (group : ConstGroup) (names : List String) (type : Option Expr)
    (values : List Expr) (rest : List Spec) :
    let line := lineAfter release group (.value names type values)
    valueSpecs true local_ i group (specForms release (.value names type values :: rest)) =
      (constantLine local_ i names line >>= fun _ =>
        valueSpecs true local_ (i + 1) line (specForms release rest)) := by
  cases values <;> rfl

theorem valueSpecs_append (specs : List Spec) (names : List String) (type : Option Expr)
    (values : List Expr) (i : Nat) (group : ConstGroup) :
    valueSpecs true local_ i group (specForms release (specs ++ [.value names type values])) =
      (valueSpecs true local_ i group (specForms release specs) >>= fun _ =>
        constantLine local_ (i + specs.length) names
          ((specs ++ [Spec.value names type values]).foldl (lineAfter release) group)) := by
  induction specs generalizing i group with
  | nil => exact valueSpecs_cons i group names type values []
  | cons spec specs ih =>
    have hnext := ih (i + 1) (lineAfter release group spec)
    rw [Nat.add_right_comm, Nat.add_assoc] at hnext
    cases spec with
    | type name type isAlias => exact hnext
    | value others type' values' =>
      rw [List.cons_append, valueSpecs_cons, hnext, valueSpecs_cons]
      rfl

theorem terms_eq_map (es : List Expr) :
    terms release es = es.map fun e => ⟨e, expr release none e⟩ := by
  induction es with
  | nil => rfl
  | cons e es ih => exact congrArg (_ :: ·) ih

end Conversion

/-! ## The number of a line -/

/-- Constants are numbered in one step with all that is written in the line. Without `declares`,
nothing is declared but variables of functions. -/
def Outlook.numbering (declares : Prop) : Outlook := { free with declares, counts := ¬declares }

theorem Program.iota_typeUnit (p : Program) (place : Place) (name : String) :
    (p.typeUnit place name).2.iota = p.iota := by
  cases hid : p.unitIndex.get? (unitKey (p.unit (p.unit place.unit).packageUnit).dir name) with
  | none =>
    obtain ⟨drafts, refused, imports, hstart⟩ :=
      (p.newTypeUnit place.unit name).startUnit_eq p.units.size (.pure ())
    rw [typeUnit_of_none hid]
    dsimp only
    rw [hstart]
    rfl
  | some id =>
    unfold typeUnit
    dsimp only
    rw [hid]

/-- The number of the line stays, unless it is taken away by a declaration. -/
def Outlook.numbers (declares : Prop) : Chronicle (.numbering declares) where
  fits _ _ _ := True
  tells _ p q := q.iota = p.iota ∨ declares ∧ q.iota = none
  refl _ := .inl rfl
  trans _ h h' := by
    rcases h' with h' | h'
    · rwa [h']
    · exact .inr h'
  stays _ _ := trivial
  knows := @Outlook.knows_free
  steer _ _ := ⟨trivial, fun _ => id⟩
  does _ h := by
    cases h with
    | write text =>
      rw [Program.write_eq]
      exact .inl rfl
    | @note n h owed =>
      cases n with
      | iota index => exact .inr ⟨h.1, h.2.resolve_right fun hnot => hnot h.1⟩
      | package name =>
        dsimp only [Note.make]
        split <;> exact .inl rfl
      | _ => exact .inl rfl
    | _ => exact .inl rfl
  opening _ _ _ := trivial
  enrolled _ _ := trivial
  goes _ h := by
    refine ⟨trivial, fun q hq => ?_⟩
    cases h with
    | typeUnit hd hn => rwa [Program.iota_typeUnit] at hq
    | _ => exact hq
  numbered hnot _ _ := .inr ⟨Classical.not_not.1 hnot, rfl⟩

variable {a b : List Char} {α : Type} {R : α → α → Prop} {x : Emit α}

theorem iota_of_still (h : Parallel (.numbering False) .all a b R x x) (place : Place)
    (desk : Desk) : (x place desk).2.program.iota = desk.program.iota :=
  ((Outlook.numbers False).tells_of_parallel h trivial desk.owed).1.resolve_right And.left

theorem iota_of_numbering (h : Parallel (.numbering True) .all a b R x x) (place : Place)
    (desk : Desk) : (x place desk).2.program.iota = desk.program.iota ∨
      (x place desk).2.program.iota = none :=
  ((Outlook.numbers True).tells_of_parallel h trivial desk.owed).1.imp_right And.right

section

variable {local_ : Bool} {type : Option Expr} {name : String} {place : Place} {desk : Desk}
  {release : Release} {e : Expr} {declares : Prop}

theorem spelled_numbering (e : Expr) : e.Spelled (Plain (Outlook.numbering declares).tidy) :=
  e.spelled_of_all fun _ => False.elim

theorem iota_print (text : String) :
    (print text place desk).2.program.iota = desk.program.iota :=
  congrArg (·.iota) (Program.write_eq _ _ _)

theorem iota_variableWords :
    (variableWords true local_ name place desk).2.program.iota = desk.program.iota :=
  iota_of_still (scripted_variableWords true local_ name .all []) place desk

theorem iota_variableType (value : Option Term) :
    (variableType local_ type name value place desk).2.program.iota = desk.program.iota := by
  cases type with
  | some type =>
    have htype : (writeType .references type place desk).2.program.iota = desk.program.iota :=
      iota_of_still (scripted_writeType rfl (spelled_numbering type) .all []) place desk
    cases local_ <;> exact htype
  | none =>
    cases value with
    | some value =>
      have hdeclare : ∀ desk, (declare name value.source place desk).2.program.iota =
          desk.program.iota :=
        iota_of_still (scripted_declare (fun h => False.elim h)
          (spelled_numbering value.source) .all [] trivial) place
      cases local_ <;> exact hdeclare _
    | none => exact iota_print _

theorem Conversion.steady_value
    (h : Release.Steady (.numbering declares) release ∨ e.LacksFunctions) :
    Term.Steady (.numbering declares) ⟨e, expr release none e⟩ :=
  ⟨spelled_numbering e, scripted_expr fits_none e h (Expr.obeys_of_lax Go.Rules.lax_free e)
    (spelled_numbering e)⟩

end

/-! ## Numbered values -/

namespace Go.Expr

/-- Names and literals with parentheses and operators. -/
def IsArithmetic : Expr → Prop
  | .ident _ | .lit .. => True
  | .paren e | .unary _ e => e.IsArithmetic
  | .binary l _ r => l.IsArithmetic ∧ r.IsArithmetic
  | _ => False

/-- The number stands in the place of `iota`. -/
def numbered (n : Nat) : Expr → Expr
  | .ident name => if name = "iota" then .lit .int (toString n) else .ident name
  | .paren e => .paren (e.numbered n)
  | .unary op e => .unary op (e.numbered n)
  | .binary l op r => .binary (l.numbered n) op (r.numbered n)
  | e => e

theorem lacksFunctions_of_isArithmetic : (e : Expr) → e.IsArithmetic → e.LacksFunctions
  | .ident _, _ | .lit .., _ => trivial
  | .paren e, h | .unary _ e, h => lacksFunctions_of_isArithmetic e h
  | .binary l _ r, h =>
    ⟨lacksFunctions_of_isArithmetic l h.1, lacksFunctions_of_isArithmetic r h.2⟩

end Go.Expr

theorem Forms.intLit_nat (n : Nat) : intLit (toString n) = toString n := by
  have hdigits : ∀ c ∈ (toString n).toList, c.isDigit = true := by
    intro c hc
    rw [Nat.toString_eq_ofList_toDigits, String.toList_ofList] at hc
    exact Nat.isDigit_of_mem_toDigits (by decide) (by decide) hc
  unfold intLit
  generalize (toString n).toList = cs at hdigits ⊢
  split
  · cases hdigits 'o' (by simp)
  · cases hdigits 'O' (by simp)
  · rfl

namespace Conversion

variable {release : Release} {place : Place} {n : Nat}

theorem ident_numbered (name : String) (implied : Option Expr) {desk : Desk}
    (hr : place.receiver.map (·.name) ≠ some "iota") (hn : desk.program.iota = some n) :
    ident name place desk = expr release implied ((Expr.ident name).numbered n) place desk := by
  unfold Expr.numbered
  split
  · rename_i hname
    subst hname
    rw [ident_eq]
    show (if (place.receiver.map (·.name)) == some "iota" then print "this"
      else if desk.program.iota.isSome && true then print (toString (desk.program.iota.getD 0))
      else _ : Emit Unit) place desk = print (intLit (toString n)) place desk
    rw [hn, intLit_nat, if_neg (by simpa using hr)]
    rfl
  · rfl

/-- Where `iota` has a number, it is written as that number. -/
theorem expr_numbered (hr : place.receiver.map (·.name) ≠ some "iota") :
    (e : Expr) → e.IsArithmetic → ∀ (implied : Option Expr) (desk : Desk),
      desk.program.iota = some n →
        expr release implied e place desk = expr release implied (e.numbered n) place desk
  | .ident name, _, implied, _, hn => ident_numbered name implied hr hn
  | .lit .., _, _, _, _ => rfl
  | .paren e, he, _, desk, hn => by
    have hinner := expr_numbered hr e he none (print "(" place desk).2 ((iota_print _).trans hn)
    exact congrArg (fun r => print ")" place r.2) hinner
  | .unary op e, he, implied, desk, hn => by
    have hinner := fun text implied => expr_numbered hr e he implied (print text place desk).2
      ((iota_print _).trans hn)
    cases op with
    | addr => exact hinner _ implied
    | _ => exact hinner _ none
  | .binary l op r, he, _, desk, hn => by
    have hleft := expr_numbered hr l he.1 none desk hn
    have hvalue : Term.Steady (.numbering False) ⟨l, expr release none l⟩ :=
      steady_value (.inr (Expr.lacksFunctions_of_isArithmetic l he.1))
    have hiota : (expr release none l place desk).2.program.iota = some n :=
      (iota_of_still (hvalue.write .all []) place desk).trans hn
    have hright := expr_numbered hr r he.2 none
      (print (" " ++ binaryToken op ++ " ") place (expr release none l place desk).2).2
      ((iota_print _).trans hiota)
    refine Eq.trans hright ?_
    rw [hleft]
    rfl

/-! ## Groups -/

/-- The lines of a group before line `i`, and some names of line `i`. -/
def constantsBefore (release : Release) (local_ : Bool) (specs : List Spec) (i : Nat)
    (names : List String) : Emit Unit := do
  genDecl release local_ (.mk .const true (specs.take i))
  note (.iota (some i))
  variableGroup true local_ names (Spec.nearestType (specs.take (i + 1)))
    (terms release (Spec.nearestValues (specs.take (i + 1))))

/-- Writes a name of line `i`, with the value at its position if there is one. -/
def constant (local_ : Bool) (specs : List Spec) (i : Nat) (name : String) (position : Nat)
    (write : Expr → Emit Unit) : Emit Unit :=
  variable_ true local_ (Spec.nearestType (specs.take (i + 1))) name
    ((Spec.nearestValues (specs.take (i + 1)))[position]?.map fun e => ⟨e, write e⟩)

variable {local_ grouped : Bool} {specs : List Spec} {i p : Nat} {names : List String}
  {name : String} {desk : Desk}

theorem genDecl_take {own : Option Expr} {given : List Expr}
    (hline : specs[i]? = some (.value names own given)) :
    genDecl release local_ (.mk .const grouped (specs.take (i + 1))) = (do
      constantsBefore release local_ specs i names
      note (.iota none)) := by
  have htake : specs.take (i + 1) = specs.take i ++ [.value names own given] := by
    rw [List.take_add_one, hline]
    rfl
  have hlength : (specs.take i).length = i :=
    List.length_take_of_le (Nat.le_of_lt (List.getElem?_eq_some_iff.1 hline).1)
  show valueSpecs true local_ 0 {} (specForms release (specs.take (i + 1))) = _
  rw [htake, valueSpecs_append, ← htake, foldl_lineAfter, hlength, Nat.zero_add]
  rfl

theorem constantsBefore_succ (hname : names[p]? = some name) :
    constantsBefore release local_ specs i (names.take (p + 1)) = (do
      constantsBefore release local_ specs i (names.take p)
      if name == "_" then pure () else constant local_ specs i name p (expr release none)) := by
  have hlength : (names.take p).length = p :=
    List.length_take_of_le (Nat.le_of_lt (List.getElem?_eq_some_iff.1 hname).1)
  unfold constantsBefore constant variableGroup
  rw [List.take_add_one, hname, Option.toList_some, List.zipIdx_append, hlength, Nat.zero_add,
    List.forM_eq_forM, List.forM_append, terms_eq_map]
  simp only [List.getElem?_map]
  rfl

theorem iota_constant
    (h : ∀ e ∈ (Spec.nearestValues (specs.take (i + 1)))[p]?, e.LacksFunctions) :
    (constant local_ specs i name p (expr release none) place desk).2.program.iota =
      desk.program.iota := by
  have hvalue : ∀ v ∈ (Spec.nearestValues (specs.take (i + 1)))[p]?.map
      (fun e => (⟨e, expr release none e⟩ : Term)), v.Steady (.numbering False) := by
    intro v hv
    obtain ⟨e, he, rfl⟩ := Option.map_eq_some_iff.1 hv
    exact steady_value (.inr (h e he))
  unfold constant
  rw [variable_eq]
  refine Eq.trans (iota_of_still (scripted_variableValue local_ (fun h => False.elim h)
    (fun t _ => spelled_numbering t) hvalue
    (fun _ t _ => Expr.certain_of_all (fun _ => trivial) t) .all []) place _) ?_
  exact (iota_variableType _).trans iota_variableWords

/-- The number is still there while no value has a function literal. -/
theorem iota_constantsBefore
    (h : ∀ e ∈ (Spec.nearestValues (specs.take (i + 1))).take p, e.LacksFunctions) :
    (constantsBefore release local_ specs i (names.take p) place desk).2.program.iota = some i := by
  induction p with
  | zero => rfl
  | succ p ih =>
    have hbefore := ih fun e he => h e (List.take_subset_take_left _ (Nat.le_succ p) he)
    cases hname : names[p]? with
    | none =>
      rw [List.take_add_one, hname, Option.toList_none, List.append_nil]
      exact hbefore
    | some name =>
      rw [constantsBefore_succ hname]
      show ((if name == "_" then pure () else constant local_ specs i name p _ : Emit Unit) place
        (constantsBefore release local_ specs i (names.take p) place desk).2).2.program.iota = _
      split
      · exact hbefore
      · refine (iota_constant fun e he => h e ?_).trans hbefore
        exact List.mem_of_getElem? ((List.getElem?_take_of_lt (Nat.lt_succ_self p)).trans he)

/-- Declarations in function literals may take the number away. -/
theorem iota_constantsBefore_cases (waiting : Nat) :
    (constantsBefore (releaseAt waiting) local_ specs i names place desk).2.program.iota = some i ∨
      (constantsBefore (releaseAt waiting) local_ specs i names place desk).2.program.iota =
        none := by
  have hr : Release.Steady (.numbering True) (releaseAt waiting) :=
    steady_releaseAt waiting trivial (fun _ => Or.inl trivial) (fun _ h => h) (Or.inl trivial)
  refine iota_of_numbering (scripted_variableGroup true local_ trivial (fun _ _ h => False.elim h)
    (fun t _ => spelled_numbering t) (fun v hv => ?_)
    (fun _ t _ => Expr.certain_of_all (fun _ => trivial) t) .all [] trivial) place _
  rw [terms_eq_map] at hv
  obtain ⟨e, -, rfl⟩ := List.mem_map.1 hv
  exact steady_value (.inl hr)

theorem constant_numbered (hr : place.receiver.map (·.name) ≠ some "iota")
    (he : ∀ e ∈ (Spec.nearestValues (specs.take (i + 1)))[p]?, e.IsArithmetic)
    (hn : desk.program.iota = some n) :
    constant local_ specs i name p (expr release none) place desk =
      constant local_ specs i name p (fun e => expr release none (e.numbered n)) place desk := by
  unfold constant
  generalize Spec.nearestType (specs.take (i + 1)) = type
  cases hvalue : (Spec.nearestValues (specs.take (i + 1)))[p]? with
  | none => rfl
  | some e =>
    let head (w : Emit Unit) : Emit Unit := do
      variableWords true local_ name
      variableType local_ type name (some ⟨e, w⟩)
      print " "
      print name
      print " = "
    have hsplit : ∀ w, variable_ true local_ type name (some ⟨e, w⟩) place desk =
        endStatement place (w place (head w place desk).2).2 := by
      intro w
      rw [variable_eq]
      rfl
    have hhead : ∀ w w', head w = head w' := by
      cases type <;> exact fun _ _ => rfl
    have hiota : ∀ w, (head w place desk).2.program.iota = some n := fun w =>
      (iota_print _).trans ((iota_print _).trans ((iota_print _).trans
        ((iota_variableType _).trans (iota_variableWords.trans hn))))
    rw [Option.map_some, Option.map_some, hsplit, hsplit,
      expr_numbered hr e (he e hvalue) none _ (hiota _),
      hhead (expr release none e) (expr release none (e.numbered n))]

/-! ## Constants are numbered -/

/-- A group of constants is written line by line and name by name, blank names left out. A name has
the value at its position in the nearest line with values, and no value if there is none. As long as
the values before it in the line have no function literals, `iota` is the number of the line. A
function literal may take the number away, and a value is only written with the number while it is
there. -/
theorem constants_are_numbered_until_a_function_declares_values (waiting : Nat)
    (local_ grouped : Bool) (specs : List Spec) (i : Nat) (names : List String)
    (own : Option Expr) (given : List Expr) (hline : specs[i]? = some (.value names own given)) :
    let release := releaseAt waiting
    let before (p : Nat) := constantsBefore release local_ specs i (names.take p)
    let values := Spec.nearestValues (specs.take (i + 1))
    genDecl release local_ (.mk .const grouped (specs.take (i + 1))) = (do
      before names.length
      note (.iota none)) ∧
    ∀ p name, names[p]? = some name →
      (name = "_" → before (p + 1) = before p) ∧
      (name ≠ "_" → before (p + 1) = (do
        before p
        constant local_ specs i name p (expr release none))) ∧
      ∀ (place : Place) (desk : Desk),
        let reached := (before p place desk).2
        ((∀ e ∈ values.take p, e.LacksFunctions) → reached.program.iota = some i) ∧
        (reached.program.iota = some i ∨ reached.program.iota = none) ∧
        (reached.program.iota = some i → place.receiver.map (·.name) ≠ some "iota" →
          (∀ e ∈ values[p]?, e.IsArithmetic) →
            constant local_ specs i name p (expr release none) place reached =
              constant local_ specs i name p (fun e => expr release none (e.numbered i)) place
                reached) := by
  intro release before values
  refine ⟨?_, fun p name hname => ⟨fun hblank => ?_, fun hnamed => ?_, fun place desk => ?_⟩⟩
  · show _ = (do constantsBefore release local_ specs i (names.take names.length); note _)
    rw [List.take_length]
    exact genDecl_take hline
  · subst hblank
    exact constantsBefore_succ hname
  · refine (constantsBefore_succ hname).trans ?_
    rw [if_neg (by simpa using hnamed)]
  · refine ⟨fun h => iota_constantsBefore h, iota_constantsBefore_cases waiting, ?_⟩
    exact fun hn hr he => constant_numbered hr he hn

/-- The lines `a = iota` and `b, c = unsafe.Sizeof(func() { const d = 1 }), iota`. -/
def interrupted : List Spec :=
  let sized : Expr := .funcLit (.mk [] [])
    [.decl (.mk .const false [.value ["d"] none [.lit .int "1"]])]
  [.value ["a"] none [.ident "iota"],
    .value ["b", "c"] none [.call (.selector (.ident "unsafe") "Sizeof") [sized] false,
      .ident "iota"]]

/-- The types stand in holes. -/
theorem interrupted_line_loses_its_number :
    let release := releaseAt 0
    let place : Place := { draft := 0, tabs := 0, unit := 0, scope := 0 }
    let desk : Desk := ⟨{ drafts := Drafts.new {} }, false⟩
    let reached := (constantsBefore release true interrupted 0 [] place desk).2
    constant true interrupted 0 "a" 0 (expr release none) place reached =
      constant true interrupted 0 "a" 0 (fun e => expr release none (e.numbered 0)) place reached ∧
    (constantsBefore release true interrupted 1 ["b"] place desk).2.program.iota = none ∧
    (genDecl release true (.mk .const true interrupted) place desk).2.program.drafts.text 0 =
      "final  a = 0;\nfinal  b = unsafe.Sizeof(() -> \x7b\n\tfinal  d = 1;\n\x7d);\n" ++
        "final  c = iota;\n" := by
  refine ⟨?_, ?_, ?_⟩
  · obtain ⟨-, hall⟩ := constants_are_numbered_until_a_function_declares_values 0 true true
      interrupted 0 ["a"] none [.ident "iota"] rfl
    obtain ⟨-, -, hreached⟩ := hall 0 "a" rfl
    obtain ⟨hkept, -, hnumbered⟩ := hreached _ _
    refine hnumbered (hkept fun _ h => by cases h) ?_ ?_
    · exact fun h => by cases h
    · rintro _ ⟨⟩
      trivial
  · decide +kernel
  · decide +kernel

end Conversion

end GoToJava
