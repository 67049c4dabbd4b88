import GoToJava.Proofs.Forms.Isolation
import GoToJava.Proofs.Program.Titles

/-!
Callees. A name that is called with one argument may as well be a type. The call is written as a
conversion once the program knows a type with the title of the name, whichever package declares it.
-/

namespace GoToJava

open Go (Decl Expr File Spec Stmt title)
open Emit Conversion Formula

/-! ## Calls -/

namespace Forms

/-- The text before the arguments of a call: the class of the package, if the call stands in another
class, and the name. -/
def calleeText (p : Program) (place : Place) (f : String) : String :=
  (match packageClass? p place (.ident f) with
    | some cls => cls ++ "."
    | none => "") ++ identText p place f

/-- Names that Go declares beforehand and that have forms of their own. -/
def IsPredeclared (f : String) : Prop :=
  Java.isPrimitive f = true ∨ f ∈ ["len", "cap", "make", "new", "panic"] ∨
    Java.calls.contains f = true

variable {place : Place} {desk : Desk} {v : Expr} {value : Emit Unit} {f : String}

theorem encloses_arguments {callee : Emit Unit} {name : String}
    (hcallee : AddsAt place desk callee name) (hv : Worded value) :
    ∃ text, Encloses place desk (callee >>= fun _ => arguments ", " [⟨v, value⟩]) value
      (name ++ "(") text ")" := by
  have hleft := addsAt_print "(" hcallee.opened
  obtain ⟨text, htext⟩ := hv.text hleft.opened
  have hvalue := encloses_after (encloses_self htext) htext.owed (addsAt_print ")" htext.opened)
  have hall := encloses_before hcallee (encloses_before hleft hvalue)
  rw [String.append_empty, String.empty_append] at hall
  exact ⟨text, hall⟩

/-- The two questions of a plain call, and their answers. -/
theorem plainCall_result (place : Place) (desk : Desk) (callee : Term) (args : List Term) :
    (plainCall callee args).result place desk =
      (match (tableName? desk.program place callee.source).bind Java.calls.get? with
        | some form => do
          match form.needs with
          | some i => need i
          | none => pure ()
          print form.method
          arguments (form.separator.getD ", ") args
        | none => do
          match packageClass? desk.program place callee.source with
          | some cls =>
            print cls
            print "."
          | none => pure ()
          callee.write
          arguments ", " args : Emit Unit).result place desk := rfl

theorem encloses_plainCall (hv : Worded value) (hcalls : Java.calls.get? f = none)
    (hopen : desk.program.Open place.draft) :
    ∃ text, Encloses place desk (plainCall ⟨.ident f, ident f⟩ [⟨v, value⟩]) value
      (calleeText desk.program place f ++ "(") text ")" := by
  have htable : (tableName? desk.program place (.ident f)).bind Java.calls.get? = none := hcalls
  have hresult := plainCall_result place desk ⟨.ident f, ident f⟩ [⟨v, value⟩]
  rw [htable] at hresult
  unfold calleeText
  cases hcls : packageClass? desk.program place (.ident f) with
  | none =>
    rw [hcls] at hresult
    obtain ⟨text, hall⟩ := encloses_arguments (v := v) (says_ident f desk (.refl _) hopen).1 hv
    exact ⟨text, encloses_congr hresult (by rwa [String.empty_append])⟩
  | some cls =>
    rw [hcls] at hresult
    obtain ⟨hclass, hmore⟩ := says_print cls desk (.refl _) hopen
    obtain ⟨hdot, hmore⟩ := says_print "." _ hmore hclass.opened
    obtain ⟨text, hall⟩ := encloses_arguments (v := v) (says_ident f _ hmore hdot.opened).1 hv
    have hbefore := encloses_before hclass (encloses_before hdot hall)
    refine ⟨text, encloses_congr hresult ?_⟩
    simp only [String.append_assoc] at hbefore ⊢
    exact hbefore

theorem builtin?_of_not_predeclared {value : Term} (h : ¬IsPredeclared f) :
    builtin? f [value] = none := by
  have hname : ∀ name ∈ ["len", "cap", "make", "new", "panic"], f ≠ name :=
    fun name hname hf => h (Or.inr (Or.inl (hf ▸ hname)))
  unfold builtin?
  split
  · exact absurd rfl (hname "len" (by decide))
  · exact absurd rfl (hname "cap" (by decide))
  · exact absurd rfl (hname "make" (by decide))
  · exact absurd rfl (hname "new" (by decide))
  · rename_i hargs
    cases hargs
  · exact absurd rfl (hname "panic" (by decide))
  · rfl

end Forms

namespace Program

variable {place : Place} {desk : Desk} {f : String}

theorem isTypeCallee_iff {p : Program} (hvar : p.isVar place f = false) :
    p.isTypeCallee place (.ident f) = true ↔ Java.isPrimitive f = true ∨ p.KnowsType (title f) := by
  unfold isTypeCallee KnowsType
  rw [hvar]
  simp only [Bool.not_false, Bool.true_and, Bool.or_eq_true, or_assoc]

/-- A call of a name that no type and nothing beforehand goes by is written as a call. -/
theorem encloses_call (n : Nat) (v : Expr) (spread : Bool) (hopen : desk.program.Open place.draft)
    (hvar : desk.program.isVar place f = false) (hunknown : ¬desk.program.KnowsType (title f))
    (hf : ¬Forms.IsPredeclared f) : ∃ text, Encloses place desk
      (expr (releaseAt n) none (.call (.ident f) [v] spread)) (expr (releaseAt n) none v)
      (Forms.calleeText desk.program place f ++ "(") text ")" := by
  have htype : desk.program.isTypeCallee place (.ident f) = false :=
    Bool.eq_false_iff.2 fun htype => ((isTypeCallee_iff hvar).1 htype).elim
      (fun hprimitive => hf (Or.inl hprimitive)) hunknown
  have hcalls : Java.calls.get? f = none :=
    Option.not_isSome_iff_eq_none.1 fun h => hf (Or.inr (Or.inr h))
  obtain ⟨text, hall⟩ := Forms.encloses_plainCall (v := v) (worded_expr n v) hcalls hopen
  refine ⟨text, encloses_congr (call_of_name htype hvar) ?_⟩
  rw [Forms.builtin?_of_not_predeclared hf]
  exact hall

/-- Calls with one argument are conversions as soon as the program knows a type with the title of
their name, whichever package declares it, and whether or not the package of the call does. Without
such a type they are calls. A program knows no type that its files do not declare; the types of a
file are known once the file is there, and to whatever is written afterwards. -/
theorem calls_turn_into_conversions_once_a_type_has_their_title (f : String) :
    (∀ (n : Nat) (v : Expr) (spread : Bool) (place : Place) (p : Program) (owed : Bool),
      p.Open place.draft → p.isVar place f = false →
      let value := expr (releaseAt n) none v
      let call := expr (releaseAt n) none (.call (.ident f) [v] spread)
      (p.KnowsType (title f) →
        Forms.Converts place ⟨p, owed⟩ (.ident f) v call value) ∧
      (¬p.KnowsType (title f) → ¬Forms.IsPredeclared f →
        ∃ text, Encloses place ⟨p, owed⟩ call value (Forms.calleeText p place f ++ "(") text ")")) ∧
    (∀ calls, (∀ c ∈ calls, ∀ file, c.read = .ok file → file.Lacks (title f)) →
      (discovered calls).Unaware (title f)) ∧
    (∀ (n : Nat) (ss : List Stmt) (place : Place) (desk : Desk),
      desk.program.Unaware (title f) → Stmt.ObeysList (.without (title f)) ss →
      (stmts (releaseAt n) ss place desk).2.program.Unaware (title f)) ∧
    (∀ (commands more : List Command) (c : Call) (file : File) (q : Program),
      (reached commands).phase = .discovery → c.read = .ok file →
      (c.session.run.run (reached commands)).1 = .ok () →
      (∃ d ∈ file.decls, d.Makes (title f)) →
      Steps (fun _ _ => True) (reached (commands ++ .file c :: more)) q →
      q.KnowsType (title f)) := by
  refine ⟨?_, fun calls h => unaware_discovered h, fun n ss place desk hp h =>
    unaware_stmts n h hp, ?_⟩
  · intro n v spread place p owed hopen hvar
    refine ⟨fun hknown => ?_, fun hunknown hf => encloses_call n v spread hopen hvar hunknown hf⟩
    exact Forms.converts_congr (call_of_type ((isTypeCallee_iff hvar).2 (Or.inr hknown)))
      (Forms.converts_conversion (.ident f) ⟨v, _⟩ (worded_expr n v) hopen)
  · intro commands more c file q hphase hread hrun hmakes hsteps
    exact (stable_knowsType _).steps hsteps (knowsType_reached hphase hread hrun hmakes)

/-- A package with the type `P`. -/
def shapes : Call :=
  .tree (fun _ => []) "a/a.go"
    { package := "a"
      imports := []
      decls := [.gen (.mk .type false [.type "P" (.ident "float64") false])] }

/-- Another package with a function `p` that calls itself. -/
def caller : Call :=
  .tree (fun _ => []) "b/b.go"
    { package := "b"
      imports := []
      decls := [.func ⟨none, "p", .mk [.mk ["n"] (.ident "int")] [.mk [] (.ident "int")],
        some [.return [.call (.ident "p") [.ident "n"] false]]⟩] }

theorem lacks_caller (t : String) : ∀ c ∈ [caller], ∀ file, c.read = .ok file → file.Lacks t := by
  intro c hc file hread d hd
  rw [List.mem_singleton.1 hc] at hread
  cases hread
  rw [List.mem_singleton.1 hd]
  intro body hbody
  cases hbody
  exact ⟨⟨fun _ => trivial, ⟨trivial, ⟨trivial, trivial⟩, fun _ => trivial, fun _ _ _ => trivial⟩,
    trivial⟩, trivial⟩

/-- The Java texts, in the order of their units. -/
def texts (calls : List Call) : List String :=
  match translated calls with
  | .ok sources => sources.map (·.text)
  | .error _ => []

/-- The text of the caller, with what `p` returns. -/
def callerText (returned : String) : String :=
  "package b;\n\npublic class B \x7b\n" ++
  "\tprotected static int p(int n) \x7b\n\t\treturn " ++ returned ++ ";\n\t\x7d\n\n\x7d\n"

/-- If the package with the type comes first, `p(n)` becomes a cast; if it comes last, the call
stays a call. -/
theorem p_is_called_until_a_type_has_its_title :
    let place := indentedLine.place
    let value := expr (releaseAt 0) none (.ident "n")
    let call := expr (releaseAt 0) none
      (.call (.ident "p") [.ident "n"] false)
    Forms.Converts place ⟨reached [.file shapes], false⟩ (.ident "p") (.ident "n") call value ∧
      (∃ text, Encloses place ⟨discovered [caller], false⟩ call value
        (Forms.calleeText (discovered [caller]) place "p" ++ "(") text ")") ∧
      (texts [shapes, caller])[1]? = some (callerText "((double) n)") ∧
      (texts [caller, shapes])[0]? = some (callerText "p(n)") := by
  obtain ⟨hcalls, hunaware, -, hknown⟩ := calls_turn_into_conversions_once_a_type_has_their_title
    "p"
  have hopen : (reached [.file shapes]).Open indentedLine.place.draft :=
    ⟨by decide +kernel, by decide +kernel⟩
  have hopen' : (discovered [caller]).Open indentedLine.place.draft :=
    ⟨by decide +kernel, by decide +kernel⟩
  have hvar : (reached [.file shapes]).isVar indentedLine.place "p" = false := by
    decide +kernel
  have hvar' : (discovered [caller]).isVar indentedLine.place "p" = false := by
    decide +kernel
  have hrun : (shapes.session.run.run (reached [])).1 = .ok () := by decide +kernel
  have htitle : title "P" = title "p" := by decide +kernel
  have htype : (reached [.file shapes]).KnowsType (title "p") :=
    hknown [] [] shapes _ _ rfl rfl hrun
      ⟨_, List.mem_cons_self, _, List.mem_cons_self, htitle⟩ .refl
  have hnone := (hunaware [caller] (lacks_caller _)).unknown
  have hname : ¬Forms.IsPredeclared "p" := by
    rintro (h | h | h)
    · exact absurd h (by decide)
    · exact absurd h (by decide)
    · exact absurd h (by decide +kernel)
  have hconverted := (hcalls 0 (.ident "n") false _ _ false hopen hvar).1
  have hkept := (hcalls 0 (.ident "n") false _ _ false hopen' hvar').2
  exact ⟨hconverted htype, hkept hnone hname, by decide +kernel, by decide +kernel⟩

end Program

end GoToJava
