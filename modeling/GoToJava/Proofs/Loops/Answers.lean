import GoToJava.Proofs.Loops.Lore

/-!
Answers of inference. A step of inference knows a type, does not know one, or asks for the type of
another expression. Which of the three it does can be told without writing anything, so the type
that is found is a function of the program. It is the same in two programs that know the same of all
that the expression leads to.
-/

namespace GoToJava

open Go (Expr title)
open Emit

variable {S : Nat → String → Prop} {p q : Program} {α β : Type} {b a : Place} {e : Expr}

/-- What is looked up in programs that know the same is the same. -/
theorem Program.SameLore.akin (h : p.SameLore S q) : p.Akin (fun _ => True) S q where
  unit u := by
    have hunit := h.unit u
    unfold CompilationUnit.SameTables at hunit
    rw [hunit]
  unitIndex := h.unitIndex
  typeUnits := h.typeUnits
  cls c := by
    unfold Program.classAt
    rw [h.classes]
    rfl
  classIndex := h.classIndex
  typeNames name _ := by rw [h.typeNames]
  var := h.var

/-! ## Steps of inference are moves -/

namespace Inference

variable {again known : Answer} {ask : Place → Expr → Option Expr} {style : Style}

/-- The questions have these answers, and asking them is only looking around. -/
structure Asks (p : Program) (again : Answer) (ask : Place → Expr → Option Expr) : Prop where
  quiet : ∀ e, Parallel .quiet {} [] [] Eq (again .atOnce e) (again .atOnce e)
  answer : ∀ a b : Place, a.SameSight b → ∀ e (desk : Desk), p.SameLore everywhere desk.program →
    (inspect (again .atOnce e) b desk).1.1 = ask a e

/-- The action looks around, and then it makes the move. -/
def ComesTo (p : Program) (place : Place) (again known : Answer) (style : Style)
    (x : Emit (Option Expr)) (move : Move) : Prop :=
  ∃ look : Emit Unit, Peeks look ∧ ∀ desk : Desk, p.SameLore everywhere desk.program →
    x place desk = move.run again known style place (look place desk).2

/-- The answer to the question of a step. -/
def answer? (p : Program) (ask : Place → Expr → Option Expr) (place : Place) (e : Expr) :
    Option Expr :=
  (question p place e).bind fun (unit, e) => ask (abroad p unit place) e

variable (hag : Asks p again ask) (hab : a.SameSight b)
include hag hab

theorem source_eq (e : Expr) {desk : Desk} (hsame : p.SameLore everywhere desk.program) :
    (source again e b desk).1 = source? p (ask a e) := by
  have hafter := hsame.trans ((peeks_inspect (hag.quiet e)).mentions b desk).sameLore
  show Option.map _ (inspect (again .atOnce e) b desk).1.1 = _
  rw [hag.answer a b hab e desk hsame]
  exact source?_congr hafter.akin fun _ => trivial

omit hab in
theorem peeks_asked (asking : Option (Option Nat × Expr)) : Peeks (asked p again asking) := by
  match asking with
  | none => exact peeks_pure _
  | some (unit, e) =>
    refine peeks_bind (peeks_within (fun _ => ?_) (peeks_inspect (hag.quiet e))) fun _ =>
      peeks_pure _
    cases unit <;> rfl

theorem asked_find {desk : Desk} (hsame : p.SameLore everywhere desk.program) :
    (asked p again (question p a e) b desk).1 = answer? p ask a e := by
  unfold answer?
  match question p a e with
  | none => rfl
  | some (unit, next) =>
    have hthere : (abroad p unit a).SameSight (abroad p unit b) := by
      cases unit with
      | none => exact hab
      | some u => exact ⟨rfl, rfl, rfl⟩
    exact hag.answer _ _ hthere next desk hsame

/-- A step of inference makes the move that the answer to its question leads to. -/
theorem comesTo_step (e : Expr) :
    ComesTo p b again known style (step again known style e) (move p a (answer? p ask a e) e) := by
  have hnames : ∀ scope, e.Spelled (everywhere scope) := fun _ => e.spelled_of_all fun _ => trivial
  have hpeeks := peeks_asked hag (question p a e)
  refine ⟨asked p again (question p a e) >>= fun _ => pure (),
    peeks_bind hpeeks fun _ => peeks_pure _, fun desk hsame => ?_⟩
  have hafter := hsame.trans (hpeeks.mentions b desk).sameLore
  have hquestion := question_congr (fun _ => trivial) hsame.akin hab (hnames _)
  have hmove : ∀ answer, move _ b answer e = move p a answer e := fun _ =>
    move_congr (fun _ => trivial) p.closed_everywhere hafter.akin hab (hnames _)
  show (do
    let answer ← asked desk.program again (question desk.program b e)
    (move (← program) (← read) answer e).run again known style) b desk = _
  rw [hquestion, asked_eq hsame.akin, ← hmove, ← asked_find hag hab hsame]
  rfl

end Inference

/-! ## Findings -/

/-- A type that is found, and how many names may still be followed when it is written. -/
structure Finding where
  type : Expr
  room : Nat

/-- What inference finds in at most `room` steps. -/
def Program.find (p : Program) : Nat → Place → Expr → Option Finding
  | 0, _, _ => none
  | room + 1, place, e =>
    match Inference.move p place
        (Inference.answer? p (fun place e => (p.find room place e).map (·.type)) place e) e with
    | .unknown => none
    | .known type => some ⟨type, room⟩
    | .again e => p.find room place e

section

open Inference (Asks ComesTo comesTo_step)

variable {a b : Place} {room : Nat}

/-- Looking for a type is asking, if the type is the one that is found. -/
theorem asks_of_find (h : ∀ a b : Place, a.SameSight b → ∀ e (desk : Desk),
      p.SameLore everywhere desk.program →
        (inferAt room .atOnce e b desk).1 = (p.find room a e).map (·.type)) :
    Asks p (inferAt room) fun place e => (p.find room place e).map (·.type) where
  quiet e := quiet_question room .atOnce e
  answer a b hab e desk hsame :=
    h a (scratchCursor b desk.program).place ⟨hab.unit, hab.scope, hab.receiver⟩ e
      ⟨{ desk.program with drafts := desk.program.drafts.new }, false⟩
      (hsame.trans (desk.program.sameLore_drafts _ _))

/-- The answer is the type that is found, unless what it holds is asked for. -/
theorem inferAt_find (room : Nat) (hab : a.SameSight b) (style : Style)
    (hwhole : style.elementOnly = false) (e : Expr) {desk : Desk}
    (hsame : p.SameLore everywhere desk.program) :
    (inferAt room style e b desk).1 = (p.find room a e).map (·.type) := by
  induction room generalizing a b style e desk with
  | zero => rfl
  | succ room ih =>
    have hasks := asks_of_find fun a b hab e desk hsame => ih hab .atOnce rfl e hsame
    obtain ⟨look, hpeeks, hrun⟩ : ComesTo p b (inferAt room) (Inference.knownAt room) style _ _ :=
      comesTo_step hasks hab e
    refine (congrArg Prod.fst (hrun desk hsame)).trans ?_
    rw [Program.find]
    cases Inference.move p a _ e with
    | unknown => rfl
    | known type =>
      show some (if style.elementOnly then _ else type) = _
      rw [hwhole]
      rfl
    | again e => exact ih hab style hwhole _ (hsame.trans (hpeeks.mentions b desk).sameLore)

theorem asks_inferAt (room : Nat) :
    Asks p (inferAt room) fun place e => (p.find room place e).map (·.type) :=
  asks_of_find fun _ _ hab e _ hsame => inferAt_find room hab .atOnce rfl e hsame

variable (room) in
theorem comesTo_inferAt (hab : a.SameSight b) (style : Style) (e : Expr) :
    ComesTo p b (inferAt room) (Inference.knownAt room) style (inferAt (room + 1) style e)
      (Inference.move p a
        (Inference.answer? p (fun place e => (p.find room place e).map (·.type)) a e) e) :=
  comesTo_step (asks_inferAt room) hab e

end

/-! ## The same answers -/

theorem Inference.answer?_congr {ask ask' : Place → Expr → Option Expr} (hclosed : p.Closed S)
    (h : p.SameLore S q) (hab : a.SameSight b)
    (hask : ∀ a b e, Place.SameSight a b → e.Spelled (S a.scope) → ask' b e = ask a e)
    (he : e.Spelled (S a.scope)) : answer? q ask' b e = answer? p ask a e := by
  unfold answer?
  rw [question_congr (fun _ => trivial) h.akin hab he]
  cases hquestion : question p a e with
  | none => rfl
  | some next =>
    obtain ⟨unit, next⟩ := next
    dsimp only [Option.bind_some]
    rw [abroad_eq h.akin]
    rcases question_cases he hquestion with ⟨hunit, hpart⟩ | ⟨package, field, u, hn, hunit, hu, hv⟩
    · rw [hunit]
      exact hask _ _ _ hab hpart
    · rw [hunit]
      exact hask _ _ _ ⟨rfl, rfl, rfl⟩ (hclosed.value _ _ _ _ _ hn hu hv)

/-- The type that is found depends on no name that the expression does not lead to. -/
theorem Program.find_congr (room : Nat) (hclosed : p.Closed S) (h : p.SameLore S q)
    (hab : a.SameSight b) (he : e.Spelled (S a.scope)) : q.find room b e = p.find room a e := by
  induction room generalizing a b e with
  | zero => rfl
  | succ room ih =>
    have hask : ∀ a b e, Place.SameSight a b → e.Spelled (S a.scope) →
        (q.find room b e).map (·.type) = (p.find room a e).map (·.type) :=
      fun a b e hab he => congrArg (Option.map _) (ih hab he)
    have hanswer := Inference.answer?_congr hclosed h hab hask he
    dsimp only [find]
    rw [hanswer, Inference.move_congr (fun _ => trivial) hclosed h.akin hab he]
    split
    · rfl
    · rfl
    · rename_i hagain
      exact ih hab (Inference.spelled_of_again (hclosed.bound _) he hagain)

/-- The type of an expression, as far as names are followed to it. -/
def Program.source? (p : Program) (place : Place) (e : Expr) : Option Expr :=
  (p.find maxDepth place e).map fun f => p.unalias f.type.stripPointer

/-- The type that the forms go by is the one that names are followed to. -/
theorem sourceType_find {place : Place} {desk : Desk} :
    (sourceType e place desk).1 = desk.program.source? place e := by
  refine (Inference.source_eq (asks_inferAt Program.maxDepth) (a := place) ⟨rfl, rfl, rfl⟩ e
    (.refl _ desk.program)).trans ?_
  unfold Inference.source? Program.source?
  rw [Option.map_map]
  rfl

theorem Program.source?_congr (hclosed : p.Closed S) (h : p.SameLore S q) (hab : a.SameSight b)
    (he : e.Spelled (S a.scope)) : q.source? b e = p.source? a e := by
  unfold source?
  rw [find_congr _ hclosed h hab he]
  exact congrArg (Option.map · _) (funext fun f => h.akin.unalias_of_all (fun _ => trivial) _)

/-- The type of an expression depends on no name that the expression does not lead to. -/
theorem sourceType_congr {desk desk' : Desk} (hab : a.SameSight b) (hclosed : desk.program.Closed S)
    (he : e.Spelled (S a.scope)) (h : desk.program.SameLore S desk'.program) :
    (sourceType e a desk).1 = (sourceType e b desk').1 :=
  sourceType_find.trans ((Program.source?_congr hclosed h hab he).symm.trans sourceType_find.symm)

end GoToJava
