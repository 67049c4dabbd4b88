import GoToJava.Proofs.Program.Steps

/-!
Agreement on names. Two programs are the same but for what some names stand for. As long as nothing
that is written depends on these names, the programs stay the same but for the names.
-/

namespace GoToJava

open Go (Expr FuncDecl Rules title)
open Emit Program

/-! ## Callees that are no types -/

/-- The callee is no type, and not named like one that may be declared. -/
def Go.Expr.NoType (types : String → Prop) : Expr → Prop
  | .paren e | .star e => e.NoType types
  | .ident name => Java.isPrimitive name = false ∧ ¬types (title name)
  | .selector (.ident package) name => Java.types.contains (package ++ "." ++ name) = false
  | .structType _ => True
  | e => e.isTypeExpr = false

theorem Program.isTypeCallee_of_noType {types : String → Prop} {p : Program} (place : Place)
    (hnames : ∀ name, p.typeNames.contains name = true → types name)
    (hclasses : ∀ name, p.classIndex.contains name = true → types name) :
    ∀ e : Expr, e.NoType types → p.isTypeCallee place e = false
  | .paren e, h | .star e, h => isTypeCallee_of_noType place hnames hclasses e h
  | .ident name, h => by
    have hname : p.typeNames.contains (title name) = false :=
      Bool.eq_false_iff.2 fun hc => h.2 (hnames _ hc)
    have hclass : p.classIndex.contains (title name) = false :=
      Bool.eq_false_iff.2 fun hc => h.2 (hclasses _ hc)
    unfold isTypeCallee
    rw [h.1, hname, hclass]
    simp
  | .selector base name, h => by
    cases base with
    | ident package => exact h
    | _ => rfl
  | .structType _, _ => rfl
  | .lit .., h | .composite .., h | .funcLit .., h | .index .., h | .slice .., h | .assert .., h
  | .call .., h | .unary .., h | .binary .., h | .keyValue .., h | .arrayType .., h
  | .mapType .., h | .funcType _, h | .interfaceType _, h | .ellipsis _, h | .chanType _, h
  | .unsupported _, h => h

/-! ## Programs with other names -/

namespace Program

/-- The program in which names stand for what the table says. -/
def withNames (p : Program) (names : Table Expr) : Program := { p with typeNames := names }

@[simp]
theorem drafts_withNames (p : Program) (names : Table Expr) :
    (p.withNames names).drafts = p.drafts := rfl

@[simp]
theorem unitIndex_withNames (p : Program) (names : Table Expr) :
    (p.withNames names).unitIndex = p.unitIndex := rfl

@[simp]
theorem units_withNames (p : Program) (names : Table Expr) :
    (p.withNames names).units = p.units := rfl

@[simp]
theorem unit_withNames (p : Program) (names : Table Expr) (u : Nat) :
    (p.withNames names).unit u = p.unit u := rfl

@[simp]
theorem phase_withNames (p : Program) (names : Table Expr) :
    (p.withNames names).phase = p.phase := rfl

theorem aside_withNames (names : Table Expr) : Aside (·.withNames names) :=
  ⟨fun _ _ _ => rfl, fun _ _ => rfl, fun _ _ _ => rfl⟩

/-- The programs have the same names, the same classes at the same places, and the same methods
wait. -/
structure SameNames (p q : Program) : Prop where
  typeNames : q.typeNames = p.typeNames
  phase : q.phase = p.phase
  classIndex : q.classIndex = p.classIndex
  parked : q.parked = p.parked
  implementsAt : ∀ c, (q.classAt c).implementsAt = (p.classAt c).implementsAt
  functionsAt : ∀ c, (q.classAt c).functionsAt = (p.classAt c).functionsAt

theorem SameNames.refl (p : Program) : p.SameNames p :=
  ⟨rfl, rfl, rfl, rfl, fun _ => rfl, fun _ => rfl⟩

theorem SameNames.trans {p q r : Program} (h : p.SameNames q) (h' : q.SameNames r) :
    p.SameNames r :=
  ⟨h'.typeNames.trans h.typeNames, h'.phase.trans h.phase, h'.classIndex.trans h.classIndex,
    h'.parked.trans h.parked, fun c => (h'.implementsAt c).trans (h.implementsAt c),
    fun c => (h'.functionsAt c).trans (h.functionsAt c)⟩

theorem sameNames_of_writes {p q : Program} (h : ∃ drafts refused, q = { p with drafts, refused }) :
    p.SameNames q := by
  obtain ⟨drafts, refused, rfl⟩ := h
  exact ⟨rfl, rfl, rfl, rfl, fun _ => rfl, fun _ => rfl⟩

theorem sameNames_modifyClass {f : JavaClass → JavaClass} (p : Program) (id : Nat)
    (hi : ∀ c, (f c).implementsAt = c.implementsAt) (hf : ∀ c, (f c).functionsAt = c.functionsAt) :
    p.SameNames (p.modifyClass id f) :=
  ⟨rfl, rfl, rfl, rfl,
    fun c => classAt_modifyClass_of (P := fun x => x.implementsAt = (p.classAt c).implementsAt) rfl
      fun x hx => (hi x).trans hx,
    fun c => classAt_modifyClass_of (P := fun x => x.functionsAt = (p.classAt c).functionsAt) rfl
      fun x hx => (hf x).trans hx⟩

/-- Notes change no names, except those of types and of methods that wait. -/
theorem sameNames_note {n : Note} (cursor : Cursor) (p : Program)
    (ht : ∀ name type, n ≠ .typeName name type) (hp : ∀ cls decl, n ≠ .park cls decl) :
    p.SameNames (n.make cursor p) := by
  cases n with
  | typeName name type => exact absurd rfl (ht name type)
  | park cls decl => exact absurd rfl (hp cls decl)
  | method cls name result | conformance cls name =>
    exact sameNames_modifyClass p _ (fun _ => rfl) fun _ => rfl
  | package name =>
    simp only [Note.make]
    split
    · exact ⟨rfl, rfl, rfl, rfl, fun _ => rfl, fun _ => rfl⟩
    · exact .refl p
  | _ => exact ⟨rfl, rfl, rfl, rfl, fun _ => rfl, fun _ => rfl⟩

/-- Notes about anything else do not see what types are named. -/
theorem note_withNames {n : Note} (cursor : Cursor) (p : Program) (names : Table Expr)
    (ht : ∀ name type, n ≠ .typeName name type) :
    n.make cursor (p.withNames names) = (n.make cursor p).withNames names := by
  cases n with
  | typeName name type => exact absurd rfl (ht name type)
  | package name =>
    have hname : (p.withNames names).importName cursor.place name =
        p.importName cursor.place name := rfl
    simp only [Note.make]
    rw [hname]
    split <;> rfl
  | _ => rfl

/-- The unit of an exported type is found or started whatever types are named. -/
theorem typeUnit_withNames (p : Program) (place : Place) (name : String) (names : Table Expr) :
    (p.withNames names).typeUnit place name =
      ((p.typeUnit place name).1, (p.typeUnit place name).2.withNames names) := by
  have hstart : ∀ dir package,
      ((p.withNames names).newUnit dir name false (some package)).startUnit p.units.size (pure ()) =
      ((p.newUnit dir name false (some package)).startUnit p.units.size (pure ())).withNames
        names := fun dir package =>
    startUnit_aside (aside_withNames names) (p.newUnit dir name false (some package)) p.units.size
      (.pure ())
  unfold typeUnit
  simp only [unit_withNames, units_withNames, unitIndex_withNames]
  cases p.unitIndex.get? (unitKey (p.unit (p.unit place.unit).packageUnit).dir name) with
  | some id => rfl
  | none =>
    rw [hstart]
    generalize startUnit (newUnit p _ _ _ _) _ _ = q
    rfl

theorem sameNames_newUnit (p : Program) (dir name : String) (library : Bool)
    (package : Option Nat) : p.SameNames (p.newUnit dir name library package) :=
  ⟨rfl, rfl, rfl, rfl, fun _ => rfl, fun _ => rfl⟩

theorem sameNames_startUnit {text : Emit Unit} (p : Program) (id : Nat)
    (ht : Jots (fun _ => True) text) : p.SameNames (p.startUnit id text) := by
  obtain ⟨drafts, refused, imports, h⟩ := p.startUnit_eq id ht
  rw [h]
  exact ⟨rfl, rfl, rfl, rfl, fun _ => rfl, fun _ => rfl⟩

theorem sameNames_typeUnit (p : Program) (place : Place) (name : String) :
    p.SameNames (p.typeUnit place name).2 := by
  unfold typeUnit
  dsimp only
  split
  · exact .refl p
  · have h := (sameNames_newUnit p (p.unit (p.unit place.unit).packageUnit).dir name false
      (some (p.unit place.unit).packageUnit)).trans
      (sameNames_startUnit _ p.units.size (.pure ()))
    generalize startUnit _ _ _ = q at h ⊢
    exact ⟨h.typeNames, h.phase, h.classIndex, h.parked, h.implementsAt, h.functionsAt⟩

theorem scratch_typeUnit (p : Program) (place : Place) (name : String) :
    (p.typeUnit place name).1.place.scratch = false := by
  unfold typeUnit
  dsimp only
  split <;> rfl

end Program

/-! ## Names -/

/-- What is known of the names of types, and what may be written meanwhile. -/
structure Naming where
  rules : Rules
  /-- What names stand for in the second program that the first one does not know. -/
  given : Table Expr
  /-- The titles that may be declared as types. -/
  types : String → Prop
  /-- Names that stand for the same in both programs, as do all names in what they stand for. -/
  settled : String → Prop
  /-- Text that depends on declarations may be written at once. -/
  eager : Prop
  lax : eager → rules.Lax
  clear : eager → ∀ name, settled name
  apart : ∀ name, settled name → given.get? name = none
  literal : ∀ t, rules.literal t → t.Certain settled
  callee : ∀ e, rules.callee e → eager ∨ e.NoType types
  named : ∀ name t, rules.named name t →
    given.get? name = none ∧ (eager ∨ types name ∧ (settled name → t.Certain settled))
  cls : ∀ name, rules.cls name → eager ∨ types name

namespace Naming

variable {N : Naming}

/-- What is known of a program while text is put off. -/
structure Knows (N : Naming) (p : Program) : Prop where
  typeNames : ∀ name t, p.typeNames.get? name = some t →
    N.types name ∧ (N.settled name → t.Certain N.settled)
  classIndex : ∀ name, p.classIndex.contains name = true → N.types name
  parked : ∀ m ∈ p.parked, m.decl.Obeys N.rules
  implementsAt : ∀ c, (p.classAt c).implementsAt.place.scratch = false
  functionsAt : ∀ c, (p.classAt c).functionsAt.place.scratch = false

/-- How two programs are looked at that agree on names. -/
def outlook (N : Naming) : Outlook where
  rules := N.rules
  eager := N.eager
  methods := True
  conforms := True
  twin place place' := place' = place ∧ (N.eager ∨ place.scratch = false)
  settled := N.settled
  knows p := N.eager ∨ N.Knows p
  clear := N.clear
  literal := N.literal
  certain p hp name t hname ht := by
    rcases hp with he | hp
    · exact Expr.certain_of_all (N.clear he) t
    · exact (hp.typeNames name t ht).2 hname
  callee e he := by
    by_cases heager : N.eager
    · exact .inl heager
    · refine .inr fun place p hp => ?_
      have hp := hp.resolve_left heager
      refine p.isTypeCallee_of_noType place (fun name h => ?_) hp.classIndex e
        ((N.callee e he).resolve_left heager)
      obtain ⟨t, ht⟩ := Option.isSome_iff_exists.1 h
      exact (hp.typeNames name t ht).1
  parked _ p hp m hm := by
    rcases hp with he | hp
    · exact Go.FuncDecl.obeys_of_lax (N.lax he) m.decl
    · exact hp.parked m hm

/-- The program and the one with these names instead agree. -/
structure Agrees (N : Naming) (p : Program) (names : Table Expr) : Prop where
  same : ∀ name, N.given.get? name = none → names.get? name = p.typeNames.get? name
  given : ∀ name t, N.given.get? name = some t → names.get? name = some t
  phase : N.eager ∨ p.phase = .discovery
  first : N.outlook.knows p
  second : N.outlook.knows (p.withNames names)

variable {p : Program} {names : Table Expr}

theorem Agrees.like (h : N.Agrees p names) : p.Like N.settled (p.withNames names) :=
  { Program.Like.refl N.settled p with
    typeNames := fun name hname => h.same name (N.apart name hname) }

/-- What is known of a program is about few of its parts. -/
theorem knows_of_same {q : Program} (h : N.outlook.knows p) (hsame : p.SameNames q) :
    N.outlook.knows q := by
  refine h.imp_right fun h => ⟨?_, ?_, ?_, fun c => ?_, fun c => ?_⟩
  · rw [hsame.typeNames]
    exact h.typeNames
  · rw [hsame.classIndex]
    exact h.classIndex
  · rw [hsame.parked]
    exact h.parked
  · rw [hsame.implementsAt]
    exact h.implementsAt c
  · rw [hsame.functionsAt]
    exact h.functionsAt c

theorem agrees_of_same {q : Program} (h : N.Agrees p names) (hsame : p.SameNames q) :
    N.Agrees q names := by
  refine ⟨?_, h.given, ?_, knows_of_same h.first hsame, knows_of_same h.second ⟨rfl, hsame.phase,
    hsame.classIndex, hsame.parked, hsame.implementsAt, hsame.functionsAt⟩⟩
  · rw [hsame.typeNames]
    exact h.same
  · rw [hsame.phase]
    exact h.phase

/-! ## Actions -/

variable {α β : Type}

/-- The actions do the same in programs that agree, but for the names. -/
def Mimics (N : Naming) (R : α → α → Prop) (x y : Emit α) : Prop :=
  ∀ (place : Place) (p : Program) (names : Table Expr) (owed : Bool),
    N.eager ∨ place.scratch = false → N.Agrees p names →
    ∃ names', R (x place ⟨p, owed⟩).1 (y place ⟨p.withNames names, owed⟩).1 ∧
      (y place ⟨p.withNames names, owed⟩).2 =
        ⟨(x place ⟨p, owed⟩).2.program.withNames names', (x place ⟨p, owed⟩).2.owed⟩ ∧
      N.Agrees (x place ⟨p, owed⟩).2.program names'

section

variable {R : α → α → Prop} {S : β → β → Prop}

theorem mimics_pure {v w : α} (h : R v w) : N.Mimics R (pure v) (pure w) :=
  fun _ _ names _ _ hp => ⟨names, h, rfl, hp⟩

theorem mimics_bind {x y : Emit α} {f g : α → Emit β} (hx : N.Mimics R x y)
    (hf : ∀ v w, R v w → N.Mimics S (f v) (g w)) : N.Mimics S (x >>= f) (y >>= g) := by
  intro place p names owed hplace hp
  obtain ⟨names', hv, hdesk, hp'⟩ := hx place p names owed hplace hp
  have h := hf _ _ hv place _ names' (x place ⟨p, owed⟩).2.owed hplace hp'
  rw [← hdesk] at h
  exact h

end

/-- What is only written does not see names, and changes none. -/
theorem mimics_of_jots {x : Emit α} (hx : Jots (fun _ => True) x) : N.Mimics Eq x x := by
  intro place p names owed _ hp
  have h := blind_of_jots (aside_withNames names) hx place ⟨p, owed⟩
  rw [h]
  exact ⟨names, rfl, rfl, agrees_of_same hp (sameNames_of_writes (hx.onlyWrites place ⟨p, owed⟩))⟩

theorem agrees_drafts (drafts : Drafts Pending) (hp : N.Agrees p names) :
    N.Agrees { p with drafts } names :=
  agrees_of_same hp ⟨rfl, rfl, rfl, rfl, fun _ => rfl, fun _ => rfl⟩

theorem agrees_typeName {name : String} {type : Expr} (h : N.rules.named name type)
    (hp : N.Agrees p names) :
    N.Agrees { p with typeNames := p.typeNames.set name type } (names.set name type) := by
  obtain ⟨hnone, hknown⟩ := N.named name type h
  -- The same entry is new in both tables.
  have hknows : ∀ {q : Program}, N.outlook.knows q →
      N.outlook.knows { q with typeNames := q.typeNames.set name type } := by
    intro q hq
    by_cases he : N.eager
    · exact .inl he
    · refine .inr { hq.resolve_left he with typeNames := ?_ }
      intro other t ht
      rw [Table.get?_set] at ht
      split at ht
      · rename_i hother
        cases ht
        rw [hother]
        exact hknown.resolve_left he
      · exact (hq.resolve_left he).typeNames other t ht
  refine ⟨?_, ?_, hp.phase, hknows hp.first, hknows hp.second⟩
  · intro other hother
    rw [Table.get?_set, Table.get?_set, hp.same other hother]
  · intro other t ht
    rw [Table.get?_set, if_neg, hp.given other t ht]
    rintro rfl
    rw [hnone] at ht
    cases ht

/-- A note that names types and parks methods as the rules say. -/
theorem mimics_note {n : Note}
    (hnamed : ∀ name type, n = .typeName name type → N.rules.named name type)
    (hparked : ∀ cls decl, n = .park cls decl → decl.Obeys N.rules) :
    N.Mimics Eq (note n) (note n) := by
  intro place p names owed hplace hp
  by_cases ht : ∃ name type, n = .typeName name type
  · obtain ⟨name, type, rfl⟩ := ht
    exact ⟨names.set name type, rfl, rfl, agrees_typeName (hnamed _ _ rfl) hp⟩
  · have hblind := note_withNames (n := n) ⟨place, owed⟩ p names
      fun name type he => ht ⟨name, type, he⟩
    refine ⟨names, rfl, congrArg (Desk.mk · owed) hblind, ?_⟩
    by_cases hpark : ∃ cls decl, n = .park cls decl
    · obtain ⟨cls, decl, rfl⟩ := hpark
      have hknows : ∀ {q : Program}, N.outlook.knows q →
          N.outlook.knows { q with parked := q.parked ++ [⟨cls, decl, ⟨place, owed⟩⟩] } := by
        refine fun hq => hq.imp_right fun hq => { hq with parked := fun m hm => ?_ }
        rcases List.mem_append.1 hm with hm | hm
        · exact hq.parked m hm
        · rw [List.mem_singleton.1 hm]
          exact hparked _ _ rfl
      exact ⟨hp.same, hp.given, hp.phase, hknows hp.first, hknows hp.second⟩
    · exact agrees_of_same hp (sameNames_note _ p (fun name type he => ht ⟨name, type, he⟩)
        fun cls decl he => hpark ⟨cls, decl, he⟩)

theorem mimics_openScope {inner : Bool} {vars : List (String × Expr)} :
    N.Mimics Eq (openScope inner vars) (openScope inner vars) := by
  intro place p names owed hplace hp
  rw [openScope_apply, openScope_apply]
  obtain ⟨names', -, hdesk, hp'⟩ := mimics_note (n := .newScope (scopeAround inner p place) vars)
    nofun nofun place p names owed hplace hp
  exact ⟨names', rfl, hdesk, hp'⟩

theorem mimics_elsewhere {x y : Emit Unit} {c : Cursor} {owed : Bool} (hx : N.Mimics Eq x y)
    (hc : N.eager ∨ c.place.scratch = false) (place : Place) (hp : N.Agrees p names) :
    ∃ names', (elsewhere c y place ⟨p.withNames names, owed⟩).2 =
        ⟨(elsewhere c x place ⟨p, owed⟩).2.program.withNames names', owed⟩ ∧
      N.Agrees (elsewhere c x place ⟨p, owed⟩).2.program names' := by
  obtain ⟨names', -, hdesk, hp'⟩ := hx c.place p names c.owed hc hp
  refine ⟨names', ?_, hp'⟩
  rw [elsewhere_apply]
  rw [hdesk]
  rfl

theorem agrees_register {c : JavaClass} (place : Place) (owed : Bool) (hn : N.rules.cls c.name)
    (hi : N.eager ∨ c.implementsAt.place.scratch = false)
    (hf : N.eager ∨ c.functionsAt.place.scratch = false) (hp : N.Agrees p names) :
    N.Agrees (register c place ⟨p, owed⟩).2.program names := by
  have hknows : ∀ {q : Program}, N.outlook.knows q →
      N.outlook.knows (register c place ⟨q, owed⟩).2.program := by
    intro q hq
    by_cases he : N.eager
    · exact .inl he
    · have hq := hq.resolve_left he
      have hpush : ∀ id, (register c place ⟨q, owed⟩).2.program.classAt id =
          if id = q.classes.size then c else q.classAt id := fun _ => getD_push _ _ _ _
      refine .inr ⟨hq.typeNames, ?_, fun m hm => hq.parked m (List.mem_filter.1 hm).1, ?_, ?_⟩
      · intro name hname
        change ((q.classIndex.set c.name q.classes.size).get? name).isSome = true at hname
        rw [Table.get?_set] at hname
        split at hname
        · rename_i hsame
          rw [hsame]
          exact (N.cls _ hn).resolve_left he
        · exact hq.classIndex name hname
      · intro id
        rw [hpush]
        split
        · exact hi.resolve_left he
        · exact hq.implementsAt id
      · intro id
        rw [hpush]
        split
        · exact hf.resolve_left he
        · exact hq.functionsAt id
  exact ⟨hp.same, hp.given, hp.phase, hknows hp.first, hknows hp.second⟩

theorem cursors_eq {c d : Cursor} (h : N.outlook.Cursors c d) : d = c := by
  obtain ⟨hd, hplace, -⟩ := h
  rw [hd, hplace]

/-- All parallel actions do the same in programs that agree, but for the names. -/
theorem mimics_of_parallel {K : Ken} {a b : List Char} {R : α → α → Prop} {x y : Emit α}
    (h : Parallel N.outlook K a b R x y) : N.Mimics R x y := by
  induction h with
  | pure h => exact mimics_pure h
  | bind _ _ ihx ihf => exact mimics_bind ihx ihf
  | program _ ih =>
    intro place p names owed hplace hp
    exact ih p _ hp.first hp.second hp.like place p names owed hplace hp
  | read _ ih =>
    intro place p names owed hplace hp
    exact ih place place.draft (Outlook.sees_of_loose _ False.elim place) place p names owed hplace
      hp
  | within hf _ ih =>
    intro place p names owed hplace hp
    refine ih _ p names owed ?_ hp
    rw [hf.scratch place]
    exact hplace
  | @print _ _ _ text _ =>
    exact mimics_of_jots (.print text)
  | newline _ =>
    exact mimics_of_jots .newline
  | owe => exact fun _ _ names _ _ hp => ⟨names, rfl, rfl, hp⟩
  | note h =>
    refine mimics_note ?_ ?_
    · rintro name type rfl
      exact h.2.1
    · rintro cls decl rfl
      exact h.2.2.1
  | @setVar _ _ name type _ _ =>
    exact fun place => mimics_note (n := .var place.scope name type) nofun nofun place
  | scope _ _ _ ih =>
    refine mimics_bind mimics_openScope ?_
    rintro scope _ rfl
    exact ih scope
  | inspect he _ ih =>
    intro place p names owed hplace hp
    obtain ⟨names', hv, hdesk, hp'⟩ := ih (scratchCursor place p).place
      { p with drafts := p.drafts.new } names false (.inl he) (agrees_drafts _ hp)
    rw [inspect_apply, inspect_apply]
    refine ⟨names', ⟨hv, ?_⟩, ?_, hp'⟩
    · exact congrArg (·.program.drafts.text p.drafts.next) hdesk.symm
    · exact congrArg (Desk.mk ·.program owed) hdesk
  | @defer _ _ task _ _ _ _ _ ih =>
    intro place p names owed hplace hp
    rw [defer_apply, defer_apply]
    rw [phase_withNames]
    split
    · rename_i hnow
      have hdirect : N.eager ∨ task.direct = true := by
        rcases hplace with he | hplace
        · exact .inl he
        · refine hp.phase.imp_right fun hphase => ?_
          rw [hphase, hplace] at hnow
          simpa using hnow
      exact ih hdirect place p names owed hplace hp
    · exact mimics_of_jots (jots_leave trivial) place p names owed hplace hp
  | reserve _ owed' =>
    intro place p names owed hplace hp
    exact ⟨names, ⟨rfl, rfl, hplace⟩, rfl, agrees_drafts _ hp⟩
  | @inMethods _ _ cls _ _ _ _ _ ih =>
    intro place p names owed hplace hp
    obtain ⟨names', hdesk, hp'⟩ := mimics_elsewhere (c := (p.classAt cls).functionsAt) ih
      (hp.first.imp_right fun h => h.functionsAt cls) place hp
    exact ⟨names', rfl, hdesk, hp'⟩
  | @inImplements _ _ cls x y _ _ ih =>
    intro place p names owed hplace hp
    cases hid : p.classIndex.get? cls with
    | none =>
      rw [inImplements_of_none place ⟨p, owed⟩ x hid,
        inImplements_of_none place ⟨p.withNames names, owed⟩ y hid]
      exact ⟨names, rfl, rfl, hp⟩
    | some id =>
      rw [inImplements_of_some place ⟨p, owed⟩ x hid,
        inImplements_of_some place ⟨p.withNames names, owed⟩ y hid]
      obtain ⟨names', hdesk, hp'⟩ := mimics_elsewhere (c := implementsCursor (p.classAt id)) ih
        (hp.first.imp_right fun h => h.implementsAt id) place hp
      exact ⟨names', rfl, hdesk, hp'⟩
  | @inTypeUnit _ _ name _ _ _ _ _ _ ih =>
    intro place p names owed hplace hp
    rw [inTypeUnit_apply, inTypeUnit_apply]
    rw [p.typeUnit_withNames place name names]
    have hplace' := p.scratch_typeUnit place name
    have hp' := agrees_of_same hp (p.sameNames_typeUnit place name)
    generalize p.typeUnit place name = r at hplace' hp' ⊢
    obtain ⟨names', hdesk, hdone⟩ := mimics_elsewhere (c := r.1) ih (.inr hplace') place hp'
    exact ⟨names', rfl, hdesk, hdone⟩
  | @enroll _ _ _ _ _ c d _ _ _ hn hcd _ ih =>
    intro place p names owed hplace hp
    have hsame : d = c := by
      have hlike := hcd.like
      rw [hlike, cursors_eq hcd.implementsAt, cursors_eq hcd.functionsAt]
    rw [hsame, enroll_then, enroll_then]
    exact ih _ place _ names owed hplace
      (agrees_register place owed hn hcd.implementsAt.2.2 hcd.functionsAt.2.2 hp)
  | struct h => exact h.elim
  | atom h => exact h.elim
  | numbered _ hc => exact absurd trivial hc

end Naming

end GoToJava
