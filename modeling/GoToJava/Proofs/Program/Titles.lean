import GoToJava.Proofs.Order.Sessions
import GoToJava.Proofs.Program.Symbols
import GoToJava.Proofs.Structs.Constructors

/-!
Titles of types. A type is known by its title, and to the whole program. Main lemmas: a program
knows no type that its files do not declare, and it knows the types of a file from then on.
-/

namespace GoToJava

open Go (Decl Expr File FuncDecl GenDecl Rules Spec Stmt title)
open Emit Conversion Forms

variable {own : String → String → Prop} {α β : Type} {t : String}

/-! ## Known types -/

namespace Program

variable {p q : Program}

/-- A type with the title is known that is no interface. -/
def KnowsType (t : String) (p : Program) : Prop :=
  p.typeNames.contains t = true ∨ p.classIndex.contains t = true

instance (t : String) (p : Program) : Decidable (p.KnowsType t) :=
  inferInstanceAs (Decidable (_ ∨ _))

end Program

theorem Table.contains_set (table : Table β) (name other : String) (value : β) :
    (table.set name value).contains other = (other == name || table.contains other) := by
  unfold Table.contains
  rw [Table.get?_set]
  split
  · rename_i h
    simp [h]
  · rename_i h
    simp [h]

namespace Program

variable {p q : Program}

theorem knowsType_congr (h : p.SameNames q) : q.KnowsType t ↔ p.KnowsType t := by
  unfold KnowsType
  rw [h.typeNames, h.classIndex]

theorem knowsType_note (cursor : Cursor) (p : Program) (n : Note) :
    (n.make cursor p).KnowsType t ↔ p.KnowsType t ∨ ∃ type, n = .typeName t type := by
  cases n with
  | typeName name type =>
    unfold KnowsType
    show (p.typeNames.set name type).contains t = true ∨ _ ↔ _
    rw [Table.contains_set]
    simp only [Bool.or_eq_true, beq_iff_eq, Note.typeName.injEq, exists_eq_right']
    tauto
  | package name =>
    simp only [Note.make, reduceCtorEq, exists_false, or_false]
    split <;> rfl
  | _ =>
    refine (or_iff_left ?_).symm
    rintro ⟨_, ⟨⟩⟩

theorem knowsType_registered (p : Program) (cls : JavaClass) :
    (p.registered cls).KnowsType t ↔ p.KnowsType t ∨ cls.name = t := by
  show _ ∨ (p.classIndex.set cls.name p.classes.size).contains t = true ↔ _
  rw [Table.contains_set]
  simp only [Bool.or_eq_true, beq_iff_eq]
  constructor
  · rintro (h | h | h)
    · exact Or.inl (Or.inl h)
    · exact Or.inr h.symm
    · exact Or.inl (Or.inr h)
  · rintro ((h | h) | h)
    · exact Or.inl h
    · exact Or.inr (Or.inr h)
    · exact Or.inr (Or.inl h.symm)

theorem stable_knowsType (t : String) : Stable own (KnowsType t) := by
  intro p q hstep hp
  cases hstep with
  | write draft text =>
    rw [write_eq]
    exact hp
  | note cursor h => exact (knowsType_note cursor p _).2 (Or.inl hp)
  | register cls => exact (knowsType_registered p cls).2 (Or.inl hp)
  | _ => exact hp

theorem knowsType_of_takes {x : Emit α} (hx : Takes (fun _ _ => True) x) (place : Place)
    {desk : Desk} (h : desk.program.KnowsType t) : (x place desk).2.program.KnowsType t :=
  (stable_knowsType t).steps (hx place desk) h

theorem knowsType_finalize (hp : p.KnowsType t) : (finalize.run.run p).2.KnowsType t := by
  rw [run_finalize]
  cases p.phase with
  | discovery =>
    have hsteps : Steps (fun _ _ => True) p p.settle := steps_settle p
    exact (stable_knowsType t).steps hsteps hp
  | finalization | flattened => exact hp

theorem knowsType_flatten (h : p.Stage) (hp : p.KnowsType t) :
    (flatten.run.run p).2.KnowsType t := by
  by_cases hphase : p.phase = .flattened
  · rw [run_flatten_of_flattened hphase]
    exact hp
  · obtain ⟨q, hfinal, hq⟩ := finalize_of_stage h hphase
    obtain ⟨sources, r, hrun, hjoins, -⟩ := flat_of_final hfinal hq
    have hfirst := knowsType_finalize hp
    rw [hfinal] at hfirst
    rw [hrun]
    rw [hjoins.rest]
    exact hfirst

/-- Whatever is asked of a program, it still knows its types. -/
theorem knowsType_run (command : Command) (h : p.Stage) (hp : p.KnowsType t) :
    (command.run p).KnowsType t := by
  cases command with
  | file call =>
    by_cases hphase : p.phase = .discovery
    · have hstable : Stable (fun _ _ => True) fun q => q.KnowsType t ∧ q.Indexed :=
        fun _ _ hstep hq => ⟨stable_knowsType t _ _ hstep hq.1, indexed_of_step hstep hq.2⟩
      exact (stable_call hstable (fun _ hq => hq.2) (fun _ _ _ => trivial) p
        ⟨hp, (growing_of_stage h hphase).2.indexed⟩).1
    · show KnowsType t (call.session.run.run p).2
      rw [run_call_of_phase call hphase]
      exact hp
  | finalize => exact knowsType_finalize hp
  | flatten => exact knowsType_flatten h hp

theorem knowsType_runs (commands : List Command) (h : p.Stage) (hp : p.KnowsType t) :
    (commands.foldl Command.run p).KnowsType t := by
  induction commands generalizing p with
  | nil => exact hp
  | cons c commands ih => exact ih (stage_run c h) (knowsType_run c h hp)

end Program

/-! ## Titles without a type -/

/-- No type with the title is declared, unless it is an interface. -/
def Go.Rules.without (t : String) : Rules :=
  { Rules.free with
    named := fun name _ => name ≠ t
    cls := fun name => name ≠ t }

/-- The file declares no type with the title, not even in a function, unless it is an interface. -/
def Go.File.Lacks (t : String) (file : File) : Prop :=
  ∀ d ∈ file.decls, d.Obeys (.without t)

/-- Neither the program nor a method that waits has a type with the title. -/
structure Program.Unaware (t : String) (p : Program) : Prop where
  unknown : ¬p.KnowsType t
  parked : ∀ m ∈ p.parked, m.decl.Obeys (.without t)

/-- How programs are looked at that do not know the title. -/
def Outlook.without (t : String) : Outlook :=
  { sure (.without t) (fun _ _ => True) with
    methods := True
    knows := Program.Unaware t
    certain := fun _ _ _ type _ _ => Go.Expr.certain_of_all (fun _ => trivial) type
    callee := fun _ _ => Or.inl trivial
    parked := fun _ _ hp => hp.parked
    spelt := fun p _ => Program.spelt_of_loose id p }

namespace Program

variable {p q : Program}

theorem unaware_of_same (hp : p.Unaware t) (h : p.SameNames q) : q.Unaware t := by
  refine ⟨fun hq => hp.unknown ((knowsType_congr h).1 hq), ?_⟩
  rw [h.parked]
  exact hp.parked

theorem unaware_drafts {drafts : Drafts Pending} (hp : p.Unaware t) :
    ({ p with drafts } : Program).Unaware t := ⟨hp.unknown, hp.parked⟩

theorem unaware_note {n : Note} (cursor : Cursor) (hp : p.Unaware t)
    (hnamed : ∀ name type, n = .typeName name type → name ≠ t)
    (hparked : ∀ cls decl, n = .park cls decl → decl.Obeys (.without t)) :
    (n.make cursor p).Unaware t := by
  refine ⟨fun hknown => ?_, ?_⟩
  · rcases (knowsType_note cursor p n).1 hknown with hknown | ⟨type, rfl⟩
    · exact hp.unknown hknown
    · exact hnamed t type rfl rfl
  · cases n with
    | park cls decl =>
      intro m hm
      rcases List.mem_append.1 hm with hm | hm
      · exact hp.parked m hm
      · rw [List.mem_singleton.1 hm]
        exact hparked cls decl rfl
    | package name =>
      dsimp only [Note.make]
      split <;> exact hp.parked
    | _ => exact hp.parked

theorem unaware_registered {cls : JavaClass} (hp : p.Unaware t) (h : cls.name ≠ t) :
    (p.registered cls).Unaware t := by
  refine ⟨fun hknown => ?_, fun m hm => hp.parked m (List.mem_filter.1 hm).1⟩
  exact ((knowsType_registered p cls).1 hknown).elim hp.unknown h

/-- What declares no type with the title leaves the program unaware of it. -/
def unawareness (t : String) : Chronicle (.without t) where
  fits _ _ := Unaware t
  tells _ _ := Unaware t
  refl := id
  trans _ _ := id
  stays _ := id
  knows hp := ⟨hp, Outlook.sees_of_loose _ False.elim _, hp⟩
  steer _ hp := ⟨hp, fun _ => id⟩
  does hp h := by
    cases h with
    | @note n h owed =>
      refine unaware_note _ hp ?_ ?_
      · rintro name type rfl
        exact h.2.1
      · rintro cls decl rfl
        exact h.2.2.1
    | write text => exact unaware_of_same hp (sameNames_of_writes ⟨_, _, write_eq _ _ _⟩)
    | var | scope => exact unaware_note _ hp nofun nofun
    | hole | task => exact unaware_drafts hp
    | register hd hn => exact unaware_registered hp hn
  opening _ _ := id
  enrolled _ := id
  goes hp h := by
    refine ⟨?_, fun _ => id⟩
    cases h with
    | look => exact unaware_drafts hp
    | methods | implementing => exact hp
    | typeUnit => exact unaware_of_same hp (sameNames_typeUnit _ _ _)
  twin _ := trivial

theorem unaware_decls {ds : List Decl} (hds : ∀ d ∈ ds, d.Obeys (.without t)) (place : Place)
    (desk : Desk) (hp : desk.program.Unaware t) :
    (ds.forM decl place desk).2.program.Unaware t := by
  have hdecl : ∀ d ∈ ds, ScriptedIn (.without t) (decl d) := fun d hd =>
    scripted_decl trivial (fun _ => Or.inl trivial) (fun _ h => h) trivial (hds d hd)
      (Go.Decl.spelled_of_all (fun _ => False.elim) d)
  have hdecls : Parallel (.without t) .all [] [] Eq (ds.forM decl)
      (ds.forM decl) := parallel_forM fun d hd => hdecl d hd _ _ trivial
  exact ((unawareness t).tells_of_parallel hdecls hp desk.owed).1

/-- Statements without the title leave the program unaware of it. -/
theorem unaware_stmts (n : Nat) {ss : List Stmt} {place : Place} {desk : Desk}
    (h : Stmt.ObeysList (.without t) ss) (hp : desk.program.Unaware t) :
    (stmts (releaseAt n) ss place desk).2.program.Unaware t := by
  have hstmts : ScriptedIn (.without t) (stmts (releaseAt n) ss) :=
    scripted_stmts (steady_releaseAt n trivial (fun _ => Or.inl trivial)
      (fun _ h => h) (Or.inl trivial)) ss h (Go.Stmt.spelledList_of_all (fun _ => False.elim) ss)
  exact ((unawareness t).tells_of_parallel (hstmts .all [] trivial) hp desk.owed).1

theorem importStable_unaware {unit : Nat} {home : String} :
    ImportStable (fun _ _ => True) fun p => p.Unaware t ∧ p.Sited unit home where
  packageUnit p dir name hp :=
    ⟨unaware_of_same hp.1 (sameNames_packageUnit p dir name true),
      stable_sited.imports.packageUnit p dir name hp.2⟩
  learn p u file hp := ⟨⟨hp.1.unknown, hp.1.parked⟩, stable_sited.imports.learn p u file hp.2⟩
  library p path loaded h hp :=
    ⟨⟨hp.1.unknown, hp.1.parked⟩, stable_sited.imports.library p path loaded h hp.2⟩
  importName p u name target h hp :=
    ⟨⟨hp.1.unknown, hp.1.parked⟩, stable_sited.imports.importName p u name target h hp.2⟩

theorem unaware_fillPackage {libraries : Libraries} {file : File} {u : Nat} {home : String}
    (hfile : file.Lacks t) (hp : p.Unaware t) (hsited : p.Sited u home) :
    ((fillPackage libraries file u).run.run p).2.Unaware t := by
  have hlines : Session.Keeps (fun p => p.Unaware t ∧ p.Sited u home)
      (fillPackage libraries file u) := by
    refine Session.gives_bind (stable_imports importStable_unaware (fun _ h => h.2.indexed)
      (fun _ h => h.2.key) fun _ _ => trivial) fun _ => Session.gives_modify fun q hq => ⟨?_, ?_⟩
    · exact unaware_decls hfile _ ⟨q, true⟩ hq.1
    · exact stable_sited.steps (steps_emit q _ (takes_decls file.decls)) hq.2
  exact (hlines.run ⟨hp, hsited⟩).1

theorem unaware_call {c : Call} (hc : ∀ file, c.read = .ok file → file.Lacks t)
    (hindexed : p.Indexed) (hp : p.Unaware t) : (c.session.run.run p).2.Unaware t :=
  run_call_keeps (I := (Unaware t ·)) hp fun file hread _ => unaware_fillPackage (hc file hread)
    (unaware_of_same hp (sameNames_packageUnit p _ _ false))
    (sited_packageUnit c.dir (title file.package) false hindexed)

/-- Files without the title leave the program unaware of it. -/
theorem unaware_discovered {calls : List Call}
    (h : ∀ c ∈ calls, ∀ file, c.read = .ok file → file.Lacks t) : (discovered calls).Unaware t := by
  have hempty : Unaware t {} := by
    refine ⟨?_, fun _ hm => (by cases hm)⟩
    rintro (hknown | hknown) <;> cases hknown
  have hregular : Regular (fun _ _ => True) {} := regular_empty
  refine (List.foldlRecOn (motive := fun p : Program => p.Indexed ∧ p.Unaware t) calls _
    ⟨hregular.indexed, hempty⟩ fun p hp c hc => ⟨?_, unaware_call (h c hc) hp.1 hp.2⟩).2
  exact stable_call (fun _ _ => indexed_of_step) (fun _ => id) (fun _ _ _ => trivial) p hp.1

end Program

/-! ## Types that are declared -/

/-- The line declares a type with the title that is no interface. -/
def Go.Spec.Makes (t : String) : Spec → Prop
  | .type _ (.interfaceType _) false | .value .. => False
  | .type name _ _ => title name = t

/-- The package declares a type with the title here that is no interface. -/
def Go.Decl.Makes (t : String) : Decl → Prop
  | .gen (.mk .type _ specs) => ∃ s ∈ specs, s.Makes t
  | _ => False

namespace Emit

variable {x : Emit α} {f : α → Emit β}

/-- Afterwards the type is known. -/
def Introduces (t : String) (x : Emit α) : Prop :=
  ∀ place desk, (x place desk).2.program.KnowsType t

theorem introduces_then (hx : Introduces t x) (hf : ∀ a, Takes (fun _ _ => True) (f a)) :
    Introduces t (x >>= f) := fun place desk =>
  Program.knowsType_of_takes (hf (x place desk).1) place (hx place desk)

theorem then_introduces (hf : ∀ a, Introduces t (f a)) :
    Introduces t (x >>= f) := fun place _ => hf _ place _

theorem introduces_elsewhere (hx : Introduces t x) (cursor : Cursor) :
    Introduces t (elsewhere cursor x) := fun _ desk => hx cursor.place ⟨desk.program, cursor.owed⟩

theorem introduces_addClass (n : Nat) (cls : JavaClass) :
    Introduces cls.name (addClass (releaseAt n) cls) := by
  rw [addClass_eq]
  refine then_introduces fun p => introduces_then (fun place desk => ?_) fun _ => ?_
  · exact (Program.knowsType_registered desk.program cls).2 (Or.inr rfl)
  · exact takes_forM fun m _ => takes_releaseAt n _ m.decl

theorem introduces_struct (n : Nat) (name : String) (fields : List Go.Field) :
    Introduces name (struct (releaseAt n) name fields) := by
  iterate 10 refine then_introduces fun _ => ?_
  exact introduces_addClass n _

theorem introduces_whereDeclared {x : Emit Unit} (name : String) (hx : Introduces t x) :
    Introduces t (whereDeclared name x) := by
  unfold whereDeclared
  split
  · iterate 3 refine then_introduces fun _ => ?_
    exact introduces_elsewhere hx _
  · exact hx

theorem introduces_typeSpec {name : String} {type : Expr} {isAlias : Bool} (n : Nat)
    (h : (Spec.type name type isAlias).Makes t) :
    Introduces t (typeSpec (releaseAt n) name type isAlias) := by
  unfold typeSpec
  split
  · rename_i fields
    cases h
    exact introduces_whereDeclared name (introduces_struct n _ fields)
  · exact h.elim
  · have htitle : title name = t := by
      unfold Go.Spec.Makes at h
      split at h
      · exact h.elim
      · rename_i hvalue
        cases hvalue
      · rename_i hspec
        cases hspec
        exact h
    intro place desk
    refine (Program.knowsType_note ⟨place, desk.owed⟩ desk.program
      (.typeName (title name) type)).2 ?_
    exact Or.inr ⟨type, by rw [htitle]⟩

theorem introduces_specs {specs : List Spec} (n : Nat) (h : ∃ s ∈ specs, s.Makes t) :
    Introduces t (genDecl (releaseAt n) false .type (specForms (releaseAt n) specs)) := by
  induction specs with
  | nil =>
    obtain ⟨s, hs, -⟩ := h
    cases hs
  | cons s specs ih =>
    obtain ⟨s', hs', hmakes⟩ := h
    have hrest : Takes (fun _ _ => True) (genDecl (releaseAt n) false .type
        (specForms (releaseAt n) specs)) :=
      takes_of_scriptedIn (scripted_genDecl (free_releaseAt n) false
        (.mk .type false specs) (Go.GenDecl.obeys_of_lax Go.Rules.lax_free _)
        (Go.GenDecl.spelled_of_all (fun _ => False.elim) _))
    rcases List.mem_cons.1 hs' with rfl | hmem
    · cases s' with
      | value names type values => exact hmakes.elim
      | type name type isAlias =>
        exact introduces_then (introduces_typeSpec n hmakes) fun _ => hrest
    · cases s with
      | value names type values | type name type isAlias =>
        exact then_introduces fun _ => ih ⟨s', hmem, hmakes⟩

theorem introduces_decl {d : Decl} (h : d.Makes t) : Introduces t (decl d) := by
  unfold Go.Decl.Makes at h
  split at h
  · exact then_introduces fun p => introduces_specs p.parked.length h
  · exact h.elim

theorem introduces_decls {ds : List Decl} (h : ∃ d ∈ ds, d.Makes t) :
    Introduces t (ds.forM decl) := by
  obtain ⟨d, hd, hmakes⟩ := h
  induction ds with
  | nil => cases hd
  | cons e ds ih =>
    rcases List.mem_cons.1 hd with rfl | hd
    · exact introduces_then (introduces_decl hmakes) fun _ => takes_decls ds
    · exact then_introduces fun _ => ih hd

end Emit

namespace Program

variable {p q : Program} {file : File} {c : Call}

/-- The types of a file that is not refused are known to the whole program. -/
theorem knowsType_call (hphase : p.phase = .discovery) (hread : c.read = .ok file)
    (hrun : c.session.run.run p = (.ok (), q)) (hmakes : ∃ d ∈ file.decls, d.Makes t) :
    q.KnowsType t := by
  rw [run_call, hphase, hread] at hrun
  obtain ⟨_, s, -, hwritten⟩ := ok_of_bind hrun
  cases hwritten
  exact introduces_decls hmakes _ ⟨s, true⟩

/-- They stay known, whatever is asked of the program afterwards. -/
theorem knowsType_reached {commands more : List Command}
    (hphase : (reached commands).phase = .discovery) (hread : c.read = .ok file)
    (hrun : (c.session.run.run (reached commands)).1 = .ok ())
    (hmakes : ∃ d ∈ file.decls, d.Makes t) :
    (reached (commands ++ .file c :: more)).KnowsType t := by
  have hknown : (Command.run (reached commands) (.file c)).KnowsType t :=
    knowsType_call hphase hread (Prod.ext hrun rfl) hmakes
  have hstage := stage_reached commands
  unfold reached at hknown hstage ⊢
  rw [List.foldl_append]
  exact knowsType_runs more (stage_run _ hstage) hknown

end Program

end GoToJava
