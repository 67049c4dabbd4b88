import GoToJava.Proofs.Program.Units
import GoToJava.Proofs.Script.Conversion

/-!
The brackets of converted syntax. Conversion closes all it opens, whatever the syntax is: each step
takes the brackets that are still to be closed from one stack to the next.
-/

namespace GoToJava

open Go (Expr Field FuncDecl Decl Rules)
open Emit Go.FuncDecl Program Table

variable {tidy : Prop} {w : Program} {a b : List Char}

/-- What writes the methods of a class closes all it opens, once the class is there. -/
def Release.Safe (tidy : Prop) (release : Release) : Prop :=
  ∀ w cls decl, cls < w.classes.size → decl.Spelled (Plain tidy) →
    ∀ a, Keeps tidy w a a (release cls decl) fun _ _ => True

/-- Anything may be written at once into sound programs, and structs in one step. -/
def Outlook.safe (tidy : Prop) (whole : Release → Prop) : Outlook where
  rules := .free
  tidy
  eager := True
  methods := True
  conforms := True
  registers _ := False
  whole
  twin _ _ := True
  settled _ := True
  knows := Program.Sound tidy
  clear _ _ := trivial
  literal := fun t _ => Go.Expr.certain_of_all (fun _ => trivial) t
  certain := fun _ _ _ t _ _ => Go.Expr.certain_of_all (fun _ => trivial) t
  callee _ _ := Or.inl trivial
  parked := fun _ _ _ m _ => obeys_of_lax Rules.lax_free m.decl
  spelt _ hp := hp.spelt

/-- What is known to be there is there. -/
structure Ken.Exists (K : Ken) (w : Program) : Prop where
  opened : ∀ s, K.opened s → s < w.scopes.next
  home : ∀ u s, K.home u s → u < w.units.size ∧ s < w.scopes.next
  cls : ∀ c, K.cls c → c < w.classes.size

namespace Ken.Exists

variable {K : Ken}

theorem later {w' : Program} (h : K.Exists w) (hw : w.Extends w') : K.Exists w' where
  opened s hs := Nat.lt_of_lt_of_le (h.opened s hs) hw.extent.scopes
  home u s hs := ⟨Nat.lt_of_lt_of_le (h.home u s hs).1 hw.extent.units,
    Nat.lt_of_lt_of_le (h.home u s hs).2 hw.extent.scopes⟩
  cls c hc := Nat.lt_of_lt_of_le (h.cls c hc) hw.extent.classes

theorem seen {p : Program} (h : K.Exists p) (hp : p.Sound tidy) : (K.seen p).Exists p where
  opened := h.opened
  home u s hs := by
    rcases hs with hs | ⟨⟨key, hkey⟩, rfl⟩
    · exact h.home u s hs
    · have hu := hp.holds.unitIndex key u hkey
      exact ⟨hu, (hp.holds.units u hu).scope⟩
  cls c hc := by
    rcases hc with hc | ⟨name, hname⟩
    · exact h.cls c hc
    · exact hp.holds.classIndex name c hname

theorem opening {scope : Nat} (h : K.Exists w) (hs : scope < w.scopes.next) :
    (K.opening scope).Exists w :=
  { h with
    opened := fun s hs' => by
      rcases hs' with hs' | rfl
      · exact h.opened s hs'
      · exact hs }

end Ken.Exists

namespace Emit

variable {α : Type} {x : Emit α} {K : Ken} {W : Outlook} {binds : Prop}

theorem keeps_eq (h : Keeps tidy w a b x fun _ _ => True) :
    Keeps tidy w a b x fun v _ => ∃ u, v = u :=
  fun place desk hw hs hp => ⟨(h place desk hw hs hp).1, _, rfl⟩

theorem keeps_steers {f : Place → Place} {Q : α → Program → Prop} (hw : K.Exists w)
    (hf : W.Steers K f binds) (ht : W.tidy = tidy) (hx : Keeps tidy w a b x Q) :
    Keeps tidy w a b (withReader f x) Q := by
  subst ht
  refine keeps_withReader (fun place p hp hsits => ?_) hx
  have hK := hw.later hp
  have hhome : (f place).unit < p.units.size ∧ (f place).scope < p.scopes.next := by
    rcases hf.home place with ⟨hunit, ⟨hscope, -⟩ | hscope⟩ | ⟨-, hhome, -⟩
    · rw [hunit, hscope]
      exact ⟨hsits.unit, hsits.scope⟩
    · rw [hunit]
      exact ⟨hsits.unit, hK.opened _ hscope⟩
    · exact hK.home _ _ hhome
  refine ⟨⟨?_, hhome.1, hhome.2, fun r hr => ?_, hf.result place hsits.result⟩, hf.same place⟩
  · rw [hf.same]
    exact hsits.draft
  · rcases hf.receiver place r hr with hr | hr
    · exact hsits.receiver r hr
    · exact hK.cls _ hr

theorem keeps_openScope {vars : List (String × Expr)} (inner : Bool)
    (hv : ∀ v ∈ vars, v.2.Spelled (Plain tidy)) :
    Keeps tidy w a a (openScope inner vars) fun scope p => scope < p.scopes.next := by
  intro place desk hw hs hp
  have hparent : scopeAround inner desk.program place < desk.program.scopes.next := by
    unfold scopeAround
    split
    · exact hp.scope
    · exact (hs.holds.units place.unit hp.unit).scope
  have hnew := keeps_newScope (a := a) hparent hv place desk (.refl _) hs hp
  unfold result at hnew ⊢
  rw [openScope_apply]
  exact hnew

theorem keeps_note {n : Note} (ht : W.tidy = tidy) (h : W.Allows K n) :
    Keeps tidy w a a (note n) fun _ _ => True := by
  subst ht
  cases n with
  | need i =>
    have hplain : ∀ i ∈ Java.Import.all, Unbracketed i.qualified := by decide
    exact balanced_need (plain_of_chars (hplain i h)) w a
  | refer name => exact balanced_refer name w a
  | package name =>
    intro place desk _ hs hp
    cases himport : (desk.program.importName place name).bind (·.qualified) with
    | none =>
      have hsame : (note (.package name) place desk).2.program = desk.program := by
        simp only [note, Note.make, himport]
      unfold result
      rw [hsame]
      exact ⟨.refl hs, trivial⟩
    | some qualified =>
      have hsame : (note (.package name) place desk).2.program =
          (importClass qualified place desk).2.program := by
        simp only [note, Note.make, himport]
        rfl
      obtain ⟨i, hi, hq⟩ := Option.bind_eq_some_iff.1 himport
      have hplain := hs.spelt.importNames _ name i hi qualified hq
      unfold result
      rw [hsame]
      exact balanced_importClass hplain desk.program a place desk (.refl _) hs hp
  | var scope name type =>
    intro place desk _ hs _
    refine ⟨moves_scopes hs ?_ ?_, trivial⟩
    · exact Nat.le_of_eq (next_setVar _ _ _ _).symm
    · exact known_setVar _ _ hs.holds.scopes h.2
  | newScope parent vars => exact h.elim
  | iota index =>
    exact fun _ _ _ hs _ =>
      ⟨moves_of_holds hs rfl rfl rfl rfl (Nat.le_refl _) { hs.holds with }, trivial⟩
  | interface name =>
    refine fun _ _ _ hs _ =>
      ⟨moves_of_holds hs rfl rfl rfl rfl (Nat.le_refl _) { hs.holds with
        interfaces := fun n hmem => ?_ }, trivial⟩
    rcases NameSet.mem_place.1 hmem with rfl | hmem
    · exact h.2
    · exact hs.holds.interfaces n hmem
  | typeName name type =>
    exact fun _ _ _ hs _ =>
      ⟨moves_of_holds hs rfl rfl rfl rfl (Nat.le_refl _) { hs.holds with
        typeNames := all_set hs.holds.typeNames h.2.2 }, trivial⟩
  | method cls name type =>
    exact fun _ _ _ hs _ =>
      ⟨moves_modifyClass cls hs
        (fun c => { JavaClass.Later.refl c with methods := kept_add _ _ _ })
        fun c hc => { hc with methods := all_add hc.methods h.2 }, trivial⟩
  | conformance cls name =>
    exact fun _ _ _ hs _ =>
      ⟨moves_modifyClass cls hs (fun c => { JavaClass.Later.refl c with })
        fun c hc => { hc with }, trivial⟩
  | func name type =>
    refine keeps_modifyUnit (fun u => ?_) fun n u hu => ?_
    · split
      · exact { CompilationUnit.Later.refl u with
          funcs := kept_add _ _ _, symbolFuncs := kept_add _ _ _ }
      · exact { CompilationUnit.Later.refl u with funcs := kept_add _ _ _ }
    · split
      · exact { hu with
          funcs := all_add hu.funcs h.2, symbolFuncs := all_add hu.symbolFuncs h.2 }
      · exact { hu with funcs := all_add hu.funcs h.2 }
  | varType name type =>
    exact keeps_modifyUnit
      (fun u => { CompilationUnit.Later.refl u with symbolVars := kept_add _ _ _ })
      fun n u hu => { hu with symbolVars := all_add hu.symbolVars h.2 }
  | varValue name type =>
    exact keeps_modifyUnit
      (fun u => { CompilationUnit.Later.refl u with symbolValues := kept_add _ _ _ })
      fun n u hu => { hu with symbolValues := all_add hu.symbolValues h.2 }
  | park cls decl =>
    -- The method waits at the place it was met at.
    intro place desk _ hs hp
    refine ⟨moves_of_holds hs rfl rfl rfl rfl (Nat.le_refl _) { hs.holds with
      parked := fun m hm => ?_ }, trivial⟩
    rcases List.mem_append.1 hm with hm | hm
    · exact hs.holds.parked m hm
    · rw [List.mem_singleton.1 hm]
      exact ⟨h.2.2.2, hp⟩

/-- All that conversion is made of keeps programs sound and closes what it opens, if structs do. -/
theorem keeps_of_parallel {whole : Release → Prop} {R : α → α → Prop} {y : Emit α}
    (h : Parallel (.safe tidy whole) K a b R x y)
    (hwhole : ∀ {release name fields}, whole release → Plain tidy name →
      Field.SpelledList (Plain tidy) fields → Balanced tidy (Forms.struct release name fields))
    (hw : K.Exists w) : Keeps tidy w a b x fun v _ => ∃ u, R v u := by
  induction h generalizing w with
  | pure h => exact keeps_pure fun _ _ _ => ⟨_, h⟩
  | bind _ _ ihx ihf =>
    refine keeps_bind (ihx hw) fun v p hp _ hv => ?_
    obtain ⟨u, hvu⟩ := hv
    exact ihf v u hvu (hw.later hp)
  | program _ ih =>
    refine keeps_bind keeps_program fun r p hp hs hr => ?_
    subst hr
    exact ih r r hs hs (.refl _ _) ((hw.later hp).seen hs)
  | read _ ih =>
    refine keeps_bind keeps_read fun place p hp _ hsits => ?_
    exact ih place place.draft hsits.result (hw.later hp)
  | within hf _ ih => exact keeps_steers hw hf rfl (ih ⟨hw.opened, hw.home, hw.cls⟩)
  | print h => exact keeps_eq (keeps_print h)
  | newline h =>
    exact fun _ _ _ hs hp => ⟨moves_write hs hp.draft h, _, rfl⟩
  | owe => exact keeps_eq (balanced_owe w _)
  | note h => exact keeps_eq (keeps_note rfl h)
  | setVar _ ht => exact keeps_eq (balanced_setVar _ ht w _)
  | scope _ hv _ ih =>
    refine keeps_bind (keeps_openScope _ hv) fun scope p hp _ hscope => ?_
    exact ih scope ((hw.later hp).opening hscope)
  | inspect _ _ ih =>
    intro place desk hw' hs hp
    obtain ⟨hm, u, hu⟩ := keeps_inspect (ih hw) place desk hw' hs hp
    exact ⟨hm, (u, _), hu, rfl⟩
  | defer hs _ _ ih =>
    refine keeps_eq (keeps_defer hs fun place desk hw' hs' hp => ?_)
    exact ⟨(ih (Or.inl trivial) hw place desk hw' hs' hp).1, trivial⟩
  | reserve _ owed =>
    intro place desk hw' hs hp
    obtain ⟨hm, -⟩ := keeps_reserve owed (by simp) (fun _ => rfl) place desk hw' hs hp
    exact ⟨hm, ((reserve owed none).result place desk).1, rfl, trivial⟩
  | inMethods _ hc _ ih =>
    refine keeps_bind keeps_program fun p q hp hs hr => ?_
    subst hr
    have hK := hw.later hp
    refine keeps_elsewhere (hs.holds.classes _ (hK.cls _ hc)).functionsAt ?_
    exact ih ⟨hK.opened, hK.home, hK.cls⟩
  | inImplements _ _ ih =>
    refine keeps_bind keeps_program fun p q hp hs hr => ?_
    subst hr
    have hK := hw.later hp
    split
    · rename_i id hid
      have hcls := hs.holds.classes id (hs.holds.classIndex _ _ hid)
      refine keeps_elsewhere { hcls.implementsAt with unit := hcls.unit } ?_
      exact ih ⟨hK.opened, hK.home, hK.cls⟩
    · exact keeps_pure fun _ _ _ => ⟨_, rfl⟩
  | @inTypeUnit _ a name _ _ _ _ hn _ ih =>
    -- The unit is looked for and added in one step, so the step is taken as a whole.
    intro place desk hw' hs hp
    obtain ⟨hm, hsits⟩ := moves_typeUnit (d := place.draft) (a := a) hs hp hn
    have hK := hw.later (hw'.trans hm.ext)
    obtain ⟨hm', hu⟩ := keeps_elsewhere (a := a) hsits (ih ⟨hK.opened, hK.home, hK.cls⟩) place
      ⟨(desk.program.typeUnit place name).2, desk.owed⟩ (.refl _) hm.sound
      (hp.mono hm.ext.extent)
    exact ⟨hm.trans hm', hu⟩
  | enroll _ hn => exact hn.elim
  | struct h hn hf => exact keeps_eq (hwhole h hn hf w _)
  | atom h => exact h.elim
  | numbered _ hc => exact (hc trivial).elim

/-- Nothing has to be there for what takes steps everywhere. -/
theorem exists_none : Ken.Exists { binds } w :=
  ⟨fun _ h => h.elim, fun _ _ h => h.elim, fun _ h => h.elim⟩

theorem keeps_of_steps {x : Emit Unit} (h : Parallel (.safe tidy fun _ => False) {} a b Eq x x) :
    Keeps tidy w a b x fun _ _ => True :=
  fun place desk hw hs hp =>
    ⟨(keeps_of_parallel h (fun h => False.elim h) exists_none place desk hw hs hp).1, trivial⟩

theorem balanced_of_scripted {x : Emit Unit} (h : Scripted (.safe tidy fun _ => False) x) :
    Balanced tidy x :=
  fun _ a => keeps_of_steps (h {} a)

end Emit

/-! ## Structs -/

namespace Forms

variable {release : Release} {name : String}

theorem keeps_classBody {fields : List (String × Expr)} (hn : Plain tidy name)
    (hf : ∀ f ∈ fields, Plain tidy f.1 ∧ f.2.Spelled (Plain tidy)) :
    Keeps tidy w a a (classBody name fields) fun cursor p => cursor.place.Sits tidy p.extent := by
  have hblock : Keeps tidy w a a (reserveBlock none) fun cursor p =>
      cursor.place.Sits tidy p.extent :=
    keeps_reserveBlock (fun _ h => by cases h) fun _ => rfl
  refine keeps_seq (keeps_forM fun f hmem => ?_) ?_
  · exact balanced_of_scripted (scripted_classField (hf f hmem).1 (hf f hmem).2) w a
  apply keeps_seq (keeps_line rfl)
  apply keeps_seq (keeps_word rfl)
  apply keeps_seq (balanced_print hn w a)
  apply keeps_seq (keeps_line rfl)
  apply keeps_seq (keeps_line rfl)
  apply keeps_seq (keeps_line rfl)
  split
  · exact hblock
  · exact keeps_seq (balanced_of_scripted (scripted_constructor hn hf) w a) hblock

theorem keeps_addClass {cls : JavaClass} (hr : Release.Safe tidy release)
    (hc : cls.Known tidy w.extent) : Keeps tidy w a a (addClass release cls) fun _ _ => True := by
  refine keeps_bind keeps_program fun p _ hw hs hp => ?_
  subst hp
  refine keeps_bind (keeps_modifyProgram (Q := fun _ q => p.classes.size < q.classes.size)
    fun q hq hsq => ⟨fun d b => ?_, ?_⟩) fun _ q _ _ hsize => keeps_forM fun m hm => ?_
  · exact moves_addClass hsq (hc.mono (hw.trans hq).extent) hq.extent.classes _
  · exact Nat.lt_of_le_of_lt hq.extent.classes
      (Nat.lt_of_lt_of_eq (Nat.lt_succ_self _) (Array.size_push _).symm)
  · exact hr q _ _ hsize (hs.holds.parked m (List.mem_of_mem_filter hm)).decl a

theorem all_foldl_set {fields : List (String × Expr)} {t : Table Expr}
    (ht : t.All (Expr.Spelled (Plain tidy)))
    (hf : ∀ f ∈ fields, Plain tidy f.1 ∧ f.2.Spelled (Plain tidy)) :
    (fields.foldl (fun t (field, type) => t.set field type) t).All (Expr.Spelled (Plain tidy)) := by
  induction fields generalizing t with
  | nil => exact ht
  | cons f fields ih =>
    exact ih (all_set ht (hf f List.mem_cons_self).2) fun g hg =>
      hf g (List.mem_cons_of_mem _ hg)

theorem balanced_struct {fields : List Field} (hr : Release.Safe tidy release)
    (hn : Plain tidy name) (hf : Field.SpelledList (Plain tidy) fields) :
    Balanced tidy (struct release name fields) := by
  intro w a
  have hfields := Go.Field.spelledList_iff.1 hf
  have hwords : Balanced tidy (classWords "class ") :=
    balanced_of_scripted (scripted_classWords (plain_of_chars (by decide)))
  unfold struct
  apply keeps_seq (hwords w a)
  apply keeps_seq (balanced_print hn w a)
  apply keeps_seq (balanced_of_scripted (scripted_embeddedTypes (spelled_embedded hfields)) w a)
  refine keeps_bind (keeps_reserveInline (fun _ h => by cases h) fun _ => rfl)
    fun implementsAt p _ _ himplements => ?_
  apply keeps_seq (keeps_line rfl)
  apply keeps_seq (balanced_owe p _)
  refine keeps_bind (keeps_deeper (keeps_classBody hn (spelled_named hfields)))
    fun functionsAt q hq _ hfunctions => ?_
  apply keeps_seq (balanced_owe q _)
  apply keeps_seq (keeps_of_steps parallel_classEnd)
  refine keeps_bind keeps_read fun place r hr' _ hplace => ?_
  refine keeps_addClass hr ⟨hplace.unit, ?_, ?_, ?_, all_empty⟩
  · exact himplements.mono (hq.trans hr').extent
  · exact hfunctions.mono hr'.extent
  · exact all_foldl_set all_empty (spelled_named hfields)

end Forms

/-! ## Functions, methods and tasks -/

namespace Conversion

variable {release : Release} {K : Ken} {x : Emit Unit}

/-- Programs as they are looked at while structs release the methods that wait for them. -/
abbrev Outlook.sound (tidy : Prop) : Outlook := .safe tidy (Release.Safe tidy)

theorem keeps_of_sound (h : Parallel (Outlook.sound tidy) K a b Eq x x) (hw : K.Exists w) :
    Keeps tidy w a b x fun _ _ => True :=
  fun place desk hw' hs hp =>
    ⟨(keeps_of_parallel h (fun hr hn hf => Forms.balanced_struct hr hn hf) hw place desk hw' hs
      hp).1, trivial⟩

theorem balanced_of_sound (h : ScriptedIn (Outlook.sound tidy) x) : Balanced tidy x :=
  fun _ a => keeps_of_sound (h { binds := True } a trivial) exists_none

theorem steady_of_safe (hr : Release.Safe tidy release) :
    Release.Steady (Outlook.sound tidy) release :=
  ⟨trivial, fun _ => Or.inl trivial, fun _ hn hf _ _ => .struct hr hn hf⟩

/-- Methods that waited are written into a class that is there. -/
theorem safe_releaseAt (waiting : Nat) : Release.Safe tidy (releaseAt waiting) := by
  induction waiting with
  | zero => exact fun w _ _ _ _ a => balanced_pure () w a
  | succ waiting ih =>
    intro w cls decl hcls hd a
    have hbody := scripted_bodyOf (steady_of_safe ih)
      (obeys_of_lax Rules.lax_free decl) hd
    refine keeps_of_sound (K := { cls := (· = cls) })
      (Forms.parallel_method trivial trivial hd rfl hbody) ⟨?_, ?_, ?_⟩
    · exact fun _ h => h.elim
    · exact fun _ _ h => h.elim
    · rintro c rfl
      exact hcls

theorem balanced_funcDecl {decl : FuncDecl} (hr : Release.Safe tidy release)
    (hd : decl.Spelled (Plain tidy)) : Balanced tidy (funcDecl release decl) :=
  balanced_of_sound (scripted_funcDecl trivial (steady_of_safe hr)
    (obeys_of_lax Rules.lax_free decl) hd).inner

theorem balanced_staticMethod {decl : FuncDecl} (hd : decl.Spelled (Plain tidy)) :
    Balanced tidy (staticMethod decl) := by
  intro w a
  refine keeps_bind keeps_program fun p q _ _ _ => ?_
  have hbody := scripted_bodyOf (steady_of_safe (safe_releaseAt p.parked.length))
    (obeys_of_lax Rules.lax_free decl) hd
  exact balanced_of_sound (Forms.scripted_function trivial hd hd.receiver hbody).inner q a

theorem balanced_decl {d : Decl} (hd : d.Spelled (Plain tidy)) : Balanced tidy (decl d) := by
  intro w a
  refine keeps_bind keeps_program fun p q _ _ _ => ?_
  cases d with
  | func d => exact balanced_funcDecl (safe_releaseAt _) hd q a
  | gen d =>
    exact balanced_of_sound (scripted_genDecl (steady_of_safe (safe_releaseAt _)) false d
      (Go.GenDecl.obeys_of_lax Rules.lax_free d) hd) q a

theorem balanced_run {task : Task} (hr : Release.Safe tidy release)
    (ht : task.Spelled (Plain tidy)) : Balanced tidy (run release task) :=
  balanced_of_sound fun _ _ hb => parallel_run trivial (steady_of_safe hr)
    (Task.obeys_of_lax Rules.lax_free task) ht fun _ => hb

end Conversion

end GoToJava
