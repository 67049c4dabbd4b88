import GoToJava.Proofs.Methods.Course

/-!
Methods that are released. A struct makes its class known and then writes the methods that waited
for it. Structs in their bodies release other methods; but fewer wait each time, so all that wait
for a class are written, in the order they were met.
-/

namespace GoToJava

open Go (Expr Field FuncDecl)
open Emit Conversion Forms Program

namespace Program

variable {p q r : Program} {draft d : Nat}

/-! ## A class becomes known -/

section

variable {cls : JavaClass} {name : String}

theorem methodsAt_registered (p : Program) (cls : JavaClass) (c : Nat) :
    (p.registered cls).methodsAt c =
      if c = p.classes.size then cls.functionsAt.place.draft else p.methodsAt c := by
  unfold methodsAt
  rw [classAt_registered]
  split <;> rfl

theorem busy_registered (h : (p.registered cls).Busy d) : p.Busy d := by
  cases h with
  | root hu => exact .root hu
  | task ht => exact .task ht

theorem leads_registered (p : Program) (cls : JavaClass) : p.Leads (p.registered cls) :=
  .single (.register p cls)

theorem filed_registered (hp : p.Filed) (h : p.Prepared cls) : (p.registered cls).Filed := by
  have hold : ∀ {c}, c < (p.registered cls).classes.size → c ≠ p.classes.size →
      c < p.classes.size := by
    intro c hc hnew
    rw [size_registered] at hc
    omega
  refine ⟨hp.reached.trans (leads_registered p cls), (tidy_registered hp.tidy h).2, ?_, ?_, ?_⟩
  · intro c hc hbusy
    rw [methodsAt_registered] at hbusy
    split at hbusy
    · exact h.methods.idle (busy_registered hbusy)
    · rename_i hnew
      exact hp.apart c (hold hc hnew) (busy_registered hbusy)
  · intro b hb c hc
    rw [methodsAt_registered, methodsAt_registered]
    split
    · split
      · omega
      · rename_i hnew
        exact fun he => absurd he.symm (h.methods.free c (hold hc hnew))
    · rename_i hnewb
      split
      · exact fun he => absurd he (h.methods.free b (hold hb hnewb))
      · rename_i hnewc
        exact hp.own b (hold hb hnewb) c (hold hc hnewc)
  · intro m hm
    obtain ⟨hmem, hcls⟩ := List.mem_filter.1 hm
    have hnone := firstClass?_eq_none_iff.1 (hp.waiting m hmem)
    refine firstClass?_eq_none_iff.2 fun c hc => ?_
    rw [classAt_registered]
    split
    · exact fun he => (bne_iff_ne.1 hcls) he.symm
    · rename_i hnew
      exact hnone c (hold hc hnew)

theorem first_registered (h : (p.registered cls).KeepsClasses q) :
    (q.firstClass? name == some p.classes.size) =
      (name == cls.name && (p.firstClass? name).isNone) := by
  have hkeeps : p.KeepsClasses q := (leads_registered p cls).keeps.trans h
  have hlt : p.classes.size < (p.registered cls).classes.size := by
    rw [size_registered]
    exact Nat.lt_succ_self _
  have hname : (q.classAt p.classes.size).name = cls.name := by
    rw [(h.cls _ hlt).name, classAt_registered, if_pos rfl]
  rw [Bool.eq_iff_iff, beq_iff_eq, Bool.and_eq_true, beq_iff_eq, Option.isNone_iff_eq_none]
  refine ⟨fun hq => ?_, ?_⟩
  · exact ⟨(firstClass?_eq_some_iff.1 hq).2.1.symm.trans hname,
      hkeeps.first_none_of_le hq (Nat.le_refl _)⟩
  · rintro ⟨rfl, hnone⟩
    refine firstClass?_eq_some_iff.2 ⟨Nat.lt_of_lt_of_le hlt h.size, hname, fun b hb => ?_⟩
    rw [(hkeeps.cls b hb).name]
    exact firstClass?_eq_none_iff.1 hnone b hb

theorem other_of_first_ne (h : (p.registered cls).KeepsClasses q)
    (hnone : p.firstClass? name = none) (hq : q.firstClass? name ≠ some p.classes.size) :
    (name != cls.name && (p.firstClass? name).isNone) = true := by
  have hfirst : (q.firstClass? name == some p.classes.size) =
      (name == cls.name && (p.firstClass? name).isNone) := first_registered h
  rw [beq_eq_false_iff_ne.2 hq, hnone, Option.isNone_none, Bool.and_true] at hfirst
  rw [hnone, Option.isNone_none, Bool.and_true, bne, ← hfirst]
  rfl

/-- What comes after a class has become known, as a course from before it was written. The places of
its interfaces and its methods are new then. -/
theorem Course.registered (h : Course draft p r) (hcls : r.Prepared cls)
    (hinew : p.drafts.next ≤ cls.implementsAt.place.draft)
    (h' : Course cls.functionsAt.place.draft (r.registered cls) q)
    (hmethods : Section r.classes.size q (waitingFor r cls.name)) :
    Course draft p q := by
  have hleads : r.Leads q := (leads_registered r cls).trans h'.leads
  have hsize := size_registered r cls
  have hfnew := Nat.le_trans hinew (Nat.le_of_lt hcls.apart)
  have hnext : ∀ {d}, d < p.drafts.next → d < r.drafts.next :=
    fun hd => Nat.lt_of_lt_of_le hd h.leads.next
  have haside : ∀ d < p.drafts.next, (r.registered cls).SetAside d → p.SetAside d := by
    rintro d hd ⟨a, ha⟩
    rcases asideFor_registered ha with hold | hnew
    · exact h.aside d hd ⟨a, hold⟩
    · cases hnew
      exact absurd hd (Nat.not_lt_of_le hinew)
  have hat : q.methodsAt r.classes.size = cls.functionsAt.place.draft := by
    rw [h'.leads.methodsAt (Nat.lt_of_lt_of_eq (Nat.lt_succ_self _) hsize.symm),
      methodsAt_registered, if_pos rfl]
  have hparked : (r.registered cls).parked = p.parked.filter fun m =>
      m.cls != cls.name && (r.firstClass? m.cls).isNone := by
    rw [← List.filter_filter, ← h.parked]
    rfl
  have hwaiting : ∀ name, q.firstClass? name ≠ some r.classes.size →
      r.firstClass? name = none → (name != cls.name && (r.firstClass? name).isNone) = true :=
    fun name hq hnone => other_of_first_ne h'.leads.keeps hnone hq
  have habides := (tidy_registered h.filed.tidy hcls).1
  refine ⟨h'.filed, (h.abides.trans habides).trans h'.abides, h'.phase.trans h.phase,
    fun hnone => h'.iota (h.iota hnone), ?_, ?_, ?_, ?_, ?_, ?_⟩
  · intro d hd hq
    exact haside d hd (h'.aside d (hnext hd) hq)
  · intro d hd hq
    exact h.busy d hd (busy_registered (h'.busy d (hnext hd) hq))
  · intro d hd hdraft hidle hset
    rw [h'.still d (hnext hd) (Nat.ne_of_lt (Nat.lt_of_lt_of_le hd hfnew))
      (fun hb => hidle (h.busy d hd (busy_registered hb))) fun ha => hset (haside d hd ha)]
    exact h.still d hd hdraft hidle hset
  · intro c hle hlt
    rcases Nat.lt_trichotomy c r.classes.size with hc | rfl | hc
    · rw [hleads.methodsAt hc]
      exact h.fresh c hle hc
    · rw [hat]
      exact hfnew
    · exact Nat.le_trans h.leads.next (h'.fresh c (by omega) hlt)
  · rw [h'.parked, hparked, List.filter_filter]
    refine List.filter_congr fun m _ => ?_
    cases hq : q.firstClass? m.cls with
    | some c => rfl
    | none =>
      refine hwaiting m.cls ?_ (hleads.keeps.first_none hq)
      rw [hq]
      exact nofun
  · intro c hle hlt
    rcases Nat.lt_trichotomy c r.classes.size with hc | rfl | hc
    · -- An older class: its methods were written before.
      have hold : (r.registered cls).methodsAt c = r.methodsAt c := by
        rw [methodsAt_registered, if_neg (Nat.ne_of_lt hc)]
      have hstill := h'.methods (filed_registered h.filed hcls)
        (Nat.lt_of_lt_of_eq (Nat.lt_succ_of_lt hc) hsize.symm)
      rw [hold] at hstill
      rw [List.filter_congr fun m _ => hleads.keeps.beq_of_lt hc]
      refine (h.written c hle hc).stays hleads ?_
      rw [hleads.methodsAt hc]
      exact hstill (hcls.methods.free c hc)
    · rw [List.filter_congr fun m _ => first_registered h'.leads.keeps, ← List.filter_filter,
        ← h.parked]
      exact hmethods
    · have hwritten := h'.written c (by omega) hlt
      rw [hparked, List.filter_filter] at hwritten
      rw [List.filter_congr (q := fun m => q.firstClass? m.cls == some c &&
        (m.cls != cls.name && (r.firstClass? m.cls).isNone))]
      · exact hwritten
      · intro m _
        cases hq : q.firstClass? m.cls == some c with
        | false => rfl
        | true =>
          have hfirst := beq_iff_eq.1 hq
          refine (hwaiting m.cls ?_ (hleads.keeps.first_none_of_le hfirst (Nat.le_of_lt hc))).symm
          rw [hfirst]
          exact fun he => Nat.ne_of_gt hc (Option.some.inj he)

end

end Program

open Program (Course Section course_reserved vacant_reserved)

/-! ## Methods -/

section

variable {p : Program} {cls n : Nat}

/-- A method is written after the methods of its class that are there. -/
theorem course_method {decl : FuncDecl} {decls : List FuncDecl} (place : Place) (owed : Bool)
    (hbody : Courses n (methodText decl cls
      (bodyOf (releaseAt n) decl)))
    (hp : p.Filed) (hcls : cls < p.classes.size) (hn : p.parked.length ≤ n)
    (h : Section cls p decls) :
    let q := (method decl cls (bodyOf (releaseAt n) decl)
      place ⟨p, owed⟩).2.program
    Course (p.methodsAt cls) p q ∧ Section cls q (decls ++ [decl]) := by
  have hcourse := hbody (p.classAt cls).functionsAt.place p (p.classAt cls).functionsAt.owed hp
    (hp.tidy.methods cls hcls) hn
  refine ⟨hcourse, .method ⟨place, owed⟩ h hp hn .refl ?_⟩
  exact congrArg _ (hcourse.leads.methodsAt hcls)

/-- The methods that waited for a class are written one after the other. -/
theorem course_methods {decls : List FuncDecl} (ready : List FuncDecl) (place : Place) (owed : Bool)
    (hbody : ∀ decl, Courses n (methodText decl cls
      (bodyOf (releaseAt n) decl)))
    (hp : p.Filed) (hcls : cls < p.classes.size) (hn : p.parked.length ≤ n)
    (h : Section cls p decls) :
    let q := (ready.forM (releaseAt (n + 1) cls) place ⟨p, owed⟩).2.program
    Course (p.methodsAt cls) p q ∧ Section cls q (decls ++ ready) := by
  induction ready generalizing p owed decls with
  | nil =>
    rw [List.append_nil]
    exact ⟨.refl hp, h⟩
  | cons decl ready ih =>
    obtain ⟨hfirst, hmethod⟩ := course_method place owed (hbody decl) hp hcls hn h
    obtain ⟨hrest, hall⟩ := ih (method decl cls
        (bodyOf (releaseAt n) decl) place ⟨p, owed⟩).2.owed
      hfirst.filed (Nat.lt_of_lt_of_le hcls hfirst.leads.keeps.size)
      (Nat.le_trans hfirst.length_parked hn) hmethod
    rw [List.append_assoc] at hall
    rw [hfirst.leads.methodsAt hcls] at hrest
    exact ⟨hfirst.trans hrest (hp.known hcls), hall⟩

end

/-! ## Structs -/

namespace Forms

/-- What stands in a class before the interfaces it implements. -/
def structStart (name : String) (embedded : List Expr) : Emit Unit := do
  classWords "class "
  print name
  embeddedTypes embedded
  print ""

/-- What stands in a class before its methods. -/
def classLines (name : String) (fields : List (String × Expr)) : Emit Unit := do
  fields.forM fun (field, type) => classField field type
  println ""
  print "public "
  print name
  println "() \x7b"
  println "\x7d"
  println ""
  unless fields.isEmpty do constructor name fields

def structLines (name : String) (fields : List (String × Expr)) : Emit Unit := do
  println " \x7b"
  owe
  withReader Place.deeper (classLines name fields)

def structEnd : Emit Unit := do
  owe
  classEnd

theorem classBody_eq (name : String) (fields : List (String × Expr)) :
    classBody name fields = (do
      classLines name fields
      reserveBlock none) := by
  unfold classBody classLines
  simp only [bind_assoc]
  cases fields.isEmpty with
  | true => rfl
  | false => rfl

theorem withReader_bind {α β : Type} (f : Place → Place) (x : Emit α) (g : α → Emit β) :
    withReader f (x >>= g) = withReader f x >>= fun a => withReader f (g a) := rfl

def embeddedFields (fields : List Field) : List Expr := (fields.filter (·.isEmbedded)).map (·.type)

/-- The fields of a struct that have names, in the order in which they are declared. -/
def namedFields (fields : List Field) : List (String × Expr) :=
  fields.flatMap fun f => f.names.map fun n => (n, f.type)

/-- The class of a struct, with the places of its interfaces and its methods. -/
def structClass (name : String) (fields : List Field) (unit : Nat)
    (implementsAt functionsAt : Cursor) : JavaClass :=
  { name, unit, implementsAt, functionsAt
    interfaces := (((embeddedFields fields).drop 1).filterMap embeddedClass?).foldl
      NameSet.insert {}
    fields := (namedFields fields).foldl (fun t (field, type) => t.set field type) {} }

theorem struct_eq (release : Release) (name : String) (fields : List Field) :
    struct release name fields = (do
      structStart name (embeddedFields fields)
      let implementsAt ← reserve false none
      structLines name (namedFields fields)
      let functionsAt ← withReader Place.deeper (reserve true none)
      structEnd
      addClass release (structClass name fields (← read).unit implementsAt functionsAt)) := by
  unfold struct structStart structLines structEnd reserveInline
  simp only [classBody_eq, withReader_bind, bind_assoc]
  rfl

section

variable {W : Outlook} {K : Ken} {a : List Char} {name : String}

theorem scripted_structStart {embedded : List Expr} (hn : Plain W.tidy name)
    (he : ∀ t ∈ embedded, t.Spelled (Plain W.tidy)) : Scripted W (structStart name embedded) :=
  fun K a => .seq (scripted_classWords (plain_of_chars (by decide)) K a)
    (.seq (scripted_print hn K a) (.seq (scripted_embeddedTypes he K a) (.word rfl)))

variable {fields : List (String × Expr)} (hn : Plain W.tidy name)
  (hf : ∀ f ∈ fields, Plain W.tidy f.1 ∧ f.2.Spelled (Plain W.tidy))
include hn hf

theorem scripted_classLines :
    Scripted W (owe >>= fun _ => withReader Place.deeper (classLines name fields)) := by
  refine fun K a => .seq .owe (.deeper ?_)
  refine .seq (parallel_forM fun f hmem => scripted_classField (hf f hmem).1 (hf f hmem).2 K a) ?_
  refine .seq (.line rfl) (.seq (.word rfl) (.seq (scripted_print hn K a) ?_))
  refine .seq (.line rfl) (.seq (.line rfl) (.seq (.line rfl) ?_))
  exact scripted_unless (scripted_constructor hn hf) K a

theorem parallel_structLines :
    Parallel W K a ('\x7d' :: a) Eq (structLines name fields) (structLines name fields) :=
  .seq (.line rfl) (scripted_classLines hn hf K _)

omit hn hf in
theorem parallel_structEnd : Parallel W K ('\x7d' :: a) a Eq structEnd structEnd :=
  .seq .owe parallel_classEnd

end

end Forms

/-- A struct in the making. -/
structure StructParts where
  /-- When it has been started. -/
  start : Desk
  /-- When the place of its interfaces has been left out, and when its fields are written. -/
  opened : Desk
  lines : Desk
  /-- When all is written but its methods, and the class that becomes known then. -/
  last : Desk
  cls : JavaClass

/-- The making of a struct. -/
def Forms.structParts (name : String) (fields : List Field) (place : Place) (desk : Desk) :
    StructParts :=
  let start := (structStart name (embeddedFields fields) place desk).2
  let opened : Desk := ⟨start.program.reserved place false none, start.owed⟩
  let lines := (structLines name (namedFields fields) place opened).2
  { start, opened, lines
    last := (structEnd place ⟨lines.program.reserved place.deeper true none, lines.owed⟩).2
    cls := structClass name fields place.unit
      ⟨{ place with draft := start.program.drafts.next }, false⟩
      ⟨{ place.deeper with draft := lines.program.drafts.next }, true⟩ }

/-- The methods that waited for a struct are written when its class becomes known. -/
theorem Forms.struct_apply (release : Release) (name : String) (fields : List Field) (place : Place)
    (desk : Desk) : let s := structParts name fields place desk
    struct release name fields place desk =
      (waitingFor s.last.program s.cls.name).forM (release s.last.program.classes.size) place
        ⟨s.last.program.registered s.cls, s.last.owed⟩ := by
  intro s
  have hforM : (waitingFor s.last.program s.cls.name).forM
      (release s.last.program.classes.size) = _ := List.forM_map
  rw [hforM, struct_eq]
  simp only [addClass_eq]
  rfl

/-- A struct is written, with new places for its interfaces and its methods, before its class
becomes known. -/
theorem course_structParts {n : Nat} {place : Place} {p : Program} (name : String)
    (fields : List Field) (owed : Bool) (hp : p.Filed) (hplace : p.Seats place)
    (hn : p.parked.length ≤ n) :
    let s := structParts name fields place ⟨p, owed⟩
    Course place.draft p s.start.program ∧ Course place.draft s.start.program s.opened.program ∧
      Course place.draft s.opened.program s.lines.program ∧
      Course place.draft s.lines.program s.last.program ∧ s.last.program.Prepared s.cls ∧
      p.drafts.next ≤ s.cls.implementsAt.place.draft := by
  intro s
  have hnamed : ∀ v ∈ namedFields fields, Plain False v.1 ∧ v.2.Spelled (Plain False) :=
    fun v _ => ⟨False.elim, v.2.spelled_of_all fun _ => False.elim⟩
  -- The start of the class, and the place of its interfaces.
  have hstart : Course place.draft p s.start.program :=
    courses_of_parallel (scripted_structStart (W := .entire fun _ => False) False.elim
      (fun t _ => t.spelled_of_all fun _ => False.elim) .all []) place p owed hp hplace hn
  have hseat := hstart.seats hplace
  have hopened : Course place.draft s.start.program s.opened.program :=
    course_reserved _ _ hstart.filed hseat
  have hvacant : s.opened.program.Vacant s.start.program.drafts.next :=
    vacant_reserved hstart.filed.tidy hseat
  have hclause : s.opened.program.Seats { place with draft := s.start.program.drafts.next } :=
    seats_reserved hstart.filed.tidy hseat
  -- Its fields and constructors, and the place of its methods.
  have hlines : Course place.draft s.opened.program s.lines.program :=
    courses_of_parallel (a := []) (parallel_structLines False.elim hnamed) place s.opened.program
      s.start.owed hopened.filed (hopened.seats hseat) (Nat.le_refl _)
  have hseat' := hlines.seats (hopened.seats hseat)
  let t : Program := s.lines.program.reserved place.deeper true none
  have hdeeper : s.lines.program.Seats place.deeper := hseat'.congr rfl rfl fun _ => rfl
  have ht : Course place.draft s.lines.program t := course_reserved _ _ hlines.filed hdeeper
  have hvacant' : t.Vacant s.lines.program.drafts.next := vacant_reserved hlines.filed.tidy hdeeper
  have hmethods : t.Seats { place.deeper with draft := s.lines.program.drafts.next } :=
    seats_reserved hlines.filed.tidy hdeeper
  -- The end of the class.
  have hlast : Course place.draft t s.last.program :=
    courses_of_parallel (b := []) parallel_structEnd place t s.lines.owed ht.filed
      (ht.seats hseat') (Nat.le_refl _)
  have hlt := Nat.lt_of_lt_of_le hvacant.known hlines.leads.next
  have hne := Nat.ne_of_gt hseat.known
  exact ⟨hstart, hopened, hlines, ht.trans hlast hseat'.known,
    ⟨((hvacant.stays hlines hne).stays ht hne).stays hlast hne,
      hvacant'.stays hlast (Nat.ne_of_gt hseat'.known), hlt,
      hlast.seats (ht.seats (hlines.seats hclause)), hlast.seats hmethods, rfl, rfl⟩,
    hstart.leads.next⟩

/-- When a class becomes known it has no methods yet. Those that are released and those that go on
waiting are all that waited. -/
theorem registered_prepared {r : Program} {cls : JavaClass} {n : Nat} (hr : r.Filed)
    (hcls : r.Prepared cls) (hn : r.parked.length ≤ n) :
    (r.registered cls).Filed ∧ r.classes.size < (r.registered cls).classes.size ∧
      (r.registered cls).methodsAt r.classes.size = cls.functionsAt.place.draft ∧
      Section r.classes.size (r.registered cls) [] ∧
      (waitingFor r cls.name).length + (r.registered cls).parked.length ≤ n := by
  have hat : (r.registered cls).methodsAt r.classes.size = cls.functionsAt.place.draft := by
    rw [methodsAt_registered, if_pos rfl]
  have hclass : r.classes.size < (r.registered cls).classes.size :=
    Nat.lt_of_lt_of_eq (Nat.lt_succ_self _) (size_registered r cls).symm
  refine ⟨filed_registered hr hcls, hclass, hat, .empty hclass ?_, ?_⟩
  · rw [hat]
    exact hcls.methods.empty
  · rw [List.length_eq_length_filter_add (l := r.parked) (·.cls == cls.name)] at hn
    rw [waitingFor, List.length_map]
    exact hn

/-- A class that becomes known takes the methods that waited for it. -/
theorem course_released {r : Program} {cls : JavaClass} {n : Nat} (place : Place) (owed : Bool)
    (hbody : ∀ k, n = k + 1 → ∀ decl cls, Courses k (methodText decl cls
      (bodyOf (releaseAt k) decl)))
    (hr : r.Filed) (hcls : r.Prepared cls) (hn : r.parked.length ≤ n) :
    let q := ((waitingFor r cls.name).forM (releaseAt n r.classes.size) place
      ⟨r.registered cls, owed⟩).2.program
    Course cls.functionsAt.place.draft (r.registered cls) q ∧
      Section r.classes.size q (waitingFor r cls.name) := by
  obtain ⟨hfiled, hclass, hat, hempty, hcount⟩ := registered_prepared hr hcls hn
  generalize waitingFor r cls.name = ready at hcount ⊢
  cases n with
  | zero =>
    rw [List.eq_nil_of_length_eq_zero (Nat.eq_zero_of_add_eq_zero (Nat.le_zero.1 hcount)).1]
    exact ⟨.refl hfiled, hempty⟩
  | succ k =>
    cases ready with
    | nil => exact ⟨.refl hfiled, hempty⟩
    | cons decl ready =>
      rw [List.length_cons] at hcount
      rw [← hat]
      exact course_methods (decl :: ready) place owed (fun decl => hbody k rfl decl _) hfiled hclass
        (by omega) hempty

theorem courses_struct_of_methods {n : Nat} (name : String) (fields : List Field)
    (hbody : ∀ k, n = k + 1 → ∀ decl cls, Courses k (methodText decl cls
      (bodyOf (releaseAt k) decl))) : Courses n (struct (releaseAt n) name fields) := by
  intro place p owed hp hplace hn
  obtain ⟨hstart, hopened, hlines, hlast, hcls, hinew⟩ :=
    course_structParts name fields owed hp hplace hn
  have hcourse := ((hstart.trans hopened hplace.known).trans hlines hplace.known).trans hlast
    hplace.known
  obtain ⟨hrest, hmethods⟩ := course_released place _ hbody hcourse.filed hcls
    (Nat.le_trans hcourse.length_parked hn)
  rw [struct_apply]
  exact hcourse.registered hcls hinew hrest hmethods

/-! ## Conversion -/

theorem steady_entire (release : Release) : Release.Steady (.entire (· = release)) release :=
  ⟨trivial, fun _ => Or.inr fun value declared _ => courses_checkConformance value declared,
    fun _ hn hf _ _ => .struct rfl hn hf⟩

/-- The text of a method, with all that its body declares. -/
theorem parallel_entire (n : Nat) (decl : FuncDecl) (cls : Nat) :
    Parallel (.entire (· = releaseAt n)) .all [] [] Eq
      (methodText decl cls (bodyOf (releaseAt n) decl))
      (methodText decl cls (bodyOf (releaseAt n) decl)) := by
  have hspelled : decl.Spelled (Plain False) := Go.FuncDecl.spelled_of_all (fun _ => False.elim) _
  exact parallel_methodText trivial hspelled trivial (scripted_bodyOf
    (steady_entire _) (Go.FuncDecl.obeys_of_lax Go.Rules.lax_free decl) hspelled)

theorem courses_struct (n : Nat) (name : String) (fields : List Field) :
    Courses n (struct (releaseAt n) name fields) := by
  induction n generalizing name fields with
  | zero => exact courses_struct_of_methods name fields fun k h => by cases h
  | succ n ih =>
    -- In the bodies of released methods, fewer methods wait.
    refine courses_struct_of_methods name fields fun k h decl cls => ?_
    cases h
    refine courses_of_whole ?_ (parallel_entire n decl cls)
    rintro release rfl
    exact ih

theorem courses_of_entire {x : Emit Unit} {n : Nat}
    (h : Parallel (.entire (· = releaseAt n)) .all [] [] Eq x x) : Courses n x := by
  refine courses_of_whole ?_ h
  rintro release rfl
  exact courses_struct n

end GoToJava
