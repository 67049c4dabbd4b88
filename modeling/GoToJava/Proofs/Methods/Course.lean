import GoToJava.Proofs.Homes.Tidy

/-!
Courses of writing. Text goes to the place where it is written, to units, to holes with tasks, to
new drafts and to what is set aside. The drafts for the methods of classes are none of these, so
they hold what the methods wrote, and nothing else.
-/

namespace GoToJava

open Go (Expr Field FuncDecl)
open Emit Forms Drafts Program

namespace Program

/-- Each class has a draft of its own for its methods, and methods wait for unknown classes only. -/
structure Filed (p : Program) : Prop where
  reached : Leads {} p
  tidy : p.Tidy
  apart : ∀ c < p.classes.size, ¬p.Busy (p.methodsAt c)
  own : ∀ b < p.classes.size, ∀ c < p.classes.size, p.methodsAt b = p.methodsAt c → b = c
  waiting : ∀ m ∈ p.parked, p.firstClass? m.cls = none

/-- What stands where a class has its methods. On the way to the program the methods were written
there one after the other, and nothing was written there before, between or after them. -/
inductive Section (cls : Nat) : Program → List FuncDecl → Prop
  | empty {q : Program} (hcls : cls < q.classes.size)
      (hnone : q.drafts.draft (q.methodsAt cls) = {}) : Section cls q []
  | method {p q : Program} {decls : List FuncDecl} {decl : FuncDecl} {waiting : Nat}
      (cursor : Cursor) (h : Section cls p decls) (hp : p.Filed)
      (hwaiting : p.parked.length ≤ waiting)
      (hway : (p.emit cursor (method decl cls
        (Conversion.bodyOf (Conversion.releaseAt waiting) decl))).2.Leads q)
      (hlast : q.drafts.draft (q.methodsAt cls) = (p.emit cursor (method decl cls
        (Conversion.bodyOf (Conversion.releaseAt waiting) decl))).2.drafts.draft
          (p.methodsAt cls)) :
      Section cls q (decls ++ [decl])

/-- As long as nothing is written there, the same methods stand there. -/
theorem Section.stays {p q : Program} {cls : Nat} {decls : List FuncDecl} (h : Section cls p decls)
    (hleads : p.Leads q) (hsame : q.drafts.draft (q.methodsAt cls) =
      p.drafts.draft (p.methodsAt cls)) : Section cls q decls := by
  cases h with
  | empty hcls hnone => exact .empty (Nat.lt_of_lt_of_le hcls hleads.keeps.size) (hsame.trans hnone)
  | method cursor h hp hwaiting hway hlast =>
    exact .method cursor h hp hwaiting (hway.trans hleads) (hsame.trans hlast)

/-- What becomes of a program while text is written to `draft`: drafts that nothing else writes to
stay as they are, and the methods that waited are those of the first class with their name. -/
structure Course (draft : Nat) (p q : Program) : Prop where
  filed : q.Filed
  abides : p.Abides q
  phase : q.phase = p.phase
  iota : p.iota = none → q.iota = none
  aside : ∀ d < p.drafts.next, q.SetAside d → p.SetAside d
  busy : ∀ d < p.drafts.next, q.Busy d → p.Busy d
  still : ∀ d < p.drafts.next, d ≠ draft → ¬p.Busy d → ¬p.SetAside d →
    q.drafts.draft d = p.drafts.draft d
  fresh : ∀ c, p.classes.size ≤ c → c < q.classes.size → p.drafts.next ≤ q.methodsAt c
  parked : q.parked = p.parked.filter fun m => (q.firstClass? m.cls).isNone
  written : ∀ c, p.classes.size ≤ c → c < q.classes.size →
    Section c q ((p.parked.filter fun m => q.firstClass? m.cls == some c).map (·.decl))

variable {p q r : Program} {draft d c other : Nat} {place : Place}

/-! ## Units and names -/

theorem Filed.indexed (hp : p.Filed) : p.Indexed :=
  (regular_of_steps hp.reached regular_empty).indexed

theorem classIndexed_of_leads (h : Leads {} p) : p.ClassIndexed := by
  have hstable : Stable (fun _ _ => True) ClassIndexed := fun _ _ => classIndexed_of_step
  refine hstable.steps h fun name c => ?_
  refine ⟨fun h => ?_, fun h => ?_⟩
  · cases h
  · exact absurd h.1 (Nat.not_lt_zero c)

theorem Filed.known (hp : p.Filed) (hc : c < p.classes.size) : p.methodsAt c < p.drafts.next :=
  (hp.tidy.methods c hc).known

/-! ## One course after another -/

theorem Course.leads (h : Course draft p q) : p.Leads q := h.abides.leads

theorem Course.seats (h : Course draft p q) (hplace : p.Seats place) : q.Seats place :=
  hplace.stays h.abides (h.aside _ hplace.known)

/-- The methods of a class stay if they are not what is written. -/
theorem Course.methods (h : Course draft p q) (hp : p.Filed) (hc : c < p.classes.size)
    (hne : p.methodsAt c ≠ draft) :
    q.drafts.draft (p.methodsAt c) = p.drafts.draft (p.methodsAt c) :=
  h.still _ (hp.known hc) hne (hp.apart c hc) (hp.tidy.methods c hc).free

theorem Course.of_same (hp : p.Filed) (h : p.Abides q) (htidy : q.Tidy)
    (hphase : q.phase = p.phase) (hiota : p.iota = none → q.iota = none)
    (hsize : q.classes.size = p.classes.size)
    (hparked : q.parked = p.parked) (haside : ∀ d < p.drafts.next, q.SetAside d → p.SetAside d)
    (hbusy : ∀ d < p.drafts.next, q.Busy d → p.Busy d)
    (hstill : ∀ d < p.drafts.next, d ≠ draft → ¬p.Busy d → ¬p.SetAside d →
      q.drafts.draft d = p.drafts.draft d) : Course draft p q := by
  have hleads := h.leads
  have hfirst := fun name => hleads.keeps.firstClass?_eq hsize name
  have hold : ∀ {c}, c < q.classes.size → c < p.classes.size :=
    fun hc => Nat.lt_of_lt_of_eq hc hsize
  refine ⟨⟨hp.reached.trans hleads, htidy, ?_, ?_, ?_⟩, h, hphase, hiota, haside, hbusy, hstill, ?_,
    ?_, ?_⟩
  · intro c hc hd
    rw [hleads.methodsAt (hold hc)] at hd
    exact hp.apart c (hold hc) (hbusy _ (hp.known (hold hc)) hd)
  · intro b hb c hc
    rw [hleads.methodsAt (hold hb), hleads.methodsAt (hold hc)]
    exact hp.own b (hold hb) c (hold hc)
  · rw [hparked]
    intro m hm
    rw [hfirst]
    exact hp.waiting m hm
  · exact fun c hle hlt => absurd (hold hlt) (Nat.not_lt_of_le hle)
  · rw [hparked, List.filter_eq_self.2]
    intro m hm
    rw [hfirst, hp.waiting m hm]
    rfl
  · exact fun c hle hlt => absurd (hold hlt) (Nat.not_lt_of_le hle)

theorem Course.refl (hp : p.Filed) : Course draft p p :=
  .of_same hp (.refl hp.tidy.whole) hp.tidy rfl id rfl rfl (fun _ _ h => h) (fun _ _ h => h)
    fun _ _ _ _ _ => rfl

/-- Then something is written elsewhere, where no new class has its methods. -/
theorem Course.follow (h : Course draft p q) (h' : Course other q r)
    (hnew : ∀ c, p.classes.size ≤ c → c < q.classes.size → q.methodsAt c ≠ other)
    (hother : other < p.drafts.next → other = draft ∨ p.Busy other) : Course draft p r := by
  have hkeeps := h'.leads.keeps
  have hnext : ∀ {d}, d < p.drafts.next → d < q.drafts.next :=
    fun hd => Nat.lt_of_lt_of_le hd h.leads.next
  refine ⟨h'.filed, h.abides.trans h'.abides, h'.phase.trans h.phase,
    fun hnone => h'.iota (h.iota hnone), ?_, ?_, ?_, ?_, ?_, ?_⟩
  · intro d hd haside
    exact h.aside d hd (h'.aside d (hnext hd) haside)
  · intro d hd hbusy
    exact h.busy d hd (h'.busy d (hnext hd) hbusy)
  · intro d hd hdraft hbusy haside
    have hne : d ≠ other := by
      rintro rfl
      exact (hother hd).elim hdraft hbusy
    rw [h'.still d (hnext hd) hne (fun hq => hbusy (h.busy d hd hq))
      fun hq => haside (h.aside d hd hq), h.still d hd hdraft hbusy haside]
  · intro c hle hlt
    by_cases hc : c < q.classes.size
    · rw [h'.leads.methodsAt hc]
      exact h.fresh c hle hc
    · exact Nat.le_trans h.leads.next (h'.fresh c (Nat.le_of_not_lt hc) hlt)
  · rw [h'.parked, h.parked, List.filter_filter]
    exact List.filter_congr fun m _ => hkeeps.isNone_and
  · intro c hle hlt
    by_cases hc : c < q.classes.size
    · -- The class was known in between, and nobody has written to its methods since.
      rw [List.filter_congr fun m _ => hkeeps.beq_of_lt hc]
      refine (h.written c hle hc).stays h'.leads ?_
      rw [h'.leads.methodsAt hc, h'.methods h.filed hc (hnew c hle hc)]
    · have hwritten := h'.written c (Nat.le_of_not_lt hc) hlt
      rw [h.parked, List.filter_filter,
        List.filter_congr fun m _ => hkeeps.beq_and (Nat.le_of_not_lt hc)] at hwritten
      exact hwritten

theorem Course.trans (h : Course draft p q) (h' : Course draft q r)
    (hdraft : draft < p.drafts.next) : Course draft p r := by
  refine h.follow h' (fun c hle hlt => ?_) fun _ => Or.inl rfl
  exact Nat.ne_of_gt (Nat.lt_of_lt_of_le hdraft (h.fresh c hle hlt))

/-- Then something is written to a draft that is busy anyway. -/
theorem Course.then_busy (h : Course draft p q) (h' : Course other q r) (hbusy : q.Busy other) :
    Course draft p r := by
  refine h.follow h' (fun c _ hlt heq => ?_) fun hlt => Or.inr (h.busy other hlt hbusy)
  rw [← heq] at hbusy
  exact h.filed.apart c hlt hbusy

theorem Course.length_parked (h : Course draft p q) : q.parked.length ≤ p.parked.length := by
  rw [h.parked]
  exact List.length_filter_le _ _

/-- A vacant draft stays vacant until something is written to it. -/
theorem Vacant.stays (hd : p.Vacant d) (h : Course draft p q) (hne : d ≠ draft) : q.Vacant d where
  known := Nat.lt_of_lt_of_le hd.known h.leads.next
  idle hbusy := hd.idle (h.busy d hd.known hbusy)
  unset haside := hd.unset (h.aside d hd.known haside)
  free := by
    intro c hc
    by_cases hold : c < p.classes.size
    · rw [h.leads.methodsAt hold]
      exact hd.free c hold
    · exact Nat.ne_of_gt (Nat.lt_of_lt_of_le hd.known (h.fresh c (Nat.le_of_not_lt hold) hc))
  empty := (h.still d hd.known hne hd.idle hd.unset).trans hd.empty

/-! ## The same units and classes -/

/-- Units and classes are the same, and no task is added. -/
theorem Frame.course (h : p.Frame q) (hp : p.Filed) (habides : p.Abides q)
    (hfits : ∀ a d, p.AsideFor a d → q.Fits a d)
    (htask : ∀ k t, (q.drafts.hole k).task = some t → (p.drafts.hole k).task = some t)
    (hphase : q.phase = p.phase) (hiota : p.iota = none → q.iota = none)
    (hparked : q.parked = p.parked)
    (hstill : ∀ d, d ≠ draft → ¬p.SetAside d → q.drafts.draft d = p.drafts.draft d) :
    Course draft p q :=
  .of_same hp habides (h.tidy hp.tidy habides hfits htask) hphase hiota h.classes.size hparked
    (fun _ _ hd => h.setAside hd) (fun _ _ hd => h.busy htask hd)
    fun d _ hne _ haside => hstill d hne haside

/-- Only drafts change, of those that are there only one. -/
theorem course_drafts {drafts : Drafts Pending} {refused : Option DraftError} (hp : p.Filed)
    (hfree : ¬p.SetAside draft) (hleads : p.Leads { p with drafts, refused })
    (hextends : p.drafts.Extends drafts) (hwhole : drafts.Whole)
    (htask : ∀ h t, (drafts.hole h).task = some t → (p.drafts.hole h).task = some t)
    (hstill : ∀ d, d ≠ draft → drafts.draft d = p.drafts.draft d) :
    Course draft p { p with drafts, refused } := by
  have habides : p.Abides { p with drafts, refused } :=
    p.frame_drafts.abides hleads hextends hwhole
  have haside : ∀ d, p.SetAside d → drafts.draft d = p.drafts.draft d := by
    intro d hd
    refine hstill d ?_
    rintro rfl
    exact hfree hd
  exact p.frame_drafts.course hp habides
    (fun a d ha => hp.tidy.fits_stays habides ha (haside d ⟨a, ha⟩)) htask rfl id rfl
    fun d hne _ => hstill d hne

theorem course_write (hp : p.Filed) (hfree : ¬p.SetAside draft) (text : String) :
    Course draft p (p.write draft text) := by
  have hleads : p.Leads (p.write draft text) := .single (.write p draft text)
  rw [write_of_open text (hp.tidy.whole.unjoined draft)] at hleads ⊢
  exact course_drafts hp hfree hleads
    (extends_of_grows (show Drafts.Grows True _ _ from grows_put _ _ _))
    (whole_put _ _ hp.tidy.whole) (fun _ _ ht => ht)
    fun _ hne => draft_alter_ne _ _ hne

theorem course_new (hp : p.Filed) (hfree : ¬p.SetAside draft) :
    Course draft p { p with drafts := p.drafts.new } :=
  course_drafts hp hfree (.single (.newDraft p))
    (extends_of_grows (show Drafts.Grows True _ _ from grows_new _))
    (whole_new hp.tidy.whole) (fun _ _ ht => ht) fun d _ => draft_new _ d

theorem course_resolve (hp : p.Filed) (hfree : ¬p.SetAside draft) (hole : Nat) :
    Course draft p { p with drafts := (p.drafts.resolve hole).2 } := by
  have hleads : p.Leads { p with drafts := (p.drafts.resolve hole).2 } := .single (.resolve p hole)
  cases hopen : (p.drafts.hole hole).resolved with
  | true =>
    rw [resolve_of_resolved hopen]
    exact .refl hp
  | false =>
    rw [resolve_of_open hopen] at hleads ⊢
    exact course_drafts hp hfree hleads (drains_emptied hole).toExtends
      (whole_emptied hole hp.tidy.whole) (drains_emptied hole).task fun _ _ => rfl

theorem Frame.abides_tables (h : p.Frame q) (hp : p.Filed) (hleads : p.Leads q)
    (hdrafts : q.drafts = p.drafts) : p.Abides q := by
  refine h.abides hleads ?_ ?_
  · rw [hdrafts]
    exact extends_refl _
  · rw [hdrafts]
    exact hp.tidy.whole

theorem Frame.course_tables (h : p.Frame q) (hp : p.Filed) (hleads : p.Leads q)
    (hdrafts : q.drafts = p.drafts) (hphase : q.phase = p.phase)
    (hiota : p.iota = none → q.iota = none) (hparked : q.parked = p.parked) : Course draft p q := by
  have habides := h.abides_tables hp hleads hdrafts
  have hsame : ∀ d, q.drafts.draft d = p.drafts.draft d := fun d => by rw [hdrafts]
  refine h.course hp habides (fun a d ha => hp.tidy.fits_stays habides ha (hsame d)) ?_ hphase hiota
    hparked fun d _ _ => hsame d
  rw [hdrafts]
  exact fun _ _ ht => ht

theorem frame_note (p : Program) (cursor : Cursor) (n : Note) : p.Frame (n.make cursor p) :=
  ⟨sameRoots_note p cursor n, sameClasses_note p cursor n⟩

/-- Notes keep all that waits, unless one more method has to wait. -/
theorem course_note {n : Note} (hp : p.Filed) (cursor : Cursor) (hn : n.Common)
    (hpark : ∀ cls decl, n ≠ .park cls decl) (hnumber : ∀ index, n = .iota index → index = none) :
    Course draft p (n.make cursor p) := by
  have hrest : (n.make cursor p).phase = p.phase ∧
      (p.iota = none → (n.make cursor p).iota = none) ∧ (n.make cursor p).parked = p.parked := by
    cases n with
    | park cls decl => exact absurd rfl (hpark cls decl)
    | iota index => exact ⟨rfl, fun _ => hnumber index rfl, rfl⟩
    | package name =>
      dsimp only [Note.make]
      split <;> exact ⟨rfl, id, rfl⟩
    | _ => exact ⟨rfl, id, rfl⟩
  exact (frame_note p _ n).course_tables hp (.single (.note p _ hn)) (drafts_note p _ n)
    hrest.1 hrest.2.1 hrest.2.2

theorem Frame.filed (h : p.Frame q) (hp : p.Filed) (hleads : p.Leads q)
    (hdrafts : q.drafts = p.drafts) (hwaiting : ∀ m ∈ q.parked, p.firstClass? m.cls = none) :
    q.Filed := by
  have habides := h.abides_tables hp hleads hdrafts
  have htask : ∀ k t, (q.drafts.hole k).task = some t → (p.drafts.hole k).task = some t := by
    rw [hdrafts]
    exact fun _ _ ht => ht
  have hat : ∀ c, q.methodsAt c = p.methodsAt c :=
    fun c => congrArg (·.place.draft) (h.classes.cls c).functionsAt
  refine ⟨hp.reached.trans hleads, h.tidy hp.tidy habides (fun a d ha => ?_) htask,
    fun c hc hd => ?_, fun b hb c hc => ?_, fun m hm => ?_⟩
  · exact hp.tidy.fits_stays habides ha (by rw [hdrafts])
  · rw [hat] at hd
    exact hp.apart c (Nat.lt_of_lt_of_eq hc h.classes.size) (h.busy htask hd)
  · rw [hat, hat]
    exact hp.own b (Nat.lt_of_lt_of_eq hb h.classes.size) c (Nat.lt_of_lt_of_eq hc h.classes.size)
  · rw [hleads.keeps.firstClass?_eq h.classes.size]
    exact hwaiting m hm

/-- The number of a constant is set or taken away. -/
theorem Filed.numbered (hp : p.Filed) (iota : Option Nat) : p.Frame { p with iota } ∧
    p.Leads { p with iota } ∧ p.Abides { p with iota } ∧ Filed { p with iota } := by
  have hframe : p.Frame { p with iota } := ⟨sameRoots_of_eq rfl, sameClasses_of_eq rfl rfl⟩
  have hleads : p.Leads { p with iota } := .single (.note p default (n := .iota iota) trivial)
  exact ⟨hframe, hleads, hframe.abides_tables hp hleads rfl, hframe.filed hp hleads rfl hp.waiting⟩

theorem Course.numbered {index : Nat} (hp : p.Filed) (hplace : p.Seats place)
    (h : Filed { p with iota := some index } → Seats { p with iota := some index } place →
      Course place.draft { p with iota := some index } q) :
    Course place.draft p { q with iota := none } := by
  obtain ⟨hframe, -, habides, hfiled⟩ := hp.numbered (some index)
  have hwhile := h hfiled (hplace.stays habides hframe.setAside)
  obtain ⟨hframe', hleads', -, -⟩ := hwhile.filed.numbered none
  have hall := hwhile.trans (hframe'.course_tables hwhile.filed hleads' rfl rfl (fun _ => rfl) rfl)
    hplace.known
  have hbusy : ∀ {d}, Busy { p with iota := some index } d → p.Busy d :=
    hframe.busy fun _ _ ht => ht
  exact ⟨hall.filed, habides.trans hall.abides, hall.phase, fun _ => rfl,
    fun d hd h => hframe.setAside (hall.aside d hd h), fun d hd h => hbusy (hall.busy d hd h),
    fun d hd hne hidle haside => hall.still d hd hne (fun h => hidle (hbusy h))
      fun h => haside (hframe.setAside h), hall.fresh, hall.parked, hall.written⟩

/-! ## Holes and units -/

theorem course_reserved (owed : Bool) (task : Option Task) (hp : p.Filed) (hplace : p.Seats place) :
    Course place.draft p (p.reserved place owed task) := by
  refine .of_same hp (abides_reserved hp.tidy hplace) (tidy_reserved hp.tidy hplace) rfl id rfl rfl
    (fun _ _ => setAside_reserved) (fun d hd hbusy => ?_)
    fun d _ hne _ _ => draft_reserved hplace hne
  cases hbusy with
  | root hu => exact .root hu
  | @task k t ht =>
    rw [show (p.reserved place owed task).drafts.hole k = _ from hole_reserve _ _ _ k] at ht
    split at ht
    · obtain ⟨t', -, rfl⟩ := Option.map_eq_some_iff.1 ht
      exact absurd hd (Nat.lt_irrefl _)
    · exact .task ht

theorem course_newUnit {unit : CompilationUnit} (hp : p.Filed) (hleads : p.Leads q)
    (hphase : q.phase = p.phase) (hiota : q.iota = p.iota) (hunits : q.units = p.units.push unit)
    (hroot : unit.root = p.drafts.next) (himports : unit.importsAt = none)
    (hdrafts : q.drafts = p.drafts.new)
    (hclasses : q.classes = p.classes) (hparked : q.parked = p.parked) : Course draft p q := by
  have habides := abides_pushed hunits hroot hdrafts hp.tidy hleads
  refine .of_same hp habides (tidy_pushed hunits hroot himports hdrafts hclasses hp.tidy hleads)
    hphase (fun h => hiota.trans h) (by rw [hclasses]) hparked (fun d _ hd => ?_)
    (fun d hd hbusy => ?_) fun d _ _ _ _ => by rw [hdrafts, draft_new]
  · obtain ⟨a, ha⟩ := hd
    exact ⟨a, asideFor_pushed hunits himports hclasses ha⟩
  · cases hbusy with
    | @root u hu =>
      rw [unit_pushed hunits] at hd ⊢
      split
      · rename_i hnew
        rw [if_pos hnew, hroot] at hd
        exact absurd hd (Nat.lt_irrefl _)
      · rename_i hne
        exact .root (lt_of_pushed hunits hu hne)
    | task ht =>
      rw [hdrafts] at ht
      exact .task ht

end Program

open Program (Course Busy course_write course_new course_note)

/-! ## Actions -/

namespace Emit

variable {α β : Type} {n : Nat}

/-- What the action writes takes its course while no more than `n` methods wait. -/
def Courses (n : Nat) (x : Emit α) : Prop :=
  ∀ (place : Place) (p : Program) (owed : Bool), p.Filed → p.Seats place →
    p.parked.length ≤ n → Course place.draft p (x place ⟨p, owed⟩).2.program

theorem courses_pure (a : α) : Courses n (pure a : Emit α) := fun _ _ _ hp _ _ => .refl hp

theorem courses_bind {x : Emit α} {f : α → Emit β} (hx : Courses n x)
    (hf : ∀ a, Courses n (f a)) : Courses n (x >>= f) := by
  intro place p owed hp hplace hn
  have hfirst := hx place p owed hp hplace hn
  exact hfirst.trans (hf _ place _ _ hfirst.filed (hfirst.seats hplace)
    (Nat.le_trans hfirst.length_parked hn)) hplace.known

theorem courses_print (text : String) : Courses n (print text) :=
  fun _ _ _ hp hplace _ => course_write hp hplace.free _

theorem courses_newline : Courses n newline :=
  fun _ _ _ hp hplace _ => course_write hp hplace.free _

theorem courses_println (text : String) : Courses n (println text) := by
  have hline : Courses n newline := courses_newline
  unfold println
  split
  · exact hline
  · exact courses_bind (courses_print _) fun _ => hline

end Emit

/-! ## Starting units -/

namespace Program

variable {p : Program} {draft : Nat}

/-- The lines before the imports of a unit. -/
def packageLine (unit : CompilationUnit) : Emit Unit :=
  unless unit.dir.isEmpty do
    println ("package " ++ unit.javaPackage ++ ";")
    println ""

theorem header_eq (unit : CompilationUnit) : header unit = (do
    packageLine unit
    reserveBlock none) := by
  unfold header packageLine
  split
  · rw [pure_bind]
  · simp only [bind_assoc]

theorem courses_packageLine {n : Nat} (unit : CompilationUnit) : Courses n (packageLine unit) := by
  unfold packageLine
  split
  · exact courses_pure _
  · exact courses_bind (courses_println _) fun _ => courses_println _

/-- The start of a unit is written to its text, and its imports get a new draft there. -/
theorem course_start {text : Emit Unit} {u : Nat} (hp : p.Filed) (hu : u < p.units.size)
    (ht : Courses p.parked.length text) :
    let r := p.emit ⟨(p.unit u).start u, true⟩ (do
      let imports ← header (p.unit u)
      text
      return imports)
    Course (p.unit u).root p r.2 ∧ r.2.Vacant r.1.place.draft ∧
      r.2.drafts.Under (p.unit u).root r.1.place.draft ∧ p.drafts.next ≤ r.1.place.draft := by
  have hseat := hp.tidy.roots u hu
  have hline := courses_packageLine (p.unit u) ((p.unit u).start u) p true hp hseat (Nat.le_refl _)
  rw [header_eq]
  let desk := (packageLine (p.unit u) ((p.unit u).start u) ⟨p, true⟩).2
  let q : Program := desk.program.reserved ((p.unit u).start u) true none
  have hthere := hline.seats hseat
  -- The place of the imports is reserved right after the package line.
  have hblock : Course (p.unit u).root desk.program q := course_reserved _ _ hline.filed hthere
  have hvacant : q.Vacant desk.program.drafts.next := vacant_reserved hline.filed.tidy hthere
  have hunder : q.drafts.Under (p.unit u).root desk.program.drafts.next := by
    have hhole := hole_reserve_new desk.program.drafts (p.unit u).root none
    have hlt : desk.program.drafts.holes.size < q.drafts.holes.size :=
      Nat.lt_of_lt_of_eq (Nat.lt_succ_self _) (size_holes_reserve _ _ _).symm
    have hchild : q.drafts.Under (p.unit u).root
        (q.drafts.hole desk.program.drafts.holes.size).child := by
      refine .hole hlt ?_
      rw [show q.drafts.hole desk.program.drafts.holes.size = _ from hhole]
      exact .self
    rw [show q.drafts.hole desk.program.drafts.holes.size = _ from hhole] at hchild
    exact hchild
  have hboth := hline.trans hblock hseat.known
  have htext := ht ((p.unit u).start u) q desk.owed hboth.filed (hboth.seats hseat)
    hboth.length_parked
  exact ⟨hboth.trans htext hseat.known, hvacant.stays htext (Nat.ne_of_gt hthere.known),
    htext.abides.under hunder, hline.leads.next⟩

theorem course_startUnit {text : Emit Unit} {u : Nat} (hp : p.Filed) (hu : u < p.units.size)
    (ht : Courses p.parked.length text) (ho : Jots (fun _ => True) text) :
    Course draft p (p.startUnit u text) := by
  obtain ⟨drafts, refused, hsame⟩ :=
    (jots_start (p.unit u) ho).onlyWrites ((p.unit u).start u) ⟨p, true⟩
  obtain ⟨hcourse, hvacant, hunder, hle⟩ := course_start hp hu ht
  unfold startUnit
  change (p.emit ⟨(p.unit u).start u, true⟩ _).2 = _ at hsame
  dsimp only
  generalize p.emit ⟨(p.unit u).start u, true⟩ (do
    let imports ← header (p.unit u)
    text
    return imports) = r at hcourse hvacant hunder hle hsame ⊢
  obtain ⟨imports, q⟩ := r
  dsimp only at hcourse hvacant hunder hle hsame ⊢
  rw [← (hcourse.leads.namesake hu).2.root] at hunder
  obtain ⟨habides, htidy⟩ := tidy_started hcourse.filed.tidy hvacant hunder
  refine .of_same hp (hcourse.abides.trans habides) htidy hcourse.phase hcourse.iota ?_ ?_ ?_ ?_ ?_
  · show q.classes.size = _
    rw [hsame]
  · show q.parked = _
    rw [hsame]
  · rintro d hd ⟨a, ha⟩
    refine hcourse.aside d hd ?_
    cases a with
    | clause c => exact ⟨.clause c, ha⟩
    | imports v =>
      obtain ⟨hv, himports⟩ := ha
      rw [size_units_modifyUnit] at hv
      rw [unit_modifyUnit] at himports
      split at himports
      · cases himports
        exact absurd hd (Nat.not_lt_of_le hle)
      · exact ⟨.imports v, hv, himports⟩
  · intro d hd hbusy
    refine hcourse.busy d hd ?_
    cases hbusy with
    | @root v hv =>
      rw [size_units_modifyUnit] at hv
      rw [unit_modifyUnit]
      split <;> exact .root hv
    | task ht => exact .task ht
  · intro d hd _ hidle haside
    refine hcourse.still d hd ?_ hidle haside
    rintro rfl
    exact hidle (.root hu)

theorem course_typeUnit (hp : p.Filed) (hdraft : draft < p.drafts.next) (place : Place)
    (name : String) :
    let r := p.typeUnit place name
    Course draft p r.2 ∧ r.2.Busy r.1.place.draft ∧ r.2.Seats r.1.place := by
  cases hid : p.unitIndex.get? (unitKey (p.unit (p.unit place.unit).packageUnit).dir name) with
  | some id =>
    have hlt := ((hp.indexed _ id).1 hid).1
    unfold typeUnit
    dsimp only
    rw [hid]
    exact ⟨.refl hp, .root hlt, (hp.tidy.roots id hlt).congr rfl rfl fun _ => rfl⟩
  | none =>
    have hnew : Course draft p (p.newTypeUnit place.unit name) := course_newUnit hp
      (.single (.newType p place.unit name hid)) rfl rfl rfl rfl rfl rfl rfl rfl
    have hlt : p.units.size < (p.newTypeUnit place.unit name).units.size :=
      lt_size_newUnit _ _ _ _ _
    have hstart : Course draft (p.newTypeUnit place.unit name)
        ((p.newTypeUnit place.unit name).startUnit p.units.size (pure ())) :=
      course_startUnit hnew.filed hlt (courses_pure ()) (.pure ())
    have hlt' := hstart.leads.units hlt
    have hboth := hnew.trans hstart hdraft
    rw [typeUnit_of_none hid]
    generalize (p.newTypeUnit place.unit name).startUnit p.units.size (pure ()) = q at hlt' hboth ⊢
    exact ⟨hboth, .root hlt', hboth.filed.tidy.roots _ hlt'⟩

theorem course_packageUnit (hp : p.Filed) (dir name : String) (library : Bool) :
    Course draft p (p.packageUnit dir name library).2 := by
  unfold packageUnit
  split
  · exact .refl hp
  · rename_i hnone
    have hnew : Course draft p (p.newUnit dir name library none) := course_newUnit hp
      (.single (.newPackage p dir name library hnone)) rfl rfl rfl rfl rfl rfl rfl rfl
    have hlt : p.units.size < (p.newUnit dir name library none).units.size :=
      lt_size_newUnit _ _ _ _ _
    dsimp only
    split
    · exact hnew
    · refine hnew.follow (course_startUnit hnew.filed hlt (courses_println _)
        (jots_println _)) (fun c hle hlt => ?_) fun _ => Or.inl rfl
      exact absurd hlt (Nat.not_lt_of_le hle)

end Program

/-! ## Conversion -/

/-- Everything may be written, but classes become known only together with the methods that wait for
them, constants are numbered only for a while, and classes come to implement interfaces in one
step. -/
def Outlook.entire (whole : Release → Prop) : Outlook :=
  { sure .free Eq with
    registers := fun _ => False
    conforms := False
    counts := False
    atom := fun x => ∀ n, Courses n x
    whole }

/-- What is written takes its course, if structs do. -/
def Outlook.courses {whole : Release → Prop} (n : Nat)
    (hwhole : ∀ release, whole release → ∀ name fields,
      Courses n (struct release name fields)) : Chronicle (.entire whole) where
  fits _ place p := p.Filed ∧ p.Seats place ∧ p.parked.length ≤ n
  tells place := Course place.draft
  refl hp := .refl hp.1
  trans hp h h' := h.trans h' hp.2.1.known
  stays hp h := ⟨h.filed, h.seats hp.2.1, Nat.le_trans h.length_parked hp.2.2⟩
  knows hp := ⟨trivial, sees_of_loose _ False.elim _, hp⟩
  steer hf hp := by
    obtain ⟨hseat, hsame⟩ := hp.2.1.steer hf
    exact ⟨⟨hp.1, hseat, hp.2.2⟩, fun q => by rw [hsame]; exact id⟩
  does hp h := by
    cases h with
    | @note n h owed =>
      refine course_note hp.1 _ ?_ ?_ ?_
      · cases n with
        | need i => exact h
        | _ => trivial
      · rintro cls decl rfl
        exact h.2.1
      · rintro index rfl
        exact h.2.resolve_right id
    | write text => exact course_write hp.1 hp.2.1.free _
    | var | scope => exact course_note hp.1 _ trivial nofun nofun
    | hole => exact course_reserved true none hp.1 hp.2.1
    | @task task _ _ _ owed =>
      exact course_reserved owed (some task) hp.1 hp.2.1
    | register _ hn => exact hn.elim
  opening _ _ := id
  enrolled _ := id
  goes hp h := by
    cases h with
    | look =>
      -- The text that is looked at has a new draft of its own.
      have hnew := course_new hp.1 hp.2.1.free
      refine ⟨⟨hnew.filed, seats_scratch hp.1.tidy _, hp.2.2⟩, fun q hlook =>
        hnew.follow hlook (fun c hle hlt => ?_) fun hlt => ?_⟩
      · exact absurd hlt (Nat.not_lt_of_le hle)
      · exact absurd hlt (Nat.lt_irrefl _)
    | methods hm => exact hm.elim
    | implementing hc => exact hc.elim
    | typeUnit =>
      obtain ⟨hunit, hbusy, hseat⟩ := course_typeUnit hp.1 hp.2.1.known _ _
      exact ⟨⟨hunit.filed, hseat, Nat.le_trans hunit.length_parked hp.2.2⟩,
        fun q hthere => hunit.then_busy hthere hbusy⟩
  struct h hp name fields owed := hwhole _ h name fields _ _ owed hp.1 hp.2.1 hp.2.2
  atom h hp owed := h n _ _ owed hp.1 hp.2.1 hp.2.2
  numbered _ hp h := .numbered hp.1 hp.2.1 fun hfiled hseat => h ⟨hfiled, hseat, hp.2.2⟩

section

variable {α : Type} {a b : List Char} {R : α → α → Prop} {x : Emit α} {n : Nat}

theorem courses_of_whole {whole : Release → Prop}
    (hwhole : ∀ release, whole release → ∀ name fields, Courses n (struct release name fields))
    (h : Parallel (.entire whole) .all a b R x x) : Courses n x :=
  fun _ _ owed hp hplace hn =>
    ((Outlook.courses n hwhole).tells_of_parallel h ⟨hp, hplace, hn⟩ owed).1

/-- Text in which no class becomes known takes its course. -/
theorem courses_of_parallel (h : Parallel (.entire fun _ => False) .all a b R x x) : Courses n x :=
  courses_of_whole (fun _ h => h.elim) h

end

/-! ## Conformance -/

namespace Program

variable (p : Program)

/-- What the class implements, with one more interface. -/
def extended (cls : Nat) (name : String) : Program :=
  let at_ := implementsCursor (p.classAt cls)
  let word := if (p.classAt cls).interfaces.isEmpty then " implements " else ", "
  (emit (Note.make at_ p (.conformance cls name)) at_ do
    print word
    print name
    refer name).2

variable {p}

/-- Only the draft for the interfaces of the class is written to, and its unit names the
interface. -/
theorem extended_eq {cls : Nat} {name : String} (hp : p.drafts.Whole)
    (howed : (p.classAt cls).implementsAt.owed = false) :
    let word := if (p.classAt cls).interfaces.isEmpty then " implements " else ", "
    p.extended cls name = modifyUnit
      { p.modifyClass cls fun c => { c with interfaces := c.interfaces.insert name } with
        drafts := (p.drafts.put (p.clauseAt cls) word).put (p.clauseAt cls) name }
      (p.classAt cls).unit fun u => { u with referenced := u.referenced.insert name } := by
  intro word
  let q := p.modifyClass cls fun c => { c with interfaces := c.interfaces.insert name }
  have hfirst : q.write (p.clauseAt cls) word =
      { q with drafts := p.drafts.put (p.clauseAt cls) word } :=
    write_of_open word (hp.unjoined _)
  have hsecond : Program.write { q with drafts := p.drafts.put (p.clauseAt cls) word }
      (p.clauseAt cls) name = { q with drafts := (p.drafts.put _ word).put _ name } :=
    write_of_open name ((Drafts.whole_put _ _ hp).unjoined _)
  have hrun : p.extended cls name = modifyUnit ((q.write (p.clauseAt cls)
      (if (p.classAt cls).implementsAt.owed then "".pushn '\t' _ ++ word else word)).write
        (p.clauseAt cls) name) (p.classAt cls).unit
      fun u => { u with referenced := u.referenced.insert name } := rfl
  rw [hrun, howed, if_neg Bool.false_ne_true, hfirst, hsecond]

end Program

namespace Forms

/-- A class comes to implement an interface, unless it does already. -/
def conform (inferred interface : String) : Emit Unit := do
  let p ← program
  if inferred == interface || !p.interfaces.contains interface then return
  match p.classIndex.get? inferred with
  | none => return
  | some id =>
    let cls := p.classAt id
    if cls.interfaces.contains interface then return
    modifyProgram (·.modifyClass id fun c =>
      { c with interfaces := c.interfaces.insert interface })
    elsewhere (implementsCursor cls) do
      print (if cls.interfaces.isEmpty then " implements " else ", ")
      print interface
      refer interface

/-- A class that is named and does not implement the interface yet comes to do so. -/
theorem program_conform (inferred interface : String) (place : Place) (desk : Desk) :
    (conform inferred interface place desk).2.program = desk.program ∨
      ∃ cls, desk.program.classIndex.get? inferred = some cls ∧
        (conform inferred interface place desk).2.program =
          desk.program.extended cls interface := by
  have hprogram : ∀ f : Program → Emit Unit,
      (program >>= f) place desk = f desk.program place desk := fun _ => rfl
  unfold conform
  rw [hprogram]
  split
  · exact .inl rfl
  · cases hcls : desk.program.classIndex.get? inferred with
    | none => exact .inl rfl
    | some cls =>
      dsimp only
      split
      · exact .inl rfl
      · exact .inr ⟨cls, rfl, rfl⟩

end Forms

namespace Program

variable {p : Program} {draft c : Nat}

/-- The draft for the interfaces of a class is for them alone. -/
theorem course_extended {name : String} (hp : p.Filed) (hc : c < p.classes.size) :
    Course draft p (p.extended c name) := by
  have hleads : p.Leads (p.extended c name) :=
    (Relation.ReflTransGen.single (.note p _ (n := .conformance c name) trivial)).trans
      (steps_emit _ _ (takes_bind (takes_of_jots (.print _)) fun _ =>
        takes_bind (takes_of_jots (.print _)) fun _ =>
        takes_of_scripted (scripted_refer _)))
  have hfits := hp.tidy.fits (.clause c) _ ⟨hc, rfl⟩
  rw [extended_eq hp.tidy.whole hfits.2.2] at hleads ⊢
  generalize (if (p.classAt c).interfaces.isEmpty then " implements " else ", ") = word at hleads ⊢
  let q := modifyUnit
    { p.modifyClass c fun x => { x with interfaces := x.interfaces.insert name } with
      drafts := (p.drafts.put (p.clauseAt c) word).put (p.clauseAt c) name }
    (p.classAt c).unit fun u => { u with referenced := u.referenced.insert name }
  have hclasses := sameClasses_modifyClass p c
    (f := fun x => { x with interfaces := x.interfaces.insert name }) fun _ => ⟨rfl, rfl, rfl, rfl⟩
  have hroots := sameRoots_modifyUnit p (p.classAt c).unit
    (f := fun u => { u with referenced := u.referenced.insert name }) (fun _ => rfl) fun _ => rfl
  have hframe : p.Frame q := ⟨⟨hroots.size, hroots.root, hroots.importsAt⟩,
    ⟨hclasses.size, hclasses.cls, hclasses.classIndex⟩⟩
  have hput : ∀ (d : Drafts Pending) text, d.Extends (d.put (p.clauseAt c) text) := fun d text =>
    extends_of_grows (show Drafts.Grows True _ _ from grows_put _ _ _)
  have habides : p.Abides q := hframe.abides hleads
    (extends_trans (hput _ _) (hput _ _))
    (whole_put _ _ (whole_put _ _ hp.tidy.whole))
  have hdraft : ∀ d, d ≠ p.clauseAt c → q.drafts.draft d = p.drafts.draft d := fun d hd =>
    (draft_alter_ne _ _ hd).trans (draft_alter_ne _ _ hd)
  refine hframe.course hp habides (fun a d ha => ?_) (fun _ _ ht => ht) rfl id rfl
    fun d _ haside => hdraft d ?_
  · by_cases hd : d = p.clauseAt c
    · obtain rfl := hp.tidy.one a (.clause c) d ha ⟨hc, hd.symm⟩
      rw [← hd] at hfits
      refine ⟨fun u hu hunder => ?_, ?_, ?_⟩
      · obtain ⟨hu', hunder'⟩ := habides.home hu (hp.tidy.known d ⟨_, ha⟩) hunder
        rw [(hleads.keeps.cls c hc).unit]
        exact hfits.1 u hu' hunder'
      · exact (holes_draft_put _ _ _ _).trans ((holes_draft_put _ _ _ _).trans hfits.2.1)
      · rw [(hleads.keeps.cls c hc).implementsAt]
        exact hfits.2.2
    · exact hp.tidy.fits_stays habides ha (hdraft d hd)
  · rintro rfl
    exact haside ⟨.clause c, hc, rfl⟩

end Program

/-- What is only looked at takes its course if the text of its own does. -/
theorem courses_inspect {n : Nat} {α : Type} {R : α → α → Prop} {x : Emit α}
    (h : Parallel (.entire fun _ => False) .all [] [] R x x) : Courses n (inspect x) :=
  courses_of_parallel (a := []) (.inspect trivial h)

theorem Forms.courses_conform {n : Nat} (inferred interface : String) :
    Courses n (conform inferred interface) := by
  intro place p owed hp _ _
  rcases program_conform inferred interface place ⟨p, owed⟩ with hsame | ⟨c, hc, hnew⟩
  · rw [hsame]
    exact .refl hp
  · rw [hnew]
    exact course_extended hp ((classIndexed_of_leads hp.reached _ c).1 hc).1

theorem courses_checkConformance {n : Nat} (value declared : Expr) :
    Courses n (checkConformance value declared) := by
  have hspelled : ∀ e : Expr, e.Spelled (Plain False) := Expr.spelled_of_all fun _ => False.elim
  refine courses_bind (courses_inspect (answers_infer trivial .atOnce (hspelled value)))
    fun inferred => ?_
  refine courses_bind (courses_inspect (scripted_writeTypeAt _ (fun _ => trivial)
    (hspelled declared) _ _)) fun interface => ?_
  exact courses_conform inferred.2 interface.2

end GoToJava
