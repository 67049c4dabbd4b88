import GoToJava.Proofs.Methods.Classes

/-!
Homes of text. What is written at a place ends up in the text of the unit that the place belongs to,
or in no unit if it is only looked at. The drafts for imports of units and for interfaces of classes
are set aside. Main definitions: `Seats`, where text may be written, and `Tidy`, which says that all
places a program keeps are such.
-/

namespace GoToJava

open Go (FuncDecl)
open Emit Drafts

/-! ## What lies under a draft -/

namespace Drafts

variable {τ : Type} {d : Drafts τ} {root x parent : Nat} {task : Option τ}

theorem extends_reserve (hp : parent < d.next) : d.Extends (d.reserve parent task) :=
  extends_of_grows (show Grows False _ _ from grows_reserve d hp False.elim)

/-- A draft that fills no hole lies under itself alone. -/
theorem eq_of_under (hx : d.Under root x) (h : ∀ k < d.holes.size, (d.hole k).child ≠ x) :
    x = root := by
  rcases under_cases hx with heq | ⟨k, hk, hchild, -⟩
  · exact heq
  · exact absurd hchild.symm (h k hk)

theorem under_reserve_new (hd : d.Whole) (hp : parent < d.next)
    (hx : (d.reserve parent task).Under root d.next) (hroot : root ≠ d.next) :
    d.Under root parent := by
  rcases under_cases hx with h | ⟨h, hh, hchild, hu⟩
  · exact absurd h.symm hroot
  · rw [size_holes_reserve] at hh
    by_cases hnew : h = d.holes.size
    · rw [hnew, hole_reserve_new] at hu
      exact under_of_extends (extends_reserve hp) (whole_reserve task hd hp) hu hp
    · have hold : h < d.holes.size := by omega
      rw [hole_reserve_old d parent task hold] at hchild
      exact absurd hchild (Nat.ne_of_gt (hd.forest.known h hold))

end Drafts

namespace Program

variable {p q r : Program} {place : Place} {d u c : Nat} {cls : JavaClass}

/-! ## Where programs lead -/

/-- The program may come to this. -/
abbrev Leads (p q : Program) : Prop := Steps (fun _ _ => True) p q

theorem Leads.keeps (h : p.Leads q) : p.KeepsClasses q := keepsClasses_of_steps h

theorem Leads.next (h : p.Leads q) : p.drafts.next ≤ q.drafts.next := next_of_steps h

theorem Leads.namesake (h : p.Leads q) (hu : u < p.units.size) :
    u < q.units.size ∧ (p.unit u).Namesake (q.unit u) := by
  induction h with
  | refl => exact ⟨hu, .refl _⟩
  | tail _ hstep ih =>
    obtain ⟨hlt, hsame⟩ := namesake_of_step hstep ih.1
    exact ⟨hlt, ih.2.trans hsame⟩

theorem Leads.units (h : p.Leads q) (hu : u < p.units.size) : u < q.units.size :=
  (h.namesake hu).1

/-- The program goes on, and drafts that are there stay in the texts they are in. -/
structure Abides (p q : Program) : Prop where
  leads : p.Leads q
  drafts : p.drafts.Extends q.drafts
  whole : q.drafts.Whole
  roots : ∀ u, p.units.size ≤ u → u < q.units.size → p.drafts.next ≤ (q.unit u).root

namespace Abides

theorem refl (hp : p.drafts.Whole) : p.Abides p :=
  ⟨.refl, extends_refl _, hp, fun _ hle hlt => absurd hlt (Nat.not_lt_of_le hle)⟩

theorem trans (h : p.Abides q) (h' : q.Abides r) : p.Abides r where
  leads := h.leads.trans h'.leads
  drafts := extends_trans h.drafts h'.drafts
  whole := h'.whole
  roots u hle hlt := by
    by_cases hu : u < q.units.size
    · rw [(h'.leads.namesake hu).2.root]
      exact h.roots u hle hu
    · exact Nat.le_trans h.drafts.next (h'.roots u (Nat.le_of_not_lt hu) hlt)

theorem under (h : p.Abides q) {root : Nat} (hd : p.drafts.Under root d) : q.drafts.Under root d :=
  under_extends h.drafts hd

theorem home (h : p.Abides q) (hu : u < q.units.size) (hd : d < p.drafts.next)
    (hunder : q.drafts.Under (q.unit u).root d) :
    u < p.units.size ∧ p.drafts.Under (p.unit u).root d := by
  by_cases hold : u < p.units.size
  · rw [(h.leads.namesake hold).2.root] at hunder
    exact ⟨hold, under_of_extends h.drafts h.whole hunder hd⟩
  · -- The texts of new units are younger.
    have hroot := h.roots u (Nat.le_of_not_lt hold) hu
    have hle := under_le h.whole.forest hunder
    omega

end Abides

/-! ## Places -/

/-- The draft for the methods of a class. -/
def methodsAt (p : Program) (cls : Nat) : Nat := (p.classAt cls).functionsAt.place.draft

/-- The draft for the interfaces of a class. -/
def clauseAt (p : Program) (cls : Nat) : Nat := (p.classAt cls).implementsAt.place.draft

theorem Leads.methodsAt (h : p.Leads q) (hc : c < p.classes.size) : q.methodsAt c = p.methodsAt c :=
  congrArg (·.place.draft) (h.keeps.cls c hc).functionsAt

/-- What drafts are set aside for: the imports of a unit, and the interfaces of a class. -/
inductive Purpose where
  | imports (unit : Nat)
  | clause (cls : Nat)

def AsideFor (p : Program) : Purpose → Nat → Prop
  | .imports u, d => u < p.units.size ∧ (p.unit u).importsAt = some d
  | .clause c, d => c < p.classes.size ∧ p.clauseAt c = d

def SetAside (p : Program) (d : Nat) : Prop := ∃ a, p.AsideFor a d

/-- Text may be written at the place: its draft is in the text of its own unit or of none, and of
none if it is only looked at, and it is not set aside. -/
structure Seats (p : Program) (place : Place) : Prop where
  known : place.draft < p.drafts.next
  home : ∀ u < p.units.size, p.drafts.Under (p.unit u).root place.draft →
    place.unit = u ∧ place.scratch = false
  free : ¬p.SetAside place.draft

theorem Seats.stays (h : p.Seats place) (hq : p.Abides q)
    (haside : q.SetAside place.draft → p.SetAside place.draft) : q.Seats place where
  known := Nat.lt_of_lt_of_le h.known hq.leads.next
  home u hu hunder := by
    obtain ⟨hu', hunder'⟩ := hq.home hu h.known hunder
    exact h.home u hu' hunder'
  free hd := h.free (haside hd)

/-- Only draft and unit count, and whether text is only looked at. -/
theorem Seats.congr {other : Place} (h : p.Seats place) (hdraft : other.draft = place.draft)
    (hscratch : other.scratch = place.scratch)
    (hunit : place.scratch = false → other.unit = place.unit) : p.Seats other := by
  refine ⟨by rw [hdraft]; exact h.known, fun u hu hunder => ?_, by rw [hdraft]; exact h.free⟩
  rw [hdraft] at hunder
  obtain ⟨hu', hnot⟩ := h.home u hu hunder
  exact ⟨(hunit hnot).trans hu', hscratch.trans hnot⟩

theorem Seats.steer {W : Outlook} {K : Ken} {f : Place → Place} {binds : Prop}
    (h : p.Seats place) (hf : W.Steers K f binds) :
    p.Seats (f place) ∧ (f place).draft = place.draft :=
  ⟨h.congr (hf.same place) (hf.scratch place) hf.unit, hf.same place⟩

/-- A draft that may be written to at any time. -/
inductive Busy (p : Program) : Nat → Prop
  | root {u : Nat} (hu : u < p.units.size) : Busy p (p.unit u).root
  | task {h : Nat} {t : Pending} (ht : (p.drafts.hole h).task = some t) :
      Busy p t.cursor.place.draft

/-- A draft that is not used for anything yet. -/
structure Vacant (p : Program) (draft : Nat) : Prop where
  known : draft < p.drafts.next
  idle : ¬p.Busy draft
  free : ∀ c < p.classes.size, p.methodsAt c ≠ draft
  unset : ¬p.SetAside draft
  empty : p.drafts.draft draft = {}

/-- The draft is fit for the purpose. Imports are in the text of their unit, and still to come. The
interfaces of a class are in the text of its unit or in none, and have no holes. -/
def Fits (p : Program) : Purpose → Nat → Prop
  | .imports u, d => p.drafts.Under (p.unit u).root d ∧ p.drafts.draft d = {}
  | .clause c, d =>
    (∀ u < p.units.size, p.drafts.Under (p.unit u).root d → (p.classAt c).unit = u) ∧
      (p.drafts.draft d).holes = #[] ∧ (p.classAt c).implementsAt.owed = false

/-- Text may be written at all places that a program keeps, and what is set aside is fit for its
purpose and has no other. -/
structure Tidy (p : Program) : Prop where
  whole : p.drafts.Whole
  roots : ∀ u < p.units.size, p.Seats ((p.unit u).start u)
  methods : ∀ c < p.classes.size, p.Seats (p.classAt c).functionsAt.place
  tasks : ∀ h t, (p.drafts.hole h).task = some t → p.Seats t.cursor.place
  known : ∀ d, p.SetAside d → d < p.drafts.next
  fits : ∀ a d, p.AsideFor a d → p.Fits a d
  one : ∀ a b d, p.AsideFor a d → p.AsideFor b d → a = b

namespace Tidy

theorem not_asideFor_empty (a : Purpose) : ¬AsideFor {} a d := by
  cases a <;> exact fun h => Nat.not_lt_zero _ h.1

theorem empty : Tidy {} where
  whole := whole_empty
  roots _ hu := absurd hu (Nat.not_lt_zero _)
  methods _ hc := absurd hc (Nat.not_lt_zero _)
  tasks _ _ ht := by cases ht
  known := fun _ ⟨a, ha⟩ => absurd ha (not_asideFor_empty a)
  fits a _ ha := absurd ha (not_asideFor_empty a)
  one a _ _ ha := absurd ha (not_asideFor_empty a)

variable (hp : p.Tidy)
include hp

theorem known_of_busy (h : p.Busy d) : d < p.drafts.next := by
  cases h with
  | root hu => exact (hp.roots _ hu).known
  | task ht => exact (hp.tasks _ _ ht).known

theorem not_setAside_new (hd : p.drafts.next ≤ d) : ¬p.SetAside d :=
  fun h => Nat.not_lt_of_le hd (hp.known d h)

theorem root_lt {u : Nat} (hu : u < p.units.size) : (p.unit u).root < p.drafts.next :=
  (hp.roots u hu).known

/-- What was set aside is fit for its purpose as long as it stays as it is. -/
theorem fits_stays (h : p.Abides q) {a : Purpose} (ha : p.AsideFor a d)
    (hsame : q.drafts.draft d = p.drafts.draft d) : q.Fits a d := by
  have hfits := hp.fits a d ha
  have hknown := hp.known d ⟨a, ha⟩
  cases a with
  | imports u =>
    refine ⟨?_, hsame.trans hfits.2⟩
    rw [(h.leads.namesake ha.1).2.root]
    exact h.under hfits.1
  | clause c =>
    have hname := h.leads.keeps.cls c ha.1
    refine ⟨fun u hu hunder => ?_, by rw [hsame]; exact hfits.2.1, ?_⟩
    · obtain ⟨hu', hunder'⟩ := h.home hu hknown hunder
      rw [hname.unit]
      exact hfits.1 u hu' hunder'
    · rw [hname.implementsAt]
      exact hfits.2.2

/-- A program that goes on is tidy if all that is new is. At most one draft is set aside, which was
vacant. -/
theorem grow (h : p.Abides q) (fresh : Option (Purpose × Nat))
    (haside : ∀ a d, q.AsideFor a d → p.AsideFor a d ∨ fresh = some (a, d))
    (hfresh : ∀ a d, fresh = some (a, d) → p.Vacant d ∧ q.Fits a d)
    (hfits : ∀ a d, p.AsideFor a d → q.Fits a d)
    (hroots : ∀ u < q.units.size, u < p.units.size ∨ q.Seats ((q.unit u).start u))
    (hmethods : ∀ c < q.classes.size, c < p.classes.size ∨ q.Seats (q.classAt c).functionsAt.place)
    (htasks : ∀ k t, (q.drafts.hole k).task = some t →
      (p.drafts.hole k).task = some t ∨ q.Seats t.cursor.place) : q.Tidy := by
  have hstays : ∀ {place : Place}, p.Seats place → ¬p.Vacant place.draft → q.Seats place := by
    rintro place hplace hnot
    refine hplace.stays h ?_
    rintro ⟨a, ha⟩
    rcases haside a _ ha with hold | hnew
    · exact ⟨a, hold⟩
    · exact absurd (hfresh a _ hnew).1 hnot
  have hbusy : ∀ {place : Place}, p.Seats place → p.Busy place.draft → q.Seats place :=
    fun hplace hbusy => hstays hplace fun hvacant => hvacant.idle hbusy
  refine ⟨h.whole, fun u hu => ?_, fun c hc => ?_, fun k t ht => ?_, ?_, ?_, ?_⟩
  · rcases hroots u hu with hold | hnew
    · have hseat := hbusy (hp.roots u hold) (.root hold)
      exact hseat.congr (h.leads.namesake hold).2.root rfl fun _ => rfl
    · exact hnew
  · rcases hmethods c hc with hold | hnew
    · rw [(h.leads.keeps.cls c hold).functionsAt]
      exact hstays (hp.methods c hold) fun hvacant => hvacant.free c hold rfl
    · exact hnew
  · rcases htasks k t ht with hold | hnew
    · exact hbusy (hp.tasks k t hold) (.task hold)
    · exact hnew
  · rintro d ⟨a, ha⟩
    rcases haside a d ha with hold | hnew
    · exact Nat.lt_of_lt_of_le (hp.known d ⟨a, hold⟩) h.leads.next
    · exact Nat.lt_of_lt_of_le (hfresh a d hnew).1.known h.leads.next
  · intro a d ha
    rcases haside a d ha with hold | hnew
    · exact hfits a d hold
    · exact (hfresh a d hnew).2
  · intro a b d ha hb
    rcases haside a d ha with hold | hnew
    · rcases haside b d hb with hold' | hnew'
      · exact hp.one a b d hold hold'
      · exact absurd ⟨a, hold⟩ (hfresh b d hnew').1.unset
    · rcases haside b d hb with hold' | hnew'
      · exact absurd ⟨b, hold'⟩ (hfresh a d hnew).1.unset
      · rw [hnew] at hnew'
        exact congrArg Prod.fst (Option.some.inj hnew')

end Tidy

/-! ## The same units and classes -/

/-- Units keep their texts, and other tables may change. -/
structure SameRoots (p q : Program) : Prop where
  size : q.units.size = p.units.size
  root : ∀ u, (q.unit u).root = (p.unit u).root
  importsAt : ∀ u, (q.unit u).importsAt = (p.unit u).importsAt

theorem sameRoots_of_eq (h : q.units = p.units) : p.SameRoots q := by
  refine ⟨by rw [h], fun u => ?_, fun u => ?_⟩
  · unfold Program.unit
    rw [h]
  · unfold Program.unit
    rw [h]

theorem sameRoots_modifyUnit {f : CompilationUnit → CompilationUnit} (p : Program) (id : Nat)
    (hroot : ∀ x, (f x).root = x.root) (himports : ∀ x, (f x).importsAt = x.importsAt) :
    p.SameRoots (p.modifyUnit id f) := by
  refine ⟨size_units_modifyUnit p id f, fun u => ?_, fun u => ?_⟩
  · rw [unit_modifyUnit]
    split
    · exact hroot _
    · rfl
  · rw [unit_modifyUnit]
    split
    · exact himports _
    · rfl

theorem sameRoots_note (p : Program) (cursor : Cursor) (n : Note) :
    p.SameRoots (n.make cursor p) := by
  cases n with
  | package name =>
    dsimp only [Note.make]
    split
    · exact sameRoots_modifyUnit _ _ (fun _ => rfl) fun _ => rfl
    · exact sameRoots_of_eq rfl
  | need _ | refer _ | func _ _ | varType _ _ | varValue _ _ =>
    exact sameRoots_modifyUnit _ _ (fun _ => rfl) fun _ => rfl
  | _ => exact sameRoots_of_eq rfl

/-- The same units and classes. -/
structure Frame (p q : Program) : Prop where
  roots : p.SameRoots q
  classes : p.SameClasses q

namespace Frame

variable (h : p.Frame q)
include h

theorem clauseAt (c : Nat) : q.clauseAt c = p.clauseAt c :=
  congrArg (·.place.draft) (h.classes.cls c).implementsAt

theorem asideFor {a : Purpose} (hd : q.AsideFor a d) : p.AsideFor a d := by
  cases a with
  | imports u => exact ⟨h.roots.size ▸ hd.1, h.roots.importsAt u ▸ hd.2⟩
  | clause c => exact ⟨h.classes.size ▸ hd.1, h.clauseAt c ▸ hd.2⟩

theorem setAside (hd : q.SetAside d) : p.SetAside d := by
  obtain ⟨a, ha⟩ := hd
  exact ⟨a, h.asideFor ha⟩

theorem busy (htask : ∀ k t, (q.drafts.hole k).task = some t → (p.drafts.hole k).task = some t)
    (hd : q.Busy d) : p.Busy d := by
  cases hd with
  | root hu =>
    rw [h.roots.root]
    exact .root (Nat.lt_of_lt_of_eq hu h.roots.size)
  | task ht => exact .task (htask _ _ ht)

theorem abides (hleads : p.Leads q) (hdrafts : p.drafts.Extends q.drafts)
    (hwhole : q.drafts.Whole) : p.Abides q where
  leads := hleads
  drafts := hdrafts
  whole := hwhole
  roots _ hle hlt := absurd (Nat.lt_of_lt_of_eq hlt h.roots.size) (Nat.not_lt_of_le hle)

/-- All is tidy whatever is written, as long as what is set aside stays fit for its purpose. -/
theorem tidy (hp : p.Tidy) (habides : p.Abides q) (hfits : ∀ a d, p.AsideFor a d → q.Fits a d)
    (htask : ∀ k t, (q.drafts.hole k).task = some t → (p.drafts.hole k).task = some t) : q.Tidy :=
  hp.grow habides none (fun _ _ ha => Or.inl (h.asideFor ha)) nofun hfits
    (fun _ hu => Or.inl (h.roots.size ▸ hu)) (fun _ hc => Or.inl (h.classes.size ▸ hc))
    fun k t ht => Or.inl (htask k t ht)

end Frame

/-! ## New drafts -/

theorem frame_drafts {drafts : Drafts Pending} {refused : Option DraftError} (p : Program) :
    p.Frame { p with drafts, refused } :=
  ⟨sameRoots_of_eq rfl, sameClasses_of_eq rfl rfl⟩

theorem seats_scratch (hp : p.Tidy) (place : Place) :
    Seats { p with drafts := p.drafts.new } (scratchCursor place p).place where
  known := Nat.lt_of_lt_of_eq (Nat.lt_succ_self _) (next_new _).symm
  home u hu hunder := by
    have heq := eq_of_under hunder fun k hk => Nat.ne_of_lt (hp.whole.forest.known k hk)
    exact absurd (hp.root_lt hu) (Nat.not_lt_of_le (Nat.le_of_eq heq))
  free hd := hp.not_setAside_new (Nat.le_refl _) (p.frame_drafts.setAside hd)

/-- Leaves a hole at a place, with a task or without. -/
def reserved (p : Program) (place : Place) (owed : Bool) (task : Option Task) : Program :=
  let cursor : Cursor := ⟨{ place with draft := p.drafts.next }, owed⟩
  { p with drafts := p.drafts.reserve place.draft (task.map (⟨cursor, ·⟩)) }

section

variable {owed : Bool} {task : Option Task} (hp : p.Tidy) (hplace : p.Seats place)

theorem next_reserved : (p.reserved place owed task).drafts.next = p.drafts.next + 1 :=
  next_reserve _ _ _

theorem setAside_reserved (h : (p.reserved place owed task).SetAside d) : p.SetAside d :=
  p.frame_drafts.setAside h

include hplace in
theorem draft_reserved (hd : d ≠ place.draft) :
    (p.reserved place owed task).drafts.draft d = p.drafts.draft d := by
  unfold reserved
  rw [draft_reserve _ _ _ hplace.known, if_neg hd]

include hp hplace

theorem abides_reserved : p.Abides (p.reserved place owed task) :=
  p.frame_drafts.abides (.single (.reserve _ _ _)) (extends_reserve hplace.known)
    (whole_reserve _ hp.whole hplace.known)

theorem seats_reserved :
    (p.reserved place owed task).Seats { place with draft := p.drafts.next } where
  known := Nat.lt_of_lt_of_eq (Nat.lt_succ_self _) next_reserved.symm
  home u hu hunder := hplace.home u hu (under_reserve_new hp.whole hplace.known hunder
    (Nat.ne_of_lt (hp.root_lt hu)))
  free hd := hp.not_setAside_new (Nat.le_refl _) (setAside_reserved hd)

theorem tidy_reserved : (p.reserved place owed task).Tidy := by
  have habides : p.Abides (p.reserved place owed task) := abides_reserved hp hplace
  refine hp.grow habides none (fun a d ha => Or.inl (p.frame_drafts.asideFor ha)) nofun
    (fun a d ha => hp.fits_stays habides ha (draft_reserved hplace ?_)) (fun u hu => Or.inl hu)
    (fun c hc => Or.inl hc) fun k t ht => ?_
  · rintro rfl
    exact hplace.free ⟨a, ha⟩
  · rw [show (p.reserved place owed task).drafts.hole k = _ from hole_reserve _ _ _ k] at ht
    split at ht
    · obtain ⟨t', -, rfl⟩ := Option.map_eq_some_iff.1 ht
      exact Or.inr (seats_reserved hp hplace)
    · exact Or.inl ht

end

/-! ## New units -/

section

variable {unit : CompilationUnit} (hunits : q.units = p.units.push unit)
  (hroot : unit.root = p.drafts.next) (himports : unit.importsAt = none)
  (hdrafts : q.drafts = p.drafts.new) (hclasses : q.classes = p.classes)

include hunits in
theorem unit_pushed (u : Nat) : q.unit u = if u = p.units.size then unit else p.unit u := by
  unfold Program.unit
  rw [hunits]
  exact getD_push _ _ _ _

include hunits in
theorem lt_of_pushed {u : Nat} (hu : u < q.units.size) (hne : u ≠ p.units.size) :
    u < p.units.size := by
  rw [hunits, Array.size_push] at hu
  omega

include hunits himports hclasses in
theorem asideFor_pushed {a : Purpose} (h : q.AsideFor a d) : p.AsideFor a d := by
  cases a with
  | imports u =>
    obtain ⟨hu, h⟩ := h
    rw [unit_pushed hunits] at h
    split at h
    · rw [himports] at h
      cases h
    · rename_i hne
      exact ⟨lt_of_pushed hunits hu hne, h⟩
  | clause c =>
    unfold AsideFor clauseAt classAt at h
    rw [hclasses] at h
    exact h

include hunits hroot hdrafts in
theorem abides_pushed (hp : p.Tidy) (hleads : p.Leads q) : p.Abides q where
  leads := hleads
  drafts := by
    rw [hdrafts]
    exact extends_of_grows (show Drafts.Grows True _ _ from grows_new _)
  whole := by
    rw [hdrafts]
    exact whole_new hp.whole
  roots u hle hlt := by
    have hnew : u = p.units.size :=
      Decidable.byContradiction fun hne => Nat.not_lt_of_le hle (lt_of_pushed hunits hlt hne)
    have hsame : (q.unit u).root = p.drafts.next := by
      rw [unit_pushed hunits, if_pos hnew, hroot]
    exact Nat.le_of_eq hsame.symm

include hunits hroot himports hdrafts hclasses in
theorem tidy_pushed (hp : p.Tidy) (hleads : p.Leads q) : q.Tidy := by
  have habides := abides_pushed hunits hroot hdrafts hp hleads
  refine hp.grow habides none
    (fun a d ha => Or.inl (asideFor_pushed hunits himports hclasses ha)) nofun
    (fun a d ha => hp.fits_stays habides ha ?_) (fun u hu => ?_) (fun c hc => ?_) fun k t ht => ?_
  · rw [hdrafts, draft_new]
  · by_cases hnew : u = p.units.size
    · rw [unit_pushed hunits, if_pos hnew]
      -- Nothing but itself is over the new text.
      refine Or.inr ⟨?_, fun v hv hunder => ?_, ?_⟩
      · show unit.root < _
        rw [hroot, hdrafts, next_new]
        exact Nat.lt_succ_self _
      · rw [hdrafts] at hunder
        have heq := eq_of_under hunder fun k hk h =>
          Nat.ne_of_lt (hp.whole.forest.known k hk) (h.trans hroot)
        rw [unit_pushed hunits] at heq
        split at heq
        · rename_i hv'
          exact ⟨hnew.trans hv'.symm, rfl⟩
        · rename_i hne
          have hlt := hp.root_lt (lt_of_pushed hunits hv hne)
          rw [← heq] at hlt
          exact absurd hlt (Nat.not_lt_of_le (Nat.le_of_eq hroot.symm))
      · rintro ⟨a, ha⟩
        exact hp.not_setAside_new (Nat.le_of_eq hroot.symm)
          ⟨a, asideFor_pushed hunits himports hclasses ha⟩
    · exact Or.inl (lt_of_pushed hunits hu hnew)
  · rw [hclasses] at hc
    exact Or.inl hc
  · rw [hdrafts] at ht
    exact Or.inl ht

end

/-! ## Setting drafts aside -/

theorem vacant_reserved {owed : Bool} (hp : p.Tidy) (hplace : p.Seats place) :
    (p.reserved place owed none).Vacant p.drafts.next where
  known := Nat.lt_of_lt_of_eq (Nat.lt_succ_self _) next_reserved.symm
  idle h := by
    have hold : ∀ x, (p.reserved place owed none).Busy x → p.Busy x := by
      intro x h
      cases h with
      | root hu => exact .root hu
      | @task k t ht =>
        rw [show (p.reserved place owed none).drafts.hole k = _ from hole_reserve _ _ _ k] at ht
        split at ht
        · cases ht
        · exact .task ht
    exact Nat.lt_irrefl _ (hp.known_of_busy (hold _ h))
  free c hc := Nat.ne_of_lt (hp.methods c hc).known
  unset hd := hp.not_setAside_new (Nat.le_refl _) (setAside_reserved hd)
  empty := by
    rw [draft_reserved hplace (Nat.ne_of_gt hplace.known)]
    exact draft_of_next_le _ _ (Nat.le_refl _)

/-- A vacant draft is set aside for the imports of a unit. -/
theorem tidy_started (hp : p.Tidy) (hd : p.Vacant d) (hhome : p.drafts.Under (p.unit u).root d) :
    let q := p.modifyUnit u fun x => { x with importsAt := some d }
    p.Abides q ∧ q.Tidy := by
  intro q
  have hsize : q.units.size = p.units.size := size_units_modifyUnit _ _ _
  have hroot : ∀ v, (q.unit v).root = (p.unit v).root := fun v =>
    unit_modifyUnit_of (P := fun x => x.root = (p.unit v).root) rfl fun _ h => h
  have habides : p.Abides q := ⟨.single (.started p u d), extends_refl _, hp.whole,
    fun _ hle hlt => absurd (hsize ▸ hlt) (Nat.not_lt_of_le hle)⟩
  refine ⟨habides, hp.grow habides (some (.imports u, d)) (fun a x ha => ?_) ?_
    (fun a x ha => hp.fits_stays habides ha rfl) (fun v hv => Or.inl (hsize ▸ hv))
    (fun c hc => Or.inl hc) fun k t ht => Or.inl ht⟩
  · cases a with
    | clause c => exact Or.inl ha
    | imports v =>
      obtain ⟨hv, himports⟩ := ha
      rw [unit_modifyUnit] at himports
      split at himports
      · rename_i hsame
        cases himports
        exact Or.inr (by rw [hsame.1])
      · exact Or.inl ⟨hsize ▸ hv, himports⟩
  · rintro a x ⟨⟩
    refine ⟨hd, ?_, hd.empty⟩
    rw [hroot]
    exact hhome

/-- The class may become known: there are vacant drafts for its interfaces and its methods. -/
structure Prepared (p : Program) (cls : JavaClass) : Prop where
  clause : p.Vacant cls.implementsAt.place.draft
  methods : p.Vacant cls.functionsAt.place.draft
  apart : cls.implementsAt.place.draft < cls.functionsAt.place.draft
  implementsAt : p.Seats cls.implementsAt.place
  functionsAt : p.Seats cls.functionsAt.place
  unit : cls.implementsAt.place.unit = cls.unit
  owed : cls.implementsAt.owed = false

theorem asideFor_registered {a : Purpose} (h : (p.registered cls).AsideFor a d) : p.AsideFor a d ∨
      some (Purpose.clause p.classes.size, cls.implementsAt.place.draft) = some (a, d) := by
  cases a with
  | imports v => exact Or.inl h
  | clause c =>
    obtain ⟨hc, hd⟩ := h
    unfold clauseAt at hd
    rw [classAt_registered] at hd
    rw [size_registered] at hc
    split at hd
    · rename_i hnew
      rw [hnew, hd]
      exact Or.inr rfl
    · exact Or.inl ⟨by omega, hd⟩

theorem tidy_registered (hp : p.Tidy) (h : p.Prepared cls) :
    p.Abides (p.registered cls) ∧ (p.registered cls).Tidy := by
  have habides : p.Abides (p.registered cls) := ⟨.single (.register p cls), extends_refl _,
    hp.whole, fun _ hle hlt => absurd hlt (Nat.not_lt_of_le hle)⟩
  refine ⟨habides, hp.grow habides _ (fun _ _ => asideFor_registered) ?_
    (fun a x ha => hp.fits_stays habides ha rfl) (fun v hv => Or.inl hv) (fun c hc => ?_)
    fun k t ht => Or.inl ht⟩
  · rintro a x ⟨⟩
    refine ⟨h.clause, ?_, ?_, ?_⟩
    · rw [classAt_registered, if_pos rfl]
      exact fun u hu hunder => h.unit.symm.trans (h.implementsAt.home u hu hunder).1
    · rw [show (p.registered cls).drafts = p.drafts from rfl, h.clause.empty]
    · rw [classAt_registered, if_pos rfl]
      exact h.owed
  · rw [classAt_registered]
    split
    · refine Or.inr (h.functionsAt.stays habides ?_)
      rintro ⟨a, ha⟩
      rcases asideFor_registered ha with hold | hnew
      · exact ⟨a, hold⟩
      · exact absurd (congrArg Prod.snd (Option.some.inj hnew)) (Nat.ne_of_lt h.apart)
    · rw [size_registered] at hc
      exact Or.inl (by omega)

end Program

end GoToJava
