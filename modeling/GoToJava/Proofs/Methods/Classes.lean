import GoToJava.Proofs.Deferral.Silence
import GoToJava.Proofs.Program.Sessions

/-!
Classes by number. Whatever a program goes through, its classes keep their numbers, their names and
their places, new classes come last, and the index of a name has the last class so named.
-/

namespace GoToJava

variable {own : String → String → Prop}

/-- Classes with the same name at the same places. -/
structure JavaClass.Namesake (c d : JavaClass) : Prop where
  name : d.name = c.name
  unit : d.unit = c.unit
  implementsAt : d.implementsAt = c.implementsAt
  functionsAt : d.functionsAt = c.functionsAt

theorem JavaClass.Namesake.refl (c : JavaClass) : c.Namesake c := ⟨rfl, rfl, rfl, rfl⟩

theorem JavaClass.Namesake.trans {c d e : JavaClass} (h : c.Namesake d) (h' : d.Namesake e) :
    c.Namesake e :=
  ⟨h'.name.trans h.name, h'.unit.trans h.unit, h'.implementsAt.trans h.implementsAt,
    h'.functionsAt.trans h.functionsAt⟩

namespace Program

variable {p q : Program} {c : Nat} {name : String}

/-! ## Steps that add no class -/

/-- No class is added, and none gets another name. -/
structure SameClasses (p q : Program) : Prop where
  size : q.classes.size = p.classes.size
  cls : ∀ c, (p.classAt c).Namesake (q.classAt c)
  classIndex : q.classIndex = p.classIndex

theorem sameClasses_of_eq (hc : q.classes = p.classes) (hi : q.classIndex = p.classIndex) :
    p.SameClasses q := by
  refine ⟨by rw [hc], fun c => ?_, hi⟩
  unfold classAt
  rw [hc]
  exact .refl _

theorem sameClasses_modifyClass {f : JavaClass → JavaClass} (p : Program) (id : Nat)
    (hf : ∀ x : JavaClass, x.Namesake (f x)) : p.SameClasses (p.modifyClass id f) := by
  refine ⟨by simp [modifyClass], fun c => ?_, rfl⟩
  rw [classAt_modifyClass]
  split
  · exact hf _
  · exact .refl _

theorem sameClasses_note (p : Program) (cursor : Cursor) (n : Note) :
    p.SameClasses (n.make cursor p) := by
  cases n with
  | method _ _ _ | conformance _ _ =>
    exact sameClasses_modifyClass _ _ fun _ => ⟨rfl, rfl, rfl, rfl⟩
  | package name =>
    dsimp only [Note.make]
    split <;> exact sameClasses_of_eq rfl rfl
  | _ => exact sameClasses_of_eq rfl rfl

/-- The program with one more class. -/
def registered (p : Program) (cls : JavaClass) : Program :=
  { p with
    classes := p.classes.push cls
    classIndex := p.classIndex.set cls.name p.classes.size
    parked := p.parked.filter (·.cls != cls.name) }

theorem classes_of_step (h : Step own p q) : p.SameClasses q ∨ ∃ cls, q = p.registered cls := by
  cases h with
  | register cls => exact Or.inr ⟨cls, rfl⟩
  | write draft text =>
    rw [write_eq]
    exact Or.inl (sameClasses_of_eq rfl rfl)
  | note cursor _ => exact Or.inl (sameClasses_note p cursor _)
  | newDraft | reserve _ _ | resolve _ | newPackage _ _ _ _ | newType _ _ _ | started _ _
  | importName _ _ _ _ | learn _ _ | library _ _ _ | unpark | phase _ =>
    exact Or.inl (sameClasses_of_eq rfl rfl)

theorem size_registered (p : Program) (cls : JavaClass) :
    (p.registered cls).classes.size = p.classes.size + 1 := Array.size_push _

theorem classAt_registered (p : Program) (cls : JavaClass) (c : Nat) :
    (p.registered cls).classAt c = if c = p.classes.size then cls else p.classAt c :=
  getD_push _ _ _ _

/-! ## Numbers that stay -/

/-- All classes are there still. -/
structure KeepsClasses (p q : Program) : Prop where
  size : p.classes.size ≤ q.classes.size
  cls : ∀ c < p.classes.size, (p.classAt c).Namesake (q.classAt c)

theorem KeepsClasses.trans {r : Program} (h : p.KeepsClasses q) (h' : q.KeepsClasses r) :
    p.KeepsClasses r :=
  ⟨Nat.le_trans h.size h'.size,
    fun c hc => (h.cls c hc).trans (h'.cls c (Nat.lt_of_lt_of_le hc h.size))⟩

theorem keepsClasses_of_step (h : Step own p q) : p.KeepsClasses q := by
  rcases classes_of_step h with hsame | ⟨cls, rfl⟩
  · exact ⟨Nat.le_of_eq hsame.size.symm, fun c _ => hsame.cls c⟩
  · refine ⟨Nat.le_of_lt (Nat.lt_of_lt_of_eq (Nat.lt_succ_self _) (size_registered p cls).symm),
      fun c hc => ?_⟩
    rw [classAt_registered, if_neg (Nat.ne_of_lt hc)]
    exact .refl _

theorem keepsClasses_of_steps (h : Steps own p q) : p.KeepsClasses q := by
  induction h with
  | refl => exact ⟨Nat.le_refl _, fun _ _ => .refl _⟩
  | tail _ hstep ih => exact ih.trans (keepsClasses_of_step hstep)

theorem next_resolve (d : Drafts Pending) (hole : Nat) : (d.resolve hole).2.next = d.next := by
  unfold Drafts.resolve
  dsimp only
  split <;> rfl

theorem drafts_note (p : Program) (cursor : Cursor) (n : Note) :
    (n.make cursor p).drafts = p.drafts :=
  p.drafts_of_blind (g := (n.make cursor ·)) fun q => blind_note q n cursor

theorem next_of_step (h : Step own p q) : p.drafts.next ≤ q.drafts.next := by
  cases h with
  | write draft text => exact Nat.le_of_eq (next_write p draft text).symm
  | newDraft | newPackage _ _ _ _ | newType _ _ _ =>
    exact Nat.le_of_lt (Nat.lt_of_lt_of_eq (Nat.lt_succ_self _) (Drafts.next_new _).symm)
  | reserve parent task =>
    exact Nat.le_of_lt (Nat.lt_of_lt_of_eq (Nat.lt_succ_self _) (Drafts.next_reserve _ _ _).symm)
  | resolve hole => exact Nat.le_of_eq (next_resolve p.drafts hole).symm
  | note cursor _ =>
    exact Nat.le_of_eq (congrArg Drafts.next (drafts_note p cursor _)).symm
  | register _ | started _ _ | importName _ _ _ _ | learn _ _ | library _ _ _ | unpark | phase _ =>
    exact Nat.le_refl _

theorem next_of_steps (h : Steps own p q) : p.drafts.next ≤ q.drafts.next := by
  induction h with
  | refl => exact Nat.le_refl _
  | tail _ hstep ih => exact Nat.le_trans ih (next_of_step hstep)

/-! ## The last class of a name -/

/-- The index has the last class of each name. -/
def ClassIndexed (p : Program) : Prop :=
  ∀ name c, p.classIndex.get? name = some c ↔ c < p.classes.size ∧ (p.classAt c).name = name ∧
    ∀ b, c < b → b < p.classes.size → (p.classAt b).name ≠ name

theorem classIndexed_registered (cls : JavaClass) (hp : p.ClassIndexed) :
    (p.registered cls).ClassIndexed := by
  intro name c
  have hget : (p.registered cls).classIndex.get? name =
      if name = cls.name then some p.classes.size else p.classIndex.get? name :=
    Table.get?_set _ _ _ _
  have hnew : ((p.registered cls).classAt p.classes.size).name = cls.name := by
    rw [classAt_registered, if_pos rfl]
  have hold : ∀ b < p.classes.size, (p.registered cls).classAt b = p.classAt b := by
    intro b hb
    rw [classAt_registered, if_neg (Nat.ne_of_lt hb)]
  rw [hget, size_registered]
  by_cases hname : name = cls.name
  · rw [if_pos hname]
    refine ⟨?_, ?_⟩
    · intro h
      cases h
      exact ⟨Nat.lt_succ_self _, hnew.trans hname.symm, fun b hlt hb => by omega⟩
    · rintro ⟨hc, -, hlast⟩
      -- The new class is the last one, and has the name.
      by_cases hlt : c < p.classes.size
      · exact absurd (hnew.trans hname.symm) (hlast _ hlt (Nat.lt_succ_self _))
      · rw [show c = p.classes.size by omega]
  · rw [if_neg hname, hp name c]
    refine ⟨?_, ?_⟩
    · rintro ⟨hc, hcname, hlast⟩
      rw [hold c hc]
      refine ⟨Nat.lt_succ_of_lt hc, hcname, fun b hlt hb => ?_⟩
      by_cases hbnew : b = p.classes.size
      · rw [hbnew, hnew]
        exact fun h => hname h.symm
      · rw [hold b (by omega)]
        exact hlast b hlt (by omega)
    · rintro ⟨hc, hcname, hlast⟩
      have hlt : c < p.classes.size := by
        by_contra hge
        rw [show c = p.classes.size by omega, hnew] at hcname
        exact hname hcname.symm
      rw [hold c hlt] at hcname
      refine ⟨hlt, hcname, fun b hcb hb => ?_⟩
      have h := hlast b hcb (Nat.lt_succ_of_lt hb)
      rw [hold b hb] at h
      exact h

theorem classIndexed_of_step (h : Step own p q) (hp : p.ClassIndexed) : q.ClassIndexed := by
  rcases classes_of_step h with hsame | ⟨cls, rfl⟩
  · intro name c
    rw [hsame.classIndex, hsame.size, (hsame.cls c).name, hp name c]
    simp only [fun b => (hsame.cls b).name]
  · exact classIndexed_registered cls hp

/-! ## The first class of a name -/

/-- The names of the classes, by number. -/
def classNames (p : Program) : List String := p.classes.toList.map (·.name)

/-- The first class of a name. -/
def firstClass? (p : Program) (name : String) : Option Nat := p.classNames.findIdx? (· == name)

theorem length_classNames (p : Program) : p.classNames.length = p.classes.size := by
  simp [classNames]

theorem getElem_classNames (hc : c < p.classNames.length) :
    p.classNames[c] = (p.classAt c).name := by
  have hlt : c < p.classes.size := Nat.lt_of_lt_of_eq hc (length_classNames p)
  simp [classNames, classAt, Array.getD, hlt]

theorem firstClass?_eq_some_iff :
    p.firstClass? name = some c ↔ c < p.classes.size ∧ (p.classAt c).name = name ∧
      ∀ b < c, (p.classAt b).name ≠ name := by
  unfold firstClass?
  rw [List.findIdx?_eq_some_iff_getElem]
  refine ⟨?_, ?_⟩
  · rintro ⟨hc, hname, hfirst⟩
    rw [getElem_classNames, beq_iff_eq] at hname
    refine ⟨Nat.lt_of_lt_of_eq hc (length_classNames p), hname, fun b hb h => ?_⟩
    have hother := hfirst b hb
    rw [getElem_classNames, h] at hother
    simp at hother
  · rintro ⟨hc, hname, hfirst⟩
    have hlt : c < p.classNames.length := Nat.lt_of_lt_of_eq hc (length_classNames p).symm
    refine ⟨hlt, ?_, fun b hb => ?_⟩
    · rw [getElem_classNames, hname, beq_self_eq_true]
    · rw [getElem_classNames, beq_iff_eq]
      exact hfirst b hb

theorem firstClass?_eq_none_iff :
    p.firstClass? name = none ↔ ∀ c < p.classes.size, (p.classAt c).name ≠ name := by
  unfold firstClass?
  rw [List.findIdx?_eq_none_iff]
  refine ⟨?_, ?_⟩
  · intro h c hc hname
    have hlt : c < p.classNames.length := Nat.lt_of_lt_of_eq hc (length_classNames p).symm
    have hother := h _ (List.getElem_mem hlt)
    rw [getElem_classNames, hname] at hother
    simp at hother
  · intro h x hx
    obtain ⟨c, hc, rfl⟩ := List.mem_iff_getElem.1 hx
    rw [getElem_classNames, beq_eq_false_iff_ne]
    exact h c (Nat.lt_of_lt_of_eq hc (length_classNames p))

section

variable {name : String} {c : Nat}

section

variable (h : p.KeepsClasses q)
include h

theorem KeepsClasses.first (hc : p.firstClass? name = some c) :
    q.firstClass? name = some c := by
  obtain ⟨hlt, hname, hfirst⟩ := firstClass?_eq_some_iff.1 hc
  refine firstClass?_eq_some_iff.2 ⟨Nat.lt_of_lt_of_le hlt h.size, ?_, fun b hb => ?_⟩
  · rw [(h.cls c hlt).name, hname]
  · rw [(h.cls b (Nat.lt_trans hb hlt)).name]
    exact hfirst b hb

theorem KeepsClasses.first_of_lt (hc : q.firstClass? name = some c)
    (hlt : c < p.classes.size) : p.firstClass? name = some c := by
  obtain ⟨-, hname, hfirst⟩ := firstClass?_eq_some_iff.1 hc
  refine firstClass?_eq_some_iff.2 ⟨hlt, ?_, fun b hb => ?_⟩
  · rw [← hname, (h.cls c hlt).name]
  · have hother := hfirst b hb
    rw [(h.cls b (Nat.lt_trans hb hlt)).name] at hother
    exact hother

theorem KeepsClasses.first_none (hnone : q.firstClass? name = none) :
    p.firstClass? name = none := by
  cases hp : p.firstClass? name with
  | none => rfl
  | some c =>
    rw [h.first hp] at hnone
    cases hnone

/-- A new class that comes first is the first of its name. -/
theorem KeepsClasses.first_none_of_le (hc : q.firstClass? name = some c)
    (hle : p.classes.size ≤ c) : p.firstClass? name = none := by
  cases hp : p.firstClass? name with
  | none => rfl
  | some b =>
    rw [h.first hp] at hc
    cases hc
    exact absurd (firstClass?_eq_some_iff.1 hp).1 (Nat.not_lt_of_le hle)

theorem KeepsClasses.isNone_and :
    ((q.firstClass? name).isNone && (p.firstClass? name).isNone) = (q.firstClass? name).isNone := by
  cases hq : q.firstClass? name with
  | none => rw [h.first_none hq]; rfl
  | some c => rfl

theorem KeepsClasses.beq_and (hle : p.classes.size ≤ c) :
    (q.firstClass? name == some c && (p.firstClass? name).isNone) =
      (q.firstClass? name == some c) := by
  cases hq : q.firstClass? name == some c with
  | false => rfl
  | true => rw [h.first_none_of_le (beq_iff_eq.1 hq) hle]; rfl

theorem KeepsClasses.beq_of_lt (hlt : c < p.classes.size) :
    (q.firstClass? name == some c) = (p.firstClass? name == some c) := by
  rw [Bool.eq_iff_iff, beq_iff_eq, beq_iff_eq]
  exact ⟨fun hq => h.first_of_lt hq hlt, fun hp => h.first hp⟩

theorem KeepsClasses.firstClass?_eq
    (hsize : q.classes.size = p.classes.size) (name : String) :
    q.firstClass? name = p.firstClass? name := by
  cases hq : q.firstClass? name with
  | none => exact (h.first_none hq).symm
  | some c =>
    exact (h.first_of_lt hq (Nat.lt_of_lt_of_eq (firstClass?_eq_some_iff.1 hq).1 hsize)).symm

end

end

end Program

end GoToJava
