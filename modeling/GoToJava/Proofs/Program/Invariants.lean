import GoToJava.Proofs.Program.Steps

/-!
What every step keeps: units are found by their keys, packages are their own packages, exported
types are found where they were started last, classes are imported for a reason, and nothing is
written or handed out twice.
-/

namespace GoToJava

open Drafts Table

open Go (File)

variable {own : String → String → Prop} {u v : CompilationUnit}

/-- Units with the same name, package and text, of which both or none are libraries'. -/
structure CompilationUnit.Namesake (u v : CompilationUnit) : Prop where
  dir : v.dir = u.dir
  name : v.name = u.name
  isPackage : v.isPackage = u.isPackage
  library : v.library = u.library
  packageUnit : v.packageUnit = u.packageUnit
  root : v.root = u.root
  scope : v.scope = u.scope

theorem CompilationUnit.Namesake.refl (u : CompilationUnit) : u.Namesake u :=
  ⟨rfl, rfl, rfl, rfl, rfl, rfl, rfl⟩

theorem CompilationUnit.Namesake.symm (h : u.Namesake v) : v.Namesake u :=
  ⟨h.dir.symm, h.name.symm, h.isPackage.symm, h.library.symm, h.packageUnit.symm, h.root.symm,
    h.scope.symm⟩

theorem CompilationUnit.Namesake.trans {w : CompilationUnit} (h : u.Namesake v)
    (h' : v.Namesake w) : u.Namesake w :=
  ⟨h'.dir.trans h.dir, h'.name.trans h.name, h'.isPackage.trans h.isPackage,
    h'.library.trans h.library, h'.packageUnit.trans h.packageUnit, h'.root.trans h.root,
    h'.scope.trans h.scope⟩

theorem CompilationUnit.Namesake.key (h : u.Namesake v) : v.key = u.key := by
  unfold CompilationUnit.key
  rw [h.dir, h.name]

namespace Program

variable {p q : Program} {u : Nat} {f : CompilationUnit → CompilationUnit}

/-! ## Steps that add no unit -/

/-- No unit is added, and none gets another name. -/
structure SameUnits (p q : Program) : Prop where
  size : q.units.size = p.units.size
  unit : ∀ u, (p.unit u).Namesake (q.unit u)
  unitIndex : q.unitIndex = p.unitIndex
  typeUnits : q.typeUnits = p.typeUnits

theorem sameUnits_of_eq (hu : q.units = p.units) (hi : q.unitIndex = p.unitIndex)
    (ht : q.typeUnits = p.typeUnits) : p.SameUnits q := by
  refine ⟨by rw [hu], fun u => ?_, hi, ht⟩
  unfold Program.unit
  rw [hu]
  exact .refl _

theorem sameUnits_modifyUnit (p : Program) (id : Nat)
    (hf : ∀ x : CompilationUnit, x.Namesake (f x)) : p.SameUnits (p.modifyUnit id f) := by
  refine ⟨size_units_modifyUnit p id f, fun u => ?_, rfl, rfl⟩
  rw [unit_modifyUnit]
  split
  · exact hf _
  · exact .refl _

theorem sameUnits_note (p : Program) (cursor : Cursor) (n : Note) :
    p.SameUnits (n.make cursor p) := by
  cases n with
  | package name =>
    dsimp only [Note.make]
    split
    · exact sameUnits_modifyUnit _ _ fun _ => ⟨rfl, rfl, rfl, rfl, rfl, rfl, rfl⟩
    · exact sameUnits_of_eq rfl rfl rfl
  | need _ | refer _ | func _ _ | varType _ _ | varValue _ _ =>
    exact sameUnits_modifyUnit _ _ fun _ => ⟨rfl, rfl, rfl, rfl, rfl, rfl, rfl⟩
  | _ => exact sameUnits_of_eq rfl rfl rfl

theorem rest_learn (file : File) (u : CompilationUnit) :
    ∃ symbols funcs, file.decls.foldl CompilationUnit.addSymbols u = { u with symbols, funcs } :=
  ⟨_, _, (CompilationUnit.learns_file
    (Go.File.spelled_of_all (P := fun _ => True) (fun _ => trivial) file) u).rest⟩

/-- A step adds the unit of a package, adds the unit of a type, or adds none. -/
theorem step_cases (h : Step own p q) : p.SameUnits q ∨
      (∃ dir name library, p.unitIndex.get? (unitKey dir name) = none ∧
        q = p.newUnit dir name library none) ∨
      ∃ u name, p.unitIndex.get? (unitKey (p.unit (p.unit u).packageUnit).dir name) = none ∧
        q = p.newTypeUnit u name := by
  cases h with
  | newPackage dir name library h => exact Or.inr (Or.inl ⟨dir, name, library, h, rfl⟩)
  | newType u name h => exact Or.inr (Or.inr ⟨u, name, h, rfl⟩)
  | write draft text =>
    rw [write_eq]
    exact Or.inl (sameUnits_of_eq rfl rfl rfl)
  | note cursor _ => exact Or.inl (sameUnits_note p cursor _)
  | started u draft | importName u name target _ =>
    exact Or.inl (sameUnits_modifyUnit _ _ fun _ => ⟨rfl, rfl, rfl, rfl, rfl, rfl, rfl⟩)
  | learn u file =>
    refine Or.inl (sameUnits_modifyUnit _ _ fun x => ?_)
    obtain ⟨symbols, funcs, h⟩ := rest_learn file x
    rw [h]
    exact ⟨rfl, rfl, rfl, rfl, rfl, rfl, rfl⟩
  | newDraft | reserve _ _ | resolve _ | register _ | library _ _ _ | unpark | phase _ =>
    exact Or.inl (sameUnits_of_eq rfl rfl rfl)

/-! ## Numbers that stay -/

theorem namesake_of_step (h : Step own p q) (hu : u < p.units.size) :
    u < q.units.size ∧ (p.unit u).Namesake (q.unit u) := by
  have hnew : ∀ dir name library package,
      u < (p.newUnit dir name library package).units.size ∧
        (p.unit u).Namesake ((p.newUnit dir name library package).unit u) := by
    intro dir name library package
    rw [unit_newUnit_old _ _ _ _ _ hu, size_units_newUnit]
    exact ⟨Nat.lt_succ_of_lt hu, .refl _⟩
  rcases step_cases h with hsame | ⟨dir, name, library, -, rfl⟩ | ⟨v, name, -, rfl⟩
  · rw [hsame.size]
    exact ⟨hu, hsame.unit u⟩
  · exact hnew _ _ _ _
  · exact hnew _ _ _ _

theorem key_of_step {key : String} (h : Step own p q)
    (hp : u < p.units.size ∧ (p.unit u).key = key) : u < q.units.size ∧ (q.unit u).key = key := by
  obtain ⟨hu, hsame⟩ := namesake_of_step h hp.1
  exact ⟨hu, hsame.key.trans hp.2⟩

/-! ## Keys -/

/-- The keys in the index are those of the units, each of its own unit. -/
def Indexed (p : Program) : Prop :=
  ∀ key u, p.unitIndex.get? key = some u ↔ u < p.units.size ∧ (p.unit u).key = key

theorem indexed_newUnit {dir name : String} (library : Bool) (package : Option Nat)
    (hp : p.Indexed) (hnone : p.unitIndex.get? (unitKey dir name) = none) :
    (p.newUnit dir name library package).Indexed := by
  intro key u
  have hget : (p.newUnit dir name library package).unitIndex.get? key =
      if key = unitKey dir name then some p.units.size else p.unitIndex.get? key :=
    get?_set _ _ _ _
  rw [hget, unit_newUnit, size_units_newUnit]
  by_cases hkey : key = unitKey dir name
  · rw [if_pos hkey]
    refine ⟨?_, ?_⟩
    · intro h
      cases h
      rw [if_pos rfl]
      exact ⟨Nat.lt_succ_self _, hkey.symm⟩
    · rintro ⟨hlt, hu⟩
      -- No unit had the key before.
      by_cases hnew : u = p.units.size
      · rw [hnew]
      · rw [if_neg hnew] at hu
        have hold := (hp key u).2 ⟨by omega, hu⟩
        rw [hkey, hnone] at hold
        cases hold
  · rw [if_neg hkey, hp key u]
    refine ⟨?_, ?_⟩
    · rintro ⟨hlt, hu⟩
      rw [if_neg (Nat.ne_of_lt hlt)]
      exact ⟨Nat.lt_succ_of_lt hlt, hu⟩
    · rintro ⟨hlt, hu⟩
      by_cases hnew : u = p.units.size
      · rw [if_pos hnew] at hu
        exact absurd hu.symm hkey
      · rw [if_neg hnew] at hu
        exact ⟨by omega, hu⟩

theorem indexed_of_step (h : Step own p q) (hp : p.Indexed) : q.Indexed := by
  rcases step_cases h with hsame | ⟨dir, name, library, hnone, rfl⟩ | ⟨u, name, hnone, rfl⟩
  · intro key u
    rw [hsame.unitIndex, hsame.size, (hsame.unit u).key]
    exact hp key u
  · exact indexed_newUnit library none hp hnone
  · exact indexed_newUnit false _ hp hnone

/-! ## Packages -/

/-- The package of a unit is a unit, and its own package. -/
structure Housed (p : Program) : Prop where
  first : 0 < p.units.size → (p.unit 0).packageUnit = 0
  known : ∀ u < p.units.size, (p.unit u).packageUnit < p.units.size
  home : ∀ u < p.units.size, (p.unit (p.unit u).packageUnit).packageUnit = (p.unit u).packageUnit

theorem housed_newUnit {package : Option Nat} (dir name : String) (library : Bool) (hp : p.Housed)
    (hfirst : p.units.size = 0 → ∀ u ∈ package, u = 0)
    (hpackage : 0 < p.units.size → ∀ u ∈ package, u < p.units.size ∧ (p.unit u).packageUnit = u) :
    (p.newUnit dir name library package).Housed := by
  have hold := fun u (hu : u < p.units.size) => unit_newUnit_old p dir name library package hu
  have hnew := unit_newUnit_last p dir name library package
  -- The new unit's package is itself if it is the first unit, and an older one or itself if not.
  have hself : (p.addedUnit dir name library package).packageUnit = p.units.size ∨
      ∃ u < p.units.size, (p.unit u).packageUnit = u ∧
        (p.addedUnit dir name library package).packageUnit = u := by
    cases package with
    | none => exact Or.inl rfl
    | some u =>
      by_cases hsize : p.units.size = 0
      · exact Or.inl ((hfirst hsize u rfl).trans hsize.symm)
      · obtain ⟨hu, hown⟩ := hpackage (Nat.pos_of_ne_zero hsize) u rfl
        exact Or.inr ⟨u, hu, hown, rfl⟩
  have hadded : ∀ v, v = (p.addedUnit dir name library package).packageUnit →
      v < p.units.size + 1 ∧
        ((p.newUnit dir name library package).unit v).packageUnit = v := by
    rintro v rfl
    rcases hself with he | ⟨u, hu, hown, he⟩
    · rw [he, hnew, he]
      exact ⟨Nat.lt_succ_self _, rfl⟩
    · rw [he, hold u hu]
      exact ⟨Nat.lt_succ_of_lt hu, hown⟩
  refine ⟨?_, ?_, ?_⟩
  · intro _
    by_cases hsize : p.units.size = 0
    · rw [← hsize, hnew]
      rcases hself with he | ⟨u, hu, -⟩
      · exact he
      · omega
    · rw [hold 0 (Nat.pos_of_ne_zero hsize)]
      exact hp.first (Nat.pos_of_ne_zero hsize)
  · intro u hu
    rw [size_units_newUnit] at hu ⊢
    by_cases hlast : u = p.units.size
    · rw [hlast, hnew]
      exact (hadded _ rfl).1
    · rw [hold u (by omega)]
      exact Nat.lt_succ_of_lt (hp.known u (by omega))
  · intro u hu
    rw [size_units_newUnit] at hu
    by_cases hlast : u = p.units.size
    · rw [hlast, hnew]
      exact (hadded _ rfl).2
    · have hlt : u < p.units.size := by omega
      rw [hold u hlt, hold _ (hp.known u hlt)]
      exact hp.home u hlt

theorem housed_of_step (h : Step own p q) (hp : p.Housed) : q.Housed := by
  rcases step_cases h with hsame | ⟨dir, name, library, -, rfl⟩ | ⟨u, name, -, rfl⟩
  · refine ⟨?_, ?_, ?_⟩
    · rw [hsame.size, (hsame.unit 0).packageUnit]
      exact hp.first
    · rw [hsame.size]
      intro u hu
      rw [(hsame.unit u).packageUnit]
      exact hp.known u hu
    · rw [hsame.size]
      intro u hu
      rw [(hsame.unit _).packageUnit, (hsame.unit u).packageUnit]
      exact hp.home u hu
  · exact housed_newUnit dir name library hp (fun _ u hu => by cases hu) fun _ u hu => by cases hu
  · -- A unit that does not exist would belong to the first package.
    have hdefault : p.units.size ≤ u → (p.unit u).packageUnit = 0 := by
      intro hle
      unfold Program.unit
      rw [getD_of_size_le _ _ _ hle]
      rfl
    have hhoused : (p.newUnit (p.unit (p.unit u).packageUnit).dir name false
        (some (p.unit u).packageUnit)).Housed := by
      refine housed_newUnit _ name false hp ?_ ?_
      · intro hsize v hv
        cases hv
        exact hdefault (by omega)
      · intro hsize v hv
        cases hv
        by_cases hu : u < p.units.size
        · exact ⟨hp.known u hu, hp.home u hu⟩
        · rw [hdefault (Nat.le_of_not_lt hu)]
          exact ⟨hsize, hp.first hsize⟩
    exact ⟨hhoused.first, hhoused.known, hhoused.home⟩

/-! ## Exported types -/

/-- The unit `u` is the last one that was started for an exported type of this name. -/
structure Latest (p : Program) (type : String) (u : Nat) : Prop where
  known : u < p.units.size
  isType : (p.unit u).isPackage = false
  name : (p.unit u).name = type
  last : ∀ v, u < v → v < p.units.size → (p.unit v).isPackage = false → (p.unit v).name ≠ type

/-- An exported type is looked for in the unit that was started last under its name. -/
def Directed (p : Program) : Prop :=
  ∀ type u, p.typeUnits.get? type = some u ↔ p.Latest type u

theorem latest_of_same {type : String} (hsize : q.units.size = p.units.size)
    (hunit : ∀ u, (p.unit u).Namesake (q.unit u)) (h : p.Latest type u) : q.Latest type u := by
  refine ⟨hsize ▸ h.known, ?_, ?_, fun v hv hlt => ?_⟩
  · rw [(hunit u).isPackage]
    exact h.isType
  · rw [(hunit u).name]
    exact h.name
  · rw [(hunit v).isPackage, (hunit v).name]
    exact h.last v hv (hsize ▸ hlt)

/-- The unit of a type is the last one of its name; the unit of a package is no type's. -/
theorem latest_newUnit (dir name : String) (library : Bool) (package : Option Nat) (type : String)
    (u : Nat) : (p.newUnit dir name library package).Latest type u ↔
      if package.isNone = false ∧ name = type then u = p.units.size else p.Latest type u := by
  have hsize := size_units_newUnit p dir name library package
  have hold := fun v (hv : v < p.units.size) => unit_newUnit_old p dir name library package hv
  have hnew := unit_newUnit_last p dir name library package
  split
  · rename_i htype
    refine ⟨fun h => ?_, ?_⟩
    · have hlt := h.known
      rw [hsize] at hlt
      by_contra hne
      have hlast := h.last p.units.size (by omega) (by omega)
      rw [hnew] at hlast
      exact hlast htype.1 htype.2
    · rintro rfl
      refine ⟨by omega, by rw [hnew]; exact htype.1, by rw [hnew]; exact htype.2,
        fun v hv hlt => ?_⟩
      omega
  · rename_i htype
    refine ⟨fun h => ?_, fun h => ?_⟩
    · have hlt := h.known
      rw [hsize] at hlt
      have hu : u < p.units.size := by
        by_contra hle
        have hpackage := h.isType
        have hname := h.name
        rw [show u = p.units.size by omega, hnew] at hpackage hname
        exact htype ⟨hpackage, hname⟩
      refine ⟨hu, hold u hu ▸ h.isType, hold u hu ▸ h.name, fun v hv hlt => ?_⟩
      have := h.last v hv (by omega)
      rwa [hold v hlt] at this
    · have hu := h.known
      refine ⟨by omega, by rw [hold u hu]; exact h.isType, by rw [hold u hu]; exact h.name, ?_⟩
      intro v hv hlt
      by_cases hlast : v = p.units.size
      · rw [hlast, hnew]
        exact fun hpackage hname => htype ⟨hpackage, hname⟩
      · rw [hold v (by omega)]
        exact h.last v hv (by omega)

theorem directed_of_step (h : Step own p q) (hp : p.Directed) : q.Directed := by
  intro type u
  rcases step_cases h with hsame | ⟨dir, name, library, -, rfl⟩ | ⟨v, name, -, rfl⟩
  · rw [hsame.typeUnits, hp type u]
    exact ⟨latest_of_same hsame.size hsame.unit,
      latest_of_same hsame.size.symm fun v => (hsame.unit v).symm⟩
  · rw [latest_newUnit, if_neg (by simp)]
    exact hp type u
  · have hget : (p.newTypeUnit v name).typeUnits.get? type =
        if type = name then some p.units.size else p.typeUnits.get? type :=
      get?_set _ _ _ _
    have hsame : (p.newTypeUnit v name).Latest type u ↔
        (p.newUnit (p.unit (p.unit v).packageUnit).dir name false
          (some (p.unit v).packageUnit)).Latest type u :=
      ⟨latest_of_same rfl fun _ => .refl _, latest_of_same rfl fun _ => .refl _⟩
    rw [hget, hsame, latest_newUnit]
    by_cases htype : type = name
    · rw [if_pos htype, if_pos ⟨rfl, htype.symm⟩]
      exact ⟨fun he => (Option.some.inj he).symm, fun he => he ▸ rfl⟩
    · rw [if_neg htype, if_neg fun h => htype h.2.symm]
      exact hp type u

/-! ## Imports -/

/-- A class is imported because conversion needs it by itself, or because a file of the package
imports its package. -/
structure Sourced (own : String → String → Prop) (p : Program) : Prop where
  names : ∀ u < p.units.size, (p.unit u).importNames.All fun i =>
    ∀ qualified, i.qualified = some qualified → own (p.unit u).key qualified
  imports : ∀ u < p.units.size, ∀ qualified ∈ (p.unit u).imports.names,
    (∃ i ∈ Java.Import.all, qualified = i.qualified) ∨
      own (p.unit (p.unit u).packageUnit).key qualified

theorem sourced_of_same (hp : p.Sourced own) (hsame : p.SameUnits q)
    (hnames : ∀ u, (q.unit u).importNames = (p.unit u).importNames)
    (himports : ∀ u, (q.unit u).imports = (p.unit u).imports) : q.Sourced own := by
  refine ⟨fun u hu => ?_, fun u hu => ?_⟩
  · rw [hsame.size] at hu
    rw [hnames, (hsame.unit u).key]
    exact hp.names u hu
  · rw [hsame.size] at hu
    rw [himports, (hsame.unit _).key, (hsame.unit u).packageUnit]
    exact hp.imports u hu

theorem sourced_modifyUnit (id : Nat) (hp : p.Sourced own)
    (hf : ∀ x : CompilationUnit, x.Namesake (f x) ∧ (f x).importNames = x.importNames ∧
      (f x).imports = x.imports) : (p.modifyUnit id f).Sourced own := by
  refine sourced_of_same hp (sameUnits_modifyUnit _ _ fun x => (hf x).1) (fun u => ?_) fun u => ?_
  · rw [unit_modifyUnit]
    split
    · exact (hf _).2.1
    · rfl
  · rw [unit_modifyUnit]
    split
    · exact (hf _).2.2
    · rfl

theorem sourced_insert {qualified : String} (hp : p.Sourced own)
    (h : u < p.units.size → (∃ i ∈ Java.Import.all, qualified = i.qualified) ∨
      own (p.unit (p.unit u).packageUnit).key qualified) :
    (p.modifyUnit u fun x => { x with imports := x.imports.insert qualified }).Sourced own := by
  have hsame : p.SameUnits (p.modifyUnit u fun x =>
      { x with imports := x.imports.insert qualified }) :=
    sameUnits_modifyUnit _ _ fun _ => ⟨rfl, rfl, rfl, rfl, rfl, rfl, rfl⟩
  refine ⟨fun v hv => ?_, fun v hv other hother => ?_⟩
  · rw [hsame.size] at hv
    rw [(hsame.unit v).key, unit_modifyUnit]
    split <;> exact hp.names v hv
  · rw [hsame.size] at hv
    rw [(hsame.unit _).key, (hsame.unit v).packageUnit]
    rw [unit_modifyUnit] at hother
    split at hother
    · rename_i hu
      rcases NameSet.mem_place.1 hother with rfl | hother
      · rw [hu.1] at hv ⊢
        exact h hv
      · exact hp.imports v hv other hother
    · exact hp.imports v hv other hother

theorem sourced_note {n : Note} (cursor : Cursor) (hp : p.Sourced own) (hh : p.Housed)
    (hn : n.Common) : (n.make cursor p).Sourced own := by
  cases n with
  | need i => exact sourced_insert hp fun _ => Or.inl ⟨i, hn, rfl⟩
  | package name =>
    dsimp only [Note.make]
    split
    · rename_i qualified h
      refine sourced_insert hp fun hu => Or.inr ?_
      obtain ⟨i, hi, hqualified⟩ := Option.bind_eq_some_iff.1 h
      exact hp.names _ (hh.known _ hu) name i hi qualified hqualified
    · exact hp
  | refer _ | func _ _ | varType _ _ | varValue _ _ =>
    exact sourced_modifyUnit _ hp fun _ => ⟨⟨rfl, rfl, rfl, rfl, rfl, rfl, rfl⟩, rfl, rfl⟩
  | _ => exact ⟨hp.names, hp.imports⟩

theorem sourced_newUnit (dir name : String) (library : Bool) (package : Option Nat)
    (hp : p.Sourced own) (hh : p.Housed) : (p.newUnit dir name library package).Sourced own := by
  have hunit := unit_newUnit p dir name library package
  have hold := fun u (hu : u < p.units.size) => unit_newUnit_old p dir name library package hu
  refine ⟨fun u hu => ?_, fun u hu qualified hq => ?_⟩
  · rw [size_units_newUnit] at hu
    by_cases hlast : u = p.units.size
    · rw [hunit, if_pos hlast]
      exact all_empty
    · rw [hold u (by omega)]
      exact hp.names u (by omega)
  · rw [size_units_newUnit] at hu
    by_cases hlast : u = p.units.size
    · rw [hunit, if_pos hlast] at hq
      cases hq
    · have hlt : u < p.units.size := by omega
      rw [hold u hlt] at hq ⊢
      rw [hold _ (hh.known u hlt)]
      exact hp.imports u hlt qualified hq

theorem sourced_of_step (h : Step own p q) (hh : p.Housed) (hp : p.Sourced own) :
    q.Sourced own := by
  cases h with
  | write draft text =>
    rw [write_eq]
    exact ⟨hp.names, hp.imports⟩
  | note cursor hn => exact sourced_note cursor hp hh hn
  | newPackage dir name library _ => exact sourced_newUnit dir name library none hp hh
  | newType u name _ =>
    have hnew := sourced_newUnit (p.unit (p.unit u).packageUnit).dir name false
      (some (p.unit u).packageUnit) hp hh
    exact ⟨hnew.names, hnew.imports⟩
  | started u draft => exact sourced_modifyUnit _ hp fun _ =>
    ⟨⟨rfl, rfl, rfl, rfl, rfl, rfl, rfl⟩, rfl, rfl⟩
  | learn u file =>
    refine sourced_modifyUnit _ hp fun x => ?_
    obtain ⟨symbols, funcs, h⟩ := rest_learn file x
    rw [h]
    exact ⟨⟨rfl, rfl, rfl, rfl, rfl, rfl, rfl⟩, rfl, rfl⟩
  | importName u name target h =>
    have hsame : p.SameUnits (p.modifyUnit u fun x =>
        { x with importNames := x.importNames.set name target }) :=
      sameUnits_modifyUnit _ _ fun _ => ⟨rfl, rfl, rfl, rfl, rfl, rfl, rfl⟩
    refine ⟨fun v hv => ?_, fun v hv => ?_⟩
    · rw [hsame.size] at hv
      rw [(hsame.unit v).key, unit_modifyUnit]
      split
      · rename_i hu
        refine all_set (hp.names v hv) ?_
        rw [hu.1]
        exact h
      · exact hp.names v hv
    · rw [hsame.size] at hv
      rw [(hsame.unit _).key, (hsame.unit v).packageUnit, unit_modifyUnit]
      split <;> exact hp.imports v hv
  | newDraft | reserve _ _ | resolve _ | register _ | library _ _ _ | unpark | phase _ =>
    exact ⟨hp.names, hp.imports⟩

/-! ## Libraries -/

/-- The symbols of a library are those of a unit. -/
def Stocked (p : Program) : Prop :=
  p.libraries.All fun loaded => ∀ u ∈ loaded, u < p.units.size

theorem libraries_make (p : Program) (cursor : Cursor) (n : Note) :
    (n.make cursor p).libraries = p.libraries := by
  cases n with
  | package name =>
    dsimp only [Note.make]
    split <;> rfl
  | _ => rfl

theorem stocked_of_step (h : Step own p q) (hp : p.Stocked) : q.Stocked := by
  have hsize : p.units.size ≤ q.units.size := by
    rcases step_cases h with hsame | ⟨dir, name, library, -, rfl⟩ | ⟨u, name, -, rfl⟩
    · exact Nat.le_of_eq hsame.size.symm
    · exact Nat.le_of_lt (lt_size_newUnit _ _ _ _ _)
    · exact Nat.le_of_lt (lt_size_newUnit _ _ _ _ _)
  have hmono : ∀ t : Table (Option Nat), (t.All fun loaded => ∀ u ∈ loaded, u < p.units.size) →
      t.All fun loaded => ∀ u ∈ loaded, u < q.units.size := fun t ht =>
    all_imp ht fun _ hl u hu => Nat.lt_of_lt_of_le (hl u hu) hsize
  unfold Stocked
  cases h with
  | library path loaded hloaded => exact all_set hp hloaded
  | write draft text =>
    rw [write_eq]
    exact hp
  | @note cursor n _ =>
    rw [libraries_make]
    exact hmono _ hp
  | _ => exact hmono _ hp

/-! ## Drafts -/

/-- Nothing is joined, no text was refused, and a hole has no task after it was resolved. -/
structure Calm (p : Program) : Prop where
  unjoined : ∀ d, p.drafts.isJoined d = false
  accepted : p.refused = none
  taken : ∀ h, (p.drafts.hole h).resolved = true → (p.drafts.hole h).task = none

theorem calm_of_drafts {d : Drafts Pending} (hp : p.Calm) (hj : ∀ x, d.isJoined x = false)
    (ht : ∀ h, (d.hole h).resolved = true → (d.hole h).task = none) :
    Calm { p with drafts := d } :=
  ⟨hj, hp.accepted, ht⟩

theorem calm_of_step (h : Step own p q) (hp : p.Calm) : q.Calm := by
  cases h with
  | write draft text =>
    rw [write_of_open _ (hp.unjoined draft)]
    refine calm_of_drafts hp (fun x => ?_) hp.taken
    rw [isJoined_put]
    exact hp.unjoined x
  | newDraft =>
    refine calm_of_drafts hp (fun x => ?_) hp.taken
    rw [isJoined_new]
    exact hp.unjoined x
  | reserve parent task =>
    refine calm_of_drafts hp (fun x => ?_) fun k => ?_
    · rw [isJoined_reserve]
      exact hp.unjoined x
    · rw [hole_reserve]
      split
      · intro hk
        cases hk
      · exact hp.taken k
  | resolve hole =>
    cases hopen : (p.drafts.hole hole).resolved with
    | true =>
      rw [resolve_of_resolved hopen]
      exact hp
    | false =>
      rw [resolve_of_open hopen]
      refine calm_of_drafts hp hp.unjoined fun k => ?_
      rw [hole_alterHole]
      split
      · exact fun _ => rfl
      · exact hp.taken k
  | @note cursor n _ =>
    cases n with
    | package name =>
      dsimp only [Note.make]
      split
      · exact ⟨hp.unjoined, hp.accepted, hp.taken⟩
      · exact hp
    | _ => exact ⟨hp.unjoined, hp.accepted, hp.taken⟩
  | newPackage dir name library _ | newType u name _ =>
    refine ⟨fun x => ?_, hp.accepted, hp.taken⟩
    exact (isJoined_new _ x).trans (hp.unjoined x)
  | _ => exact ⟨hp.unjoined, hp.accepted, hp.taken⟩

/-! ## All of them -/

/-- What holds of every program that comes about. -/
structure Regular (own : String → String → Prop) (p : Program) : Prop where
  indexed : p.Indexed
  housed : p.Housed
  directed : p.Directed
  sourced : p.Sourced own
  stocked : p.Stocked
  calm : p.Calm

theorem regular_empty : Regular own {} := by
  have hsize : ∀ u, ¬ u < ({} : Program).units.size := fun u => Nat.not_lt_zero u
  refine ⟨fun key u => ?_, ⟨fun h => ?_, fun u hu => ?_, fun u hu => ?_⟩, fun type u => ?_,
    ⟨fun u hu => ?_, fun u hu => ?_⟩, all_empty, ⟨fun d => ?_, rfl, fun h hh => ?_⟩⟩
  · exact ⟨fun h => (by cases h), fun h => absurd h.1 (hsize u)⟩
  · exact absurd h (hsize 0)
  · exact absurd hu (hsize u)
  · exact absurd hu (hsize u)
  · exact ⟨fun h => (by cases h), fun h => absurd h.known (hsize u)⟩
  · exact absurd hu (hsize u)
  · exact absurd hu (hsize u)
  · exact whole_empty.unjoined d
  · rfl

theorem regular_of_step (h : Step own p q) (hp : p.Regular own) : q.Regular own where
  indexed := indexed_of_step h hp.indexed
  housed := housed_of_step h hp.housed
  directed := directed_of_step h hp.directed
  sourced := sourced_of_step h hp.housed hp.sourced
  stocked := stocked_of_step h hp.stocked
  calm := calm_of_step h hp.calm

theorem regular_of_steps (h : Steps own p q) (hp : p.Regular own) : q.Regular own := by
  induction h with
  | refl => exact hp
  | tail _ hstep ih => exact regular_of_step hstep ih

end Program

end GoToJava
