import GoToJava.Program.State
import GoToJava.Proofs.Draft.Growth
import GoToJava.Proofs.Spelling

/-!
Sound programs. All numbers that a program keeps are numbers of things that exist, its drafts form a
forest in which the texts of units are roots, and, if its sources are tidy, no name or literal that
may still be written has a bracket.
-/

namespace GoToJava

open Table

open Go (Expr Field Signature FuncDecl)

variable {tidy : Prop} {P : String → Prop} {t s : String} {α : Type} {c : JavaClass}
  {u : CompilationUnit}

/-! ## Tables -/

/-- All values of a table have a property. -/
def Table.All {α : Type} (P : α → Prop) (t : Table α) : Prop :=
  ∀ name v, t.get? name = some v → P v

namespace Table

variable {α : Type} {P : α → Prop} {t : Table α} {name : String} {v : α}

theorem all_empty : ({} : Table α).All P := by
  intro name v h
  rw [get?_empty] at h
  cases h

theorem all_set (ht : t.All P) (hv : P v) : (t.set name v).All P := by
  intro other w h
  rw [get?_set] at h
  split at h
  · cases h
    exact hv
  · exact ht other w h

theorem all_add (ht : t.All P) (hv : P v) : (t.add name v).All P := by
  unfold add
  split
  · exact ht
  · exact all_set ht hv

theorem all_imp {Q : α → Prop} (ht : t.All P) (h : ∀ v, P v → Q v) : t.All Q :=
  fun name v hv => h v (ht name v hv)

theorem all_ofList {entries : List (String × α)} (h : ∀ e ∈ entries, P e.2) :
    (ofList entries).All P := by
  intro name v hv
  unfold get? ofList at hv
  induction entries with
  | nil => cases hv
  | cons e entries ih =>
    rw [List.lookup_cons] at hv
    split at hv
    · cases hv
      exact h e List.mem_cons_self
    · exact ih (fun x hx => h x (List.mem_cons_of_mem _ hx)) hv

end Table

/-! ## What exists -/

/-- The numbers of drafts, units, scopes and classes that there are. -/
structure Extent where
  drafts : Nat
  units : Nat
  scopes : Nat
  classes : Nat

variable {n m : Extent}

structure Extent.Le (m n : Extent) : Prop where
  drafts : m.drafts ≤ n.drafts
  units : m.units ≤ n.units
  scopes : m.scopes ≤ n.scopes
  classes : m.classes ≤ n.classes

theorem Extent.Le.refl (n : Extent) : Extent.Le n n :=
  ⟨Nat.le_refl _, Nat.le_refl _, Nat.le_refl _, Nat.le_refl _⟩

theorem Extent.Le.trans {l : Extent} (h : Extent.Le l m) (h' : Extent.Le m n) : Extent.Le l n :=
  ⟨Nat.le_trans h.drafts h'.drafts, Nat.le_trans h.units h'.units,
    Nat.le_trans h.scopes h'.scopes, Nat.le_trans h.classes h'.classes⟩

/-- More drafts and classes. -/
def Extent.grown (n : Extent) (drafts classes : Nat) : Extent :=
  ⟨n.drafts + drafts, n.units, n.scopes, n.classes + classes⟩

theorem Extent.le_grown (n : Extent) (drafts classes : Nat) :
    Extent.Le n (n.grown drafts classes) :=
  ⟨Nat.le_add_right _ _, Nat.le_refl _, Nat.le_refl _, Nat.le_add_right _ _⟩

def Program.extent (p : Program) : Extent :=
  ⟨p.drafts.next, p.units.size, p.scopes.next, p.classes.size⟩

/-- What a place speaks of exists. -/
structure Place.Sits (tidy : Prop) (n : Extent) (place : Place) : Prop where
  draft : place.draft < n.drafts
  unit : place.unit < n.units
  scope : place.scope < n.scopes
  receiver : ∀ r, place.receiver = some r → r.cls < n.classes
  result : ∀ t, place.result = some t → t.Spelled (Plain tidy)

structure CompilationUnit.Known (tidy : Prop) (n : Extent) (u : CompilationUnit) : Prop where
  dir : Plain tidy u.dir
  name : Plain tidy u.name
  root : u.root < n.drafts
  packageUnit : u.packageUnit < n.units
  scope : u.scope < n.scopes
  importsAt : ∀ d, u.importsAt = some d → d < n.drafts
  importNames : u.importNames.All fun i => ∀ q, i.qualified = some q → Plain tidy q
  imports : ∀ q ∈ u.imports.names, Plain tidy q
  funcs : u.funcs.All (Expr.Spelled (Plain tidy))
  symbolFuncs : u.symbols.funcs.All (Expr.Spelled (Plain tidy))
  symbolVars : u.symbols.vars.All (Expr.Spelled (Plain tidy))
  symbolValues : u.symbols.values.All (Expr.Spelled (Plain tidy))

structure JavaClass.Known (tidy : Prop) (n : Extent) (c : JavaClass) : Prop where
  unit : c.unit < n.units
  implementsAt : c.implementsAt.place.Sits tidy n
  functionsAt : c.functionsAt.place.Sits tidy n
  fields : c.fields.All (Expr.Spelled (Plain tidy))
  methods : c.methods.All (Expr.Spelled (Plain tidy))

/-- A scope is younger than the one around it. -/
structure Scopes.Known (tidy : Prop) (s : Scopes) : Prop where
  vars : ∀ i, (s.scopes.getD i {}).vars.All (Expr.Spelled (Plain tidy))
  parents : ∀ i parent, (s.scopes.getD i {}).parent = some parent → parent < i

def RangeLoop.Spelled (P : String → Prop) (loop : RangeLoop) : Prop :=
  (∀ n ∈ loop.key, P n) ∧ (∀ n ∈ loop.value, P n) ∧ loop.iterable.Spelled P

def ElementUpdate.Spelled (P : String → Prop) : ElementUpdate Expr → Prop
  | .set value => value.Spelled P
  | .compound _ value => value.Spelled P
  | .step _ => True

def Task.Spelled (P : String → Prop) : Task → Prop
  | .typeName type _ => type.Spelled P
  | .declared name value _ => P name ∧ value.Spelled P
  | .rangeHeader loop => loop.Spelled P
  | .rangeBindings loop => loop.Spelled P
  | .elementUpdate base index update => base.Spelled P ∧ index.Spelled P ∧ update.Spelled P
  | .element base index => base.Spelled P ∧ index.Spelled P
  | .slice base low high =>
    base.Spelled P ∧ Expr.SpelledOption P low ∧ Expr.SpelledOption P high
  | .length value => value.Spelled P
  | .conformance value result => value.Spelled P ∧ result.Spelled P

theorem Task.spelled_of_all (hP : ∀ s, P s) (task : Task) : task.Spelled P := by
  have he := fun e => Go.Expr.spelled_of_all hP e
  have ho := fun o => Go.Expr.spelledOption_of_all hP o
  cases task with
  | typeName type style => exact he _
  | declared name value style => exact ⟨hP _, he _⟩
  | rangeHeader loop | rangeBindings loop => exact ⟨fun _ _ => hP _, fun _ _ => hP _, he _⟩
  | elementUpdate base index update =>
    refine ⟨he _, he _, ?_⟩
    cases update with
    | set value => exact he _
    | compound op value => exact he _
    | step up => trivial
  | element base index | conformance value declared => exact ⟨he _, he _⟩
  | slice base low high => exact ⟨he _, ho _, ho _⟩
  | length value => exact he _

structure Pending.Known (tidy : Prop) (n : Extent) (t : Pending) : Prop where
  cursor : t.cursor.place.Sits tidy n
  task : t.task.Spelled (Plain tidy)

structure Go.FuncDecl.Spelled (P : String → Prop) (d : FuncDecl) : Prop where
  receiver : ∀ f ∈ d.receiver, f.Spelled P
  name : P d.name
  sig : d.sig.Spelled P
  body : ∀ b ∈ d.body, Go.Stmt.SpelledList P b

theorem Go.FuncDecl.spelled_of_all (h : ∀ s, P s) (d : FuncDecl) :
    d.Spelled P where
  receiver f _ := Go.Field.spelled_of_all h f
  name := h _
  sig := Go.Signature.spelled_of_all h _
  body _ _ := Go.Stmt.spelledList_of_all h _

/-- All names and literals of a declaration have a property. -/
def Go.Decl.Spelled (P : String → Prop) : Go.Decl → Prop
  | .func d => d.Spelled P
  | .gen d => d.Spelled P

theorem Go.Decl.spelled_of_all (h : ∀ s, P s) : ∀ d : Go.Decl, d.Spelled P
  | .func d => Go.FuncDecl.spelled_of_all h d
  | .gen d => Go.GenDecl.spelled_of_all h d

structure ParkedMethod.Known (tidy : Prop) (n : Extent) (m : ParkedMethod) : Prop where
  decl : m.decl.Spelled (Plain tidy)
  cursor : m.cursor.place.Sits tidy n

/-! Whatever exists goes on existing. -/

theorem Place.Sits.mono {place : Place} (h : place.Sits tidy m) (hmn : Extent.Le m n) :
    place.Sits tidy n :=
  ⟨Nat.lt_of_lt_of_le h.draft hmn.drafts, Nat.lt_of_lt_of_le h.unit hmn.units,
    Nat.lt_of_lt_of_le h.scope hmn.scopes,
    fun r hr => Nat.lt_of_lt_of_le (h.receiver r hr) hmn.classes, h.result⟩

theorem CompilationUnit.Known.mono (h : u.Known tidy m) (hmn : Extent.Le m n) : u.Known tidy n :=
  { h with
    root := Nat.lt_of_lt_of_le h.root hmn.drafts
    packageUnit := Nat.lt_of_lt_of_le h.packageUnit hmn.units
    scope := Nat.lt_of_lt_of_le h.scope hmn.scopes
    importsAt := fun d hd => Nat.lt_of_lt_of_le (h.importsAt d hd) hmn.drafts }

theorem JavaClass.Known.mono (h : c.Known tidy m) (hmn : Extent.Le m n) : c.Known tidy n :=
  { h with
    unit := Nat.lt_of_lt_of_le h.unit hmn.units
    implementsAt := h.implementsAt.mono hmn
    functionsAt := h.functionsAt.mono hmn }

theorem Pending.Known.mono {t : Pending} (h : t.Known tidy m) (hmn : Extent.Le m n) :
    t.Known tidy n :=
  ⟨h.cursor.mono hmn, h.task⟩

theorem ParkedMethod.Known.mono {x : ParkedMethod} (h : x.Known tidy m) (hmn : Extent.Le m n) :
    x.Known tidy n :=
  ⟨h.decl, h.cursor.mono hmn⟩

/-! ## What stays -/

/-- A table keeps all values it has. -/
def Table.Kept {α : Type} (t t' : Table α) : Prop :=
  ∀ name v, t.get? name = some v → t'.get? name = some v

theorem Table.kept_refl (t : Table α) : t.Kept t := fun _ _ h => h

theorem Table.kept_add (t : Table α) (name : String) (v : α) : t.Kept (t.add name v) :=
  fun other old h => get?_add_of_get? t name other v old h

/-- What a unit may become: its names and places stay, and so do the results and types it knows. -/
structure CompilationUnit.Later (u v : CompilationUnit) : Prop where
  dir : v.dir = u.dir
  name : v.name = u.name
  isPackage : v.isPackage = u.isPackage
  library : v.library = u.library
  root : v.root = u.root
  packageUnit : v.packageUnit = u.packageUnit
  scope : v.scope = u.scope
  funcs : u.funcs.Kept v.funcs
  symbolFuncs : u.symbols.funcs.Kept v.symbols.funcs
  symbolVars : u.symbols.vars.Kept v.symbols.vars
  symbolValues : u.symbols.values.Kept v.symbols.values

theorem CompilationUnit.Later.refl (u : CompilationUnit) : u.Later u :=
  ⟨rfl, rfl, rfl, rfl, rfl, rfl, rfl, kept_refl _, kept_refl _, kept_refl _,
    kept_refl _⟩

theorem CompilationUnit.Later.trans {v w : CompilationUnit} (h : u.Later v) (h' : v.Later w) :
    u.Later w where
  dir := h'.dir.trans h.dir
  name := h'.name.trans h.name
  isPackage := h'.isPackage.trans h.isPackage
  library := h'.library.trans h.library
  root := h'.root.trans h.root
  packageUnit := h'.packageUnit.trans h.packageUnit
  scope := h'.scope.trans h.scope
  funcs n x hx := h'.funcs n x (h.funcs n x hx)
  symbolFuncs n x hx := h'.symbolFuncs n x (h.symbolFuncs n x hx)
  symbolVars n x hx := h'.symbolVars n x (h.symbolVars n x hx)
  symbolValues n x hx := h'.symbolValues n x (h.symbolValues n x hx)

/-- What a class may become. -/
structure JavaClass.Later (c d : JavaClass) : Prop where
  name : d.name = c.name
  unit : d.unit = c.unit
  implementsAt : d.implementsAt = c.implementsAt
  functionsAt : d.functionsAt = c.functionsAt
  fields : d.fields = c.fields
  methods : c.methods.Kept d.methods

theorem JavaClass.Later.refl (c : JavaClass) : c.Later c :=
  ⟨rfl, rfl, rfl, rfl, rfl, kept_refl _⟩

theorem JavaClass.Later.trans {d e : JavaClass} (h : c.Later d) (h' : d.Later e) :
    c.Later e where
  name := h'.name.trans h.name
  unit := h'.unit.trans h.unit
  implementsAt := h'.implementsAt.trans h.implementsAt
  functionsAt := h'.functionsAt.trans h.functionsAt
  fields := h'.fields.trans h.fields
  methods n x hx := h'.methods n x (h.methods n x hx)

/-! ## Soundness -/

namespace Program

variable {p q : Program} {tidy : Prop}

/-- The texts of units are roots of the forest, each for one unit. -/
structure Planted (p : Program) : Prop where
  whole : p.drafts.Whole
  rootFree : ∀ u < p.units.size, ∀ h < p.drafts.holes.size,
    (p.drafts.hole h).child ≠ (p.unit u).root
  rootOwn : ∀ u < p.units.size, ∀ v < p.units.size, (p.unit u).root = (p.unit v).root → u = v

/-- All that a program keeps is known among the things counted by `n`. -/
structure Holds (tidy : Prop) (n : Extent) (p : Program) : Prop where
  pending : ∀ h < p.drafts.holes.size, ∀ t, (p.drafts.hole h).task = some t → t.Known tidy n
  units : ∀ u < p.units.size, (p.unit u).Known tidy n
  classes : ∀ c < p.classes.size, (p.classAt c).Known tidy n
  parked : ∀ m ∈ p.parked, m.Known tidy n
  unitIndex : p.unitIndex.All (· < n.units)
  typeUnits : p.typeUnits.All (· < n.units)
  classIndex : p.classIndex.All (· < n.classes)
  interfaces : ∀ name ∈ p.interfaces.names, Plain tidy name
  typeNames : p.typeNames.All (Expr.Spelled (Plain tidy))
  scopes : p.scopes.Known tidy

theorem Holds.mono (h : p.Holds tidy m) (hmn : Extent.Le m n) : p.Holds tidy n :=
  { h with
    pending := fun k hk t ht => (h.pending k hk t ht).mono hmn
    units := fun u hu => (h.units u hu).mono hmn
    classes := fun c hc => (h.classes c hc).mono hmn
    parked := fun x hx => (h.parked x hx).mono hmn
    unitIndex := all_imp h.unitIndex fun _ hu => Nat.lt_of_lt_of_le hu hmn.units
    typeUnits := all_imp h.typeUnits fun _ hu => Nat.lt_of_lt_of_le hu hmn.units
    classIndex := all_imp h.classIndex fun _ hc => Nat.lt_of_lt_of_le hc hmn.classes }

structure Sound (tidy : Prop) (p : Program) : Prop where
  planted : p.Planted
  holds : p.Holds tidy p.extent

/-- What may happen to a program: it grows, and new holes have tasks only in discovery. New units
are not those of packages, and have new texts. -/
structure Extends (p q : Program) : Prop where
  phase : q.phase = p.phase
  extent : Extent.Le p.extent q.extent
  drafts : p.drafts.Grows (p.phase ≠ .discovery) q.drafts
  unit : ∀ u < p.units.size, (p.unit u).Later (q.unit u)
  cls : ∀ c < p.classes.size, (p.classAt c).Later (q.classAt c)
  fresh : ∀ u, p.units.size ≤ u → u < q.units.size →
    (q.unit u).isPackage = false ∧ (q.unit u).library = false ∧ p.drafts.next ≤ (q.unit u).root

theorem Extends.of_drafts (hphase : q.phase = p.phase)
    (hd : p.drafts.Grows (p.phase ≠ .discovery) q.drafts) (hs : p.scopes.next ≤ q.scopes.next)
    (hu : q.units = p.units) (hc : q.classes = p.classes) :
    Extends p q where
  phase := hphase
  extent := ⟨hd.next, Nat.le_of_eq (by simp only [Program.extent, hu]), hs,
    Nat.le_of_eq (by simp only [Program.extent, hc])⟩
  drafts := hd
  unit u _ := by
    simp only [Program.unit, hu]
    exact .refl _
  cls c _ := by
    simp only [classAt, hc]
    exact .refl _
  fresh u hle hlt := by
    rw [hu] at hlt
    exact absurd hle (Nat.not_le_of_lt hlt)

theorem Extends.refl (p : Program) : Extends p p :=
  .of_drafts rfl (Drafts.grows_refl _) (Nat.le_refl _) rfl rfl

theorem Extends.trans {r : Program} (h : Extends p q) (h' : Extends q r) : Extends p r where
  phase := h'.phase.trans h.phase
  extent := h.extent.trans h'.extent
  drafts := Drafts.grows_trans h.drafts (h.phase ▸ h'.drafts)
  unit u hu := (h.unit u hu).trans (h'.unit u (Nat.lt_of_lt_of_le hu h.extent.units))
  cls c hc := (h.cls c hc).trans (h'.cls c (Nat.lt_of_lt_of_le hc h.extent.classes))
  fresh u hu hu' := by
    by_cases huq : u < q.units.size
    · have hl := h'.unit u huq
      rw [hl.isPackage, hl.library, hl.root]
      exact h.fresh u hu huq
    · obtain ⟨hpackage, hlibrary, hroot⟩ := h'.fresh u (Nat.le_of_not_lt huq) hu'
      exact ⟨hpackage, hlibrary, Nat.le_trans h.extent.drafts hroot⟩

/-- All names and literals that may still be written are spelled, wherever they are kept. -/
structure Spelt (tidy : Prop) (p : Program) : Prop where
  name : ∀ u, Plain tidy (p.unit u).name
  importNames : ∀ u, (p.unit u).importNames.All fun i => ∀ q, i.qualified = some q → Plain tidy q
  funcs : ∀ u, (p.unit u).funcs.All (Expr.Spelled (Plain tidy))
  symbolFuncs : ∀ u, (p.unit u).symbols.funcs.All (Expr.Spelled (Plain tidy))
  symbolVars : ∀ u, (p.unit u).symbols.vars.All (Expr.Spelled (Plain tidy))
  symbolValues : ∀ u, (p.unit u).symbols.values.All (Expr.Spelled (Plain tidy))
  fields : ∀ c, (p.classAt c).fields.All (Expr.Spelled (Plain tidy))
  methods : ∀ c, (p.classAt c).methods.All (Expr.Spelled (Plain tidy))
  parked : ∀ m ∈ p.parked, m.decl.Spelled (Plain tidy)
  interfaces : ∀ name ∈ p.interfaces.names, Plain tidy name
  typeNames : p.typeNames.All (Expr.Spelled (Plain tidy))
  vars : ∀ i, (p.scopes.scopes.getD i {}).vars.All (Expr.Spelled (Plain tidy))

/-- Nothing is kept for units and classes that are not there. -/
theorem Sound.spelt (h : p.Sound tidy) : p.Spelt tidy := by
  have hunit : ∀ {P : CompilationUnit → Prop},
      (∀ u, u.Known tidy p.extent → P u) → P default → ∀ u, P (p.unit u) := by
    intro P hP hnone u
    by_cases hu : u < p.units.size
    · exact hP _ (h.holds.units u hu)
    · have hdefault : p.unit u = default := getD_of_size_le _ _ _ (Nat.le_of_not_lt hu)
      rw [hdefault]
      exact hnone
  have hcls : ∀ {P : JavaClass → Prop},
      (∀ c, c.Known tidy p.extent → P c) → P default → ∀ c, P (p.classAt c) := by
    intro P hP hnone c
    by_cases hc : c < p.classes.size
    · exact hP _ (h.holds.classes c hc)
    · have hdefault : p.classAt c = default := getD_of_size_le _ _ _ (Nat.le_of_not_lt hc)
      rw [hdefault]
      exact hnone
  exact {
    name := hunit (fun _ hu => hu.name) (plain_of_chars (by decide))
    importNames := hunit (fun _ hu => hu.importNames) all_empty
    funcs := hunit (fun _ hu => hu.funcs) all_empty
    symbolFuncs := hunit (fun _ hu => hu.symbolFuncs) all_empty
    symbolVars := hunit (fun _ hu => hu.symbolVars) all_empty
    symbolValues := hunit (fun _ hu => hu.symbolValues) all_empty
    fields := hcls (fun _ hc => hc.fields) all_empty
    methods := hcls (fun _ hc => hc.methods) all_empty
    parked := fun m hm => (h.holds.parked m hm).decl
    interfaces := h.holds.interfaces
    typeNames := h.holds.typeNames
    vars := h.holds.scopes.vars }

/-- Where brackets do not matter, everything is spelled. -/
theorem spelt_of_loose (h : ¬tidy) (p : Program) : p.Spelt tidy := by
  have hplain : ∀ s, Plain tidy s := fun s ht => absurd ht h
  have htype : ∀ t : Table Expr, t.All (Expr.Spelled (Plain tidy)) :=
    fun _ _ t _ => Go.Expr.spelled_of_all hplain t
  exact {
    name := fun _ => hplain _
    importNames := fun _ _ _ _ _ _ => hplain _
    funcs := fun _ => htype _
    symbolFuncs := fun _ => htype _
    symbolVars := fun _ => htype _
    symbolValues := fun _ => htype _
    fields := fun _ => htype _
    methods := fun _ => htype _
    parked := fun m _ => Go.FuncDecl.spelled_of_all hplain m.decl
    interfaces := fun _ _ => hplain _
    typeNames := htype _
    vars := fun _ => htype _ }

end Program

/-! ## What is written -/

/-- Text is added that takes the brackets still to be closed from `a` to `b`. -/
def Adds (tidy : Prop) (a b : List Char) (old new : String) : Prop :=
  ∃ t, new = old ++ t ∧ Turns tidy a b t

theorem adds_refl (tidy : Prop) (a : List Char) (s : String) : Adds tidy a a s s :=
  ⟨"", by simp, fun _ => rfl⟩

theorem adds_trans {a b c : List Char} {r : String} (h : Adds tidy a b r s)
    (h' : Adds tidy b c s t) : Adds tidy a c r t := by
  obtain ⟨x, rfl, hx⟩ := h
  obtain ⟨y, rfl, hy⟩ := h'
  exact ⟨x ++ y, by rw [String.append_assoc], turns_append hx hy⟩

theorem adds_frame (h : Adds tidy [] [] s t) (a : List Char) : Adds tidy a a s t := by
  obtain ⟨x, hx, hs⟩ := h
  exact ⟨x, hx, fun ht => scan_balanced (hs ht) a⟩

/-- The draft `d` goes from `a` to `b`, and what is added to other drafts is closed there. -/
structure Program.Writes (tidy : Prop) (d : Nat) (a b : List Char) (p q : Program) : Prop where
  here : Adds tidy a b (p.drafts.text d) (q.drafts.text d)
  others : ∀ id, id ≠ d → Adds tidy [] [] (p.drafts.text id) (q.drafts.text id)

namespace Program

variable {tidy : Prop} {d : Nat} {a b c : List Char} {p q r : Program}

theorem Writes.trans (h : Writes tidy d a b p q) (h' : Writes tidy d b c q r) :
    Writes tidy d a c p r :=
  ⟨adds_trans h.here h'.here, fun id hid => adds_trans (h.others id hid) (h'.others id hid)⟩

theorem Writes.anywhere {e : Nat} (h : Writes tidy d [] [] p q) (a : List Char) :
    Writes tidy e a a p q := by
  have hall : ∀ id, Adds tidy [] [] (p.drafts.text id) (q.drafts.text id) := by
    intro id
    by_cases hid : id = d
    · rw [hid]
      exact h.here
    · exact h.others id hid
  exact ⟨adds_frame (hall e) a, fun id _ => hall id⟩

theorem Writes.of_text (h : ∀ id, q.drafts.text id = p.drafts.text id) : Writes tidy d a a p q := by
  refine ⟨?_, fun id _ => ?_⟩
  · rw [h]
    exact adds_refl tidy a _
  · rw [h]
    exact adds_refl tidy [] _

end Program

end GoToJava
