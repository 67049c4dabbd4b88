import GoToJava.Program.Units
import GoToJava.Proofs.Emit.Writing

/-! New units: their texts are new roots, and what is written into them starts a sound text. -/

namespace GoToJava

open Go (Expr)
open Emit Table

variable {tidy : Prop} {p : Program} {a : List Char} {d : Nat}

theorem plain_dotted {path : String} (h : Plain tidy path) : Plain tidy (dotted path) := by
  apply plain_map h
  intro c hc
  split
  · rfl
  · exact hc

namespace Program

variable {dir name : String} {library : Bool} {package : Option Nat} {u : Nat}

/-! ## Adding a unit -/

/-- The unit that `newUnit` adds. -/
def addedUnit (p : Program) (dir name : String) (library : Bool) (package : Option Nat) :
    CompilationUnit :=
  { dir, name, isPackage := package.isNone, library, root := p.drafts.next,
    packageUnit := package.getD p.units.size,
    scope := (package.map fun u => (p.unit u).scope).getD p.scopes.next }

section

variable (p) (dir name) (library) (package)

theorem unit_newUnit (u : Nat) : (p.newUnit dir name library package).unit u =
    if u = p.units.size then p.addedUnit dir name library package else p.unit u :=
  getD_push _ _ _ _

theorem unit_newUnit_old (h : u < p.units.size) :
    (p.newUnit dir name library package).unit u = p.unit u := by
  rw [unit_newUnit, if_neg (Nat.ne_of_lt h)]

theorem unit_newUnit_last : (p.newUnit dir name library package).unit p.units.size =
    p.addedUnit dir name library package := by
  rw [unit_newUnit, if_pos rfl]

theorem size_units_newUnit :
    (p.newUnit dir name library package).units.size = p.units.size + 1 :=
  Array.size_push _

theorem lt_size_newUnit : p.units.size < (p.newUnit dir name library package).units.size := by
  rw [size_units_newUnit]
  exact Nat.lt_succ_self _

theorem next_scopes_newUnit :
    p.scopes.next ≤ (p.newUnit dir name library package).scopes.next := by
  unfold newUnit
  split
  · rw [next_newScope]
    exact Nat.le_succ _
  · exact Nat.le_refl _

theorem extent_newUnit : Extent.Le p.extent (p.newUnit dir name library package).extent :=
  ⟨Nat.le_of_lt (Nat.lt_of_lt_of_eq (Nat.lt_succ_self _) (Drafts.next_new _).symm),
    Nat.le_of_lt (lt_size_newUnit p dir name library package),
    next_scopes_newUnit p dir name library package, Nat.le_refl _⟩

theorem text_newUnit (id : Nat) :
    (p.newUnit dir name library package).drafts.text id = p.drafts.text id :=
  Drafts.text_new p.drafts id

end

/-- A unit of a type belongs to a package that exists; the unit of a package has a new scope. -/
theorem known_addedUnit (hp : p.Sound tidy) (hdir : Plain tidy dir) (hname : Plain tidy name)
    (hpackage : ∀ u ∈ package, u < p.units.size) : (p.addedUnit dir name library package).Known tidy
      (p.newUnit dir name library package).extent := by
  have hle := extent_newUnit p dir name library package
  refine ⟨hdir, hname, ?_, ?_, ?_, ?_, all_empty, ?_, all_empty, all_empty, all_empty, all_empty⟩
  · exact Nat.lt_of_lt_of_eq (Nat.lt_succ_self _) (Drafts.next_new _).symm
  · cases package with
    | none => exact lt_size_newUnit p dir name library none
    | some u => exact Nat.lt_of_lt_of_le (hpackage u rfl) hle.units
  · cases package with
    | none => exact Nat.lt_of_lt_of_eq (Nat.lt_succ_self _) (next_newScope _ _).symm
    | some u => exact (hp.holds.units u (hpackage u rfl)).scope
  · intro draft hdraft
    cases hdraft
  · intro q hq
    cases hq

theorem sound_newUnit (hp : p.Sound tidy) (hdir : Plain tidy dir) (hname : Plain tidy name)
    (hpackage : ∀ u ∈ package, u < p.units.size) :
    (p.newUnit dir name library package).Sound tidy := by
  have hle := extent_newUnit p dir name library package
  have hsize := size_units_newUnit p dir name library package
  have hunit := unit_newUnit p dir name library package
  have hroot : ∀ u < p.units.size, (p.unit u).root < p.drafts.next := fun u hu =>
    (hp.holds.units u hu).root
  refine ⟨⟨Drafts.whole_new hp.planted.whole, ?_, ?_⟩, ?_⟩
  · intro u hu h hh
    rw [hsize] at hu
    rw [hunit]
    split
    · exact Nat.ne_of_lt (hp.planted.whole.forest.known h hh)
    · exact hp.planted.rootFree u (by omega) h hh
  · intro u hu v hv
    rw [hsize] at hu hv
    rw [hunit, hunit]
    -- The root of the new unit is younger than all others.
    split
    · split
      · omega
      · intro h
        have := hroot v (by omega)
        exact absurd h (Nat.ne_of_gt this)
    · split
      · intro h
        have := hroot u (by omega)
        exact absurd h (Nat.ne_of_lt this)
      · exact hp.planted.rootOwn u (by omega) v (by omega)
  · refine { hp.holds.mono hle with units := ?units, unitIndex := ?index, scopes := ?scopes }
    case units =>
      intro u hu
      rw [hsize] at hu
      rw [hunit]
      split
      · exact known_addedUnit hp hdir hname hpackage
      · exact (hp.holds.units u (by omega)).mono hle
    case index =>
      exact all_set (hp.holds.mono hle).unitIndex (lt_size_newUnit p dir name library package)
    case scopes =>
      unfold newUnit
      split
      · exact known_newScope hp.holds.scopes fun i hi => by cases hi
      · exact hp.holds.scopes

/-- The unit of a type is one more unit, and no package's. -/
theorem moves_newUnit (hp : p.Sound tidy) (hdir : Plain tidy dir) (hname : Plain tidy name)
    (hu : u < p.units.size) : p.Moves tidy d a a (p.newUnit dir name false (some u)) := by
  have hpackage : ∀ v ∈ some u, v < p.units.size := by
    intro v hv
    cases hv
    exact hu
  refine ⟨sound_newUnit hp hdir hname hpackage,
    ⟨rfl, extent_newUnit p dir name false (some u), Drafts.grows_new _, ?_, fun _ _ => .refl _,
      ?_⟩, .of_text (text_newUnit p dir name false (some u))⟩
  · intro v hv
    rw [unit_newUnit_old _ _ _ _ _ hv]
    exact .refl _
  · intro v hle hlt
    rw [size_units_newUnit] at hlt
    rw [unit_newUnit, if_pos (by omega)]
    exact ⟨rfl, rfl, Nat.le_refl _⟩

/-! ## Starting a unit -/

theorem sits_start (hp : p.Sound tidy) (hu : u < p.units.size) :
    ((p.unit u).start u).Sits tidy p.extent := by
  refine ⟨(hp.holds.units u hu).root, hu, (hp.holds.units u hu).scope, ?_, ?_⟩
  · intro _ h
    cases h
  · intro _ h
    cases h

theorem keeps_header {unit : CompilationUnit} {w : Program} (hdir : Plain tidy unit.dir) :
    Keeps tidy w a a (header unit) fun cursor q => cursor.place.Sits tidy q.extent := by
  have hblock : Keeps tidy w a a (reserveBlock none) fun cursor q =>
      cursor.place.Sits tidy q.extent :=
    keeps_reserveBlock (fun _ h => by cases h) fun _ => rfl
  have hline : Plain tidy ("package " ++ unit.javaPackage ++ ";") :=
    plain_append (plain_append (plain_of_chars (by decide)) (plain_dotted hdir))
      (plain_of_chars (by decide))
  unfold header
  split
  · exact hblock
  · apply keeps_seq (balanced_println hline w a)
    exact keeps_seq (keeps_line rfl) hblock

/-- The text at the start of a unit comes after the place of its imports. -/
theorem moves_startUnit {text : Emit Unit} {b : List Char} (hp : p.Sound tidy)
    (hu : u < p.units.size) (ht : ∀ w, Keeps tidy w [] b text fun _ _ => True) :
    p.Moves tidy (p.unit u).root [] b (p.startUnit u text) := by
  have hknown := hp.holds.units u hu
  have hstart : Keeps tidy p [] b (do
      let imports ← header (p.unit u)
      text
      return imports) fun cursor q => cursor.place.Sits tidy q.extent := by
    refine keeps_bind (keeps_header hknown.dir) fun imports q _ _ hq => ?_
    exact keeps_seq (ht q) (keeps_pure fun r hr _ => hq.mono hr.extent)
  obtain ⟨hm, hsits⟩ := moves_emit ⟨(p.unit u).start u, true⟩ hp (sits_start hp hu) hstart
  refine hm.trans (moves_modifyUnit u hm.sound ?_ ?_)
  · intro v
    exact { CompilationUnit.Later.refl v with }
  · intro v hv
    refine { hv with importsAt := ?_ }
    intro draft hdraft
    cases hdraft
    exact hsits.draft

theorem moves_typeUnits {id : Nat} (name : String) (hp : p.Sound tidy) (hid : id < p.units.size) :
    p.Moves tidy d a a { p with typeUnits := p.typeUnits.set name id } :=
  moves_of_holds hp rfl rfl rfl rfl (Nat.le_refl _)
    { hp.holds with typeUnits := all_set hp.holds.typeUnits hid }

/-- Where an exported type is written, in a unit that may be new. -/
theorem moves_typeUnit {place : Place} (hp : p.Sound tidy) (hplace : place.Sits tidy p.extent)
    (hname : Plain tidy name) : p.Moves tidy d a a (p.typeUnit place name).2 ∧
      (p.typeUnit place name).1.place.Sits tidy (p.typeUnit place name).2.extent := by
  have hpackage := (hp.holds.units place.unit hplace.unit).packageUnit
  have hdir := (hp.holds.units _ hpackage).dir
  unfold typeUnit
  dsimp only
  split
  · rename_i id hid
    have hstart := sits_start hp (hp.holds.unitIndex _ _ hid)
    exact ⟨.refl hp, { hstart with }⟩
  · have hnew : p.Moves tidy d a a (p.newUnit _ name false (some _)) :=
      moves_newUnit hp hdir hname hpackage
    have hlt : p.units.size < (p.newUnit (p.unit (p.unit place.unit).packageUnit).dir name false
        (some (p.unit place.unit).packageUnit)).units.size := lt_size_newUnit _ _ _ _ _
    have hstart := moves_startUnit hnew.sound hlt fun w => balanced_pure () w []
    have hall := hnew.trans (hstart.anywhere a)
    have hsize := Nat.lt_of_lt_of_le hlt hstart.ext.extent.units
    -- Only what is known of the started unit matters from here on.
    generalize (p.newUnit _ name false (some _)).startUnit p.units.size (pure ()) = q
      at hall hsize ⊢
    refine ⟨hall.trans (moves_typeUnits name hall.sound hsize), ?_⟩
    exact { sits_start hall.sound hsize with }

end Program

end GoToJava
