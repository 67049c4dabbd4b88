import GoToJava.Proofs.Emit.Pieces
import GoToJava.Proofs.Homes.Occasions

/-!
References. A unit remembers the classes that are named in it, and imports them when all is written.
No class is forgotten and none is remembered for another unit.
-/

namespace GoToJava

open Go (Expr)
open Emit

/-! ## Naming classes -/

namespace TypeText

variable {place : Place}

/-- What writes a piece keeps the units, and what they name. -/
theorem units_piece (place : Place) {piece : Piece} (desk : Desk) (h : ∀ name, piece ≠ .cls name) :
    (piece.write place desk).2.program.units.size = desk.program.units.size ∧
      ∀ u, ((piece.write place desk).2.program.unit u).referenced =
        (desk.program.unit u).referenced := by
  have hwrites : ∀ {x : Emit Unit}, Jots (fun _ => True) x → (x place desk).2.program.units.size =
      desk.program.units.size ∧
        ∀ u, ((x place desk).2.program.unit u).referenced = (desk.program.unit u).referenced := by
    intro x hx
    obtain ⟨drafts, refused, h⟩ := hx.onlyWrites place desk
    rw [h]
    exact ⟨rfl, fun _ => rfl⟩
  cases piece with
  | word text => exact hwrites (.print text)
  | later type style => exact hwrites (x := leave (.typeName type style)) (jots_leave trivial)
  | need i =>
    exact ⟨Program.size_units_modifyUnit _ _ _, fun u => Program.unit_modifyUnit_of
      (P := fun x => x.referenced = (desk.program.unit u).referenced) rfl fun _ h => h⟩
  | cls name => exact absurd rfl (h name)

/-- The unit of the place remembers the classes that are named, and nothing else. -/
theorem referenced_writePieces (ps : List Piece) (desk : Desk) (u : Nat) (name : String) :
    name ∈ ((writePieces ps place desk).2.program.unit u).referenced.names ↔
      name ∈ (desk.program.unit u).referenced.names ∨
        .cls name ∈ ps ∧ u = place.unit ∧ u < desk.program.units.size := by
  induction ps generalizing desk with
  | nil => exact (or_iff_left fun h => List.not_mem_nil h.1).symm
  | cons piece ps ih =>
    refine (ih (piece.write place desk).2).trans ?_
    by_cases hcls : ∃ other, piece = .cls other
    · obtain ⟨other, rfl⟩ := hcls
      obtain ⟨drafts, refused, hprint⟩ :=
        (Jots.print other).onlyWrites place (refer other place desk).2
      have hrun : (Piece.write (.cls other) place desk).2.program =
          { desk.program.modifyUnit place.unit fun x =>
              { x with referenced := x.referenced.insert other } with drafts, refused } := hprint
      have hunit : (Piece.write (.cls other) place desk).2.program.unit u =
          (desk.program.modifyUnit place.unit fun x =>
            { x with referenced := x.referenced.insert other }).unit u := by
        rw [hrun]
        rfl
      have hsize : (Piece.write (.cls other) place desk).2.program.units.size =
          desk.program.units.size := by
        rw [hrun]
        exact Program.size_units_modifyUnit _ _ _
      rw [hunit, hsize, Program.unit_modifyUnit, List.mem_cons, Piece.cls.injEq]
      split
      · rw [show ∀ x, x ∈ ((desk.program.unit u).referenced.insert other).names ↔ _ from
          fun x => NameSet.mem_place]
        tauto
      · tauto
    · obtain ⟨hsize, hsame⟩ := units_piece place desk fun other h => hcls ⟨other, h⟩
      have hnot : .cls name ≠ piece := fun h => hcls ⟨name, h.symm⟩
      rw [hsize, hsame, List.mem_cons, or_iff_right hnot]

/-- What writes a type, and the pieces that are written. -/
inductive Types (s : Sight) : Emit Unit → List Piece → Prop
  | bounded (room : Nat) (style : Style) (type : Expr) :
      Types s (writeTypeAt room style type) (piecesAt s room style type)
  | now (style : Style) (type : Expr) : Types s (writeTypeNow style type) (piecesOf s style type)

variable {s : Sight} {x : Emit Unit} {ps : List Piece}

theorem Types.spelt (h : Types s x ps) (place : Place) : Spelt s place x ps := by
  cases h with
  | bounded room style type => exact spelt_writeTypeAt room style type
  | now style type => exact spelt_writeTypeNow style type

theorem Types.courses (h : Types s x ps) (n : Nat) : Courses n x := by
  have hspelled : ∀ e : Expr, e.Spelled (Plain False) := Expr.spelled_of_all fun _ => False.elim
  cases h with
  | bounded room style type =>
    exact courses_of_parallel (scripted_writeTypeAt room (fun _ => trivial) (hspelled type) .all [])
  | now style type =>
    exact courses_of_parallel (scripted_writeTypeNow trivial style (hspelled type) .all [])

end TypeText

/-! ## Homes of names -/

namespace Program

open TypeText (Types writePieces)

variable {p q f : Program} {place : Place} {u : Nat}

/-- Where a type is written, its pieces are. If they end up in the text of a unit, the place belongs
to the unit, the text is not only looked at, and the unit remembers all classes that are named. -/
theorem named_at_home {x : Emit Unit} {ps : List TypeText.Piece} {owed : Bool} (hp : p.Filed)
    (hplace : p.Seats place) (hx : Types (p.sight place) x ps)
    (habides : (x place ⟨p, owed⟩).2.program.Abides f) :
    x place ⟨p, owed⟩ = writePieces ps place ⟨p, owed⟩ ∧
      ∀ u < f.units.size, f.drafts.Under (f.unit u).root place.draft →
        place.unit = u ∧ place.scratch = false ∧
          ∀ name, .cls name ∈ ps → name ∈ (f.unit u).referenced.names := by
  have hwrite := hx.spelt place ⟨p, owed⟩ rfl
  have hcourse : Course place.draft p (x place ⟨p, owed⟩).2.program :=
    hx.courses _ place p owed hp hplace (Nat.le_refl _)
  refine ⟨hwrite, fun u hu hunder => ?_⟩
  obtain ⟨hu, hunder⟩ := (hcourse.abides.trans habides).home hu hplace.known hunder
  obtain ⟨hunit, hscratch⟩ := hplace.home u hu hunder
  refine ⟨hunit, hscratch, fun name hname => habides.leads.referenced ?_⟩
  rw [hwrite, TypeText.referenced_writePieces]
  exact Or.inr ⟨hname, hunit.symm, hu⟩

/-! ## Import blocks -/

theorem under_of_holes {d d' : Drafts Pending} {root draft : Nat} (h : d'.holes = d.holes)
    (hunder : d'.Under root draft) : d.Under root draft := by
  have hhole : ∀ k, d'.hole k = d.hole k := fun k => by
    unfold Drafts.hole
    rw [h]
  induction hunder with
  | self => exact .self
  | @hole k hk _ ih =>
    rw [hhole] at ih ⊢
    rw [h] at hk
    exact .hole hk ih

/-- Whatever files are discovered before a program is made final, each unit that is no library's and
has a place for its imports has the lines of `importsOf` there, in ascending order, with an empty
line if there are any, and nothing else changes when they are written. They are for the classes that
the unit imports or names, except for those of its own package and of none. Whenever a type is
written, on any occasion, the classes that are named in it are remembered by the unit in whose text
they end up. The types that were put off are written on such an occasion, too. -/
theorem import_blocks_are_exact_and_complete (calls : List Call) :
    let p := discovered calls
    let g := p.filled
    let f := (finalize.run.run p).2
    (∃ drafts, f = { g with drafts } ∧ drafts.holes = g.drafts.holes ∧
      ∀ u draft, (f.unit u).library = false → (f.unit u).importsAt = some draft →
        drafts.draft draft = { text := importBlock (f.importsOf (f.unit u)) }) ∧
    (∀ u, (f.importsOf (f.unit u)).Pairwise (· < ·) ∧ ∀ qualified,
      qualified ∈ f.importsOf (f.unit u) ↔
        (qualified ∈ (f.unit u).imports.names ∨ ∃ name ∈ (f.unit u).referenced.names, ∃ v,
          f.typeUnits.get? name = some v ∧ (f.unit v).qualifiedName = qualified) ∧
        ∃ package, packageOf? qualified = some package ∧ package ≠ (f.unit u).javaPackage) ∧
    (∀ (n : Nat) (x : Emit Unit) (place : Place) (desk : Desk) (pieces : List TypeText.Piece),
      Occasion calls n x place desk → Types (desk.program.sight place) x pieces →
        x place desk = writePieces pieces place desk ∧
          ∀ u < f.units.size, f.drafts.Under (f.unit u).root place.draft →
            place.unit = u ∧ place.scratch = false ∧
              ∀ name, .cls name ∈ pieces → name ∈ (f.unit u).referenced.names) ∧
    ∀ h cursor type style, p.released.InText h →
      (p.released.drafts.hole h).task = some ⟨cursor, .typeName type style⟩ →
        ∃ q, Occasion calls 0 (writeTypeNow style type) cursor.place ⟨q, cursor.owed⟩ := by
  intro p g f
  obtain ⟨haccounted, hphase, -⟩ := accounted_discovered calls
  have hsettled := settled_filled haccounted
  obtain ⟨drafts, hsettle, hblocks⟩ := blocks_imported hsettled.filed.tidy g.units.size
  have hf : f = { g with drafts } := by
    rw [show f = p.settle from finalize_discovered calls, settle_eq_imported, hsettle]
  rw [hf]
  refine ⟨⟨drafts, rfl, hblocks.holes, fun u draft hlibrary himports => ?_⟩, fun u => ⟨?_, ?_⟩,
    fun n x place desk pieces h hx => ?_, fun h cursor type style hin htask => ?_⟩
  · exact hblocks.block u (lt_of_importsAt himports) draft hlibrary himports
  · have hascending := stable_ascending.steps hsettled.filed.reached fun _ => List.Pairwise.nil
    exact ascending_importsOf (hascending u)
  · intro qualified
    rw [mem_importsOf, or_comm]
  · obtain ⟨hfiled, hplace, -, habides⟩ := h.sound
    obtain ⟨hwrite, hhome⟩ := named_at_home hfiled hplace hx habides
    exact ⟨hwrite, fun u hu hunder => hhome u hu (under_of_holes hblocks.holes hunder)⟩
  · have hgrowing : p.Growing False 0 := growing_discovered fun c _ =>
      Call.spelled_of_all (fun _ h => h.elim) c
    have hran : (⟨cursor, .typeName type style⟩ : Pending) ∈ p.finalized.handed h := by
      rw [handed_of_inText hgrowing hin htask]
      exact List.mem_singleton_self _
    obtain ⟨run, hrun, hpending⟩ := List.mem_map.1 hran
    have hoccasion : Occasion calls 0 _ _ _ := .task (List.mem_filter.1 hrun).1
    rw [hpending] at hoccasion
    exact ⟨run.program, hoccasion⟩

end Program

end GoToJava
