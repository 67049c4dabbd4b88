import GoToJava.Proofs.Program.Finalization
import GoToJava.Proofs.Program.Sessions

/-!
Imports. A type is imported from the package that started its unit last, whichever package it is
named in.
-/

namespace GoToJava

open Emit

/-! ## Import lines -/

namespace Program

variable {p : Program}

theorem rest_writeImports (p : Program) (id : Nat) :
    ∃ drafts refused, p.writeImports id = { p with drafts, refused } := by
  have hlines : ∀ names : List String, Jots (fun _ => True) (do
      names.forM fun name => println ("import " ++ name ++ ";")
      unless names.isEmpty do println "") := by
    intro names
    refine .bind (jots_forM fun _ => jots_println _) fun _ => ?_
    split
    · exact .pure ()
    · exact jots_println _
  unfold writeImports
  dsimp only
  split
  · exact (hlines _).onlyWrites _ ⟨p, true⟩
  · exact ⟨_, _, rfl⟩

/-- A program with all that was put off, before its imports are written. -/
def filled (p : Program) : Program :=
  (List.range p.released.units.size).foldl fillUnit p.released

/-- The program after the imports of the first units are written. -/
def imported (p : Program) (count : Nat) : Program :=
  (List.range count).foldl writeImports p.filled

theorem settle_eq_imported (p : Program) : p.settle = p.imported p.filled.units.size := rfl

theorem imported_succ (p : Program) (count : Nat) :
    p.imported (count + 1) = (p.imported count).writeImports count := by
  unfold imported
  rw [List.range_succ, List.foldl_append]
  rfl

theorem rest_imported (p : Program) (count : Nat) :
    ∃ drafts refused, p.imported count = { p.filled with drafts, refused } := by
  induction count with
  | zero => exact ⟨_, _, rfl⟩
  | succ count ih =>
    obtain ⟨drafts, refused, h⟩ := ih
    obtain ⟨drafts', refused', h'⟩ := rest_writeImports (p.imported count) count
    refine ⟨drafts', refused', ?_⟩
    rw [imported_succ, h', h]

theorem importsOf_imported (p : Program) (count u : Nat) :
    (p.imported count).importsOf ((p.imported count).unit u) =
      p.settle.importsOf (p.settle.unit u) := by
  have htables : ∀ n, (p.imported n).importsOf ((p.imported n).unit u) =
      p.filled.importsOf (p.filled.unit u) := by
    intro n
    obtain ⟨drafts, refused, h⟩ := rest_imported p n
    rw [h]
    rfl
  rw [settle_eq_imported, htables, htables]

/-! ## Imported classes -/

theorem mem_importsOf {unit : CompilationUnit} {qualified : String} : qualified ∈ p.importsOf unit ↔
      ((∃ type ∈ unit.referenced.names, ∃ v, p.typeUnits.get? type = some v ∧
          (p.unit v).qualifiedName = qualified) ∨ qualified ∈ unit.imports.names) ∧
        ∃ package, packageOf? qualified = some package ∧ package ≠ unit.javaPackage := by
  unfold importsOf
  rw [List.mem_filter, mem_foldl_insert, List.mem_filterMap]
  cases packageOf? qualified with
  | none => simp
  | some package => simp

/-- The name is that of the class `cls` of another package than the unit's. -/
def IsForeign (unit : CompilationUnit) (cls qualified : String) : Prop :=
  ∃ package, packageOf? qualified = some package ∧ package ≠ unit.javaPackage ∧
    qualified = package ++ "." ++ cls

theorem exists_foreign_import (hp : p.Directed) (unit : CompilationUnit) (cls : String) :
    (∃ qualified ∈ p.importsOf unit, IsForeign unit cls qualified) ↔
      (∃ type ∈ unit.referenced.names, ∃ v, p.Latest type v ∧
        IsForeign unit cls (p.unit v).qualifiedName) ∨
      ∃ qualified ∈ unit.imports.names, IsForeign unit cls qualified := by
  refine ⟨?_, ?_⟩
  · rintro ⟨qualified, hmem, hforeign⟩
    rcases (mem_importsOf.1 hmem).1 with ⟨type, htype, v, hv, rfl⟩ | himport
    · exact Or.inl ⟨type, htype, v, (hp type v).1 hv, hforeign⟩
    · exact Or.inr ⟨qualified, himport, hforeign⟩
  · rintro (⟨type, htype, v, hv, hforeign⟩ | ⟨qualified, himport, hforeign⟩)
    · obtain ⟨package, hpackage, hne, -⟩ := id hforeign
      refine ⟨_, mem_importsOf.2 ⟨Or.inl ⟨type, htype, v, (hp type v).2 hv, rfl⟩, ?_⟩, hforeign⟩
      exact ⟨package, hpackage, hne⟩
    · obtain ⟨package, hpackage, hne, -⟩ := id hforeign
      exact ⟨qualified, mem_importsOf.2 ⟨Or.inr himport, package, hpackage, hne⟩, hforeign⟩

/-- Whatever files are discovered, when a program is made final the import lines of a unit are those
of `importsOf` in the final program. There is one for a class `cls` of another package if and only
if the unit names a type whose unit, the last one that was started for a type of this name, has the
class, or if the class was imported by its full name: because conversion needs it by itself, or
because a file of the unit's package imports its package. Which package declares the type that the
unit means is never asked. -/
theorem types_are_imported_from_the_latest_package (calls : List Call) (u : Nat) (cls : String) :
    let f := (discovered calls).settle
    let unit := f.unit u
    (∀ count, ((discovered calls).imported count).importsOf
        (((discovered calls).imported count).unit u) = f.importsOf unit) ∧
      ((∃ qualified ∈ f.importsOf unit, IsForeign unit cls qualified) ↔
        (∃ type ∈ unit.referenced.names, ∃ v, f.Latest type v ∧
          IsForeign unit cls (f.unit v).qualifiedName) ∨
        ∃ qualified ∈ unit.imports.names, IsForeign unit cls qualified) ∧
      ∀ qualified ∈ unit.imports.names,
        (∃ i ∈ Java.Import.all, qualified = i.qualified) ∨
          Imported calls (f.unit unit.packageUnit).key qualified := by
  intro f unit
  have hregular : f.Regular (Imported calls) := regular_settle (regular_discovered calls)
  refine ⟨fun count => importsOf_imported _ count u, exists_foreign_import hregular.directed _ _,
    fun qualified hq => ?_⟩
  by_cases hu : u < f.units.size
  · exact hregular.sourced.imports u hu qualified hq
  · -- A unit that does not exist imports nothing.
    have hdefault : unit = default := getD_of_size_le _ _ _ (Nat.le_of_not_lt hu)
    rw [hdefault] at hq
    cases hq

/-- Two packages, each with a type of the same name. The first one has a function that takes its
own. -/
def rivals : List Call :=
  let stall : Go.Decl := .gen (.mk .type false [.type "Stall" (.structType []) false])
  let visit : Go.Decl := .func {
    receiver := none
    name := "Visit"
    sig := .mk [.mk ["s"] (.ident "Stall")] []
    body := some [] }
  [.tree (fun _ => []) "north/shop.go" ⟨"north", [], [stall, visit]⟩,
    .tree (fun _ => []) "south/shop.go" ⟨"south", [], [stall]⟩]

/-- The function takes the other package's type in Java. -/
theorem rivals_are_mixed_up :
    let f := (discovered rivals).settle
    (f.unit 0).dir = "north" ∧ (f.unit 1).qualifiedName = "north.Stall" ∧
      f.importsOf (f.unit 0) = ["south.Stall"] ∧
      ∃ type ∈ (f.unit 0).referenced.names, ∃ v, f.Latest type v ∧
        IsForeign (f.unit 0) "Stall" (f.unit v).qualifiedName := by
  have hdir : ((discovered rivals).settle.unit 0).dir = "north" := by decide +kernel
  have hname : ((discovered rivals).settle.unit 1).qualifiedName = "north.Stall" := by
    decide +kernel
  have himports : (discovered rivals).settle.importsOf ((discovered rivals).settle.unit 0) =
      ["south.Stall"] := by decide +kernel
  have hown : ((discovered rivals).settle.unit 0).imports.names = [] := by decide +kernel
  have h := (types_are_imported_from_the_latest_package rivals 0 "Stall").2.1.1
  generalize (discovered rivals).settle = f at hdir hname himports hown h ⊢
  have hpackage : (f.unit 0).javaPackage = "north" := by
    unfold CompilationUnit.javaPackage
    rw [hdir]
    decide +kernel
  have hforeign : IsForeign (f.unit 0) "Stall" "south.Stall" := by
    refine ⟨"south", by decide +kernel, ?_, by decide +kernel⟩
    rw [hpackage]
    decide
  refine ⟨hdir, hname, himports, ?_⟩
  refine (h ⟨"south.Stall", by rw [himports]; exact List.mem_cons_self, hforeign⟩).resolve_right ?_
  rintro ⟨qualified, hq, -⟩
  rw [hown] at hq
  cases hq

end Program

end GoToJava
