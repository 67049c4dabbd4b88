import GoToJava.Proofs.Program.Errands
import GoToJava.Proofs.Program.Level

/-!
Discovery keeps a program sound and its texts closed, as far as they can be: after each file, and
also after a file that is refused.
-/

namespace GoToJava

open Go (Expr Decl File ImportSpec Spec isExported title)
open Emit CompilationUnit

variable {tidy : Prop} {path : String}

/-! ## Names of files -/

theorem plain_lastSegment (h : Plain tidy path) : Plain tidy (lastSegment path) := by
  apply plain_ofList h
  intro c hc
  rw [List.mem_reverse] at hc
  have hrev := (List.takeWhile_sublist _).subset hc
  rwa [List.mem_reverse] at hrev

theorem mem_of_mem_trimStart {cs : List Char} {c : Char} (h : c ∈ trimStart cs) : c ∈ cs := by
  fun_induction trimStart cs with
  | case1 rest ih => exact List.mem_cons_of_mem _ (List.mem_cons_of_mem _ (ih h))
  | case2 cs => exact (List.dropWhile_sublist _).subset h

theorem plain_parentDir (h : Plain tidy path) : Plain tidy (parentDir path) := by
  unfold parentDir
  split
  · rename_i first dir hdir
    apply plain_ofList h
    intro c hc
    rw [List.mem_reverse] at hc
    have hmem : c ∈ (trimStart path.toList).reverse.dropWhile (· ≠ '/') := by
      rw [hdir]
      exact List.mem_cons_of_mem _ hc
    have hrev := (List.dropWhile_sublist _).subset hmem
    rw [List.mem_reverse] at hrev
    exact mem_of_mem_trimStart hrev
  · exact plain_of_chars (by decide)

theorem plain_slashed (h : Plain tidy path) : Plain tidy (slashed path) := by
  apply plain_map h
  intro c hc
  split
  · rfl
  · exact hc

/-- All names and literals of a file that may be written have a property. -/
structure Go.File.Spelled (P : String → Prop) (f : File) : Prop where
  package : P f.package
  imports : ∀ i ∈ f.imports, P i.path
  decls : ∀ d ∈ f.decls, d.Spelled P

/-- The files of libraries are spelled, as far as they can be read. -/
def Libraries.Spelled (P : String → Prop) (libraries : Libraries) : Prop :=
  ∀ path, ∀ source ∈ libraries path, ∀ file, Go.read source.text = .ok file → file.Spelled P

theorem Go.File.spelled_of_all {P : String → Prop} (hP : ∀ s, P s) (f : File) : f.Spelled P :=
  ⟨hP _, fun _ _ => hP _, fun d _ => Go.Decl.spelled_of_all hP d⟩

/-! ## Symbols of libraries -/

theorem foldl_of_step {σ α : Type} {R : σ → σ → Prop} {f : σ → α → σ} {xs : List α}
    (hrefl : ∀ s, R s s) (htrans : ∀ r s t, R r s → R s t → R r t)
    (h : ∀ x ∈ xs, ∀ s, R s (f s x)) (s : σ) : R s (xs.foldl f s) :=
  List.foldlRecOn xs f (hrefl s) fun t ht x hx => htrans _ _ _ ht (h x hx t)

/-- A table keeps its values, and what is added has the property. -/
def Table.Learns {α : Type} (P : α → Prop) (t t' : Table α) : Prop :=
  t.Kept t' ∧ (t.All P → t'.All P)

namespace Table

variable {α : Type} {P : α → Prop}

theorem learns_refl (t : Table α) : t.Learns P t := ⟨kept_refl t, id⟩

theorem learns_trans {r s t : Table α} (h : r.Learns P s) (h' : s.Learns P t) : r.Learns P t :=
  ⟨fun name v hv => h'.1 name v (h.1 name v hv), h'.2 ∘ h.2⟩

theorem learns_add {v : α} (t : Table α) (name : String) (hv : P v) : t.Learns P (t.add name v) :=
  ⟨kept_add t name v, fun ht => all_add ht hv⟩

end Table

namespace Symbols

structure Learns (P : Expr → Prop) (s t : Symbols) : Prop where
  funcs : s.funcs.Learns P t.funcs
  vars : s.vars.Learns P t.vars
  values : s.values.Learns P t.values

variable {P : Expr → Prop}

theorem learns_refl (s : Symbols) : s.Learns P s :=
  ⟨Table.learns_refl _, Table.learns_refl _, Table.learns_refl _⟩

theorem learns_trans {s t u : Symbols} (h : s.Learns P t) (h' : t.Learns P u) : s.Learns P u :=
  ⟨Table.learns_trans h.funcs h'.funcs, Table.learns_trans h.vars h'.vars,
    Table.learns_trans h.values h'.values⟩

theorem learns_addSpec {P : String → Prop} {spec : Spec} (h : spec.Spelled P) (s : Symbols) :
    s.Learns (Expr.Spelled P) (s.addSpec spec) := by
  cases spec with
  | type name type isAlias => exact learns_refl s
  | value names type values =>
    obtain ⟨_, htype, hvalues⟩ := h
    refine foldl_of_step learns_refl (fun _ _ _ => learns_trans) ?_ s
    rintro ⟨name, position⟩ _ t
    dsimp only
    split
    · exact { learns_refl t with vars := Table.learns_add _ _ htype }
    · rename_i value hvalue
      have hspelled := Go.Expr.spelledList_iff.1 hvalues _ (List.mem_of_getElem? hvalue)
      exact { learns_refl t with values := Table.learns_add _ _ hspelled }
    · exact learns_refl t

end Symbols

namespace CompilationUnit

/-- A unit learns what a library file declares, and nothing else changes. -/
structure Learns (P : Expr → Prop) (u v : CompilationUnit) : Prop where
  symbols : u.symbols.Learns P v.symbols
  funcs : u.funcs.Learns P v.funcs
  rest : v = { u with symbols := v.symbols, funcs := v.funcs }

variable {P : Expr → Prop} {u v w : CompilationUnit}

theorem learns_refl (u : CompilationUnit) : u.Learns P u :=
  ⟨Symbols.learns_refl _, Table.learns_refl _, rfl⟩

theorem learns_trans (h : u.Learns P v) (h' : v.Learns P w) : u.Learns P w :=
  ⟨Symbols.learns_trans h.symbols h'.symbols, Table.learns_trans h.funcs h'.funcs,
    h'.rest.trans (by rw [h.rest])⟩

theorem later_of_learns (h : u.Learns P v) : u.Later v := by
  rw [h.rest]
  exact { Later.refl u with
    funcs := h.funcs.1
    symbolFuncs := h.symbols.funcs.1
    symbolVars := h.symbols.vars.1
    symbolValues := h.symbols.values.1 }

theorem known_of_learns {n : Extent} (h : u.Learns (Expr.Spelled (Plain tidy)) v)
    (hu : u.Known tidy n) : v.Known tidy n := by
  rw [h.rest]
  exact { hu with
    funcs := h.funcs.2 hu.funcs
    symbolFuncs := h.symbols.funcs.2 hu.symbolFuncs
    symbolVars := h.symbols.vars.2 hu.symbolVars
    symbolValues := h.symbols.values.2 hu.symbolValues }

theorem learns_addSymbols {P : String → Prop} {d : Decl} (h : d.Spelled P) (u : CompilationUnit) :
    u.Learns (Expr.Spelled P) (u.addSymbols d) := by
  cases d with
  | func d =>
    dsimp only [addSymbols]
    split
    · rename_i result _ _ hresult
      have hspelled := Go.Signature.spelled_firstResult h.sig result hresult
      exact ⟨{ Symbols.learns_refl u.symbols with funcs := Table.learns_add _ _ hspelled },
        Table.learns_add _ _ hspelled, rfl⟩
    · exact learns_refl u
  | gen d =>
    dsimp only [addSymbols]
    split
    · exact learns_refl u
    · refine ⟨?_, Table.learns_refl _, rfl⟩
      refine foldl_of_step Symbols.learns_refl (fun _ _ _ => Symbols.learns_trans) ?_ u.symbols
      intro spec hspec s
      exact Symbols.learns_addSpec (Go.GenDecl.spelled_specs h spec hspec) s

theorem learns_file {P : String → Prop} {file : File} (h : file.Spelled P) (u : CompilationUnit) :
    u.Learns (Expr.Spelled P) (file.decls.foldl addSymbols u) :=
  foldl_of_step learns_refl (fun _ _ _ => learns_trans)
    (fun d hd v => learns_addSymbols (h.decls d hd) v) u

end CompilationUnit

/-! ## Discovery -/

namespace Program

open Session

variable {n : Nat} {libraries : Libraries} {path : String}

/-- Units may change in what does not name or place them. -/
theorem growing_modifyUnit {p : Program} {f : CompilationUnit → CompilationUnit} (id : Nat)
    (hp : p.Growing tidy n) (hlater : ∀ u : CompilationUnit, u.Later (f u))
    (hknown : ∀ u, u.Known tidy p.extent → (f u).Known tidy p.extent) :
    (p.modifyUnit id f).Growing tidy n := by
  have hmoves : p.Moves tidy 0 [] [] (p.modifyUnit id f) :=
    moves_modifyUnit id hp.sound hlater hknown
  exact growing_of_moves hp hmoves

section

variable (hl : libraries.Spelled (Plain tidy))
include hl

theorem keeps_loadLibrary (hpath : Plain tidy path) :
    Keeps (Growing tidy n) (loadLibrary libraries path) := by
  refine gives_loadLibrary (Q := fun _ => Growing tidy n) (fun _ hp _ => hp) (fun _ => id)
    (fun _ _ _ _ _ _ => id) ?_ fun _ loaded q hq => ?_
  · intro source hsource file hfile _ _ p hp
    have hspelled := hl path source hsource file hfile
    have hlearns := learns_file hspelled
    have hunit := (growing_packageUnit true hp hpath (plain_title hspelled.package)).1
    exact growing_modifyUnit _ hunit (fun u => later_of_learns (hlearns u))
      fun u => known_of_learns (hlearns u)
  · have hmoves : q.Moves tidy 0 [] [] { q with libraries := q.libraries.set path loaded } :=
      moves_of_holds hq.sound rfl rfl rfl rfl (Nat.le_refl _) { hq.sound.holds with }
    exact growing_of_moves hq hmoves

theorem keeps_addImport (unit : Nat) {i : ImportSpec}
    (hi : Plain tidy i.path) : Keeps (Growing tidy n) (addImport libraries unit i) := by
  refine gives_addImport (fun _ hp _ => hp) (fun _ _ _ => keeps_loadLibrary hl hi) ?_
  intro name target htarget p hp
  refine growing_modifyUnit unit hp (fun u => { CompilationUnit.Later.refl u with }) fun u hu =>
    { hu with importNames := Table.all_set hu.importNames fun q hq => ?_ }
  rw [htarget q hq]
  exact plain_append (plain_append (plain_dotted hi) (plain_of_chars (by decide)))
    (plain_title (plain_lastSegment hi))

theorem keeps_fillPackage {file : File}
    (hfile : file.Spelled (Plain tidy)) (unit : Nat) :
    Keeps (Growing tidy (unit + 1)) (fillPackage libraries file unit) := by
  refine gives_bind (gives_forM fun i hi => keeps_addImport hl unit (hfile.imports i hi))
    fun _ => gives_modify fun p hp => ?_
  have hsits := sits_start hp.sound hp.units
  have hdecls : Balanced tidy (file.decls.forM Conversion.decl) :=
    balanced_forM fun d hd => Conversion.balanced_decl (hfile.decls d hd)
  exact growing_of_moves hp (moves_emit ⟨{ (p.unit unit).start unit with tabs := 1 }, true⟩ hp.sound
    { hsits with } (hdecls p [])).1

end

/-! ## Reachable programs -/

/-- All that may be written of a file and its libraries has a property. -/
def Call.Spelled (P : String → Prop) : Call → Prop
  | tree libraries path file => libraries.Spelled P ∧ P path ∧ file.Spelled P
  | text libraries path source =>
    libraries.Spelled P ∧ P path ∧ ∀ file, Go.read source = .ok file → file.Spelled P

theorem Call.spelled_of_all {P : String → Prop} (hP : ∀ s, P s) (call : Call) : call.Spelled P := by
  cases call with
  | tree libraries path file =>
    exact ⟨fun _ _ _ _ _ => Go.File.spelled_of_all hP _, hP _, Go.File.spelled_of_all hP _⟩
  | text libraries path source =>
    exact ⟨fun _ _ _ _ _ => Go.File.spelled_of_all hP _, hP _,
      fun _ _ => Go.File.spelled_of_all hP _⟩

theorem keeps_call {call : Call} (h : call.Spelled (Plain tidy)) (p : Program)
    (hp : p.Growing tidy 0) : (call.session.run.run p).2.Growing tidy 0 := by
  obtain ⟨hl, hpath, hread⟩ : call.libraries.Spelled (Plain tidy) ∧ Plain tidy call.path ∧
      ∀ file, call.read = .ok file → file.Spelled (Plain tidy) := by
    cases call with
    | tree libraries path file => exact ⟨h.1, h.2.1, fun _ hf => Except.ok.inj hf ▸ h.2.2⟩
    | text libraries path source => exact h
  refine run_call_keeps hp fun file hfile _ => ?_
  obtain ⟨hunit, hlt⟩ := growing_packageUnit false hp (plain_parentDir (plain_slashed hpath))
    (plain_title (hread file hfile).package)
  -- The number of the unit stays in use while its imports are read.
  exact { (keeps_fillPackage hl (hread file hfile) _).run { hunit with units := hlt } with
    units := Nat.zero_le _ }

theorem growing_imports (l : Libraries) (unit : Nat) (imports : List ImportSpec) :
    Keeps (Growing False n) (imports.forM (addImport l unit)) :=
  gives_forM fun _ _ => keeps_addImport (fun _ _ _ _ _ =>
    Go.File.spelled_of_all (fun _ h => h.elim) _)
    unit fun h => h.elim

theorem growing_call (c : Call) (p : Program) (hp : p.Growing False 0) :
    (c.session.run.run p).2.Growing False 0 :=
  keeps_call (c.spelled_of_all fun _ h => h.elim) p hp

theorem growing_discovered {calls : List Call} (h : ∀ c ∈ calls, c.Spelled (Plain tidy)) :
    (discovered calls).Growing tidy 0 :=
  List.foldlRecOn calls _ growing_empty fun p hp c hc => keeps_call (h c hc) p hp

theorem loose_discovered (calls : List Call) : (discovered calls).Growing False 0 :=
  growing_discovered fun c _ => c.spelled_of_all fun _ h => h.elim

end Program

end GoToJava
