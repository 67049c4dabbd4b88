import GoToJava.Proofs.Deferral.Detour
import GoToJava.Proofs.Program.Steps

/-!
Actions that take a detour. Whatever is written to a draft can be written to a hole at its end: each
step does the same to all tables, as long as nothing goes to the draft around the hole meanwhile.
-/

namespace GoToJava

open Emit Program CompilationUnit

/-! ## Alike programs stay alike -/

theorem CompilationUnit.like_iff {u v : CompilationUnit} :
    u.Like v ↔ ∃ root importsAt, v = { u with root, importsAt } := by
  refine ⟨fun h => ⟨_, _, h⟩, ?_⟩
  rintro ⟨root, importsAt, rfl⟩
  rfl

theorem JavaClass.like_iff {c d : JavaClass} :
    c.Like d ↔ ∃ implementsAt functionsAt, d = { c with implementsAt, functionsAt } := by
  refine ⟨fun h => ⟨_, _, h⟩, ?_⟩
  rintro ⟨implementsAt, functionsAt, rfl⟩
  rfl

namespace Program

variable {settled : String → Prop} {a b : Program} {f : CompilationUnit → CompilationUnit}

theorem like_modifyUnit {g : CompilationUnit → CompilationUnit} (id : Nat) (h : a.Like settled b)
    (hf : ∀ u root importsAt, ∃ root' importsAt',
      g { u with root, importsAt } = { f u with root := root', importsAt := importsAt' }) :
    (a.modifyUnit id f).Like settled (b.modifyUnit id g) := by
  refine { h with units := ?_, unit := ?_ }
  · rw [size_units_modifyUnit, size_units_modifyUnit, h.units]
  · intro u
    rw [unit_modifyUnit, unit_modifyUnit, h.units]
    split
    · obtain ⟨root, importsAt, hv⟩ := like_iff.1 (h.unit u)
      rw [hv]
      exact like_iff.2 (hf _ _ _)
    · exact h.unit u

theorem like_modifyClass {f : JavaClass → JavaClass} (id : Nat) (h : a.Like settled b)
    (hf : ∀ c implementsAt functionsAt, ∃ implementsAt' functionsAt',
      f { c with implementsAt, functionsAt } =
        { f c with implementsAt := implementsAt', functionsAt := functionsAt' }) :
    (a.modifyClass id f).Like settled (b.modifyClass id f) := by
  refine { h with classes := ?_, cls := ?_ }
  · simp only [modifyClass, Array.size_modify, h.classes]
  · intro c
    rw [classAt_modifyClass, classAt_modifyClass, h.classes]
    split
    · obtain ⟨implementsAt, functionsAt, hd⟩ := JavaClass.like_iff.1 (h.cls c)
      rw [hd]
      exact JavaClass.like_iff.2 (hf _ _ _)
    · exact h.cls c

theorem like_note (n : Note) (place : Place) (draft : Nat) (owed : Bool) (h : a.Like settled b) :
    (n.make ⟨place, owed⟩ a).Like settled (n.make ⟨{ place with draft }, owed⟩ b) := by
  cases n with
  | var scope name type =>
    refine { h with scopes := ?_ }
    show b.scopes.setVar scope name type = a.scopes.setVar scope name type
    rw [h.scopes]
  | newScope parent vars =>
    refine { h with scopes := ?_ }
    show List.foldl _ (b.scopes.new (some parent)) vars =
      List.foldl _ (a.scopes.new (some parent)) _
    rw [h.scopes]
  | iota index => exact { h with iota := rfl }
  | interface name =>
    refine { h with interfaces := ?_ }
    show b.interfaces.insert name = a.interfaces.insert name
    rw [h.interfaces]
  | typeName name type =>
    refine { h with typeNames := ?_ }
    intro other hother
    show (b.typeNames.set name type).get? other = (a.typeNames.set name type).get? other
    rw [Table.get?_set, Table.get?_set, h.typeNames other hother]
  | method cls name result | conformance cls name =>
    exact like_modifyClass cls h fun _ _ _ => ⟨_, _, rfl⟩
  | need i | refer name | func name result | varType name type | varValue name value =>
    exact like_modifyUnit _ h fun _ _ _ => ⟨_, _, rfl⟩
  | package name =>
    simp only [Note.make]
    rw [h.importName place draft]
    split
    · exact like_modifyUnit _ h fun _ _ _ => ⟨_, _, rfl⟩
    · exact h
  | park cls decl =>
    refine { h with parked := ?_ }
    show (b.parked ++ [_]).map _ = (a.parked ++ [_]).map _
    rw [List.map_append, List.map_append, h.parked]
    rfl

/-- All text of the programs, and all units and classes, are at the same places. -/
structure SamePlaces (p q : Program) : Prop where
  drafts : q.drafts = p.drafts
  phase : q.phase = p.phase
  unitIndex : q.unitIndex = p.unitIndex
  units : q.units.size = p.units.size
  root : ∀ u, (q.unit u).root = (p.unit u).root
  classIndex : q.classIndex = p.classIndex
  classes : q.classes.size = p.classes.size
  implementsAt : ∀ c, (q.classAt c).implementsAt = (p.classAt c).implementsAt

theorem samePlaces_modifyUnit (p : Program) (id : Nat) (hf : ∀ u, (f u).root = u.root) :
    p.SamePlaces (p.modifyUnit id f) :=
  ⟨rfl, rfl, rfl, size_units_modifyUnit p id f,
    fun u => unit_modifyUnit_of (P := fun x => x.root = (p.unit u).root) rfl
      fun x hx => (hf x).trans hx,
    rfl, rfl, fun _ => rfl⟩

theorem samePlaces_modifyClass {f : JavaClass → JavaClass} (p : Program) (id : Nat)
    (hf : ∀ c, (f c).implementsAt = c.implementsAt) : p.SamePlaces (p.modifyClass id f) :=
  ⟨rfl, rfl, rfl, rfl, fun _ => rfl, rfl, Array.size_modify,
    fun c => classAt_modifyClass_of (P := fun x => x.implementsAt = (p.classAt c).implementsAt) rfl
      fun x hx => (hf x).trans hx⟩

theorem samePlaces_note (n : Note) (cursor : Cursor) (p : Program) :
    p.SamePlaces (n.make cursor p) := by
  cases n with
  | method cls name result | conformance cls name => exact samePlaces_modifyClass p _ fun _ => rfl
  | need i | refer name | func name result | varType name type | varValue name value =>
    exact samePlaces_modifyUnit p _ fun _ => rfl
  | package name =>
    simp only [Note.make]
    split
    · exact samePlaces_modifyUnit p _ fun _ => rfl
    · exact ⟨rfl, rfl, rfl, rfl, fun _ => rfl, rfl, rfl, fun _ => rfl⟩
  | _ => exact ⟨rfl, rfl, rfl, rfl, fun _ => rfl, rfl, rfl, fun _ => rfl⟩

end Program

/-! ## Programs -/

namespace Detour

variable {D : Detour} {rules : Go.Rules} {a b : Program} {α β : Type}
  {d' d : Drafts Pending}

/-- How two programs are looked at while text takes a detour in the second. Nothing that the rules
allow writes to the draft around the detour. -/
def outlook (D : Detour) (rules : Go.Rules) : Outlook :=
  { Outlook.sure rules fun place place' =>
      place.draft ≠ D.parent ∧ place'.draft = skip D.child place.draft with
    conforms := rules.returns }

/-- The second program is the first one but for the detour. -/
structure Detoured (D : Detour) (rules : Go.Rules) (a b : Program) : Prop where
  drafts : D.Traced a.drafts b.drafts
  like : a.Like (fun _ => True) b
  phase : a.phase = .finalization
  unit : ∀ type, rules.exported type → ∀ dir id, a.unitIndex.get? (unitKey dir type) = some id →
    id < a.units.size ∧ (a.unit id).root ≠ D.parent ∧
      (b.unit id).root = skip D.child (a.unit id).root
  cls : ∀ name id, a.classIndex.get? name = some id → id < a.classes.size ∧ (rules.returns →
    (D.outlook rules).Cursors (a.classAt id).implementsAt (b.classAt id).implementsAt)

/-- What moves nothing keeps the programs apart by the detour alone. -/
theorem detoured_of_samePlaces {a' b' : Program} (h : D.Detoured rules a b)
    (hlike : a'.Like (fun _ => True) b') (ha : a.SamePlaces a') (hb : b.SamePlaces b') :
    D.Detoured rules a' b' := by
  refine ⟨?_, hlike, ha.phase.trans h.phase, ?_, ?_⟩
  · rw [ha.drafts, hb.drafts]
    exact h.drafts
  · intro type htype dir id hid
    rw [ha.unitIndex] at hid
    rw [ha.units, ha.root, hb.root]
    exact h.unit type htype dir id hid
  · intro name id hid
    rw [ha.classIndex] at hid
    rw [ha.classes, ha.implementsAt, hb.implementsAt]
    exact h.cls name id hid

theorem detoured_drafts {r r' : Option DraftError} (h : D.Detoured rules a b)
    (hd : D.Traced d d') : D.Detoured rules { a with drafts := d, refused := r }
      { b with drafts := d', refused := r' } :=
  ⟨hd, { h.like with }, h.phase, h.unit, h.cls⟩

theorem detoured_write {i j : Nat} (text : String) (h : D.Detoured rules a b)
    (hij : D.Twin i j) : D.Detoured rules (a.write i text) (b.write j text) := by
  rw [write_eq, write_eq, h.drafts.isJoined hij]
  refine detoured_drafts h ?_
  split
  · exact h.drafts
  · exact traced_put text h.drafts hij

theorem Traced.twin_next (h : D.Traced d d') :
    d.next ≠ D.parent ∧ d'.next = skip D.child d.next := by
  have hyounger := h.younger
  have hle := h.child_le
  refine ⟨by omega, ?_⟩
  rw [h.next, skip_of_le hle]

/-! ## Actions -/

/-- The actions do the same to programs that differ by the detour, at the same place of both. -/
def Mirrors (D : Detour) (rules : Go.Rules) (R : α → α → Prop) (x y : Emit α) : Prop :=
  ∀ (place : Place) (draft : Nat) (a b : Program) (owed : Bool), D.Twin place.draft draft →
    D.Detoured rules a b →
    R (x place ⟨a, owed⟩).1 (y { place with draft } ⟨b, owed⟩).1 ∧
      D.Detoured rules (x place ⟨a, owed⟩).2.program
        (y { place with draft } ⟨b, owed⟩).2.program ∧
      (y { place with draft } ⟨b, owed⟩).2.owed = (x place ⟨a, owed⟩).2.owed

section

variable {R : α → α → Prop} {S : β → β → Prop}

theorem mirrors_pure {v w : α} (h : R v w) : D.Mirrors rules R (pure v) (pure w) :=
  fun _ _ _ _ _ _ hab => ⟨h, hab, rfl⟩

theorem mirrors_bind {x y : Emit α} {f g : α → Emit β} (hx : D.Mirrors rules R x y)
    (hf : ∀ v w, R v w → D.Mirrors rules S (f v) (g w)) :
    D.Mirrors rules S (x >>= f) (y >>= g) := by
  intro place draft a b owed hij hab
  obtain ⟨hv, hab', howed⟩ := hx place draft a b owed hij hab
  have hdesk : (y { place with draft } ⟨b, owed⟩).2 =
      ⟨(y { place with draft } ⟨b, owed⟩).2.program, (x place ⟨a, owed⟩).2.owed⟩ := by
    rw [← howed]
  have h := hf _ _ hv place draft _ _ (x place ⟨a, owed⟩).2.owed hij hab'
  rw [← hdesk] at h
  exact h

end

theorem mirrors_print (text : String) : D.Mirrors rules Eq (print text) (print text) :=
  fun _ _ _ _ _ hij hab => ⟨rfl, detoured_write _ hab hij, rfl⟩

theorem mirrors_newline : D.Mirrors rules Eq newline newline :=
  fun _ _ _ _ _ hij hab => ⟨rfl, detoured_write _ hab hij, rfl⟩

theorem mirrors_println (text : String) : D.Mirrors rules Eq (println text) (println text) := by
  have hline : D.Mirrors rules Eq newline newline := mirrors_newline
  unfold println
  split
  · exact hline
  · exact mirrors_bind (mirrors_print _) fun _ _ _ => hline

theorem mirrors_reserve (owed : Bool) :
    D.Mirrors rules (D.outlook rules).Cursors (reserve owed none) (reserve owed none) :=
  fun _ _ _ _ _ hij hab => ⟨⟨rfl, hab.drafts.twin_next⟩,
    detoured_drafts hab (traced_reserve _ _ hab.drafts hij), rfl⟩

theorem mirrors_note {n : Note} : D.Mirrors rules Eq (note n) (note n) :=
  fun place draft _ _ owed _ hab => ⟨rfl,
    detoured_of_samePlaces hab (like_note n place draft owed hab.like)
      (samePlaces_note n _ _) (samePlaces_note n _ _), rfl⟩

theorem mirrors_openScope {inner : Bool} {vars : List (String × Go.Expr)} :
    D.Mirrors rules Eq (openScope inner vars) (openScope inner vars) := by
  intro place draft a b owed hij hab
  rw [openScope_apply, openScope_apply, hab.like.scopeAround inner place draft]
  exact ⟨congrArg Scopes.next hab.like.scopes.symm, (mirrors_note place draft a b owed hij hab).2⟩

/-! ## Units of types -/

theorem mirrors_header {u v : CompilationUnit} (h : u.Like v) :
    D.Mirrors rules (D.outlook rules).Cursors (header u) (header v) := by
  obtain ⟨root, importsAt, rfl⟩ := like_iff.1 h
  have hblock : D.Mirrors rules (D.outlook rules).Cursors (reserveBlock none)
      (reserveBlock none) := mirrors_reserve true
  unfold header
  split
  · exact hblock
  · refine mirrors_bind (mirrors_println _) fun _ _ _ => ?_
    exact mirrors_bind (mirrors_println _) fun _ _ _ => hblock

theorem detoured_startUnit {id : Nat} (h : D.Detoured rules a b)
    (hid : D.Twin (a.unit id).root (b.unit id).root) :
    D.Detoured rules (a.startUnit id (pure ())) (b.startUnit id (pure ())) := by
  have hlike := h.like.unit id
  have hstart : (b.unit id).start id =
      { (a.unit id).start id with draft := (b.unit id).root } := by
    obtain ⟨root, importsAt, hv⟩ := like_iff.1 hlike
    rw [hv]
    rfl
  have hwrite : D.Mirrors rules (D.outlook rules).Cursors
      (header (a.unit id) >>= fun imports => pure () >>= fun _ => pure imports)
      (header (b.unit id) >>= fun imports => pure () >>= fun _ => pure imports) := by
    refine mirrors_bind (mirrors_header hlike) fun c d hcd => ?_
    exact mirrors_bind (mirrors_pure rfl) fun _ _ _ => mirrors_pure hcd
  obtain ⟨-, hdone, -⟩ := hwrite ((a.unit id).start id) (b.unit id).root a b true hid h
  unfold startUnit emit
  dsimp only
  rw [hstart]
  refine detoured_of_samePlaces hdone (like_modifyUnit id hdone.like ?_)
    (samePlaces_modifyUnit _ _ fun _ => rfl) (samePlaces_modifyUnit _ _ fun _ => rfl)
  exact fun _ _ _ => ⟨_, _, rfl⟩

theorem detoured_newUnit (dir name : String) (package : Nat) (h : D.Detoured rules a b) :
    D.Detoured rules (a.newUnit dir name false (some package))
      (b.newUnit dir name false (some package)) := by
  have hscope : (b.unit package).scope = (a.unit package).scope :=
    congrArg (·.scope) (h.like.unit package)
  have hindex : ∀ p : Program, (p.newUnit dir name false (some package)).unitIndex =
      p.unitIndex.set (unitKey dir name) p.units.size := fun _ => rfl
  have hlike : (a.newUnit dir name false (some package)).Like (fun _ => True)
      (b.newUnit dir name false (some package)) := by
    refine { h.like with units := ?_, unit := ?_, unitIndex := ?_ }
    · rw [size_units_newUnit, size_units_newUnit, h.like.units]
    · intro u
      rw [unit_newUnit, unit_newUnit, h.like.units]
      split
      · refine like_iff.2 ⟨b.drafts.next, none, ?_⟩
        simp only [addedUnit, Option.map_some, Option.getD_some, hscope]
      · exact h.like.unit u
    · rw [hindex, hindex, h.like.unitIndex, h.like.units]
  refine ⟨traced_new h.drafts, hlike, h.phase, ?_, h.cls⟩
  intro type htype dir' id hid
  rw [hindex, Table.get?_set] at hid
  rw [size_units_newUnit]
  split at hid
  · cases hid
    rw [unit_newUnit_last, ← h.like.units, unit_newUnit_last]
    exact ⟨Nat.lt_succ_self _, h.drafts.twin_next⟩
  · obtain ⟨hlt, hroot⟩ := h.unit type htype dir' id hid
    rw [unit_newUnit_old a _ _ _ _ hlt,
      unit_newUnit_old b _ _ _ _ (Nat.lt_of_lt_of_eq hlt h.like.units.symm)]
    exact ⟨Nat.lt_succ_of_lt hlt, hroot⟩

/-- The unit of an exported type is found or started in both programs. -/
theorem detoured_typeUnit {type : String} (place : Place) (draft : Nat)
    (h : D.Detoured rules a b) (htype : rules.exported type) :
    (D.outlook rules).Cursors (a.typeUnit place type).1
        (b.typeUnit { place with draft } type).1 ∧
      D.Detoured rules (a.typeUnit place type).2 (b.typeUnit { place with draft } type).2 := by
  have hdir : ∀ u, (b.unit u).dir = (a.unit u).dir := fun u => congrArg (·.dir) (h.like.unit u)
  -- Where a unit starts is the same but for the draft.
  have hcursor : ∀ {p q : Program} {id : Nat} (tabs : Nat), (p.unit id).Like (q.unit id) →
      (p.unit id).root ≠ D.parent ∧ (q.unit id).root = skip D.child (p.unit id).root →
      (D.outlook rules).Cursors ⟨{ (p.unit id).start id with tabs }, true⟩
        ⟨{ (q.unit id).start id with tabs }, true⟩ := by
    intro p q id tabs hlike hroot
    refine ⟨?_, hroot⟩
    obtain ⟨root, importsAt, hv⟩ := like_iff.1 hlike
    rw [hv]
    rfl
  unfold typeUnit
  dsimp only
  rw [h.like.packageUnit, hdir, h.like.unitIndex]
  split
  · rename_i id hid
    have hpackage : (b.unit id).isPackage = (a.unit id).isPackage :=
      congrArg (·.isPackage) (h.like.unit id)
    rw [hpackage]
    exact ⟨hcursor _ (h.like.unit id) (h.unit type htype _ id hid).2, h⟩
  · generalize (a.unit (a.unit place.unit).packageUnit).dir = dir
    generalize (a.unit place.unit).packageUnit = package
    have hnew := detoured_newUnit dir type package h
    have hkey : (a.newUnit dir type false (some package)).unitIndex.get? (unitKey dir type) =
        some a.units.size := by
      show (a.unitIndex.set (unitKey dir type) a.units.size).get? (unitKey dir type) = _
      rw [Table.get?_set, if_pos rfl]
    have hstarted := detoured_startUnit hnew (.inr (hnew.unit type htype dir _ hkey).2)
    obtain ⟨drafts, refused, imports, hstart⟩ :=
      (a.newUnit dir type false (some package)).startUnit_eq a.units.size (.pure ())
    have hkey : ((a.newUnit dir type false (some package)).startUnit a.units.size
        (pure ())).unitIndex.get? (unitKey dir type) = some a.units.size := by
      rw [hstart]
      exact hkey
    have hroot := (hstarted.unit type htype dir _ hkey).2
    rw [h.like.units]
    generalize (a.newUnit dir type false (some package)).startUnit a.units.size (pure ()) = p
      at hstarted hroot ⊢
    generalize (b.newUnit dir type false (some package)).startUnit a.units.size (pure ()) = q
      at hstarted hroot ⊢
    refine ⟨hcursor 0 (hstarted.like.unit _) hroot, hstarted.drafts, ?_, hstarted.phase,
      hstarted.unit, hstarted.cls⟩
    refine { hstarted.like with typeUnits := ?_ }
    rw [hstarted.like.typeUnits]

/-! ## All that conversion is made of -/

theorem detoured_register {c d : JavaClass} (h : D.Detoured rules a b)
    (hcd : (D.outlook rules).Classes c d) (place : Place) (draft : Nat) (owed : Bool) :
    D.Detoured rules (register c place ⟨a, owed⟩).2.program
      (register d { place with draft } ⟨b, owed⟩).2.program := by
  have hname : d.name = c.name := congrArg (·.name) hcd.like
  have hpush : ∀ (p : Program) (cls : JavaClass) (id : Nat),
      (register cls place ⟨p, owed⟩).2.program.classAt id =
        if id = p.classes.size then cls else p.classAt id := fun _ _ _ => getD_push _ _ _ _
  refine ⟨h.drafts, ?_, h.phase, h.unit, ?_⟩
  · refine { h.like with classes := ?_, cls := ?_, classIndex := ?_, parked := ?_ }
    · show (b.classes.push d).size = (a.classes.push c).size
      rw [Array.size_push, Array.size_push, h.like.classes]
    · intro id
      show JavaClass.Like ((register c place ⟨a, owed⟩).2.program.classAt id)
        ((register d place ⟨b, owed⟩).2.program.classAt id)
      rw [hpush, hpush, h.like.classes]
      split
      · exact hcd.like
      · exact h.like.cls id
    · show b.classIndex.set d.name b.classes.size = a.classIndex.set c.name a.classes.size
      rw [hname, h.like.classIndex, h.like.classes]
    · have hfilter : ∀ (l : List ParkedMethod) (name : String),
          (l.filter (·.cls != name)).map (·.content) =
            (l.map (·.content)).filter (·.1 != name) := fun l name =>
        (List.filter_map (p := fun x : String × Go.FuncDecl => x.1 != name)).symm
      show (b.parked.filter (·.cls != d.name)).map _ = (a.parked.filter (·.cls != c.name)).map _
      rw [hfilter, hfilter, hname, h.like.parked]
  · intro name id hid
    change (a.classIndex.set c.name a.classes.size).get? name = some id at hid
    show id < (a.classes.push c).size ∧ (rules.returns → (D.outlook rules).Cursors
      ((register c place ⟨a, owed⟩).2.program.classAt id).implementsAt
      ((register d place ⟨b, owed⟩).2.program.classAt id).implementsAt)
    rw [Table.get?_set] at hid
    rw [hpush, hpush, Array.size_push, h.like.classes]
    split at hid
    · cases hid
      rw [if_pos rfl, if_pos rfl]
      exact ⟨Nat.lt_succ_self _, fun _ => hcd.implementsAt⟩
    · obtain ⟨hlt, hcursor⟩ := h.cls name id hid
      rw [if_neg (Nat.ne_of_lt hlt), if_neg (Nat.ne_of_lt hlt)]
      exact ⟨Nat.lt_succ_of_lt hlt, hcursor⟩

/-- What is written at twin cursors stays apart by the detour alone. -/
theorem mirrors_elsewhere {x y : Emit Unit} {c d : Cursor} {place place' : Place} {owed : Bool}
    (hx : D.Mirrors rules Eq x y) (hcd : (D.outlook rules).Cursors c d)
    (h : D.Detoured rules a b) : D.Detoured rules (elsewhere c x place ⟨a, owed⟩).2.program
      (elsewhere d y place' ⟨b, owed⟩).2.program := by
  obtain ⟨hd, htwin⟩ := hcd
  rw [elsewhere_apply, elsewhere_apply, hd]
  exact (hx c.place d.place.draft a b c.owed (.inr htwin) h).2.1

/-- All parallel actions do the same to programs that differ by the detour. -/
theorem mirrors_of_parallel {K : Ken} {k l : List Char} {R : α → α → Prop} {x y : Emit α}
    (h : Parallel (D.outlook rules) K k l R x y) : D.Mirrors rules R x y := by
  induction h with
  | pure h => exact mirrors_pure h
  | bind _ _ ihx ihf => exact mirrors_bind ihx ihf
  | program _ ih =>
    intro place draft a b owed hij hab
    exact ih a b trivial trivial hab.like place draft a b owed hij hab
  | read _ ih =>
    intro place draft a b owed hij hab
    exact ih place draft (Outlook.sees_of_loose _ False.elim place) place draft a b owed hij hab
  | @within _ _ _ _ _ f _ _ _ hf _ ih =>
    intro place draft a b owed hij hab
    have hnext := ih (f place) draft a b owed (by rwa [hf.same]) hab
    rw [← hf.draft place draft] at hnext
    exact hnext
  | @print _ _ _ text _ => exact mirrors_print text
  | newline _ => exact mirrors_newline
  | owe => exact fun _ _ _ _ _ _ hab => ⟨rfl, hab, rfl⟩
  | note _ => exact mirrors_note
  | @setVar _ _ name type _ _ =>
    exact fun place => mirrors_note (n := .var place.scope name type) place
  | scope _ _ _ ih =>
    refine mirrors_bind mirrors_openScope ?_
    rintro scope _ rfl
    exact ih scope
  | inspect _ _ ih =>
    intro place draft a b owed hij hab
    have hnew : D.Detoured rules { a with drafts := a.drafts.new }
        { b with drafts := b.drafts.new } := detoured_drafts hab (traced_new hab.drafts)
    have hinner := ih (scratchCursor place a).place b.drafts.next _ _ false
      (.inr hab.drafts.twin_next) hnew
    rw [inspect_apply, inspect_apply]
    refine ⟨⟨hinner.1, ?_⟩, hinner.2.1, rfl⟩
    have htext := hinner.2.1.drafts.text_eq hab.drafts.twin_next.1
    rw [← hab.drafts.twin_next.2] at htext
    exact htext.symm
  | @defer _ _ task _ _ _ _ _ ih =>
    intro place draft a b owed hij hab
    have hnow : ∀ (p : Program) (place : Place), p.phase = .finalization →
        (p.phase != .discovery || task.direct || place.scratch) = true := by
      intro p place hp
      rw [hp]
      rfl
    rw [defer_apply, defer_apply, if_pos (hnow a place hab.phase),
      if_pos (hnow b { place with draft } (hab.like.phase.trans hab.phase))]
    exact ih (Or.inl trivial) place draft a b owed hij hab
  | reserve _ owed => exact mirrors_reserve owed
  | inMethods hm => exact hm.elim
  | @inImplements _ _ cls x y hc _ ih =>
    intro place draft a b owed hij hab
    cases hid : a.classIndex.get? cls with
    | none =>
      rw [inImplements_of_none place ⟨a, owed⟩ x hid,
        inImplements_of_none { place with draft } ⟨b, owed⟩ y (by rw [hab.like.classIndex, hid])]
      exact ⟨rfl, hab, rfl⟩
    | some id =>
      rw [inImplements_of_some place ⟨a, owed⟩ x hid,
        inImplements_of_some { place with draft } ⟨b, owed⟩ y (by rw [hab.like.classIndex, hid])]
      refine ⟨rfl, mirrors_elsewhere ih ?_ hab, rfl⟩
      obtain ⟨hcursor, htwin⟩ := (hab.cls cls id hid).2 hc
      have hunit : (b.classAt id).unit = (a.classAt id).unit :=
        congrArg (·.unit) (hab.like.cls id)
      refine ⟨?_, htwin⟩
      unfold implementsCursor
      rw [hunit, hcursor]
  | inTypeUnit _ hn _ _ ih =>
    intro place draft a b owed hij hab
    obtain ⟨hcursors, hunits⟩ := detoured_typeUnit place draft hab hn
    rw [inTypeUnit_apply, inTypeUnit_apply]
    exact ⟨rfl, mirrors_elsewhere ih hcursors hunits, rfl⟩
  | enroll _ _ hcd _ ih =>
    intro place draft a b owed hij hab
    have hrest := ih a.classes.size place draft _ _ owed hij
      (detoured_register hab hcd place draft owed)
    rw [enroll_then, enroll_then, hab.like.classes]
    exact hrest
  | struct h => exact h.elim
  | atom h => exact h.elim
  | numbered _ hc => exact absurd trivial hc

end Detour

end GoToJava
