import GoToJava.Proofs.Homes.Tidy
import GoToJava.Proofs.Program.Imports

/-!
Import blocks. When a program is made final, the imports of its units are written where they were
left out, a line for each class in ascending order, and nothing else changes.
-/

namespace GoToJava

open Emit

/-! ## Ascending names -/

namespace NameSet

/-- Every name stands before the greater ones, and only once. -/
def Ascending (s : NameSet) : Prop := s.names.Pairwise (· < ·)

theorem ascending_insert {s : NameSet} (name : String) (h : s.Ascending) :
    (s.insert name).Ascending := by
  have hplace : ∀ names : List String, names.Pairwise (· < ·) →
      (place name names).Pairwise (· < ·) := by
    intro names h
    induction names with
    | nil => exact List.pairwise_singleton _ _
    | cons n names ih =>
      obtain ⟨hn, hnames⟩ := List.pairwise_cons.1 h
      unfold place
      split
      · rename_i hlt
        refine List.pairwise_cons.2 ⟨fun m hm => ?_, h⟩
        rcases List.mem_cons.1 hm with rfl | hm
        · exact hlt
        · exact String.lt_trans hlt (hn m hm)
      · split
        · exact h
        · rename_i hle hne
          refine List.pairwise_cons.2 ⟨fun m hm => ?_, ih hnames⟩
          rcases mem_place.1 hm with rfl | hm
          · exact String.not_le.1 fun hge => hne (String.le_antisymm hge (String.not_lt.1 hle))
          · exact hn m hm
  exact hplace _ h

theorem ascending_foldl_insert (names : List String) {s : NameSet} (h : s.Ascending) :
    (names.foldl insert s).Ascending :=
  List.foldlRecOn names insert h fun _ hs name _ => ascending_insert name hs

end NameSet

namespace Program

variable {p q : Program} {own : String → String → Prop} {u : Nat}

/-- What a unit imports and what it names only grows, whatever else changes. -/
theorem unit_of_step {P : CompilationUnit → Prop} (h : Step own p q)
    (himport : ∀ x name, P x → P { x with imports := x.imports.insert name })
    (hrefer : ∀ x name, P x → P { x with referenced := x.referenced.insert name })
    (hrest : ∀ x y, y.imports = x.imports → y.referenced = x.referenced → P x → P y)
    (hp : P (p.unit u)) : P (q.unit u) := by
  have hmodify : ∀ {id f}, (∀ x, P x → P (f x)) → P ((p.modifyUnit id f).unit u) :=
    fun hf => unit_modifyUnit_of hp hf
  have hsame : ∀ {id f}, (∀ x, (f x).imports = x.imports ∧ (f x).referenced = x.referenced) →
      P ((p.modifyUnit id f).unit u) :=
    fun hf => hmodify fun x => hrest x _ (hf x).1 (hf x).2
  have hnew : ∀ dir name library package, P ((p.newUnit dir name library package).unit u) := by
    intro dir name library package
    rw [unit_newUnit]
    split
    · rename_i hu
      rw [show p.unit u = default from getD_of_size_le _ _ _ (Nat.le_of_eq hu.symm)] at hp
      exact hrest default _ rfl rfl hp
    · exact hp
  cases h with
  | write draft text =>
    rw [write_eq]
    exact hp
  | note cursor hn =>
    rename_i n
    cases n with
    | need i => exact hmodify fun x => himport x _
    | refer name => exact hmodify fun x => hrefer x _
    | package name =>
      dsimp only [Note.make]
      split
      · exact hmodify fun x => himport x _
      · exact hp
    | func _ _ | varType _ _ | varValue _ _ => exact hsame fun _ => ⟨rfl, rfl⟩
    | _ => exact hp
  | newPackage dir name library _ => exact hnew dir name library none
  | newType v name _ => exact hnew _ name false (some (p.unit v).packageUnit)
  | started _ _ | importName _ _ _ _ => exact hsame fun _ => ⟨rfl, rfl⟩
  | learn v file =>
    refine hsame fun x => ?_
    obtain ⟨symbols, funcs, hrest⟩ := rest_learn file x
    rw [hrest]
    exact ⟨rfl, rfl⟩
  | newDraft | reserve _ _ | resolve _ | register _ | library _ _ _ | unpark | phase _ => exact hp

/-- The imports of units are in ascending order. -/
def Ascending (p : Program) : Prop := ∀ u, (p.unit u).imports.Ascending

theorem stable_ascending : Stable own Ascending :=
  fun _ _ h hp u => unit_of_step (P := fun x => x.imports.Ascending) h
    (fun _ _ => NameSet.ascending_insert _) (fun _ _ hx => hx)
    (fun _ _ himports _ hx => himports ▸ hx)
    (hp u)

theorem Leads.referenced {name : String} (h : p.Leads q)
    (hname : name ∈ (p.unit u).referenced.names) : name ∈ (q.unit u).referenced.names := by
  induction h with
  | refl => exact hname
  | tail _ hstep ih =>
    exact unit_of_step (P := fun x => name ∈ x.referenced.names) hstep (fun _ _ hx => hx)
      (fun _ _ hx => NameSet.mem_place.2 (Or.inr hx)) (fun _ _ _ hreferenced hx => hreferenced ▸ hx)
      ih

theorem ascending_importsOf {unit : CompilationUnit} (h : unit.imports.Ascending) :
    (p.importsOf unit).Pairwise (· < ·) :=
  (NameSet.ascending_foldl_insert _ h).filter _

/-! ## The text of a block -/

/-- A line for each class, and an empty line if there are any. -/
def importBlock (names : List String) : String :=
  names.foldr (fun name rest => "import " ++ name ++ ";\n" ++ rest)
    (if names.isEmpty then "" else "\n")

variable {place : Place}

theorem run_importLine (p : Program) (name : String) (htabs : place.tabs = 0) :
    println ("import " ++ name ++ ";") place ⟨p, true⟩ =
      ((), ⟨p.write place.draft ("import " ++ name ++ ";\n"), true⟩) := by
  have htext : ("import " ++ name ++ ";").isEmpty = false := by
    rw [String.append_assoc]
    simp
  have hrun : println ("import " ++ name ++ ";") place ⟨p, true⟩ = ((), ⟨(p.write place.draft
      ("".pushn '\t' place.tabs ++ ("import " ++ name ++ ";"))).write place.draft "\n", true⟩) := by
    unfold println
    rw [htext]
    rfl
  have hnone : "".pushn '\t' 0 ++ ("import " ++ name ++ ";") = "import " ++ name ++ ";" :=
    String.empty_append
  rw [hrun, htabs, hnone, write_write, String.append_assoc]
  rfl

theorem run_importLines (place : Place) (p : Program) (names : List String)
    (htabs : place.tabs = 0) :
    (names.forM (fun name => println ("import " ++ name ++ ";")) >>= fun _ => println "" :
        Emit Unit) place ⟨p, true⟩ = ((), ⟨p.write place.draft
        (names.foldr (fun name rest => "import " ++ name ++ ";\n" ++ rest) "\n"), true⟩) := by
  induction names generalizing p with
  | nil => rfl
  | cons name names ih =>
    show (names.forM (fun name => println ("import " ++ name ++ ";")) >>= fun _ => println "" :
      Emit Unit) place (println ("import " ++ name ++ ";") place ⟨p, true⟩).2 = _
    rw [run_importLine p name htabs, ih, write_write]
    rfl

/-- The imports of a unit are written where they were left out. -/
theorem writeImports_eq {d : Nat} (hp : p.drafts.Whole) (hlibrary : (p.unit u).library = false)
    (himports : (p.unit u).importsAt = some d) (hempty : p.drafts.draft d = {})
    (hd : d < p.drafts.next) :
    ∃ drafts, p.writeImports u = { p with drafts } ∧ drafts.Whole ∧ drafts.next = p.drafts.next ∧
      drafts.holes = p.drafts.holes ∧ (∀ e, e ≠ d → drafts.draft e = p.drafts.draft e) ∧
      drafts.draft d = { text := importBlock (p.importsOf (p.unit u)) } := by
  unfold writeImports
  dsimp only
  rw [hlibrary, himports]
  cases hnames : p.importsOf (p.unit u) with
  | nil => exact ⟨p.drafts, rfl, hp, rfl, rfl, fun _ _ => rfl, hempty⟩
  | cons name names =>
    have hrun := run_importLines { (p.unit u).start u with draft := d } p
      (name :: names) rfl
    have hwrite : p.write d _ = _ := write_of_open (importBlock (name :: names)) (hp.unjoined d)
    refine ⟨_, (congrArg (·.2.program) hrun).trans hwrite, Drafts.whole_put _ _ hp,
      Drafts.next_put _ _ _, rfl, fun e he => Drafts.draft_alter_ne _ _ he, ?_⟩
    unfold Drafts.put
    rw [Drafts.draft_alter_self _ _ _ hd, hempty]
    exact congrArg (fun text => ({ text } : Draft)) String.empty_append

theorem lt_of_importsAt {d : Nat} (h : (p.unit u).importsAt = some d) : u < p.units.size := by
  by_contra hge
  rw [show p.unit u = default from getD_of_size_le _ _ _ (Nat.le_of_not_lt hge)] at h
  cases h

/-- The imports of the first units are written, and nothing else. -/
structure Blocks (f : Program) (count : Nat) (drafts : Drafts Pending) : Prop where
  whole : drafts.Whole
  next : drafts.next = f.drafts.next
  holes : drafts.holes = f.drafts.holes
  still : ∀ d, (∀ u < count, (f.unit u).importsAt ≠ some d) → drafts.draft d = f.drafts.draft d
  block : ∀ u < count, ∀ d, (f.unit u).library = false → (f.unit u).importsAt = some d →
    drafts.draft d = { text := importBlock (f.importsOf (f.unit u)) }

section

variable {f : Program} {count : Nat} {drafts : Drafts Pending}

theorem Blocks.skip (h : f.Blocks count drafts)
    (hnone : ∀ d, (f.unit count).library = false → (f.unit count).importsAt ≠ some d) :
    f.Blocks (count + 1) drafts where
  whole := h.whole
  next := h.next
  holes := h.holes
  still d hd := h.still d fun u hu => hd u (Nat.lt_succ_of_lt hu)
  block u hu d hlibrary himports := by
    rcases Nat.lt_succ_iff_lt_or_eq.1 hu with hlt | rfl
    · exact h.block u hlt d hlibrary himports
    · exact absurd himports (hnone d hlibrary)

/-- One more block. No other unit has its imports there, and nothing was written there before. -/
theorem Blocks.write {d : Nat} {refused : Option DraftError} (hf : f.Tidy)
    (h : f.Blocks count drafts) (hlibrary : (f.unit count).library = false)
    (himports : (f.unit count).importsAt = some d) :
    ∃ drafts', writeImports { f with drafts, refused } count =
      { f with drafts := drafts', refused } ∧ f.Blocks (count + 1) drafts' := by
  have haside : f.AsideFor (.imports count) d := ⟨lt_of_importsAt himports, himports⟩
  have hother : ∀ u < count, (f.unit u).importsAt ≠ some d := by
    intro u hu hsame
    cases hf.one (.imports u) (.imports count) d ⟨lt_of_importsAt hsame, hsame⟩ haside
    exact Nat.lt_irrefl _ hu
  have hempty : drafts.draft d = {} :=
    (h.still d hother).trans (hf.fits (.imports count) d haside).2
  have hknown : d < drafts.next := by
    rw [h.next]
    exact hf.known d ⟨_, haside⟩
  obtain ⟨drafts', hwrite, hwhole, hnext, hholes, hstill, hblock⟩ :=
    writeImports_eq (p := { f with drafts, refused }) h.whole hlibrary himports hempty hknown
  refine ⟨drafts', hwrite, hwhole, hnext.trans h.next, hholes.trans h.holes, fun e he => ?_,
    fun u hu e hlibrary' himports' => ?_⟩
  · have hne : e ≠ d := by
      rintro rfl
      exact he count (Nat.lt_succ_self _) himports
    exact (hstill e hne).trans (h.still e fun u hu => he u (Nat.lt_succ_of_lt hu))
  · rcases Nat.lt_succ_iff_lt_or_eq.1 hu with hlt | rfl
    · have hne : e ≠ d := by
        rintro rfl
        exact hother u hlt himports'
      exact (hstill e hne).trans (h.block u hlt e hlibrary' himports')
    · cases himports.symm.trans himports'
      exact hblock

end

/-- To write the imports of the first units is to write their blocks. -/
theorem blocks_imported (hp : p.filled.Tidy) (count : Nat) :
    ∃ drafts, p.imported count = { p.filled with drafts } ∧ p.filled.Blocks count drafts := by
  induction count with
  | zero => exact ⟨_, rfl, hp.whole, rfl, rfl, fun _ _ => rfl, nofun⟩
  | succ count ih =>
    obtain ⟨drafts, himported, h⟩ := ih
    rw [imported_succ, himported]
    by_cases hnone : ∃ d, (p.filled.unit count).library = false ∧
        (p.filled.unit count).importsAt = some d
    · obtain ⟨d, hlibrary, himports⟩ := hnone
      exact h.write hp hlibrary himports
    · refine ⟨drafts, ?_, h.skip fun d hlibrary himports => hnone ⟨d, hlibrary, himports⟩⟩
      unfold writeImports
      dsimp only
      split
      · rename_i d hlibrary himports
        exact absurd ⟨d, hlibrary, himports⟩ hnone
      · rfl

end Program

end GoToJava
