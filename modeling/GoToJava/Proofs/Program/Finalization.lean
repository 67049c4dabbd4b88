import GoToJava.Proofs.Program.Ledger

/-!
Finalization. Every task that waits in the text of a unit is run once, after all those inside its
own hole, and no new task comes up meanwhile.
-/

namespace GoToJava

open Emit Drafts

variable {tidy : Prop}

/-! ## Imports -/

theorem plain_qualifiedName {n : Extent} {u : CompilationUnit} (hu : u.Known tidy n) :
    Plain tidy u.qualifiedName := by
  unfold CompilationUnit.qualifiedName
  split
  · exact hu.name
  · exact plain_append (plain_append (plain_dotted hu.dir) (plain_of_chars (by decide))) hu.name

namespace Program

variable {p : Program} {d n h : Nat} {a : List Char} {name : String}

theorem mem_foldl_insert (names : List String) (set : NameSet) :
    name ∈ (names.foldl NameSet.insert set).names ↔ name ∈ names ∨ name ∈ set.names := by
  induction names generalizing set with
  | nil => simp
  | cons n names ih =>
    have hinsert : name ∈ (set.insert n).names ↔ name = n ∨ name ∈ set.names := NameSet.mem_place
    rw [List.foldl_cons, ih, hinsert, List.mem_cons, or_assoc, or_left_comm]

theorem plain_importsOf {n : Extent} {unit : CompilationUnit} (hp : p.Sound tidy)
    (hu : unit.Known tidy n) (h : name ∈ p.importsOf unit) : Plain tidy name := by
  rcases (mem_foldl_insert _ _).1 (List.mem_of_mem_filter h) with h | h
  · obtain ⟨other, _, hother⟩ := List.mem_filterMap.1 h
    obtain ⟨id, hid, rfl⟩ := Option.map_eq_some_iff.1 hother
    exact plain_qualifiedName (hp.holds.units id (hp.holds.typeUnits other id hid))
  · exact hu.imports name h

theorem moves_writeImports {id : Nat} (hp : p.Sound tidy) (hid : id < p.units.size) :
    p.Moves tidy d a a (p.writeImports id) := by
  have hknown := hp.holds.units id hid
  unfold writeImports
  dsimp only
  split
  · rename_i draft _ hdraft
    have hline : ∀ name ∈ p.importsOf (p.unit id), Plain tidy ("import " ++ name ++ ";") := by
      intro name hname
      exact plain_append (plain_append (plain_of_chars (by decide))
        (plain_importsOf hp hknown hname)) (plain_of_chars (by decide))
    have htext : Balanced tidy (do
        (p.importsOf (p.unit id)).forM fun name => println ("import " ++ name ++ ";")
        unless (p.importsOf (p.unit id)).isEmpty do println "") := by
      refine balanced_seq (balanced_forM fun name hname => balanced_println (hline name hname)) ?_
      split
      · exact balanced_pure ()
      · exact balanced_println (plain_of_chars (by decide))
    have hsits : Place.Sits tidy p.extent { (p.unit id).start id with draft } :=
      { sits_start hp hid with draft := hknown.importsAt draft hdraft }
    exact (moves_emit ⟨_, true⟩ hp hsits (htext p [])).1.anywhere a
  · exact .refl hp

/-! ## Methods without a class -/

theorem moves_release {methods : List ParkedMethod} (hp : p.Sound tidy)
    (hm : ∀ m ∈ methods, m.Known tidy p.extent) : p.Moves tidy d a a
      (methods.foldl (fun p m => (p.emit m.cursor (Conversion.staticMethod m.decl)).2) p) := by
  induction methods generalizing p with
  | nil => exact .refl hp
  | cons m methods ih =>
    have hfirst := hm m List.mem_cons_self
    have hmoves := (moves_emit m.cursor hp hfirst.cursor
      (Conversion.balanced_staticMethod hfirst.decl p [])).1
    refine (hmoves.anywhere a).trans (ih hmoves.sound fun x hx => ?_)
    exact (hm x (List.mem_cons_of_mem _ hx)).mono hmoves.ext.extent

theorem moves_releaseAll (hp : p.Sound tidy) : p.Moves tidy d a a p.releaseAll := by
  have hparked : ∀ m ∈ ([] : List ParkedMethod), m.Known tidy p.extent := by
    intro m hm
    cases hm
  have hfirst : p.Moves tidy d a a { p with parked := [] } :=
    moves_of_holds hp rfl rfl rfl rfl (Nat.le_refl _) { hp.holds with parked := hparked }
  exact hfirst.trans (moves_release hfirst.sound hp.holds.parked)

theorem serves_released (hp : p.Growing tidy n) :
    Ledger.Serves tidy p.released ⟨p.released, []⟩ := by
  have hmoves : p.Moves tidy 0 [] [] p.releaseAll := moves_releaseAll hp.sound
  have hgrowing := growing_of_moves hp hmoves
  refine ⟨⟨⟨hgrowing.sound.planted.whole, hgrowing.sound.planted.rootFree,
    hgrowing.sound.planted.rootOwn⟩, { hgrowing.sound.holds with }⟩,
    ⟨hgrowing.level.opened, hgrowing.level.closed⟩, rfl, Nat.le_refl _, fun _ _ => .refl _, ?_,
    drains_refl _, ?_, fun _ => rfl, ?_⟩
  · intro u hle hlt
    exact absurd hle (Nat.not_le_of_lt hlt)
  · intro h hh
    have hopen : (p.released.drafts.hole h).resolved = false := hgrowing.unresolved h
    rw [hopen] at hh
    cases hh
  · intro run hrun
    cases hrun

/-! ## All units -/

variable {r : Program} {s : Ledger}

theorem serves_fillUnit {u : Nat} (hr : r.drafts.Whole) (hs : s.Serves tidy r)
    (hu : u < r.units.size) :
    (s.fillUnit u).Serves tidy r ∧ s.program.drafts.Drains (s.fillUnit u).program.drafts ∧
      ((r.unit u).library = false → (s.fillUnit u).program.drafts.Idle (r.unit u).root) := by
  have hunit := hs.unit u hu
  unfold Ledger.fillUnit
  dsimp only
  rw [hunit.library, hunit.root]
  split
  · rename_i hlibrary
    refine ⟨hs, drains_refl _, fun h => ?_⟩
    rw [h] at hlibrary
    cases hlibrary
  · rw [← Array.foldl_toList]
    obtain ⟨hs', hdrains, hdone⟩ := Ledger.fills_foldl
      (Ledger.fills_fill hr s.program.drafts.next)
      (s.program.drafts.draft (r.unit u).root).holes.toList s hs (by
        intro k hk
        have hnext := hs.drains.next
        exact ⟨(hs.whole.forest.listed _ k hk).1, by omega⟩)
    exact ⟨hs', hdrains, fun _ => idle_of_done hdrains hs.whole hs'.whole hdone⟩

theorem serves_fillUnits (hr : r.drafts.Whole) (hs : s.Serves tidy r) (n : Nat)
    (hn : n ≤ r.units.size) : ((List.range n).foldl Ledger.fillUnit s).Serves tidy r ∧
      ∀ u < n, (r.unit u).library = false →
        ((List.range n).foldl Ledger.fillUnit s).program.drafts.Idle (r.unit u).root := by
  induction n with
  | zero => exact ⟨hs, fun u hu => absurd hu (Nat.not_lt_zero u)⟩
  | succ n ih =>
    obtain ⟨hserves, hidle⟩ := ih (Nat.le_of_succ_le hn)
    rw [List.range_succ, List.foldl_append]
    obtain ⟨hnext, hdrains, hlast⟩ := serves_fillUnit hr hserves hn
    refine ⟨hnext, fun u hu hlibrary => ?_⟩
    rcases Nat.lt_succ_iff_lt_or_eq.1 hu with hlt | rfl
    · exact idle_drains hdrains hserves.whole hnext.whole (hidle u hlt hlibrary)
    · exact hlast hlibrary

theorem serves_writeImports (hs : s.Serves tidy r) (ids : List Nat)
    (hids : ∀ id ∈ ids, id < s.program.units.size) :
    Ledger.Serves tidy r ⟨ids.foldl writeImports s.program, s.runs⟩ ∧
      s.program.drafts.Drains (ids.foldl writeImports s.program).drafts := by
  have hmoves : ∀ (ids : List Nat) (q : Program), q.Sound tidy →
      (∀ id ∈ ids, id < q.units.size) → q.Moves tidy 0 [] [] (ids.foldl writeImports q) := by
    intro ids
    induction ids with
    | nil => exact fun q hq _ => .refl hq
    | cons id ids ih =>
      intro q hq hids
      have hfirst : q.Moves tidy 0 [] [] (q.writeImports id) :=
        moves_writeImports hq (hids id List.mem_cons_self)
      refine hfirst.trans (ih _ hfirst.sound fun k hk => ?_)
      exact Nat.lt_of_lt_of_le (hids k (List.mem_cons_of_mem _ hk)) hfirst.ext.extent.units
  exact Ledger.serves_of_moves hs (hmoves ids s.program hs.sound hids)

/-! ## The whole of finalization -/

/-- The hole is in the text of a unit that will be written. -/
def InText (p : Program) (h : Nat) : Prop :=
  ∃ u < p.units.size, (p.unit u).library = false ∧ p.drafts.Below (p.unit u).root h

/-- A final program has run all tasks in the texts of its units. -/
theorem serves_finalized (hp : p.Growing tidy n) : p.finalized.Serves tidy p.released ∧
      ∀ h, p.finalized.program.InText h → (p.finalized.program.drafts.hole h).task = none := by
  have hstart := serves_released hp
  obtain ⟨hserves, hidle⟩ :=
    serves_fillUnits hstart.whole hstart p.released.units.size (Nat.le_refl _)
  unfold finalized
  rw [hp.phase]
  generalize (List.range p.released.units.size).foldl Ledger.fillUnit ⟨p.released, []⟩ = s
    at hserves hidle ⊢
  obtain ⟨hfinal, hdrains⟩ := serves_writeImports hserves (List.range s.program.units.size)
    fun id hid => List.mem_range.1 hid
  refine ⟨hfinal, ?_⟩
  rintro h ⟨u, hu, hlibrary, hbelow⟩
  by_cases hold : u < p.released.units.size
  · have hunit := hfinal.unit u hold
    rw [hunit.library] at hlibrary
    rw [hunit.root] at hbelow
    exact idle_drains hdrains hserves.whole hfinal.whole (hidle u hold hlibrary) h hbelow
  · -- The text of a unit that came with a task has no holes of before.
    have hroot := hfinal.fresh u (Nat.le_of_not_lt hold) hu
    exact idle_of_new hfinal.drains hstart.whole hfinal.whole hroot h hbelow

theorem inText_of_extends {q : Program} (hp : p.Sound tidy) (he : p.Extends q) (hin : p.InText h) :
    q.InText h := by
  obtain ⟨u, hu, hlibrary, hbelow⟩ := hin
  have hunit := he.unit u hu
  refine ⟨u, Nat.lt_of_lt_of_le hu he.extent.units, hunit.library.trans hlibrary, ?_⟩
  rw [hunit.root]
  exact below_grows hp.planted.whole he.drafts hbelow

theorem handed_of_inText {t : Pending} (hp : p.Growing tidy n) (hin : p.released.InText h)
    (ht : (p.released.drafts.hole h).task = some t) : p.finalized.handed h = [t] := by
  obtain ⟨hserves, hempty⟩ := serves_finalized hp
  obtain ⟨u, hu, hlibrary, hbelow⟩ := hin
  have hunit := hserves.unit u hu
  have hlater : p.finalized.program.InText h := by
    refine ⟨u, Nat.lt_of_lt_of_le hu hserves.units, hunit.library.trans hlibrary, ?_⟩
    rw [hunit.root]
    exact below_drains hserves.drains (serves_released hp).whole hserves.whole hbelow
  have haccounts := hserves.accounts h
  rw [hempty h hlater, ht] at haccounts
  rw [Option.toList_none, List.append_nil] at haccounts
  exact haccounts

theorem task_of_run {run : Run} (hp : p.Growing tidy n) (hrun : run ∈ p.finalized.runs) :
    (p.released.drafts.hole run.hole).task = some run.pending := by
  have hmem : run.pending ∈ p.finalized.handed run.hole := by
    exact List.mem_map.2 ⟨run, List.mem_filter.2 ⟨hrun, by simp⟩, rfl⟩
  have hold : run.pending ∈ (p.released.drafts.hole run.hole).task.toList := by
    rw [← (serves_finalized hp).1.accounts run.hole]
    exact List.mem_append_left _ hmem
  exact Option.mem_toList.1 hold

/-- Whatever files were discovered: when the program is made final, each task that waits in the text
of a unit is run once. A task is run when none waits inside its hole any more, and no hole gets a
task meanwhile. In the end no task is left, and to make the program final again runs nothing. The
tasks are those that waited before, and those of methods without a class, which are written
first. -/
theorem every_task_is_run_once (calls : List Call) :
    let p := discovered calls
    let r := p.released
    let s := p.finalized
    finalize.run.run p = (.ok (), s.program) ∧
      (∀ h t, p.InText h → (p.drafts.hole h).task = some t → s.handed h = [t]) ∧
      (∀ h t, r.InText h → (r.drafts.hole h).task = some t → s.handed h = [t]) ∧
      (∀ run ∈ s.runs,
        (r.drafts.hole run.hole).task = some run.pending ∧
          run.program.drafts.Idle (run.program.drafts.hole run.hole).child ∧
          run.program.phase = .finalization ∧
          (∀ h, (run.outcome.drafts.hole h).task = (run.program.drafts.hole h).task) ∧
          ∀ h t, (run.program.drafts.hole h).task = some t → (r.drafts.hole h).task = some t) ∧
      (∀ h t, (s.program.drafts.hole h).task = some t → (r.drafts.hole h).task = some t) ∧
      (∀ h, s.program.InText h → (s.program.drafts.hole h).task = none) ∧
      finalize.run.run s.program = (.ok (), s.program) ∧ s.program.finalized.runs = [] := by
  intro p r s
  have hp : p.Growing False 0 := growing_discovered fun c _ =>
    Call.spelled_of_all (fun _ h => h.elim) c
  obtain ⟨hserves, hempty⟩ := serves_finalized hp
  have hmoves : p.Moves False 0 [] [] p.releaseAll := moves_releaseAll hp.sound
  refine ⟨?_, ?_, fun h t => handed_of_inText hp, ?_, hserves.drains.task, hempty, ?_, ?_⟩
  · rw [run_finalize, hp.phase, settle_eq hp.phase]
  · intro h t hin ht
    -- Methods without a class are written first; they add holes but take none away.
    have hlt : h < p.drafts.holes.size := by
      obtain ⟨u, _, _, hbelow⟩ := hin
      exact (under_of_below hp.sound.planted.whole hbelow).1
    have hkept : p.releaseAll.InText h := inText_of_extends hp.sound hmoves.ext hin
    refine handed_of_inText hp hkept ?_
    rw [← ht, ← hmoves.ext.drafts.hole h hlt]
    rfl
  · intro run hrun
    have hfair := hserves.fair run hrun
    exact ⟨task_of_run hp hrun, hfair.innermost, hfair.phase, hfair.quiet, hfair.drains.task⟩
  · rw [run_finalize, hserves.phase]
  · unfold finalized
    rw [hserves.phase]

end Program

end GoToJava
