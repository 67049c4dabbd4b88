import GoToJava.Proofs.Program.Flattening
import GoToJava.Proofs.Program.Sessions

/-!
Programs that come about by any sequence of commands. All numbers a program keeps stay in range,
each unit is found by its key, and the program can be flattened as long as it is not flattened yet.
-/

namespace GoToJava

open Session

/-! ## Numbers in range -/

/-- All numbers that a place keeps are in range. -/
structure Place.InRange (p : Program) (place : Place) : Prop where
  draft : place.draft < p.drafts.next
  unit : place.unit < p.units.size
  scope : place.scope < p.scopes.next
  receiver : ∀ r ∈ place.receiver, r.cls < p.classes.size

structure CompilationUnit.InRange (p : Program) (u : CompilationUnit) : Prop where
  root : u.root < p.drafts.next
  packageUnit : u.packageUnit < p.units.size
  importsAt : ∀ draft ∈ u.importsAt, draft < p.drafts.next
  scope : u.scope < p.scopes.next

structure JavaClass.InRange (p : Program) (c : JavaClass) : Prop where
  unit : c.unit < p.units.size
  implementsAt : c.implementsAt.place.InRange p
  functionsAt : c.functionsAt.place.InRange p

namespace Program

/-- All numbers that a program keeps are in range. -/
structure InRange (p : Program) : Prop where
  units : ∀ u < p.units.size, (p.unit u).InRange p
  classes : ∀ c < p.classes.size, (p.classAt c).InRange p
  parked : ∀ m ∈ p.parked, m.cursor.place.InRange p
  holes : ∀ h < p.drafts.holes.size,
    (p.drafts.hole h).parent < p.drafts.next ∧ (p.drafts.hole h).child < p.drafts.next
  tasks : ∀ h < p.drafts.holes.size, ∀ t ∈ (p.drafts.hole h).task, t.cursor.place.InRange p
  drafts : ∀ d < p.drafts.next, ∀ h ∈ (p.drafts.draft d).holes, h < p.drafts.holes.size
  scopes : ∀ s < p.scopes.next, ∀ parent ∈ (p.scopes.scopes.getD s {}).parent,
    parent < p.scopes.next
  unitIndex : p.unitIndex.All (· < p.units.size)
  typeUnits : p.typeUnits.All (· < p.units.size)
  classIndex : p.classIndex.All (· < p.classes.size)
  libraries : p.libraries.All fun loaded => ∀ u ∈ loaded, u < p.units.size

/-- A program in good order. -/
structure Intact (p : Program) : Prop where
  inRange : p.InRange
  /-- The index has the keys of the units, and each leads to its unit. -/
  index : ∀ key u, p.unitIndex.get? key = some u ↔ u < p.units.size ∧ (p.unit u).key = key
  distinct : ∀ u < p.units.size, ∀ v < p.units.size, (p.unit u).key = (p.unit v).key → u = v
  home : ∀ u < p.units.size, (p.unit u).packageUnit < p.units.size ∧
    (p.unit (p.unit u).packageUnit).packageUnit = (p.unit u).packageUnit
  /-- No text came to a joined draft. -/
  accepted : p.refused = none
  /-- No resolved hole has a task. -/
  taken : ∀ h, (p.drafts.hole h).resolved = true → (p.drafts.hole h).task = none

variable {p q : Program}

theorem inRange_of_sits {place : Place} (h : place.Sits False p.extent) : place.InRange p :=
  ⟨h.draft, h.unit, h.scope, fun r hr => h.receiver r hr⟩

theorem inRange_of_holds (h : p.Holds False p.extent) (hf : p.drafts.Forest) (hl : p.Stocked) :
    p.InRange where
  units u hu :=
    ⟨(h.units u hu).root, (h.units u hu).packageUnit, fun d hd => (h.units u hu).importsAt d hd,
      (h.units u hu).scope⟩
  classes c hc :=
    ⟨(h.classes c hc).unit, inRange_of_sits (h.classes c hc).implementsAt,
      inRange_of_sits (h.classes c hc).functionsAt⟩
  parked m hm := inRange_of_sits (h.parked m hm).cursor
  holes k hk := ⟨Nat.lt_trans (hf.older k hk) (hf.known k hk), hf.known k hk⟩
  tasks k hk t ht := inRange_of_sits (h.pending k hk t ht).cursor
  drafts d _ k hk := (hf.listed d k (Array.mem_toList_iff.2 hk)).1
  scopes s hs parent hparent := Nat.lt_trans (h.scopes.parents s parent hparent) hs
  unitIndex := h.unitIndex
  typeUnits := h.typeUnits
  classIndex := h.classIndex
  libraries := hl

/-! ## Commands -/

/-- What can be asked of a program. -/
inductive Command where
  | file (call : Call)
  | finalize
  | flatten

/-- The program after a command, also if the command was refused. -/
def Command.run (p : Program) : Command → Program
  | file call => (call.session.run.run p).2
  | finalize => (Program.finalize.run.run p).2
  | flatten => (Program.flatten.run.run p).2

/-- The program after some commands. -/
def reached (commands : List Command) : Program := commands.foldl Command.run {}

/-- A final program that is not flattened. -/
structure Final (p : Program) : Prop where
  sound : p.Sound False
  level : p.Level False
  regular : p.Regular fun _ _ => True
  phase : p.phase = .finalization

/-- How far a program has come. -/
inductive Stage (p : Program) : Prop
  | growing (h : p.Growing False 0) (hr : p.Regular fun _ _ => True)
  | final (h : p.Final)
  | flat {q : Program} (h : q.Final) (hj : Joins { q with phase := .flattened } p)
      (hf : p.drafts.Forest)

theorem final_settle (h : p.Growing False 0) (hr : p.Regular fun _ _ => True) : p.settle.Final := by
  have hserves := (serves_finalized h).1
  have hregular := regular_settle hr
  rw [settle_eq h.phase] at hregular ⊢
  exact ⟨hserves.sound, hserves.level, hregular, hserves.phase⟩

theorem flat_of_final (hfinal : finalize.run.run p = (.ok (), q)) (hq : q.Final) :
    ∃ sources r, flatten.run.run p = (.ok sources, r) ∧
      Joins { q with phase := .flattened } r ∧ r.drafts.Forest := by
  obtain ⟨sources, r, hrun, -, hrest⟩ := flattens_final hfinal hq.sound hq.level
  exact ⟨sources, r, hrun, hrest⟩

theorem run_finalize_of_flattened (hphase : p.phase = .flattened) :
    finalize.run.run p = (.error .alreadyFlattened, p) := by
  rw [run_finalize, hphase]

theorem run_flatten_of_flattened (hphase : p.phase = .flattened) :
    flatten.run.run p = (.error .alreadyFlattened, p) :=
  run_bind_error (run_finalize_of_flattened hphase)

theorem run_of_flattened (command : Command) (hphase : p.phase = .flattened) :
    command.run p = p := by
  cases command with
  | file call => exact run_call_of_phase call (by rw [hphase]; decide)
  | finalize => exact congrArg Prod.snd (run_finalize_of_flattened hphase)
  | flatten => exact congrArg Prod.snd (run_flatten_of_flattened hphase)

theorem stage_run (command : Command) (h : p.Stage) : (command.run p).Stage := by
  cases h with
  | growing h hr =>
    have hfinal : finalize.run.run p = (.ok (), p.settle) := by
      rw [run_finalize, h.phase]
    cases command with
    | file call =>
      refine .growing (growing_call call p h) ?_
      exact stable_call (fun _ _ hstep hq => regular_of_step hstep hq) (fun _ hq => hq.indexed)
        (fun _ _ _ => trivial) p hr
    | finalize =>
      show (finalize.run.run p).2.Stage
      rw [hfinal]
      exact .final (final_settle h hr)
    | flatten =>
      obtain ⟨sources, q, hrun, hjoins, hforest⟩ := flat_of_final hfinal (final_settle h hr)
      show (flatten.run.run p).2.Stage
      rw [hrun]
      exact .flat (final_settle h hr) hjoins hforest
  | final h =>
    have hfinal : finalize.run.run p = (.ok (), p) := by
      rw [run_finalize, h.phase]
    cases command with
    | file call =>
      show (call.session.run.run p).2.Stage
      rw [run_call_of_phase call (by rw [h.phase]; decide)]
      exact .final h
    | finalize =>
      show (finalize.run.run p).2.Stage
      rw [hfinal]
      exact .final h
    | flatten =>
      obtain ⟨sources, q, hrun, hjoins, hforest⟩ := flat_of_final hfinal h
      show (flatten.run.run p).2.Stage
      rw [hrun]
      exact .flat h hjoins hforest
  | flat h hj hf =>
    rw [run_of_flattened command (by rw [hj.rest])]
    exact .flat h hj hf

theorem stage_reached (commands : List Command) : (reached commands).Stage :=
  List.foldlRecOn commands _ (.growing growing_empty regular_empty) fun _ hp c _ => stage_run c hp

theorem growing_of_stage (h : p.Stage) (hphase : p.phase = .discovery) :
    p.Growing False 0 ∧ p.Regular fun _ _ => True := by
  cases h with
  | growing h hr => exact ⟨h, hr⟩
  | final h =>
    rw [h.phase] at hphase
    cases hphase
  | flat h hj hf =>
    rw [hj.rest] at hphase
    cases hphase

theorem final_of_stage (h : p.Stage) (hphase : p.phase = .finalization) : p.Final := by
  cases h with
  | growing h hr =>
    rw [h.phase] at hphase
    cases hphase
  | final h => exact h
  | flat h hj hf =>
    rw [hj.rest] at hphase
    cases hphase

/-- How far the program of some files has come. -/
inductive Outcome (calls : List Call) (p : Program) : Prop
  | growing (h : p = discovered calls)
  | final (h : p = (discovered calls).settle)
  | flat (h : Joins { (discovered calls).settle with phase := .flattened } p)

theorem run_finalize_discovered (calls : List Call) :
    finalize.run.run (discovered calls) = (.ok (), (discovered calls).settle) := by
  rw [run_finalize, (loose_discovered calls).phase]

theorem final_discovered (calls : List Call) : (discovered calls).settle.Final := by
  have hgrowing := loose_discovered calls
  have hstage := stage_reached (calls.map .file)
  have hreached : reached (calls.map .file) = discovered calls := List.foldl_map
  rw [hreached] at hstage
  exact final_settle hgrowing (growing_of_stage hstage hgrowing.phase).2

theorem outcome_run {calls : List Call} (command : Command) (h : Outcome calls p) :
    ∃ calls', Outcome calls' (command.run p) := by
  have hsettled := final_discovered calls
  cases h with
  | growing h =>
    subst h
    have hfinal := run_finalize_discovered calls
    cases command with
    | file call =>
      refine ⟨calls ++ [call], .growing ?_⟩
      unfold discovered
      rw [List.foldl_append]
      rfl
    | finalize => exact ⟨calls, .final (congrArg Prod.snd hfinal)⟩
    | flatten =>
      obtain ⟨sources, q, hrun, hjoins, -⟩ := flat_of_final hfinal hsettled
      refine ⟨calls, .flat ?_⟩
      show Joins _ (flatten.run.run (discovered calls)).2
      rw [hrun]
      exact hjoins
  | final h =>
    subst h
    have hfinal : finalize.run.run (discovered calls).settle =
        (.ok (), (discovered calls).settle) := by
      rw [run_finalize, hsettled.phase]
    cases command with
    | file call =>
      exact ⟨calls, .final (run_call_of_phase call (by rw [hsettled.phase]; decide))⟩
    | finalize => exact ⟨calls, .final (congrArg Prod.snd hfinal)⟩
    | flatten =>
      obtain ⟨sources, q, hrun, hjoins, -⟩ := flat_of_final hfinal hsettled
      refine ⟨calls, .flat ?_⟩
      show Joins _ (flatten.run.run (discovered calls).settle).2
      rw [hrun]
      exact hjoins
  | flat h =>
    rw [run_of_flattened command (by rw [h.rest])]
    exact ⟨calls, .flat h⟩

theorem outcome_reached (commands : List Command) : ∃ calls, Outcome calls (reached commands) := by
  have hempty : ∃ calls, Outcome calls {} := ⟨[], .growing rfl⟩
  unfold reached
  generalize ({} : Program) = p at hempty ⊢
  induction commands generalizing p with
  | nil => exact hempty
  | cons c commands ih =>
    obtain ⟨calls, h⟩ := hempty
    exact ih _ (outcome_run c h)

/-! ## Good order -/

theorem intact_of_sound (hs : p.Sound False) (hr : p.Regular fun _ _ => True) : p.Intact where
  inRange := inRange_of_holds hs.holds hs.planted.whole.forest hr.stocked
  index := hr.indexed
  distinct u hu v hv he := by
    have hfirst := (hr.indexed _ u).2 ⟨hu, rfl⟩
    have hsecond := (hr.indexed _ v).2 ⟨hv, he.symm⟩
    exact Option.some.inj (hfirst.symm.trans hsecond)
  home u hu := ⟨hr.housed.known u hu, hr.housed.home u hu⟩
  accepted := hr.calm.accepted
  taken := hr.calm.taken

theorem intact_of_joins (hq : q.Final) (hj : Joins { q with phase := .flattened } p)
    (hf : p.drafts.Forest) : p.Intact := by
  have hintact := intact_of_sound hq.sound hq.regular
  have hhole : ∀ h, p.drafts.hole h = q.drafts.hole h := Drafts.hole_congr hj.holes
  have hnext := hj.next
  have hsize : p.drafts.holes.size = q.drafts.holes.size := congrArg Array.size hj.holes
  obtain ⟨d, rfl⟩ : ∃ d, p = { q with phase := .flattened, drafts := d } := ⟨p.drafts, hj.rest⟩
  have hextent : extent { q with phase := .flattened, drafts := d } = q.extent := by
    unfold extent
    rw [hnext]
  have hholds : Holds False q.extent { q with phase := .flattened, drafts := d } := by
    refine { hq.sound.holds with pending := ?_ }
    intro h hh t ht
    rw [hhole] at ht
    exact hq.sound.holds.pending h (hsize ▸ hh) t ht
  rw [← hextent] at hholds
  refine ⟨inRange_of_holds hholds hf hq.regular.stocked, hintact.index, hintact.distinct,
    hintact.home, hintact.accepted, fun h => ?_⟩
  rw [hhole]
  exact hintact.taken h

/-- Whatever files are given and whatever else is asked of a program, in any order and also after
errors: its numbers are all in range, the index has the keys of its units and no two units share
one, packages are their own packages, no text was ever refused by a joined draft and no resolved
hole has a task. Until it is flattened nothing is joined, and to flatten it succeeds. -/
theorem commands_leave_programs_intact (commands : List Command) : (reached commands).Intact ∧
      ((reached commands).phase ≠ .flattened → (∀ d, (reached commands).drafts.isJoined d = false) ∧
          ∃ sources q, flatten.run.run (reached commands) = (.ok sources, q)) := by
  have hstage := stage_reached commands
  generalize reached commands = p at hstage ⊢
  cases hstage with
  | growing h hr =>
    refine ⟨intact_of_sound h.sound hr, fun _ => ⟨hr.calm.unjoined, ?_⟩⟩
    obtain ⟨sources, q, hrun, -⟩ := turns_flatten h
    exact ⟨sources, q, hrun⟩
  | final h =>
    refine ⟨intact_of_sound h.sound h.regular, fun _ => ⟨h.regular.calm.unjoined, ?_⟩⟩
    have hfinal : finalize.run.run p = (.ok (), p) := by
      rw [run_finalize, h.phase]
    obtain ⟨sources, q, hrun, -⟩ := flat_of_final hfinal h
    exact ⟨sources, q, hrun⟩
  | flat h hj hf =>
    refine ⟨intact_of_joins h hj hf, fun hphase => ?_⟩
    rw [hj.rest] at hphase
    exact absurd rfl hphase

end Program

end GoToJava
