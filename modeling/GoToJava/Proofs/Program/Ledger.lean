import GoToJava.Program.Finalization
import GoToJava.Proofs.Draft.Draining
import GoToJava.Proofs.Program.Discovery

/-!
Running tasks. What was put off is written hole by hole, and a ledger notes each task that is run.
Each task was run or is still there, those inside a hole are run before its own, and no new task
comes up.
-/

namespace GoToJava

open Emit Drafts

variable {tidy : Prop} {p : Program} {depth id : Nat}

/-! ## Ledgers -/

/-- A task that was run for a hole, and the program when it was. -/
structure Run where
  hole : Nat
  pending : Pending
  program : Program

/-- The program after the task. -/
def Run.outcome (run : Run) : Program :=
  (run.program.emit run.pending.cursor
    (Conversion.run Program.fill.release run.pending.task)).2

/-- A program, and the tasks that were run so far. -/
structure Ledger where
  program : Program
  runs : List Run

namespace Ledger

/-- Takes the task of a hole and runs it. -/
def resolve (s : Ledger) (id : Nat) : Ledger :=
  let (task, drafts) := s.program.drafts.resolve id
  let p := { s.program with drafts }
  match task with
  | some (some pending) =>
    let run : Run := ⟨id, pending, p⟩
    ⟨run.outcome, s.runs ++ [run]⟩
  | _ => ⟨p, s.runs⟩

/-- Fills a hole, and notes each task that is run. -/
def fill : Nat → Ledger → Nat → Ledger
  | 0, s, _ => s
  | depth + 1, s, id =>
    let hole := s.program.drafts.hole id
    if hole.resolved then s
    else
      let s := (s.program.drafts.draft hole.child).holes.foldl (fill depth) s
      let before := (s.program.drafts.draft hole.child).holes.size
      let s := s.resolve id
      let after := (s.program.drafts.draft hole.child).holes
      (after.extract before after.size).foldl (fill depth) s

def fillUnit (s : Ledger) (id : Nat) : Ledger :=
  let unit := s.program.unit id
  if unit.library then s
  else (s.program.drafts.draft unit.root).holes.foldl (fill s.program.drafts.next) s

end Ledger

/-- A program before anything that was put off is written. -/
def Program.released (p : Program) : Program := { p.releaseAll with phase := .finalization }

/-- Makes a program final, and notes each task that is run. -/
def Program.finalized (p : Program) : Ledger :=
  match p.phase with
  | .discovery =>
    let s := (List.range p.released.units.size).foldl Ledger.fillUnit ⟨p.released, []⟩
    { s with program := (List.range s.program.units.size).foldl Program.writeImports s.program }
  | _ => ⟨p, []⟩

/-! ## The steps of filling a hole -/

/-- The task of a hole writes its text. -/
def Program.answer (p : Program) (id : Nat) : Program :=
  let (task, drafts) := p.drafts.resolve id
  let p := { p with drafts }
  match task with
  | some (some pending) => (p.emit pending.cursor (Conversion.run fill.release pending.task)).2
  | _ => p

/-- A hole is filled by what is inside it, its own task, and what that has left. -/
theorem Program.fill_of_open (hopen : (p.drafts.hole id).resolved = false) :
    p.fill (depth + 1) id =
      let child := (p.drafts.hole id).child
      let inner := (p.drafts.draft child).holes.toList.foldl (fill depth) p
      let own := inner.answer id
      let left := (own.drafts.draft child).holes.extract (inner.drafts.draft child).holes.size
        (own.drafts.draft child).holes.size
      left.toList.foldl (fill depth) own := by
  rw [fill]
  dsimp only
  rw [hopen, if_neg Bool.false_ne_true, ← Array.foldl_toList, ← Array.foldl_toList]
  rfl

theorem Program.fill_of_resolved (h : (p.drafts.hole id).resolved = true) :
    p.fill depth id = p := by
  cases depth with
  | zero => rfl
  | succ depth =>
    rw [fill]
    rw [h, if_pos rfl]

namespace Ledger

variable {depth id : Nat} {s : Ledger}

theorem fill_of_open (hopen : (s.program.drafts.hole id).resolved = false) :
    s.fill (depth + 1) id =
      let child := (s.program.drafts.hole id).child
      let inner := (s.program.drafts.draft child).holes.toList.foldl (fill depth) s
      let own := inner.resolve id
      let left := (own.program.drafts.draft child).holes.extract
        (inner.program.drafts.draft child).holes.size (own.program.drafts.draft child).holes.size
      left.toList.foldl (fill depth) own := by
  rw [fill]
  rw [hopen, if_neg Bool.false_ne_true, ← Array.foldl_toList, ← Array.foldl_toList]

theorem fill_of_resolved (h : (s.program.drafts.hole id).resolved = true) :
    s.fill depth id = s := by
  cases depth with
  | zero => rfl
  | succ depth =>
    rw [fill]
    rw [h, if_pos rfl]

/-! Noting what is run changes nothing. -/

theorem program_resolve (s : Ledger) (id : Nat) : (s.resolve id).program = s.program.answer id := by
  unfold resolve Program.answer
  rcases s.program.drafts.resolve id with ⟨_ | _ | pending, drafts⟩
  · rfl
  · rfl
  · rfl

theorem program_foldl {f : Ledger → Nat → Ledger} {g : Program → Nat → Program}
    (h : ∀ s id, (f s id).program = g s.program id) (ids : List Nat) (s : Ledger) :
    (ids.foldl f s).program = ids.foldl g s.program := by
  induction ids generalizing s with
  | nil => rfl
  | cons id ids ih =>
    rw [List.foldl_cons, List.foldl_cons, ih, h]

theorem program_fill (depth : Nat) (s : Ledger) (id : Nat) :
    (s.fill depth id).program = s.program.fill depth id := by
  induction depth generalizing s id with
  | zero => rfl
  | succ depth ih =>
    cases hopen : (s.program.drafts.hole id).resolved with
    | true => rw [fill_of_resolved hopen, Program.fill_of_resolved hopen]
    | false =>
      rw [fill_of_open hopen, Program.fill_of_open hopen]
      dsimp only
      rw [program_foldl ih, program_resolve, program_foldl ih]

theorem program_fillUnit (s : Ledger) (id : Nat) :
    (s.fillUnit id).program = s.program.fillUnit id := by
  unfold fillUnit Program.fillUnit
  dsimp only
  split
  · rfl
  · rw [← Array.foldl_toList, ← Array.foldl_toList, program_foldl (program_fill _)]

end Ledger

theorem Program.run_finalize (p : Program) :
    finalize.run.run p =
      match p.phase with
      | .discovery => (.ok (), p.settle)
      | .finalization => (.ok (), p)
      | .flattened => (.error .alreadyFlattened, p) := by
  show (match p.phase with
    | .discovery => modify settle
    | .finalization => return
    | .flattened => throw .alreadyFlattened : Session Unit).run.run p = _
  cases p.phase with
  | discovery => rfl
  | finalization => rfl
  | flattened => rfl

theorem Program.settle_eq (h : p.phase = .discovery) : p.settle = p.finalized.program := by
  unfold finalized
  rw [h]
  dsimp only
  rw [Ledger.program_foldl Ledger.program_fillUnit]
  rfl

/-! ## What finalization keeps -/

/-- A task is run in the right moment: none waits inside its hole, and none comes up. -/
structure Run.Fair (r : Program) (run : Run) : Prop where
  phase : run.program.phase = .finalization
  drains : r.drafts.Drains run.program.drafts
  innermost : run.program.drafts.Idle (run.program.drafts.hole run.hole).child
  quiet : ∀ h, (run.outcome.drafts.hole h).task = (run.program.drafts.hole h).task

/-- The tasks that were run for a hole. -/
def Ledger.handed (s : Ledger) (h : Nat) : List Pending :=
  (s.runs.filter (·.hole = h)).map (·.pending)

/-- What holds while the tasks of a program `r` are run: each was run or is still there. -/
structure Ledger.Serves (tidy : Prop) (r : Program) (s : Ledger) : Prop where
  sound : s.program.Sound tidy
  level : s.program.Level tidy
  phase : s.program.phase = .finalization
  units : r.units.size ≤ s.program.units.size
  unit : ∀ u < r.units.size, (r.unit u).Later (s.program.unit u)
  fresh : ∀ u, r.units.size ≤ u → u < s.program.units.size → r.drafts.next ≤ (s.program.unit u).root
  drains : r.drafts.Drains s.program.drafts
  settled : ∀ h, (s.program.drafts.hole h).resolved = true → s.program.drafts.Done h
  accounts : ∀ h, s.handed h ++ (s.program.drafts.hole h).task.toList =
    (r.drafts.hole h).task.toList
  fair : ∀ run ∈ s.runs, run.Fair r

namespace Ledger

variable {r q : Program} {s : Ledger} {d id : Nat}

theorem Serves.whole (hs : s.Serves tidy r) : s.program.drafts.Whole := hs.sound.planted.whole

theorem Serves.quiet (hs : s.Serves tidy r) (h : s.program.Extends q) :
    s.program.drafts.Grows True q.drafts := by
  have hphase : s.program.phase ≠ .discovery := by
    rw [hs.phase]
    decide
  exact { h.drafts with quiet := fun _ => h.drafts.quiet hphase }

theorem serves_of_moves (hs : s.Serves tidy r) (h : s.program.Moves tidy d [] [] q) :
    Serves tidy r ⟨q, s.runs⟩ ∧ s.program.drafts.Drains q.drafts := by
  have hgrows := hs.quiet h.ext
  have hdrains := drains_of_quiet hgrows trivial
  refine ⟨⟨h.sound, Program.level_of_moves hs.level h, h.ext.phase.trans hs.phase,
    Nat.le_trans hs.units h.ext.extent.units, ?_, ?_, drains_trans hs.drains hdrains, ?_, ?_,
    hs.fair⟩, hdrains⟩
  · intro u hu
    exact (hs.unit u hu).trans (h.ext.unit u (Nat.lt_of_lt_of_le hu hs.units))
  · intro u hle hlt
    by_cases hold : u < s.program.units.size
    · rw [(h.ext.unit u hold).root]
      exact hs.fresh u hle hold
    · exact Nat.le_trans hs.drains.next (h.ext.fresh u (Nat.le_of_not_lt hold) hlt).2.2
  · intro k hk
    by_cases hold : k < s.program.drafts.holes.size
    · rw [hgrows.hole k hold] at hk
      exact done_drains hdrains hs.whole h.sound.planted.whole hold (hs.settled k hk)
    · rw [hgrows.unresolved k (Nat.le_of_not_lt hold)] at hk
      cases hk
  · intro k
    rw [task_of_quiet hgrows trivial]
    exact hs.accounts k

/-! ## Running a task -/

theorem sound_emptied (id : Nat) (hp : p.Sound tidy) :
    Program.Sound tidy { p with drafts := p.drafts.alterHole id emptied } := by
  have hdrains : p.drafts.Drains (p.drafts.alterHole id emptied) := drains_emptied id
  refine ⟨⟨whole_emptied id hp.planted.whole, ?_, hp.planted.rootOwn⟩,
    { hp.holds with pending := ?_ }⟩
  · intro u hu h hh
    rw [size_holes_alterHole] at hh
    rw [hdrains.child h hh]
    exact hp.planted.rootFree u hu h hh
  · intro h hh t ht
    rw [size_holes_alterHole] at hh
    exact hp.holds.pending h hh t (hdrains.task h t ht)

theorem handed_append (s : Ledger) (p : Program) (notes : List Run) (h : Nat) :
    handed ⟨p, s.runs ++ notes⟩ h = s.handed h ++ handed ⟨p, notes⟩ h := by
  unfold handed
  rw [List.filter_append, List.map_append]

theorem serves_taken (notes : List Run) (hs : s.Serves tidy r)
    (hid : id < s.program.drafts.holes.size)
    (hidle : s.program.drafts.Idle (s.program.drafts.hole id).child)
    (hnotes : ∀ p h, handed ⟨p, notes⟩ h =
      if h = id then (s.program.drafts.hole id).task.toList else [])
    (hfair : ∀ run ∈ notes, run.Fair r) :
    Serves tidy r
      ⟨{ s.program with drafts := s.program.drafts.alterHole id emptied },
        s.runs ++ notes⟩ := by
  have hsound := sound_emptied id hs.sound
  have hdrains : s.program.drafts.Drains (s.program.drafts.alterHole id emptied) :=
    drains_emptied id
  refine { sound := hsound, level := ⟨hs.level.opened, hs.level.closed⟩, phase := hs.phase,
           units := hs.units, unit := hs.unit, fresh := hs.fresh,
           drains := drains_trans hs.drains hdrains,
           settled := ?settled, accounts := ?accounts, fair := ?fair }
  case settled =>
    -- The hole is done because nothing waits inside it; what was done before stays so.
    intro h hh
    by_cases he : h = id
    · subst he
      refine ⟨?_, ?_⟩
      · rw [hole_emptied_self hid]
        rfl
      · rw [hdrains.child h hid]
        exact idle_drains hdrains hs.whole hsound.planted.whole hidle
    · rw [hole_emptied_ne he] at hh
      have hlt : h < s.program.drafts.holes.size := by
        apply Nat.lt_of_not_le
        intro hle
        rw [hole_of_size_le _ _ hle] at hh
        cases hh
      exact done_drains hdrains hs.whole hsound.planted.whole hlt (hs.settled h hh)
  case accounts =>
    -- What the hole loses is what the notes gain, so the sum for each hole is the same.
    intro h
    rw [handed_append, hnotes, ← hs.accounts h]
    by_cases he : h = id
    · subst he
      rw [hole_emptied_self hid, if_pos rfl]
      exact List.append_nil _
    · rw [hole_emptied_ne he, if_neg he, List.append_nil]
  case fair =>
    intro run hrun
    rcases List.mem_append.1 hrun with hrun | hrun
    · exact hs.fair run hrun
    · exact hfair run hrun

theorem serves_resolve_open (hs : s.Serves tidy r) (hid : id < s.program.drafts.holes.size)
    (hopen : (s.program.drafts.hole id).resolved = false)
    (hidle : s.program.drafts.Idle (s.program.drafts.hole id).child) :
    (s.resolve id).Serves tidy r ∧ s.program.drafts.Drains (s.resolve id).program.drafts ∧
      (s.resolve id).program.drafts.Done id := by
  have hdrains : s.program.drafts.Drains (s.program.drafts.alterHole id emptied) :=
    drains_emptied id
  have hresolved : ((s.program.drafts.alterHole id emptied).hole id).resolved = true := by
    rw [hole_emptied_self hid]
    rfl
  unfold resolve
  rw [resolve_of_open hopen]
  cases htask : (s.program.drafts.hole id).task with
  | none =>
    -- A hole without a task is marked as resolved, and no run is noted.
    have htaken := serves_taken [] hs hid hidle (by
      intro p h
      rw [htask]
      split <;> rfl) (fun run hrun => by cases hrun)
    rw [List.append_nil] at htaken
    exact ⟨htaken, hdrains, htaken.settled id hresolved⟩
  | some pending =>
    have hknown := hs.sound.holds.pending id hid pending htask
    have hsound := sound_emptied id hs.sound
    let run : Run :=
      ⟨id, pending, { s.program with drafts := s.program.drafts.alterHole id emptied }⟩
    have hmoves : run.program.Moves tidy pending.cursor.place.draft [] [] run.outcome :=
      (moves_emit pending.cursor hsound hknown.cursor
        (Conversion.balanced_run (Conversion.safe_releaseAt 0) hknown.task run.program [])).1
    -- The phase is no longer discovery, so the task leaves no hole with a task.
    have hphase : run.program.phase ≠ .discovery := by
      rw [hs.phase]
      decide
    have hfair : run.Fair r := by
      refine ⟨hs.phase, drains_trans hs.drains hdrains, ?_, task_of_quiet hmoves.ext.drafts hphase⟩
      rw [hdrains.child id hid]
      exact idle_drains hdrains hs.whole hsound.planted.whole hidle
    have htaken := serves_taken [run] hs hid hidle (by
      intro p h
      rw [htask]
      unfold handed
      by_cases he : h = id
      · subst he
        rw [if_pos rfl, List.filter_cons_of_pos (by simp [run])]
        rfl
      · rw [if_neg he, List.filter_cons_of_neg (by simpa [run] using Ne.symm he)]
        rfl) (by
      intro x hx
      rw [List.mem_singleton.1 hx]
      exact hfair)
    obtain ⟨hserves, hafter⟩ := serves_of_moves htaken hmoves
    have hdone : run.outcome.drafts.Done id :=
      done_drains hafter htaken.whole hserves.whole
        (Nat.lt_of_lt_of_eq hid (size_holes_alterHole _ _ _).symm)
        (htaken.settled id hresolved)
    exact ⟨hserves, drains_trans hdrains hafter, hdone⟩

theorem serves_resolve (hs : s.Serves tidy r) (hid : id < s.program.drafts.holes.size)
    (hidle : s.program.drafts.Idle (s.program.drafts.hole id).child) :
    (s.resolve id).Serves tidy r ∧ s.program.drafts.Drains (s.resolve id).program.drafts ∧
      (s.resolve id).program.drafts.Done id := by
  cases hopen : (s.program.drafts.hole id).resolved with
  | false => exact serves_resolve_open hs hid hopen hidle
  | true =>
    unfold resolve
    rw [resolve_of_resolved hopen]
    exact ⟨hs, drains_refl _, hs.settled id hopen⟩

/-! ## Filling holes -/

/-- What filling a hole does: the hole is done, and no task comes up. -/
def Fills (tidy : Prop) (r : Program) (f : Ledger → Nat → Ledger) (s : Ledger) (id : Nat) : Prop :=
  (f s id).Serves tidy r ∧ s.program.drafts.Drains (f s id).program.drafts ∧
    (f s id).program.drafts.Done id

theorem fills_foldl {f : Ledger → Nat → Ledger} {depth : Nat}
    (hf : ∀ s id, s.Serves tidy r → id < s.program.drafts.holes.size →
      r.drafts.next ≤ depth + (s.program.drafts.hole id).child → Fills tidy r f s id) :
    ∀ (ids : List Nat) (s : Ledger), s.Serves tidy r →
      (∀ id ∈ ids, id < s.program.drafts.holes.size ∧
        r.drafts.next ≤ depth + (s.program.drafts.hole id).child) → (ids.foldl f s).Serves tidy r ∧
        s.program.drafts.Drains (ids.foldl f s).program.drafts ∧
        ∀ id ∈ ids, (ids.foldl f s).program.drafts.Done id := by
  intro ids
  induction ids with
  | nil => exact fun s hs _ => ⟨hs, drains_refl _, fun id hid => by cases hid⟩
  | cons id ids ih =>
    intro s hs hids
    obtain ⟨hlt, hdepth⟩ := hids id List.mem_cons_self
    obtain ⟨hs₁, hdrains₁, hdone₁⟩ := hf s id hs hlt hdepth
    obtain ⟨hs₂, hdrains₂, hdone₂⟩ := ih (f s id) hs₁ (by
      intro k hk
      obtain ⟨hltk, hdepthk⟩ := hids k (List.mem_cons_of_mem _ hk)
      rw [hdrains₁.child k hltk]
      exact ⟨Nat.lt_of_lt_of_le hltk hdrains₁.holes, hdepthk⟩)
    refine ⟨hs₂, drains_trans hdrains₁ hdrains₂, ?_⟩
    intro k hk
    rcases List.mem_cons.1 hk with rfl | hk
    · exact done_drains hdrains₂ hs₁.whole hs₂.whole (Nat.lt_of_lt_of_le hlt hdrains₁.holes) hdone₁
    · exact hdone₂ k hk

/-- Filling a hole leaves no task in it. Holes that were there from the start are filled by drafts
with numbers below `r.drafts.next`, which grow inwards, so the depth suffices for them; all others
have no tasks. -/
theorem fills_fill (hr : r.drafts.Whole) (depth : Nat) : ∀ (s : Ledger) (id : Nat),
    s.Serves tidy r → id < s.program.drafts.holes.size →
      r.drafts.next ≤ depth + (s.program.drafts.hole id).child →
      Fills tidy r (fill depth) s id := by
  induction depth with
  | zero =>
    intro s id hs _ hdepth
    rw [Nat.zero_add] at hdepth
    exact ⟨hs, drains_refl _, done_of_new hs.drains hr hs.whole hdepth⟩
  | succ depth ih =>
    intro s id hs hid hdepth
    unfold Fills
    cases hopen : (s.program.drafts.hole id).resolved with
    | true =>
      rw [fill_of_resolved hopen]
      exact ⟨hs, drains_refl _, hs.settled id hopen⟩
    | false =>
      rw [fill_of_open hopen]
      dsimp only
      generalize hchild : (s.program.drafts.hole id).child = child at hdepth ⊢
      -- The holes of a draft are filled by younger drafts.
      have hinside : ∀ x : Ledger, x.Serves tidy r →
          ∀ k ∈ (x.program.drafts.draft child).holes.toList,
            k < x.program.drafts.holes.size ∧
              r.drafts.next ≤ depth + (x.program.drafts.hole k).child := by
        intro x hx k hk
        obtain ⟨hlt, hparent⟩ := hx.whole.forest.listed child k hk
        have hold := hx.whole.forest.older k hlt
        exact ⟨hlt, by omega⟩
      obtain ⟨hs₁, hdrains₁, hdone₁⟩ := fills_foldl ih _ s hs (hinside s hs)
      generalize (s.program.drafts.draft child).holes.toList.foldl (fill depth) s = inner
        at hs₁ hdrains₁ hdone₁ ⊢
      have hidle : inner.program.drafts.Idle (inner.program.drafts.hole id).child := by
        rw [hdrains₁.child id hid, hchild]
        exact idle_of_done hdrains₁ hs.whole hs₁.whole hdone₁
      have hid₁ := Nat.lt_of_lt_of_le hid hdrains₁.holes
      obtain ⟨hs₂, hdrains₂, hdone₂⟩ := serves_resolve hs₁ hid₁ hidle
      generalize inner.resolve id = own at hs₂ hdrains₂ hdone₂ ⊢
      obtain ⟨hs₃, hdrains₃, -⟩ := fills_foldl ih
        ((own.program.drafts.draft child).holes.extract
          (inner.program.drafts.draft child).holes.size
          (own.program.drafts.draft child).holes.size).toList own hs₂ (by
        intro k hk
        rw [Array.toList_extract] at hk
        exact hinside own hs₂ k (List.mem_of_mem_drop (List.mem_of_mem_take hk)))
      refine ⟨hs₃, drains_trans hdrains₁ (drains_trans hdrains₂ hdrains₃), ?_⟩
      exact done_drains hdrains₃ hs₂.whole hs₃.whole (Nat.lt_of_lt_of_le hid₁ hdrains₂.holes) hdone₂

end Ledger

end GoToJava
