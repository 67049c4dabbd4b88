import GoToJava.Proofs.Program.Calls

/-!
The order of commands. What may be asked of a program, and what it answers, is told by its phase
alone: files come first, then the program is made final, then it is flattened, and only once.
-/

namespace GoToJava

/-- The texts of a flattening, or nothing but that the command was carried out, or why it was
not. -/
abbrev Answer := Except ProgramError (Option (List JavaSource))

/-- Whether the answer has the texts of the program. -/
def Answer.hasTexts : Answer → Bool
  | .ok (some _) => true
  | _ => false

/-- How far a phase is on the way. -/
def Phase.rank : Phase → Nat
  | discovery => 0
  | finalization => 1
  | flattened => 2

namespace Program

open Session

/-! ## The three phases -/

/-- Which answers a command may have in a phase, and the phase after it. -/
inductive Turn : Phase → Command → Answer → Phase → Prop
  | file (call : Call) : Turn .discovery (.file call) (.ok none) .discovery
  | unreadable (call : Call) (path : String) (cause : Go.ReadError) :
      Turn .discovery (.file call) (.error (.unreadable path cause)) .discovery
  | lateFile (call : Call) : Turn .finalization (.file call) (.error .final) .finalization
  | lastFile (call : Call) : Turn .flattened (.file call) (.error .alreadyFlattened) .flattened
  | finalize : Turn .discovery .finalize (.ok none) .finalization
  | finalizeAgain : Turn .finalization .finalize (.ok none) .finalization
  | lateFinalize : Turn .flattened .finalize (.error .alreadyFlattened) .flattened
  | flatten {phase : Phase} (texts : List JavaSource) (h : phase ≠ .flattened) :
      Turn phase .flatten (.ok (some texts)) .flattened
  | flattenAgain : Turn .flattened .flatten (.error .alreadyFlattened) .flattened

/-- Which answers some commands may have, one after the other, and the phase after them. -/
inductive Turns : Phase → List Command → List Answer → Phase → Prop
  | nil (phase : Phase) : Turns phase [] [] phase
  | cons {phase phase' phase'' : Phase} {command : Command} {answer : Answer}
      {commands : List Command} {answers : List Answer} (h : Turn phase command answer phase')
      (ht : Turns phase' commands answers phase'') :
      Turns phase (command :: commands) (answer :: answers) phase''

section

variable {phase phase' : Phase} {command : Command} {answer : Answer} {commands : List Command}
  {answers : List Answer}

theorem Turn.rank_le (h : Turn phase command answer phase') : phase.rank ≤ phase'.rank := by
  cases h with
  | flatten texts h => cases phase <;> decide
  | _ => decide

theorem Turns.rank_le (h : Turns phase commands answers phase') : phase.rank ≤ phase'.rank := by
  induction h with
  | nil => exact Nat.le_refl _
  | cons h _ ih => exact Nat.le_trans h.rank_le ih

/-- As long as a program is not flattened, flattening it gives the texts, and nothing else does. -/
theorem Turn.texts_iff (h : Turn phase command answer phase') (hp : phase ≠ .flattened) :
    command = .flatten ∧ answer.hasTexts = true ∧ phase' = .flattened ∨
      command ≠ .flatten ∧ answer.hasTexts = false ∧ phase' ≠ .flattened := by
  cases h with
  | flatten texts h => exact .inl ⟨rfl, rfl, rfl⟩
  | lastFile | lateFinalize | flattenAgain => exact absurd rfl hp
  | _ => exact .inr ⟨by rintro ⟨⟩, rfl, by rintro ⟨⟩⟩

theorem Turn.no_texts (h : Turn .flattened command answer phase') :
    answer.hasTexts = false ∧ phase' = .flattened := by
  cases h with
  | flatten texts h => exact absurd rfl h
  | _ => exact ⟨rfl, rfl⟩

theorem Turns.no_texts (h : Turns phase commands answers phase') (hp : phase = .flattened) :
    answers.countP Answer.hasTexts = 0 := by
  induction h with
  | nil => rfl
  | cons h _ ih =>
    subst hp
    obtain ⟨hnone, hphase⟩ := h.no_texts
    rw [List.countP_cons_of_neg (by rw [hnone]; decide)]
    exact ih hphase

theorem Turns.texts_once (h : Turns phase commands answers phase') (hp : phase ≠ .flattened)
    (hc : .flatten ∈ commands) : answers.countP Answer.hasTexts = 1 := by
  induction h with
  | nil => cases hc
  | cons h ht ih =>
    rcases h.texts_iff hp with ⟨-, hsome, hphase⟩ | ⟨hother, hnone, hphase⟩
    · rw [List.countP_cons_of_pos hsome, ht.no_texts hphase]
    · rw [List.countP_cons_of_neg (by rw [hnone]; decide)]
      exact ih hphase ((List.mem_cons.1 hc).resolve_left hother.symm)

end

/-! ## What is wrong with a file -/

/-- Filling the unit of a file stops only at a source that cannot be read. -/
theorem unreadable_fillPackage {libraries : Libraries} (file : Go.File) (unit : Nat) :
    Gives (fun _ => True) (fillPackage libraries file unit) (fun _ _ => True)
      fun e _ => ∃ path cause, e = .unreadable path cause := by
  have hload : ∀ path, Gives (fun _ => True) (loadLibrary libraries path) (fun _ _ => True)
      fun e _ => ∃ path cause, e = .unreadable path cause := fun path =>
    gives_loadLibrary (Q := fun _ _ => True) (fun _ hp _ => hp) (fun _ => id)
      (fun source _ cause _ _ _ _ => ⟨source.path, cause, rfl⟩) (fun _ _ _ _ _ _ _ => id)
      fun _ _ _ => id
  exact gives_bind (gives_forM fun i _ => gives_addImport (fun _ hp _ => hp)
    (fun _ _ _ => hload i.path) fun _ _ _ _ => id) fun _ => gives_modify fun _ => id

/-! ## Answers -/

/-- What a program answers to a command. -/
def Command.answer (p : Program) : Command → Answer
  | file call => (call.session.run.run p).1.map fun _ => none
  | finalize => (Program.finalize.run.run p).1.map fun _ => none
  | flatten => (Program.flatten.run.run p).1.map some

/-- What a program answers to some commands, one after the other. -/
def answers (p : Program) : List Command → List Answer
  | [] => []
  | command :: commands => command.answer p :: answers (command.run p) commands

variable {p : Program}

/-- In discovery, a file is refused only if it, or a library, cannot be read. -/
theorem unreadable_of_discovery {call : Call} {e : ProgramError} (hphase : p.phase = .discovery)
    (he : (call.session.run.run p).1 = .error e) : ∃ path cause, e = .unreadable path cause := by
  rw [run_call, hphase] at he
  cases hread : call.read with
  | error cause =>
    rw [hread] at he
    cases he
    exact ⟨_, cause, rfl⟩
  | ok file =>
    rw [hread] at he
    exact (unreadable_fillPackage file _).error trivial (Prod.ext he rfl)

theorem turn_file (hphase : p.phase = .discovery) (call : Call) :
    Turn .discovery (.file call) ((Command.file call).answer p) .discovery := by
  show Turn _ _ ((call.session.run.run p).1.map _) _
  cases hv : (call.session.run.run p).1 with
  | ok v => exact .file call
  | error e =>
    obtain ⟨path, cause, rfl⟩ := unreadable_of_discovery hphase hv
    exact .unreadable call path cause

theorem finalize_of_stage (h : p.Stage) (hphase : p.phase ≠ .flattened) :
    ∃ q, finalize.run.run p = (.ok (), q) ∧ q.Final := by
  cases hp : p.phase with
  | discovery =>
    obtain ⟨hgrowing, hregular⟩ := growing_of_stage h hp
    refine ⟨p.settle, ?_, final_settle hgrowing hregular⟩
    rw [run_finalize, hp]
  | finalization =>
    refine ⟨p, ?_, final_of_stage h hp⟩
    rw [run_finalize, hp]
  | flattened => exact absurd hp hphase

theorem flatten_of_stage (h : p.Stage) (hphase : p.phase ≠ .flattened) :
    ∃ texts q, flatten.run.run p = (.ok texts, q) ∧ q.phase = .flattened := by
  obtain ⟨q, hfinal, hq⟩ := finalize_of_stage h hphase
  obtain ⟨texts, r, hrun, hj, -⟩ := flat_of_final hfinal hq
  refine ⟨texts, r, hrun, ?_⟩
  rw [hj.rest]

theorem turn_of_stage (h : p.Stage) (command : Command) :
    Turn p.phase command (command.answer p) (command.run p).phase := by
  cases command with
  | file call =>
    have hrun := run_call call p
    cases hphase : p.phase with
    | discovery =>
      have hgrowing := (growing_of_stage h hphase).1
      have hafter := (growing_call call p hgrowing).phase
      show Turn _ _ _ (call.session.run.run p).2.phase
      rw [hafter]
      exact turn_file hphase call
    | finalization =>
      rw [hphase] at hrun
      show Turn _ _ ((call.session.run.run p).1.map _) (call.session.run.run p).2.phase
      rw [hrun, hphase]
      exact .lateFile call
    | flattened =>
      rw [hphase] at hrun
      show Turn _ _ ((call.session.run.run p).1.map _) (call.session.run.run p).2.phase
      rw [hrun, hphase]
      exact .lastFile call
  | finalize =>
    show Turn _ _ ((finalize.run.run p).1.map _) (finalize.run.run p).2.phase
    by_cases hphase : p.phase = .flattened
    · rw [run_finalize_of_flattened hphase, hphase]
      exact .lateFinalize
    · obtain ⟨q, hrun, hq⟩ := finalize_of_stage h hphase
      rw [hrun, hq.phase]
      cases hp : p.phase with
      | discovery => exact .finalize
      | finalization => exact .finalizeAgain
      | flattened => exact absurd hp hphase
  | flatten =>
    show Turn _ _ ((flatten.run.run p).1.map _) (flatten.run.run p).2.phase
    by_cases hphase : p.phase = .flattened
    · rw [run_flatten_of_flattened hphase, hphase]
      exact .flattenAgain
    · obtain ⟨texts, q, hrun, hq⟩ := flatten_of_stage h hphase
      rw [hrun, hq]
      exact .flatten texts hphase

theorem turns_of_stage (h : p.Stage) (commands : List Command) :
    Turns p.phase commands (answers p commands) (commands.foldl Command.run p).phase := by
  induction commands generalizing p with
  | nil => exact .nil _
  | cons command commands ih => exact .cons (turn_of_stage h command) (ih (stage_run command h))

theorem run_of_late (h : p.Stage) {command : Command} {e : ProgramError}
    (he : command.answer p = .error e) (hlate : e = .final ∨ e = .alreadyFlattened) :
    command.run p = p := by
  have hturn := turn_of_stage h command
  rw [he] at hturn
  generalize hafter : (command.run p).phase = after at hturn
  cases hp : p.phase with
  | discovery =>
    rw [hp] at hturn
    cases hturn
    rcases hlate with h | h <;> cases h
  | finalization =>
    rw [hp] at hturn
    cases hturn with
    | lateFile call => exact run_call_of_phase call (by rw [hp]; decide)
  | flattened =>
    cases command with
    | file call => exact run_call_of_phase call (by rw [hp]; decide)
    | finalize => exact congrArg Prod.snd (run_finalize_of_flattened hp)
    | flatten => exact congrArg Prod.snd (run_flatten_of_flattened hp)

theorem run_of_unreadable {call : Call} {cause : Go.ReadError} (hread : call.read = .error cause) :
    (Command.file call).run p = p := by
  have hrun := run_call call p
  show (call.session.run.run p).2 = p
  rw [hrun, hread]
  cases p.phase <;> rfl

/-- Making a program final before it is flattened makes no difference. -/
theorem flatten_of_discovery (h : p.Stage) (hphase : p.phase = .discovery) :
    flatten.run.run (finalize.run.run p).2 = flatten.run.run p := by
  obtain ⟨q, hrun, hq⟩ := finalize_of_stage h (by rw [hphase]; decide)
  have hagain : finalize.run.run q = (.ok (), q) := by
    rw [run_finalize, hq.phase]
  rw [hrun]
  unfold flatten
  rw [run_bind_ok hrun, run_bind_ok hagain]

/-! ## Histories -/

/-- What is promised of a program that some commands have led to. -/
structure Orderly (commands : List Command) : Prop where
  /-- All answers are those that the phases admit. -/
  turns : Turns .discovery commands (answers {} commands) (reached commands).phase
  once : .flatten ∈ commands → (answers {} commands).countP Answer.hasTexts = 1
  forward : ∀ more, (reached commands).phase.rank ≤ (reached (commands ++ more)).phase.rank
  again : (reached commands).phase = .finalization →
    Command.finalize.run (reached commands) = reached commands
  early : (reached commands).phase = .discovery →
    flatten.run.run (finalize.run.run (reached commands)).2 = flatten.run.run (reached commands)
  late : ∀ command e, Command.answer (reached commands) command = .error e →
    e = .final ∨ e = .alreadyFlattened → command.run (reached commands) = reached commands
  unread : ∀ call cause, call.read = .error cause →
    (Command.file call).run (reached commands) = reached commands

/-- Whatever was asked of a program, its answers are those of its phase: files are taken in
discovery only, the program is made final from discovery on and before it is flattened, and the
texts are given once. No phase comes back, and what is refused because of the phase, or because its
own text cannot be read, leaves the program as it was, as does making it final again. -/
theorem commands_follow_the_phases (commands : List Command) : Orderly commands := by
  have hstage := stage_reached commands
  have hturns : Turns .discovery commands (answers {} commands) (reached commands).phase :=
    turns_of_stage (stage_reached []) commands
  refine ⟨hturns, hturns.texts_once (by decide), ?_, ?_, flatten_of_discovery hstage,
    fun command e => run_of_late hstage, fun call cause => run_of_unreadable⟩
  · intro more
    unfold reached
    rw [List.foldl_append]
    exact (turns_of_stage hstage more).rank_le
  · intro hphase
    show (finalize.run.run (reached commands)).2 = _
    rw [run_finalize, hphase]

end Program

end GoToJava
