import GoToJava.Proofs.Flow.Fairness

/-!
Switches. Java keeps the flow of all statements but for some in switches. A case with a tag falls
into the next one after `fallthrough`, but also after `goto`; without a tag it never does, and a
break leaves more than the switch.
-/

namespace GoToJava

open GoToJava.Flow Go.Stmt

open Go (Expr CaseClause)

variable {σ : Type}

/-! ## Entering a case -/

/-- In the first state the switch enters the case with this number, in the second state. -/
def Meaning.Enters (M : Meaning σ) (tag : Option Expr) (cs : List CaseClause) (s : σ) (i : Nat)
    (t : σ) : Prop :=
  ∃ chosen, M.chosen tag (cs.map (·.values)) s = (some chosen, t) ∧
    (chosen <|> (cs.map (·.values)).findIdx? List.isEmpty) = some i

theorem Flow.enter_of_enters {M : Meaning σ} {tag : Option Expr} {cs : List CaseClause} {s t : σ}
    {i : Nat} (h : M.Enters tag cs s i t) (from_ : Nat → Flow σ) :
    enter (M.chosen tag (cs.map (·.values))) (cs.map (·.values)) from_ s = from_ i t := by
  obtain ⟨chosen, hchosen, hi⟩ := h
  unfold enter
  rw [hchosen]
  simp only [hi]

theorem Flow.cascade_drop {on : Exit} {fs : List (Flow σ)} {f : Flow σ} {i : Nat}
    (h : fs[i]? = some f) (s : σ) :
    cascade on (fs.drop i) s =
      match f s with
      | none => none
      | some (e, t) => if e = on then cascade on (fs.drop (i + 1)) t else some (e, t) := by
  obtain ⟨hi, rfl⟩ := List.getElem?_eq_some_iff.1 h
  rw [List.drop_eq_getElem_cons hi]
  rfl

namespace Go.Stmt

variable (M : Meaning σ) (n : Nat) {last : Go.Stmt} {u : σ} {front : List Go.Stmt} {tag : Expr}

theorem runCases_eq_map (cs : List CaseClause) :
    runCases M n cs = cs.map fun c => runAll M n c.body := by
  induction cs with
  | nil => rfl
  | cons c cs ih =>
    obtain ⟨values, body⟩ := c
    exact congrArg (runAll M n body :: ·) ih

theorem java_runCases_eq_map (tagged : Bool) (cs : List CaseClause) :
    Java.runCases M n (caseShapes tagged cs) =
      cs.map fun c => Java.runAll M n [] (shapes c.body ++ caseEnd tagged c.body) := by
  induction cs with
  | nil => rfl
  | cons c cs ih =>
    obtain ⟨values, body⟩ := c
    exact congrArg (Java.runAll M n [] (shapes body ++ caseEnd tagged body) :: ·) ih

variable {M n} {cs : List CaseClause} {i : Nat} {values : List Expr} {body : List Go.Stmt} {s t : σ}

/-- What Go does in a switch from the case on that is entered. -/
theorem run_switch_of_enters {tag : Option Expr} (h : M.Enters tag cs s i t) :
    (switch none tag cs).run M n [] s =
      (cascade .fall ((runCases M n cs).drop i)).mapExit (·.leave []) t := by
  show (mapExit _ (.enter (M.chosen tag (cs.map (·.values))) _ _)) s = _
  rw [mapExit_enter rfl rfl]
  exact enter_of_enters h _

/-- What Java does in a switch with a tag from the case on that is entered. -/
theorem java_run_switch_of_enters (h : M.Enters (some tag) cs s i t) :
    Java.runAll M n [] (switch none (some tag) cs).shape s =
      (cascade .next ((Java.runCases M n (caseShapes true cs)).drop i)).mapExit (·.leave []) t := by
  have hone : Java.runAll M n [] (switch none (some tag) cs).shape =
      (Java.Stmt.switch tag (caseShapes true cs)).run M n [] := andThen_skip _
  rw [hone]
  show (mapExit _ (.enter (M.chosen (some tag) ((caseShapes true cs).map (·.values))) _ _)) s
    = _
  rw [values_caseShapes, mapExit_enter rfl rfl]
  exact enter_of_enters h _

/-- What Java does without a tag: only the case that is entered. -/
theorem java_run_conditions_of_enters (h : M.Enters none cs s i t)
    (hcase : cs[i]? = some (.mk values body)) : Java.runAll M n [] (switch none none cs).shape s =
      Java.runAll M n [] (shapes body) t := by
  have hshape : (switch none none cs).shape = [.conditions (caseShapes false cs)] := by
    cases cs with
    | nil => cases hcase
    | cons c cs => rfl
  have hone : Java.runAll M n [] [.conditions (caseShapes false cs)] =
      (Java.Stmt.conditions (caseShapes false cs)).run M n [] := andThen_skip _
  rw [hshape, hone]
  show (mapExit (·.past []) (.enter (M.chosen none ((caseShapes false cs).map (·.values))) _
    fun i => (Java.runCases M n (caseShapes false cs))[i]?.getD .skip)) s = _
  rw [mapExit_past_nil, values_caseShapes, enter_of_enters h, java_runCases_eq_map,
    List.getElem?_map, hcase]
  exact congrArg (Java.runAll M n [] · t) (List.append_nil _)

/-! ## Falling into the next case -/

theorem runAll_concat (last : Java.Stmt)
    (h : ∀ labels, Java.runAll M n labels [last] = last.run M n []) (js : List Java.Stmt)
    (labels : List String) : Java.runAll M n labels (js ++ [last]) =
      .andThen (Java.runAll M n labels js) (last.run M n []) := by
  induction js generalizing labels with
  | nil => exact h labels
  | cons j js ih =>
    cases j with
    | label name => exact ih (name :: labels)
    | _ =>
      show andThen _ (Java.runAll M n [] (js ++ [last])) = .andThen (.andThen _ _) _
      rw [ih, andThen_assoc]

theorem never_next_concat (last : Java.Stmt)
    (h : ∀ labels, Java.runAll M n labels [last] = last.run M n [])
    (hlast : Flow.Never .next (last.run M n [])) (js : List Java.Stmt) :
    Flow.Never .next (Java.runAll M n [] (js ++ [last])) := by
  rw [runAll_concat last h]
  exact never_andThen (Or.inl rfl) hlast

/-- A case ends like this where Java runs on into the next one. -/
def RunsOn (last : Go.Stmt) : Prop :=
  ∃ label, last = .branch .fallthrough label ∨ last = .branch .goto label

theorem runAll_runsOn (h : RunsOn last) (front : List Go.Stmt) :
    Java.runAll M n [] (shapes (front ++ [last]) ++ caseEnd true (front ++ [last])) =
      Java.runAll M n [] (shapes front) := by
  have hend : caseEnd true (front ++ [last]) = [] := by
    refine caseEnd_of_leaves ((leavesCase_append front last).trans ?_)
    obtain ⟨label, rfl | rfl⟩ := h <;> rfl
  rw [hend, List.append_nil, shapes_append]
  obtain ⟨label, rfl | rfl⟩ := h
  · exact congrArg _ (List.append_nil _)
  · refine (runAll_concat (.comment (.branch .goto label)) (fun _ => andThen_skip _) _ _).trans ?_
    exact andThen_skip _

/-- All other statements that leave a case do so in Java. -/
theorem runsOn_or_never_next (hM : M.Panics) (h : Forms.leavesCase [last] = true)
    (front : List Go.Stmt) :
    RunsOn last ∨ Flow.Never .next (Java.runAll M n [] (shapes (front ++ [last]))) := by
  rw [shapes_append]
  unfold Forms.leavesCase at h
  split at h
  · rename_i values heq
    cases heq
    exact Or.inr (never_next_concat (.return values) (fun _ => andThen_skip _)
      (never_andThen (Or.inl rfl) (never_exit Exit.noConfusion)) _)
  · rename_i kind label heq
    cases heq
    cases kind with
    | «break» =>
      exact Or.inr (never_next_concat (.break label) (fun _ => andThen_skip _)
        (never_exit Exit.noConfusion) _)
    | «continue» =>
      exact Or.inr (never_next_concat (.continue label) (fun _ => andThen_skip _)
        (never_exit Exit.noConfusion) _)
    | goto => exact Or.inl ⟨label, Or.inr rfl⟩
    | «fallthrough» => exact Or.inl ⟨label, Or.inl rfl⟩
  · rename_i args spread heq
    cases heq
    exact Or.inr (never_next_concat (.simple (.expr (.call (.ident "panic") args spread)))
      (fun _ => andThen_skip _) (never_next_of_panic hM args spread) _)
  · cases h

/-- A case with a tag runs into the next one only from a `fallthrough` or a `goto` at its end. -/
theorem runAll_case_next_iff (hM : M.Panics) :
    Java.runAll M n [] (shapes body ++ caseEnd true body) s = some (.next, t) ↔
      ∃ front last, body = front ++ [last] ∧ RunsOn last ∧
        Java.runAll M n [] (shapes front) s = some (.next, t) := by
  constructor
  · intro hrun
    cases hleaves : Forms.leavesCase body with
    | false =>
      rw [caseEnd_of_stays hleaves] at hrun
      exact absurd hrun (never_next_concat .leave (fun _ => andThen_skip _)
        (never_exit Exit.noConfusion) _ s t)
    | true =>
      obtain ⟨front, last, rfl⟩ := exists_last hleaves
      rw [leavesCase_append] at hleaves
      have hend : caseEnd true (front ++ [last]) = [] :=
        caseEnd_of_leaves ((leavesCase_append front last).trans hleaves)
      rcases runsOn_or_never_next hM hleaves front with hlast | hnever
      · rw [runAll_runsOn hlast] at hrun
        exact ⟨front, last, rfl, hlast, hrun⟩
      · rw [hend, List.append_nil] at hrun
        exact absurd hrun (hnever s t)
  · rintro ⟨front, last, rfl, hlast, hrun⟩
    rw [runAll_runsOn hlast]
    exact hrun

/-- A `goto` at the end of a case leads Java into the next one. -/
theorem java_runs_on_after_goto {label : Option String} (hM : M.Panics)
    (h : M.Enters (some tag) cs s i t)
    (hcase : cs[i]? = some (.mk values (front ++ [.branch .goto label])))
    (hfair : FairAll true false front) (hfront : runAll M n front t = some (.next, u)) :
    (switch none (some tag) cs).run M n [] s = some (.goto label, u) ∧
      Java.runAll M n [] (switch none (some tag) cs).shape s =
        (cascade .next ((Java.runCases M n (caseShapes true cs)).drop (i + 1))).mapExit
          (·.leave []) u := by
  constructor
  · have hbody : runAll M n (front ++ [.branch .goto label]) t = some (.goto label, u) := by
      rw [runAll_append]
      unfold andThen
      rw [hfront]
      rfl
    have hget : (runCases M n cs)[i]? = some (runAll M n (front ++ [.branch .goto label])) := by
      rw [runCases_eq_map, List.getElem?_map, hcase]
      rfl
    rw [run_switch_of_enters h]
    unfold mapExit
    rw [cascade_drop hget, hbody]
    rfl
  · have hlast : RunsOn (.branch .goto label) := ⟨label, Or.inr rfl⟩
    have hget : (Java.runCases M n (caseShapes true cs))[i]? =
        some (Java.runAll M n [] (shapes front)) := by
      rw [java_runCases_eq_map, List.getElem?_map, hcase, ← runAll_runsOn hlast]
      rfl
    rw [java_run_switch_of_enters h]
    unfold mapExit
    rw [cascade_drop hget, runAll_shapes_nil (fun s _ => keeps hM s) hfair, hfront]
    rfl

/-! ## Cases without a tag -/

/-- Without a tag Java leaves a fair case like Go unless there is a break. -/
theorem run_conditions_eq_iff (hM : M.Panics) (h : M.Enters none cs s i t)
    (hcase : cs[i]? = some (.mk values body)) (hfair : FairAll true false body) :
    Java.runAll M n [] (switch none none cs).shape s = (switch none none cs).run M n [] s ↔
      ∀ u, runAll M n body t ≠ some (.break none, u) := by
  have hget : (runCases M n cs)[i]? = some (runAll M n body) := by
    rw [runCases_eq_map, List.getElem?_map, hcase]
    rfl
  have hfall : Flow.Never .fall (runAll M n body) :=
    never_runAll M n (fun s _ => guarded M n s) hfair (Or.inl rfl)
  rw [java_run_conditions_of_enters h hcase, runAll_shapes_nil (fun s _ => keeps hM s) hfair,
    run_switch_of_enters h]
  unfold mapExit
  rw [cascade_drop hget]
  rcases hrun : runAll M n body t with _ | ⟨e, u⟩
  · simp
  · have he : e ≠ .fall := fun he => hfall t u (by rw [hrun, he])
    simp only [if_neg he, Option.map_some]
    cases e with
    | «break» label => cases label <;> simp [Exit.leave, Exit.past]
    | _ => simp [Exit.leave, Exit.past]

/-- Without a tag Java ends the switch where Go falls into the next case. -/
theorem java_stops_at_fallthrough {label : Option String} (hM : M.Panics)
    (h : M.Enters none cs s i t)
    (hcase : cs[i]? = some (.mk values (front ++ [.branch .fallthrough label])))
    (hfair : FairAll true false front) (hfront : runAll M n front t = some (.next, u)) :
    (switch none none cs).run M n [] s =
        (cascade .fall ((runCases M n cs).drop (i + 1))).mapExit (·.leave []) u ∧
      Java.runAll M n [] (switch none none cs).shape s = some (.next, u) := by
  constructor
  · have hbody : runAll M n (front ++ [.branch .fallthrough label]) t = some (.fall, u) := by
      rw [runAll_append]
      unfold andThen
      rw [hfront]
      rfl
    have hget : (runCases M n cs)[i]? =
        some (runAll M n (front ++ [.branch .fallthrough label])) := by
      rw [runCases_eq_map, List.getElem?_map, hcase]
      rfl
    rw [run_switch_of_enters h]
    unfold mapExit
    rw [cascade_drop hget, hbody]
    rfl
  · rw [java_run_conditions_of_enters h hcase, shapes_append]
    show Java.runAll M n [] (shapes front ++ []) t = _
    rw [List.append_nil, runAll_shapes_nil (fun s _ => keeps hM s) hfair]
    exact hfront

end Go.Stmt

/-! ## Switches -/

open Go.Stmt (shapes caseEnd caseShapes runCases FairAll RunsOn)

/-- The text of statements is that of Java statements that do the same, if the statements are fair.
In Java a case with a tag runs into the next one exactly after a `fallthrough` or a `goto` at its
end, so a switch goes on after a `goto`. Without a tag a case is left as in Go exactly if no break
leaves it, and a `fallthrough` ends the switch. -/
theorem switches_keep_their_flow_but_for_gotos_and_cases_without_a_tag {σ : Type} (M : Meaning σ)
    (hM : M.Panics) (n : Nat) :
    (∀ release ss, Conversion.stmts release ss = Java.writeAll release (shapes ss)) ∧
    (∀ ss, FairAll true false ss → Java.runAll M n [] (shapes ss) = runAll M n ss) ∧
    (∀ body s t, Java.runAll M n [] (shapes body ++ caseEnd true body) s = some (.next, t) ↔
      ∃ front last, body = front ++ [last] ∧ RunsOn last ∧
        Java.runAll M n [] (shapes front) s = some (.next, t)) ∧
    (∀ tag cs i values front label s t u, M.Enters (some tag) cs s i t →
      cs[i]? = some (.mk values (front ++ [.branch .goto label])) → FairAll true false front →
      runAll M n front t = some (.next, u) →
      (switch none (some tag) cs).run M n [] s = some (.goto label, u) ∧
        Java.runAll M n [] (switch none (some tag) cs).shape s =
          (cascade .next ((Java.runCases M n (caseShapes true cs)).drop (i + 1))).mapExit
            (·.leave []) u) ∧
    (∀ cs i values body s t, M.Enters none cs s i t → cs[i]? = some (.mk values body) →
      FairAll true false body → (Java.runAll M n [] (switch none none cs).shape s =
          (switch none none cs).run M n [] s ↔ ∀ u, runAll M n body t ≠ some (.break none, u))) ∧
    ∀ cs i values front label s t u, M.Enters none cs s i t →
      cs[i]? = some (.mk values (front ++ [.branch .fallthrough label])) →
      FairAll true false front → runAll M n front t = some (.next, u) →
      (switch none none cs).run M n [] s =
          (cascade .fall ((runCases M n cs).drop (i + 1))).mapExit (·.leave []) u ∧
        Java.runAll M n [] (switch none none cs).shape s = some (.next, u) := by
  refine ⟨fun release ss => Java.stmts_eq_shapes release ss, ?_, ?_, ?_, ?_, ?_⟩
  · intro ss hfair
    exact runAll_shapes_nil (fun s _ => keeps hM s) hfair
  · intro body s t
    exact runAll_case_next_iff hM
  · intro tag cs i values front label s t u henter hcase hfair hfront
    exact java_runs_on_after_goto hM henter hcase hfair hfront
  · intro cs i values body s t henter hcase hfair
    exact run_conditions_eq_iff hM henter hcase hfair
  · intro cs i values front label s t u henter hcase hfair hfront
    exact java_stops_at_fallthrough hM henter hcase hfair hfront

/-- A counter. All that is done adds one to it; `low` holds below two, all other conditions always,
and a tag is equal to the first case. -/
def counting : Meaning Nat where
  act
    | .expr (.call (.ident "panic") _ _), s => (none, s)
    | _, s => (some (), s + 1)
  test
    | .ident "low", s => (some (decide (s < 2)), s)
    | _, s => (some true, s)
  equal _ _ s := (some (some 0), s)
  start _ _ _ s := (some (), s)
  advance _ _ _ s := (some false, s)

/-- A switch with two cases: the first has one statement, and the second counts. -/
def twoCases (tag : Option Expr) (s : Go.Stmt) : Go.Stmt :=
  .switch none tag [.mk [.ident "yes"] [s], .mk [.ident "no"] [.incDec (.ident "x") true]]

/-- A loop that counts after such a switch. -/
def countingLoop (tag : Option Expr) (s : Go.Stmt) : Go.Stmt :=
  .for none (some (.ident "low")) none [twoCases tag s, .incDec (.ident "x") true]

/-- A break leaves the loop around the switch if there is no tag. A case with a tag falls into the
next one after `fallthrough`, but also after `goto`, and without a tag it does not fall at all. -/
theorem breaks_and_gotos_go_astray :
    (FairAll true false [countingLoop (some (.ident "x")) (.branch .break none)] ∧
      Java.runAll counting 5 []
        (shapes [countingLoop (some (.ident "x")) (.branch .break none)]) 0 =
        some (.next, 2)) ∧
    (Java.runAll counting 5 [] (shapes [countingLoop none (.branch .break none)]) 0 =
        some (.next, 0) ∧
      runAll counting 5 [countingLoop none (.branch .break none)] 0 = some (.next, 2) ∧
      Java.runAll counting 5 [] (twoCases none (.branch .break none)).shape 0 ≠
        (twoCases none (.branch .break none)).run counting 5 [] 0) ∧
    (Java.runAll counting 5 [] (shapes [twoCases (some (.ident "x")) (.branch .fallthrough none)]) =
      runAll counting 5 [twoCases (some (.ident "x")) (.branch .fallthrough none)]) ∧
    ((twoCases (some (.ident "x")) (.branch .goto (some "L"))).run counting 5 [] 0 =
        some (.goto (some "L"), 0) ∧
      Java.runAll counting 5 [] (twoCases (some (.ident "x")) (.branch .goto (some "L"))).shape 0 =
        some (.next, 1)) ∧
    (twoCases none (.branch .fallthrough none)).run counting 5 [] 0 = some (.next, 1) ∧
      Java.runAll counting 5 [] (twoCases none (.branch .fallthrough none)).shape 0 =
        some (.next, 0) := by
  have hM : counting.Panics := fun _ _ _ => rfl
  obtain ⟨-, hkept, -, hgoto, hbreak, hfall⟩ :=
    switches_keep_their_flow_but_for_gotos_and_cases_without_a_tag counting hM 5
  have hfirst : ∀ tag s, counting.Enters tag
      [.mk [.ident "yes"] [s], .mk [.ident "no"] [.incDec (.ident "x") true]] 0 0 0 := by
    intro tag s
    cases tag <;> exact ⟨some 0, rfl, rfl⟩
  have hcount : FairAll true true [.incDec (.ident "x") true] := ⟨Or.inl trivial, trivial⟩
  have hfair : FairAll true false [countingLoop (some (.ident "x")) (.branch .break none)] :=
    ⟨Or.inl ⟨Or.inl ⟨trivial, ⟨Or.inl rfl, trivial⟩, hcount, trivial⟩, Or.inl trivial, trivial⟩,
      trivial⟩
  refine ⟨⟨hfair, ?_⟩, ⟨rfl, rfl, ?_⟩, hkept _ ?_, ?_, ?_⟩
  · rw [hkept _ hfair]
    rfl
  · intro hsame
    have hbody : FairAll true false [.branch .break none] := ⟨Or.inl rfl, trivial⟩
    exact (hbreak _ 0 _ _ 0 0 (hfirst none _) rfl hbody).1 hsame 0 rfl
  · exact ⟨Or.inl ⟨trivial, ⟨Or.inr ⟨rfl, rfl, none, rfl⟩, trivial⟩, hcount, trivial⟩, trivial⟩
  · exact hgoto _ _ 0 _ [] _ 0 0 0 (hfirst _ _) rfl trivial rfl
  · exact hfall _ 0 _ [] _ 0 0 0 (hfirst none _) rfl trivial rfl

end GoToJava
