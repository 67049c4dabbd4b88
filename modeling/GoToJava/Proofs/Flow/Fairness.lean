import GoToJava.Proofs.Flow.Runs
import Mathlib.Data.List.Forall2
import Mathlib.Data.List.Induction

/-!
Statements whose flow is kept: those without `goto`, with `fallthrough` only where a case with a tag
ends, and with no break that leaves a switch without a tag. Java does with them what Go does.
-/

namespace GoToJava

open Forms GoToJava.Flow

open Go (Expr CaseClause)

/-! ## Induction over parts -/

/-- The statements right inside a statement. -/
def Go.Stmt.parts : Go.Stmt → List Go.Stmt
  | .labeled _ s => [s]
  | .block body | .for _ _ _ body | .range _ _ _ _ body => body
  | .ifElse init _ body alternative => init.toList ++ (body ++ alternative.toList)
  | .switch init _ cs => init.toList ++ cs.flatMap (·.body)
  | _ => []

variable {P : Go.Stmt → Prop}

mutual

theorem Go.Stmt.of_parts (h : ∀ s : Go.Stmt, (∀ part ∈ s.parts, P part) → P s) :
    (s : Go.Stmt) → P s
  | .labeled label s => h _ fun part hpart => by
    rw [List.mem_singleton.1 hpart]
    exact of_parts h s
  | .block body | .for init cond post body | .range key value define iterable body =>
    h _ (all_of_parts h body)
  | .ifElse init cond body alternative => h _ fun part hpart => by
    rcases List.mem_append.1 hpart with hpart | hpart
    · exact option_of_parts h init part hpart
    · rcases List.mem_append.1 hpart with hpart | hpart
      · exact all_of_parts h body part hpart
      · exact option_of_parts h alternative part hpart
  | .switch init tag cs => h _ fun part hpart => by
    rcases List.mem_append.1 hpart with hpart | hpart
    · exact option_of_parts h init part hpart
    · exact cases_of_parts h cs part hpart
  | .decl _ | .empty | .expr _ | .incDec .. | .assign .. | .go _ | .defer _ | .return _
  | .branch .. | .unsupported _ => h _ fun _ hpart => (by cases hpart)

theorem Go.Stmt.option_of_parts (h : ∀ s : Go.Stmt, (∀ part ∈ s.parts, P part) → P s) :
    (o : Option Go.Stmt) → ∀ part ∈ o.toList, P part
  | none, _, hpart => by cases hpart
  | some s, part, hpart => by
    rw [List.mem_singleton.1 hpart]
    exact of_parts h s

theorem Go.Stmt.all_of_parts (h : ∀ s : Go.Stmt, (∀ part ∈ s.parts, P part) → P s) :
    (ss : List Go.Stmt) → ∀ part ∈ ss, P part
  | [], _, hpart => by cases hpart
  | s :: ss, part, hpart => by
    rcases List.mem_cons.1 hpart with hpart | hpart
    · rw [hpart]
      exact of_parts h s
    · exact all_of_parts h ss part hpart

theorem Go.Stmt.cases_of_parts (h : ∀ s : Go.Stmt, (∀ part ∈ s.parts, P part) → P s) :
    (cs : List CaseClause) → ∀ part ∈ cs.flatMap (·.body), P part
  | [], _, hpart => by cases hpart
  | .mk values body :: cs, part, hpart => by
    rw [List.flatMap_cons] at hpart
    rcases List.mem_append.1 hpart with hpart | hpart
    · exact all_of_parts h body part hpart
    · exact cases_of_parts h cs part hpart

end

/-! ## Flows -/

variable {σ : Type}

namespace Flow

variable {f g k : Flow σ} {e : Exit} {test : σ → Option Bool × σ}

theorem andThen_assoc (f g k : Flow σ) : andThen (andThen f g) k = andThen f (andThen g k) := by
  funext s
  unfold andThen
  rcases f s with _ | ⟨e, t⟩
  · rfl
  · cases e <;> rfl

theorem andThen_skip (f : Flow σ) : andThen f skip = f := by
  funext s
  unfold andThen
  rcases f s with _ | ⟨e, t⟩
  · rfl
  · cases e <;> rfl

/-- The flow is never left in this way. -/
def Never (e : Exit) (f : Flow σ) : Prop := ∀ s t, f s ≠ some (e, t)

theorem never_exit {e' : Exit} (h : e ≠ e') : Never e (exit e' : Flow σ) := by
  intro s t heq
  cases heq
  exact h rfl

theorem never_andThen (hf : e = .next ∨ Never e f) (hg : Never e g) : Never e (andThen f g) := by
  intro s t heq
  unfold andThen at heq
  split at heq
  · exact hg _ _ heq
  · rename_i hr
    rcases hf with rfl | hf
    · exact hr t heq
    · exact hf _ _ heq

theorem never_mapExit {h : Exit → Exit} (hh : ∀ x, h x = e → x = e) (hf : Never e f) :
    Never e (mapExit h f) := by
  intro s t heq
  obtain ⟨⟨x, u⟩, hx, hr⟩ := Option.map_eq_some_iff.1 heq
  cases hr
  have hsame : x = h x := hh x rfl
  exact hf s u (hx.trans (congrArg (fun y => some (y, u)) hsame))

theorem never_choose (he : e ≠ .panic) (hf : Never e f) (hg : Never e g) :
    Never e (choose test f g) := by
  intro s t heq
  unfold choose at heq
  split at heq
  · exact hf _ _ heq
  · exact hg _ _ heq
  · cases heq
    exact he rfl

theorem never_cascade (fs : List (Flow σ)) (e : Exit) (he : e ≠ .next) :
    Never e (cascade e fs) := by
  induction fs with
  | nil => exact never_exit he
  | cons f fs ih =>
    intro s t heq
    unfold cascade at heq
    split at heq
    · cases heq
    · split at heq
      · exact ih _ _ heq
      · rename_i hne
        cases heq
        exact hne rfl

theorem never_enter {choice : σ → Option (Option Nat) × σ} {values : List (List Expr)}
    {from_ : Nat → Flow σ} (hp : e ≠ .panic) (hn : e ≠ .next) (h : ∀ i, Never e (from_ i)) :
    Never e (enter choice values from_) := by
  intro s t heq
  unfold enter at heq
  split at heq
  · cases heq
    exact hp rfl
  · split at heq
    · exact h _ _ _ heq
    · cases heq
      exact hn rfl

theorem never_loop {labels : List String} {body post : Flow σ} (hp : e ≠ .panic) (hn : e ≠ .next)
    (hpost : Never e post) (hbody : ∀ x, x.leave labels = e → Never x body) (n : Nat) :
    Never e (loop labels test body post n) := by
  induction n with
  | zero =>
    intro s t heq
    cases heq
  | succ n ih =>
    refine never_choose hp (fun s t heq => ?_) (never_exit hn)
    split at heq
    · cases heq
    · split at heq
      · exact never_andThen (Or.inr hpost) ih _ _ heq
      · rename_i hx _
        cases heq
        exact hbody _ rfl _ _ hx

end Flow

theorem Meaning.never_flow {e : Exit} {act : σ → Option Unit × σ} (hp : e ≠ .panic)
    (hn : e ≠ .next) : Flow.Never e (Meaning.flow act) := by
  intro s t heq
  unfold Meaning.flow at heq
  split at heq
  · cases heq
    exact hn rfl
  · cases heq
    exact hp rfl

/-! ## Statements whose flow is kept -/

/-- A label before the statement is a label of the whole of it. -/
def Go.Stmt.Labelable : Go.Stmt → Prop
  | .labeled _ s => s.Labelable
  | .block _ | .ifElse none .. | .switch none (some _) _ | .switch none none (_ :: _) | .for ..
  | .range .. => True
  | _ => False

mutual

/-- Statements whose flow is kept, if all breaks without a label are allowed or if only those are
that leave an inner loop or an inner switch with a tag. -/
def Go.Stmt.Fair (breaks : Bool) : Go.Stmt → Prop
  | .labeled _ s => s.Labelable ∧ s.Fair breaks
  | .branch .break none => breaks = true
  | .branch .goto _ | .branch .fallthrough _ | .defer _ | .unsupported _ => False
  | .block body => FairAll breaks false body
  | .ifElse init _ body alternative =>
    FairOption breaks init ∧ FairAll breaks false body ∧ FairOption breaks alternative
  | .switch init tag cs => FairOption breaks init ∧ FairCases tag.isSome cs
  | .for _ _ _ body | .range _ _ _ _ body => FairAll true false body
  | _ => True

def Go.Stmt.FairOption (breaks : Bool) : Option Go.Stmt → Prop
  | none => True
  | some s => s.Fair breaks

/-- All statements are fair; where cases fall, the last may be `fallthrough`. -/
def Go.Stmt.FairAll (breaks falls : Bool) : List Go.Stmt → Prop
  | [] => True
  | s :: ss =>
    (s.Fair breaks ∨ falls = true ∧ ss = [] ∧ ∃ label, s = .branch .fallthrough label) ∧
      FairAll breaks falls ss

/-- In a switch with a tag, cases may fall and end with a break; without a tag, they may not. -/
def Go.Stmt.FairCases (tagged : Bool) : List CaseClause → Prop
  | [] => True
  | .mk _ body :: cs => FairAll tagged tagged body ∧ FairCases tagged cs

end

theorem Go.Stmt.fair_of_mem {breaks : Bool} {ss : List Go.Stmt} (h : FairAll breaks false ss) :
    ∀ s ∈ ss, s.Fair breaks := by
  induction ss with
  | nil =>
    intro s hs
    cases hs
  | cons s ss ih =>
    intro t ht
    rcases List.mem_cons.1 ht with rfl | ht
    · exact h.1.resolve_right fun hfall => Bool.false_ne_true hfall.1
    · exact ih h.2 t ht

/-! ## Ways in which fair statements are not left -/

/-- Only cases of a switch with a tag are left like this: by falling into the next one, and by a
break if none is allowed. -/
def Exit.Barred (breaks : Bool) (e : Exit) : Prop :=
  e = .fall ∨ breaks = false ∧ e = .break none

section

variable {breaks : Bool} {e : Exit} {labels : List String}

theorem Exit.Barred.ne (h : e.Barred breaks) :
    e ≠ .next ∧ e ≠ .panic ∧ e ≠ .return ∧ (∀ l, e ≠ .continue l) ∧ ∀ l, e ≠ .break (some l) := by
  rcases h with rfl | ⟨-, rfl⟩ <;> simp

theorem Exit.of_past {x : Exit} (h : x.past labels = e) (hn : e ≠ .next) : x = e := by
  unfold Exit.past at h
  split at h
  · split at h
    · exact absurd h.symm hn
    · exact h
  · exact h

theorem Exit.of_leave {x : Exit} (h : x.leave labels = e) (hn : e ≠ .next) :
    x = e ∧ e ≠ .break none := by
  unfold Exit.leave at h
  split at h
  · exact absurd h.symm hn
  · rename_i hx
    have hsame := of_past h hn
    exact ⟨hsame, fun he => hx (hsame.trans he)⟩

variable (M : Meaning σ) (n : Nat)

/-- The statement is not left in ways that are barred. -/
def Go.Stmt.Guarded (s : Go.Stmt) : Prop :=
  ∀ (breaks : Bool) (labels : List String) (e : Exit), s.Fair breaks → e.Barred breaks →
    Flow.Never e (s.run M n labels)

theorem Go.Stmt.never_runAll {ss : List Go.Stmt} (h : ∀ s ∈ ss, s.Guarded M n)
    (hfair : FairAll breaks false ss) (he : e.Barred breaks) : Flow.Never e (runAll M n ss) := by
  induction ss with
  | nil => exact never_exit he.ne.1
  | cons s ss ih =>
    refine never_andThen (Or.inr ?_) (ih (fun t ht => h t (List.mem_cons_of_mem _ ht)) hfair.2)
    exact h s List.mem_cons_self breaks [] e (fair_of_mem hfair s List.mem_cons_self) he

theorem Go.Stmt.never_runBefore {o : Option Go.Stmt} (h : ∀ s ∈ o.toList, s.Guarded M n)
    (hfair : FairOption breaks o) (he : e.Barred breaks) : Flow.Never e (runBefore M n o) := by
  cases o with
  | none => exact never_exit he.ne.1
  | some s => exact h s List.mem_cons_self breaks [] e hfair he

theorem Meaning.never_part (o : Option Go.Stmt) (he : e.Barred breaks) :
    Flow.Never e (M.part o) := by
  cases o with
  | none => exact never_exit he.ne.1
  | some s => exact never_flow he.ne.2.1 he.ne.1

theorem Flow.never_leave {f : Flow σ} (hf : Never .fall f) (he : e.Barred breaks) :
    Never e (mapExit (·.leave labels) f) := by
  intro s t heq
  obtain ⟨⟨x, u⟩, hx, hr⟩ := Option.map_eq_some_iff.1 heq
  have hleave : x.leave labels = e := congrArg Prod.fst hr
  obtain ⟨rfl, hbreak⟩ := Exit.of_leave hleave he.ne.1
  rcases he with rfl | ⟨-, rfl⟩
  · exact hf _ _ hx
  · exact absurd rfl hbreak

theorem Flow.never_fairLoop {test : σ → Option Bool × σ} {body post : Flow σ}
    (hpost : Never e post) (hbody : Never .fall body) (he : e.Barred breaks) :
    Never e (loop labels test body post n) := by
  refine never_loop he.ne.2.1 he.ne.1 hpost (fun x hx => ?_) n
  obtain ⟨rfl, hbreak⟩ := Exit.of_leave hx he.ne.1
  rcases he with rfl | ⟨-, rfl⟩
  · exact hbody
  · exact absurd rfl hbreak

theorem Go.Stmt.guarded (s : Go.Stmt) : s.Guarded M n := by
  refine of_parts (fun s ih => ?_) s
  intro breaks labels e hfair he
  obtain ⟨hnext, hpanic, hreturn, hcontinue, hbreak⟩ := he.ne
  have hfall : Exit.fall.Barred true := Or.inl rfl
  cases s with
  | labeled label s => exact ih s List.mem_cons_self breaks _ e hfair.2 he
  | «return» values =>
    exact never_andThen (Or.inr (Meaning.never_flow hpanic hnext)) (never_exit hreturn)
  | branch kind label =>
    cases kind with
    | «break» =>
      cases label with
      | none =>
        refine never_exit ?_
        rcases he with rfl | ⟨hbreaks, -⟩
        · exact Exit.noConfusion
        · exact absurd (hbreaks.symm.trans hfair) Bool.false_ne_true
      | some label => exact never_exit (hbreak label)
    | «continue» => exact never_exit (hcontinue label)
    | goto | «fallthrough» => exact hfair.elim
  | block body =>
    exact never_mapExit (fun x hx => Exit.of_past hx hnext) (never_runAll M n ih hfair he)
  | ifElse init cond body alternative =>
    have hinit := never_runBefore M n (fun s hs => ih s (List.mem_append_left _ hs)) hfair.1 he
    have hbody := never_runAll M n (fun s hs =>
      ih s (List.mem_append_right _ (List.mem_append_left _ hs))) hfair.2.1 he
    have helse := never_runBefore M n (fun s hs =>
      ih s (List.mem_append_right _ (List.mem_append_right _ hs))) hfair.2.2 he
    exact never_andThen (Or.inr hinit) (never_mapExit
      (fun x hx => Exit.of_past hx hnext) (never_choose hpanic hbody helse))
  | switch init tag cs =>
    have hinit := never_runBefore M n (fun s hs => ih s (List.mem_append_left _ hs)) hfair.1 he
    exact never_andThen (Or.inr hinit) (never_leave
      (never_enter Exit.noConfusion Exit.noConfusion
        fun i => never_cascade _ _ Exit.noConfusion) he)
  | «for» init cond post body =>
    exact never_andThen (Or.inr (M.never_part init he)) (never_fairLoop n
      (M.never_part post he) (never_runAll M n ih hfair hfall) he)
  | range key value define iterable body =>
    exact never_andThen (Or.inr (Meaning.never_flow hpanic hnext)) (never_fairLoop n
      (never_exit hnext) (never_runAll M n ih hfair hfall) he)
  | empty => exact never_exit hnext
  | defer call | unsupported kind => exact hfair.elim
  | _ => exact Meaning.never_flow hpanic hnext

end

/-! ## Cases -/

namespace Flow

variable {f : Flow σ}

theorem mapExit_enter {h : Exit → Exit} (hp : h .panic = .panic) (hn : h .next = .next)
    (choice : σ → Option (Option Nat) × σ) (values : List (List Expr)) (from_ : Nat → Flow σ) :
    mapExit h (enter choice values from_) = enter choice values fun i => mapExit h (from_ i) := by
  funext s
  unfold mapExit enter
  split
  · simp [hp]
  · split
    · rfl
    · simp [hn]

theorem mapExit_past_nil (f : Flow σ) : mapExit (·.past []) f = f := by
  have hid : (fun r : Exit × σ => (r.1.past [], r.2)) = id := by
    funext ⟨e, t⟩
    cases e with
    | «break» label => cases label <;> simp [Exit.past]
    | _ => rfl
  funext s
  unfold mapExit
  rw [hid, Option.map_id]
  rfl

/-- The first flow runs a case of a Go switch, the second the same case of the Java switch. -/
def Matches (f g : Flow σ) : Prop := ∀ s,
  match f s with
  | none => g s = none
  | some (.next, t) => g s = some (.break none, t)
  | some (.fall, t) => g s = some (.next, t)
  | some (e, t) => g s = some (e, t)

/-- Go falls out of a case on request, and Java unless there is a break. -/
theorem cascade_of_matches {fs gs : List (Flow σ)} (h : List.Forall₂ Matches fs gs)
    (labels : List String) :
    mapExit (·.leave labels) (cascade .fall fs) = mapExit (·.leave labels) (cascade .next gs) := by
  induction h with
  | nil => rfl
  | @cons f g fs gs hfg _ ih =>
    funext s
    have hs := hfg s
    unfold mapExit cascade
    rcases hf : f s with _ | ⟨e, t⟩
    · rw [hf] at hs
      rw [hs]
    · rw [hf] at hs
      cases e with
      | next =>
        rw [hs]
        rfl
      | fall =>
        rw [hs]
        exact congrFun ih t
      | _ =>
        rw [hs]
        rfl

theorem matches_of_break (h : Never .fall f) : Matches f (andThen f (exit (.break none))) := by
  intro s
  unfold andThen
  rcases hf : f s with _ | ⟨e, t⟩
  · rfl
  · cases e with
    | fall => exact absurd hf (h s t)
    | _ => rfl

theorem matches_of_fall (h : Never .fall f) : Matches (andThen f (exit .fall)) f := by
  intro s
  unfold andThen
  rcases hf : f s with _ | ⟨e, t⟩
  · rfl
  · cases e with
    | fall => exact absurd hf (h s t)
    | _ => rfl

theorem matches_self (hn : Never .next f) (hf : Never .fall f) : Matches f f := by
  intro s
  rcases h : f s with _ | ⟨e, t⟩
  · rfl
  · cases e with
    | next => exact absurd h (hn s t)
    | fall => exact absurd h (hf s t)
    | _ => rfl

end Flow

/-! ## The flow is kept -/

/-- A call of `panic` panics. -/
def Meaning.Panics (M : Meaning σ) : Prop :=
  ∀ args spread s, (M.act (.expr (.call (.ident "panic") args spread)) s).1 = none

namespace Go.Stmt

variable (M : Meaning σ) (n : Nat) {body ss : List Go.Stmt} {cs : List CaseClause}
  {o : Option Go.Stmt}

theorem shapes_append (ss ts : List Go.Stmt) : shapes (ss ++ ts) = shapes ss ++ shapes ts := by
  induction ss with
  | nil => rfl
  | cons s ss ih =>
    show s.shape ++ shapes (ss ++ ts) = (s.shape ++ shapes ss) ++ shapes ts
    rw [ih, List.append_assoc]

theorem runAll_append (ss ts : List Go.Stmt) :
    runAll M n (ss ++ ts) = .andThen (runAll M n ss) (runAll M n ts) := by
  induction ss with
  | nil => rfl
  | cons s ss ih =>
    show andThen (s.run M n []) (runAll M n (ss ++ ts)) =
      .andThen (.andThen (s.run M n []) (runAll M n ss)) (runAll M n ts)
    rw [ih, andThen_assoc]

/-- The Java statements do what the Go statement does, whatever follows. -/
def Keeps (s : Go.Stmt) : Prop :=
  ∀ (breaks : Bool) (labels : List String) (rest : List Java.Stmt), s.Fair breaks →
    labels = [] ∨ s.Labelable →
    Java.runAll M n labels (s.shape ++ rest) =
      .andThen (s.run M n labels) (Java.runAll M n [] rest)

variable {M n} {breaks : Bool}

theorem runAll_shapes (h : ∀ s ∈ ss, s.Keeps M n) (hfair : FairAll breaks false ss)
    (rest : List Java.Stmt) : Java.runAll M n [] (shapes ss ++ rest) =
      .andThen (runAll M n ss) (Java.runAll M n [] rest) := by
  induction ss with
  | nil => rfl
  | cons s ss ih =>
    have hs := h s List.mem_cons_self breaks [] (shapes ss ++ rest)
      (fair_of_mem hfair s List.mem_cons_self) (Or.inl rfl)
    have hss := ih (fun t ht => h t (List.mem_cons_of_mem _ ht)) hfair.2
    show Java.runAll M n [] ((s.shape ++ shapes ss) ++ rest) =
      .andThen (.andThen (s.run M n []) (runAll M n ss)) _
    rw [List.append_assoc, hs, hss, andThen_assoc]

theorem runAll_shapes_nil (h : ∀ s ∈ ss, s.Keeps M n) (hfair : FairAll breaks false ss) :
    Java.runAll M n [] (shapes ss) = runAll M n ss := by
  have hss := runAll_shapes h hfair []
  rw [List.append_nil] at hss
  rw [hss]
  exact andThen_skip _

theorem runAll_beforeShape (h : ∀ s ∈ o.toList, s.Keeps M n) (hfair : FairOption breaks o)
    (rest : List Java.Stmt) : Java.runAll M n [] (beforeShape o ++ rest) =
      .andThen (runBefore M n o) (Java.runAll M n [] rest) := by
  cases o with
  | none => rfl
  | some s => exact h s List.mem_cons_self breaks [] rest hfair (Or.inl rfl)

/-- What stands alone can be told from what stands in a list. -/
theorem run_of_shape {s : Go.Stmt} {j : Java.Stmt} (h : s.Keeps M n) (hfair : s.Fair breaks)
    (hshape : s.shape = [j]) (hj : Java.runAll M n [] [j] = .andThen (j.run M n []) .skip) :
    j.run M n [] = s.run M n [] := by
  have hrun := h breaks [] [] hfair (Or.inl rfl)
  rw [List.append_nil, hshape, hj, andThen_skip] at hrun
  exact hrun.trans (andThen_skip _)

theorem run_alternativeShape (h : ∀ s ∈ o.toList, s.Keeps M n) (hfair : FairOption breaks o) :
    (alternativeShape o).run M n = runBefore M n o := by
  cases o with
  | none => rfl
  | some s =>
    have hs := h s List.mem_cons_self
    have halone : Java.runAll M n [] s.shape = s.run M n [] := by
      have hrun := hs breaks [] [] hfair (Or.inl rfl)
      rw [List.append_nil] at hrun
      rw [hrun]
      exact andThen_skip _
    cases s with
    | block body =>
      have hblock := run_of_shape hs hfair rfl rfl
      refine Eq.trans ?_ hblock
      exact (mapExit_past_nil _).symm
    | ifElse init cond body alternative =>
      cases init with
      | none => exact run_of_shape hs hfair rfl rfl
      | some init => exact halone
    | _ => exact halone

theorem fair_split {falls : Bool} (h : FairAll breaks falls body) : FairAll breaks false body ∨
      ∃ front label, body = front ++ [.branch .fallthrough label] ∧ FairAll breaks false front := by
  induction body with
  | nil => exact Or.inl trivial
  | cons s ss ih =>
    rcases h.1 with hs | ⟨-, hss, label, hs⟩
    · rcases ih h.2 with hss | ⟨front, label, rfl, hfront⟩
      · exact Or.inl ⟨Or.inl hs, hss⟩
      · exact Or.inr ⟨s :: front, label, rfl, Or.inl hs, hfront⟩
    · exact Or.inr ⟨[], label, by rw [hs, hss]; rfl, trivial⟩

theorem never_next_of_panic (hM : M.Panics) (args : List Expr) (spread : Bool) :
    Flow.Never .next (M.simple (.expr (.call (.ident "panic") args spread))) := by
  intro s t hrun
  have hpanics := hM args spread s
  unfold Meaning.simple Meaning.flow at hrun
  split at hrun
  · rename_i hact
    rw [hact] at hpanics
    cases hpanics
  · cases hrun

theorem never_next_of_last {last : Go.Stmt} (hM : M.Panics) (hfair : last.Fair breaks)
    (h : leavesCase [last] = true) : Flow.Never .next (last.run M n []) := by
  unfold leavesCase at h
  split at h
  · rename_i values heq
    cases heq
    exact never_andThen (Or.inl rfl) (never_exit Exit.noConfusion)
  · rename_i kind label heq
    cases heq
    cases kind with
    | «break» | «continue» => exact never_exit Exit.noConfusion
    | goto | «fallthrough» => exact hfair.elim
  · rename_i args spread heq
    cases heq
    exact never_next_of_panic hM args spread
  · cases h

theorem leavesCase_append (front : List Go.Stmt) (last : Go.Stmt) :
    leavesCase (front ++ [last]) = leavesCase [last] := by
  unfold leavesCase
  rw [List.getLast?_concat]
  rfl

theorem exists_last (h : leavesCase body = true) : ∃ front last, body = front ++ [last] := by
  cases body using List.reverseRecOn with
  | nil => cases h
  | append_singleton front last => exact ⟨front, last, rfl⟩

theorem never_next_of_leaves (hM : M.Panics) (hfair : FairAll breaks false body)
    (h : leavesCase body = true) : Flow.Never .next (runAll M n body) := by
  obtain ⟨front, last, rfl⟩ := exists_last h
  rw [leavesCase_append] at h
  rw [runAll_append]
  have hlast := never_next_of_last (n := n) hM
    (fair_of_mem hfair last (List.mem_append_right _ List.mem_cons_self)) h
  refine never_andThen (Or.inl rfl) ?_
  show Flow.Never .next (.andThen (last.run M n []) .skip)
  rw [andThen_skip]
  exact hlast

theorem caseEnd_of_leaves (h : leavesCase body = true) : caseEnd true body = [] := by
  unfold caseEnd
  rw [h]
  rfl

theorem caseEnd_of_stays (h : leavesCase body = false) : caseEnd true body = [.leave] := by
  unfold caseEnd
  rw [h]
  rfl

theorem matches_body (hM : M.Panics) (h : ∀ s ∈ body, s.Keeps M n)
    (hfair : FairAll true true body) :
    Flow.Matches (runAll M n body) (Java.runAll M n [] (shapes body ++ caseEnd true body)) := by
  have hfall : ∀ {front : List Go.Stmt}, FairAll true false front →
      Flow.Never .fall (runAll M n front) :=
    fun hfront => never_runAll M n (fun s _ => guarded M n s) hfront (Or.inl rfl)
  rcases fair_split hfair with hbody | ⟨front, label, rfl, hfront⟩
  · cases hleaves : leavesCase body with
    | true =>
      rw [caseEnd_of_leaves hleaves, List.append_nil, runAll_shapes_nil h hbody]
      exact matches_self (never_next_of_leaves hM hbody hleaves) (hfall hbody)
    | false =>
      rw [caseEnd_of_stays hleaves, runAll_shapes h hbody]
      have hend : Java.runAll M n [] [.leave] = .exit (.break none) := andThen_skip _
      rw [hend]
      exact matches_of_break (hfall hbody)
  · have hleaves : leavesCase (front ++ [.branch .fallthrough label]) = true :=
      leavesCase_append front _
    have hshape : shapes [.branch .fallthrough label] = [] := rfl
    have hlast : runAll M n [.branch .fallthrough label] = .exit .fall := andThen_skip _
    rw [caseEnd_of_leaves hleaves, List.append_nil, shapes_append, hshape, List.append_nil,
      runAll_append, hlast, runAll_shapes_nil (fun s hs => h s (List.mem_append_left _ hs)) hfront]
    exact matches_of_fall (hfall hfront)

theorem matches_cases (hM : M.Panics) (h : ∀ s ∈ cs.flatMap (·.body), s.Keeps M n)
    (hfair : FairCases true cs) :
    List.Forall₂ Flow.Matches (runCases M n cs) (Java.runCases M n (caseShapes true cs)) := by
  induction cs with
  | nil => exact .nil
  | cons c cs ih =>
    obtain ⟨values, body⟩ := c
    rw [List.flatMap_cons] at h
    exact .cons (matches_body hM (fun s hs => h s (List.mem_append_left _ hs)) hfair.1)
      (ih (fun s hs => h s (List.mem_append_right _ hs)) hfair.2)

theorem runCases_caseShapes (h : ∀ s ∈ cs.flatMap (·.body), s.Keeps M n)
    (hfair : FairCases false cs) : Java.runCases M n (caseShapes false cs) = runCases M n cs := by
  induction cs with
  | nil => rfl
  | cons c cs ih =>
    obtain ⟨values, body⟩ := c
    rw [List.flatMap_cons] at h
    have hbody : Java.runAll M n [] (shapes body) = runAll M n body :=
      runAll_shapes_nil (fun s hs => h s (List.mem_append_left _ hs)) hfair.1
    show Java.runAll M n [] (shapes body ++ []) :: Java.runCases M n (caseShapes false cs) =
      runAll M n body :: runCases M n cs
    rw [List.append_nil, hbody, ih (fun s hs => h s (List.mem_append_right _ hs)) hfair.2]

theorem values_caseShapes (tagged : Bool) (cs : List CaseClause) :
    (caseShapes tagged cs).map (·.values) = cs.map (·.values) := by
  induction cs with
  | nil => rfl
  | cons c cs ih =>
    obtain ⟨values, body⟩ := c
    exact congrArg (values :: ·) ih

theorem run_switch {tag : Expr} (hM : M.Panics) (h : ∀ s ∈ cs.flatMap (·.body), s.Keeps M n)
    (hfair : FairCases true cs) (labels : List String) :
    (Java.Stmt.switch tag (caseShapes true cs)).run M n labels =
      .mapExit (·.leave labels) (.enter (M.chosen (some tag) (cs.map (·.values)))
        (cs.map (·.values)) fun i => .cascade .fall ((runCases M n cs).drop i)) := by
  have hcases := matches_cases hM h hfair
  show mapExit _ (.enter (M.chosen _ ((caseShapes true cs).map (·.values)))
    ((caseShapes true cs).map (·.values)) _) = _
  rw [values_caseShapes, mapExit_enter rfl rfl, mapExit_enter rfl rfl]
  refine congrArg _ (funext fun i => ?_)
  exact (cascade_of_matches (List.forall₂_drop i hcases) labels).symm

/-- A case of a chain is run alone, and is left as it is. -/
theorem mapExit_case {fs : List (Flow σ)} (hfall : ∀ f ∈ fs, Flow.Never .fall f)
    (hbreak : ∀ f ∈ fs, Flow.Never (.break none) f) (labels : List String) (i : Nat) :
    mapExit (·.past labels) (fs[i]?.getD .skip) =
      .mapExit (·.leave labels) (.cascade .fall (fs.drop i)) := by
  by_cases hi : i < fs.length
  · rw [List.getElem?_eq_getElem hi, Option.getD_some, List.drop_eq_getElem_cons hi]
    have hmem := List.getElem_mem hi
    funext s
    unfold mapExit cascade
    rcases hf : fs[i] s with _ | ⟨e, t⟩
    · rfl
    · have he : e ≠ .fall := fun he => hfall _ hmem s t (by rw [hf, he])
      have hleave : e.leave labels = e.past labels := by
        cases e with
        | «break» label =>
          cases label with
          | none => exact absurd hf (hbreak _ hmem s t)
          | some label => rfl
        | _ => rfl
      simp only [if_neg he, Option.map_some, hleave]
  · have hout : fs.length ≤ i := Nat.le_of_not_lt hi
    rw [List.getElem?_eq_none hout, List.drop_eq_nil_of_le hout]
    rfl

theorem never_runCases {e : Exit} (hfair : FairCases false cs) (he : e.Barred false) :
    ∀ f ∈ runCases M n cs, Flow.Never e f := by
  induction cs with
  | nil =>
    intro f hf
    cases hf
  | cons c cs ih =>
    obtain ⟨values, body⟩ := c
    intro f hf
    rcases List.mem_cons.1 hf with rfl | hf
    · exact never_runAll M n (fun s _ => guarded M n s) hfair.1 he
    · exact ih hfair.2 f hf

theorem run_conditions (h : ∀ s ∈ cs.flatMap (·.body), s.Keeps M n) (hfair : FairCases false cs)
    (labels : List String) : (Java.Stmt.conditions (caseShapes false cs)).run M n labels =
      .mapExit (·.leave labels) (.enter (M.chosen none (cs.map (·.values)))
        (cs.map (·.values)) fun i => .cascade .fall ((runCases M n cs).drop i)) := by
  show mapExit _ (.enter (M.chosen _ ((caseShapes false cs).map (·.values)))
    ((caseShapes false cs).map (·.values)) fun i =>
      (Java.runCases M n (caseShapes false cs))[i]?.getD .skip) = _
  rw [values_caseShapes, runCases_caseShapes h hfair, mapExit_enter rfl rfl, mapExit_enter rfl rfl]
  refine congrArg _ (funext fun i => ?_)
  exact mapExit_case (never_runCases hfair (Or.inl rfl)) (never_runCases hfair (Or.inr ⟨rfl, rfl⟩))
    labels i

/-- A label belongs to the statement itself unless another one stands before it. -/
theorem runAll_after {init : Option Go.Stmt} {labels : List String} (j : Java.Stmt)
    (rest : List Java.Stmt) (h : ∀ s ∈ init.toList, s.Keeps M n) (hfair : FairOption breaks init)
    (hlabels : labels = [] ∨ init = none) (hj : Java.runAll M n labels (j :: rest) =
      .andThen (j.run M n labels) (Java.runAll M n [] rest)) :
    Java.runAll M n labels ((beforeShape init ++ [j]) ++ rest) =
      .andThen (.andThen (runBefore M n init) (j.run M n labels)) (Java.runAll M n [] rest) := by
  cases init with
  | none => exact hj
  | some s =>
    obtain rfl : labels = [] := hlabels.resolve_right (Option.some_ne_none s)
    rw [List.append_assoc, runAll_beforeShape h hfair, andThen_assoc]
    exact congrArg _ hj

theorem keeps (hM : M.Panics) (s : Go.Stmt) : s.Keeps M n := by
  refine of_parts (fun s ih => ?_) s
  intro breaks labels rest hfair hlabels
  cases s with
  | labeled label s =>
    exact ih s List.mem_cons_self breaks (label :: labels) rest hfair.2 (Or.inr hfair.1)
  | block body =>
    have hbody : Java.runAll M n [] (shapes body) = runAll M n body := runAll_shapes_nil ih hfair
    show andThen (.mapExit _ (Java.runAll M n [] (shapes body))) _ = _
    rw [hbody]
    rfl
  | ifElse init cond body alternative =>
    have hbody : Java.runAll M n [] (shapes body) = runAll M n body :=
      runAll_shapes_nil (fun s hs =>
        ih s (List.mem_append_right _ (List.mem_append_left _ hs))) hfair.2.1
    have helse : (alternativeShape alternative).run M n = runBefore M n alternative :=
      run_alternativeShape (fun s hs =>
        ih s (List.mem_append_right _ (List.mem_append_right _ hs))) hfair.2.2
    have hinit : labels = [] ∨ init = none := by
      cases init with
      | none => exact Or.inr rfl
      | some _ => exact Or.inl (hlabels.resolve_right id)
    have hj : (Java.Stmt.ifElse cond (shapes body) (alternativeShape alternative)).run M n labels =
        .mapExit (·.past labels)
          (.choose (M.test cond) (runAll M n body) (runBefore M n alternative)) := by
      rw [← hbody, ← helse]
      rfl
    have hwhole := runAll_after (.ifElse cond (shapes body) (alternativeShape alternative)) rest
      (fun s hs => ih s (List.mem_append_left _ hs)) hfair.1 hinit rfl
    rw [hj] at hwhole
    exact hwhole
  | switch init tag cs =>
    have hcs : ∀ s ∈ cs.flatMap (·.body), s.Keeps M n :=
      fun s hs => ih s (List.mem_append_right _ hs)
    have hbefore : ∀ s ∈ init.toList, s.Keeps M n := fun s hs => ih s (List.mem_append_left _ hs)
    have hinit : labels = [] ∨ init = none := by
      cases init with
      | none => exact Or.inr rfl
      | some _ => exact Or.inl (hlabels.resolve_right (by cases tag <;> exact id))
    cases tag with
    | some tag =>
      have hwhole := runAll_after (.switch tag (caseShapes true cs)) rest hbefore hfair.1 hinit rfl
      rw [run_switch hM hcs hfair.2] at hwhole
      exact hwhole
    | none =>
      cases cs with
      | nil =>
        have hnone : labels = [] := hlabels.resolve_right (by cases init <;> exact id)
        rw [hnone]
        show _ = andThen (.andThen (runBefore M n init) .skip) _
        rw [andThen_skip]
        exact runAll_beforeShape hbefore hfair.1 rest
      | cons c cs =>
        have hwhole := runAll_after (.conditions (caseShapes false (c :: cs))) rest hbefore
          hfair.1 hinit rfl
        rw [run_conditions hcs hfair.2] at hwhole
        exact hwhole
  | «for» init cond post body | range key value define iterable body =>
    have hbody : Java.runAll M n [] (shapes body) = runAll M n body := runAll_shapes_nil ih hfair
    show andThen (.andThen _ (.loop labels _ (Java.runAll M n [] (shapes body)) _ n)) _ = _
    rw [hbody]
    rfl
  | empty =>
    rw [hlabels.resolve_right id]
    rfl
  | branch kind label =>
    cases kind with
    | «break» => rfl
    | «continue» => rfl
    | goto | «fallthrough» => exact hfair.elim
  | defer call | unsupported kind => exact hfair.elim
  | _ => rfl

end Go.Stmt

end GoToJava
