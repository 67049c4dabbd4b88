import GoToJava.Proofs.Program.Steps

/-!
Local variables. Functions and methods bind variables in scopes of their own, and so do the tasks
they leave: what other functions and packages know of variables stays as it was.
-/

namespace GoToJava

open Go (Expr FuncDecl)
open Emit Program

/-! ## Scopes that stay -/

/-- The first `n` scopes are the same. -/
structure Scopes.Spares (n : Nat) (s t : Scopes) : Prop where
  next : s.next ≤ t.next
  scope : ∀ i < n, t.scopes[i]? = s.scopes[i]?

namespace Scopes

variable {n scope : Nat} {s t : Scopes}

theorem Spares.refl (n : Nat) (s : Scopes) : s.Spares n s := ⟨Nat.le_refl _, fun _ _ => rfl⟩

theorem Spares.trans {u : Scopes} (h : s.Spares n t) (h' : t.Spares n u) : s.Spares n u :=
  ⟨Nat.le_trans h.next h'.next, fun i hi => (h'.scope i hi).trans (h.scope i hi)⟩

theorem spares_setVar (s : Scopes) (name : String) (type : Expr) (h : n ≤ scope) :
    s.Spares n (s.setVar scope name type) := by
  refine ⟨by simp [setVar, next], fun i hi => ?_⟩
  unfold setVar
  rw [Array.getElem?_modify, if_neg (by omega)]

theorem spares_new (s : Scopes) (parent : Option Nat) (h : n ≤ s.next) :
    s.Spares n (s.new parent) := by
  refine ⟨by simp [new, next], fun i hi => ?_⟩
  unfold new next at *
  rw [Array.getElem?_push, if_neg (by omega)]

theorem spares_bind (s : Scopes) (vars : List (String × Expr)) (h : n ≤ scope) :
    s.Spares n (vars.foldl (fun s (name, type) => s.setVar scope name type) s) := by
  induction vars generalizing s with
  | nil => exact .refl n s
  | cons v vars ih => exact (s.spares_setVar v.1 v.2 h).trans (ih _)

/-- What is looked for in scopes that stay is found as before. -/
theorem Spares.var (h : s.Spares n t) (scope : Nat) (name : String) (hscope : scope < n) :
    t.var scope name = s.var scope name := by
  induction scope using Nat.strongRecOn with
  | ind scope ih =>
    have hhere : t.scopes.getD scope {} = s.scopes.getD scope {} := by
      simp only [Array.getD_eq_getD_getElem?, h.scope scope hscope]
    unfold Scopes.var
    rw [hhere]
    dsimp only
    split
    · rfl
    · split
      · split
        · rename_i parent _ hparent
          exact ih parent hparent (Nat.lt_trans hparent hscope)
        · rfl
      · rfl

end Scopes

/-! ## Writing -/

/-- What is bound from a task is bound in a newer scope. -/
def Pending.Local (n : Nat) (t : Pending) : Prop := t.task.Binds → n ≤ t.cursor.place.scope

namespace Program

/-- The first `n` scopes stay as they are, and so they will while tasks are run that were left
meanwhile. -/
structure Spares (n : Nat) (p q : Program) : Prop where
  scopes : p.scopes.Spares n q.scopes
  tasks : ∀ h t, (q.drafts.hole h).task = some t → (p.drafts.hole h).task = some t ∨ t.Local n

variable {n : Nat} {p q r : Program}

theorem Spares.trans (h : p.Spares n q) (h' : q.Spares n r) : p.Spares n r :=
  ⟨h.scopes.trans h'.scopes, fun k t ht => (h'.tasks k t ht).elim (h.tasks k t) .inr⟩

theorem spares_of_eq (hs : q.scopes = p.scopes) (hd : q.drafts.holes = p.drafts.holes) :
    p.Spares n q := by
  refine ⟨hs ▸ .refl n _, fun k t ht => .inl ?_⟩
  unfold Drafts.hole at ht ⊢
  rwa [hd] at ht

theorem Spares.refl (n : Nat) (p : Program) : p.Spares n p := spares_of_eq rfl rfl

theorem spares_write (p : Program) (draft : Nat) (text : String) :
    p.Spares n (p.write draft text) := by
  rw [write_eq]
  refine spares_of_eq rfl ?_
  split <;> rfl

theorem spares_reserve (p : Program) (draft : Nat) {task : Option Pending}
    (h : ∀ t ∈ task, t.Local n) :
    p.Spares n { p with drafts := p.drafts.reserve draft task } := by
  refine ⟨.refl n _, fun k t ht => ?_⟩
  rw [Drafts.hole_reserve] at ht
  split at ht
  · exact .inr (h t ht)
  · exact .inl ht

theorem spares_note (p : Program) (cursor : Cursor) (note : Note)
    (h : p.scopes.Spares n (note.make cursor p).scopes) : p.Spares n (note.make cursor p) := by
  have hdrafts : (note.make cursor p).drafts = p.drafts := by
    cases note with
    | package name =>
      dsimp only [Note.make]
      split <;> rfl
    | _ => rfl
  exact ⟨h, (spares_of_eq (p := p) (q := { p with drafts := (note.make cursor p).drafts }) rfl
    (by rw [hdrafts])).tasks⟩

theorem spares_of_jots {α : Type} {x : Emit α} (h : Jots (fun _ => False) x) (place : Place)
    (desk : Desk) : desk.program.Spares n (x place desk).2.program := by
  induction h generalizing place desk with
  | bind _ _ ihx ihf => exact (ihx place desk).trans (ihf _ place _)
  | read _ ih => exact ih place place desk
  | print | newline => exact spares_write desk.program place.draft _
  | pure | owe => exact .refl n _
  | @reserve owed task h =>
    cases task with
    | none => exact spares_reserve _ _ fun _ h => nomatch h
    | some t => exact (h t rfl).elim

theorem spares_typeUnit (p : Program) (place : Place) (name : String) :
    p.Spares n (p.typeUnit place name).2 := by
  cases hid : p.unitIndex.get? (unitKey (p.unit (p.unit place.unit).packageUnit).dir name) with
  | none =>
    rw [typeUnit_of_none hid]
    have hnew : p.Spares n (p.newTypeUnit place.unit name) := spares_of_eq rfl rfl
    exact hnew.trans ((spares_of_jots (jots_start _ (.pure ())) _ ⟨_, true⟩).trans
      (spares_of_eq rfl rfl))
  | some id =>
    unfold typeUnit
    dsimp only
    rw [hid]
    exact .refl n p

end Program

/-- Variables may be bound in scopes from the number `n` on. -/
def Outlook.locals (n : Nat) : Chronicle .free where
  fits K place p := n ≤ p.scopes.next ∧ (K.binds → n ≤ place.scope) ∧ ∀ s, K.opened s → n ≤ s
  tells _ := Program.Spares n
  refl _ := .refl n _
  trans _ := .trans
  stays hp h := ⟨Nat.le_trans hp.1 h.scopes.next, hp.2⟩
  knows hp := ⟨trivial, sees_of_loose _ False.elim _, hp⟩
  steer {K place p f binds} hf hp := by
    refine ⟨⟨hp.1, fun hb => ?_, hp.2.2⟩, fun _ => id⟩
    rcases hf.home place with ⟨-, ⟨hsame, hbinds⟩ | hopened⟩ | ⟨-, -, hnot⟩
    · rw [hsame]
      exact hp.2.1 (hbinds hb)
    · exact hp.2.2 _ hopened
    · exact absurd hb hnot
  does {K place p q} hp h := by
    cases h with
    | write text => exact p.spares_write _ _
    | @note note h owed =>
      refine p.spares_note _ note ?_
      cases note with
      | var scope name type => exact p.scopes.spares_setVar name type (hp.2.2 scope h.1)
      | newScope => exact h.elim
      | package name =>
        dsimp only [Note.make]
        split <;> exact .refl n _
      | _ => exact .refl n _
    | var hb name type owed =>
      exact p.spares_note _ _ (p.scopes.spares_setVar name type (hp.2.1 hb))
    | scope hd inner vars owed =>
      exact p.spares_note _ _ ((p.scopes.spares_new _ hp.1).trans (Scopes.spares_bind _ vars hp.1))
    | hole => exact p.spares_reserve _ fun _ h => nomatch h
    | task hb =>
      refine p.spares_reserve _ ?_
      rintro t ⟨⟩
      exact fun h => hp.2.1 (hb h)
    | register => exact spares_of_eq rfl rfl
  opening {K place p q} _ hp hq := by
    refine ⟨hq.1, hq.2.1, ?_⟩
    rintro s (hs | rfl)
    · exact hq.2.2 s hs
    · exact hp.1
  enrolled _ hq := hq
  goes {K K' place p p' c} hp h := by
    cases h with
    | look =>
      have hnew : p.Spares n { p with drafts := p.drafts.new } := spares_of_eq rfl rfl
      exact ⟨hp, fun _ => hnew.trans⟩
    | methods | implementing => exact ⟨⟨hp.1, False.elim, hp.2.2⟩, fun _ => id⟩
    | @typeUnit name =>
      have hunit := p.spares_typeUnit (n := n) place name
      exact ⟨⟨Nat.le_trans hp.1 hunit.scopes.next, False.elim, hp.2.2⟩, fun _ => hunit.trans⟩

namespace Conversion

/-- How a function or method is converted: as it is declared, after it has waited for its class, or
as a function with its receiver for a parameter. -/
inductive Converts (decl : FuncDecl) : Emit Unit → Prop
  | declared : Converts decl (Conversion.decl (.func decl))
  | released (waiting cls : Nat) :
      Converts decl (Forms.method decl cls (bodyOf (releaseAt waiting) decl))
  | static : Converts decl (staticMethod decl)

theorem parallel_of_converts {decl : FuncDecl} {x : Emit Unit} (h : Converts decl x) :
    Parallel .free { cls := fun _ => True } [] [] Eq x x := by
  have hobeys := Go.FuncDecl.obeys_of_lax Go.Rules.lax_free decl
  have hspelled : decl.Spelled (Plain False) :=
    Go.FuncDecl.spelled_of_all (fun _ => False.elim) decl
  cases h with
  | declared =>
    exact scripted_func trivial (fun _ => .inl trivial) (fun _ h => h) trivial hobeys hspelled _ _
  | released waiting cls =>
    exact Forms.parallel_method trivial trivial hspelled trivial
      (scripted_bodyOf (free_releaseAt waiting) hobeys hspelled)
  | static =>
    exact scripted_staticMethod trivial (fun _ => .inl trivial) (fun _ h => h) trivial hobeys
      hspelled _ _

end Conversion

/-- Functions and methods bind variables in scopes of their own: all scopes that were there before
stay as they are, whatever is written, and so they do while a task is run that was left meanwhile,
whenever it is run. What is looked for from these scopes is found as before. -/
theorem local_variables_stay_local {decl : FuncDecl} {x : Emit Unit}
    (hx : Conversion.Converts decl x) (p : Program) (cursor : Cursor) :
    let q := (p.emit cursor x).2
    (∀ s < p.scopes.next, q.scopes.scopes[s]? = p.scopes.scopes[s]? ∧
      ∀ name, q.scopes.var s name = p.scopes.var s name) ∧
    ∀ h t, (q.drafts.hole h).task = some t → (p.drafts.hole h).task ≠ some t →
      ∀ r : Program, p.scopes.next ≤ r.scopes.next →
        let r' := (r.emit t.cursor (Conversion.run fill.release t.task)).2
        ∀ s < p.scopes.next, r'.scopes.scopes[s]? = r.scopes.scopes[s]? ∧
          ∀ name, r'.scopes.var s name = r.scopes.var s name := by
  intro q
  have hspared : ∀ {p q : Program} {n : Nat}, p.Spares n q → ∀ s < n,
      q.scopes.scopes[s]? = p.scopes.scopes[s]? ∧ ∀ name,
        q.scopes.var s name = p.scopes.var s name :=
    fun h s hs => ⟨h.scopes.scope s hs, fun name => h.scopes.var s name hs⟩
  have hq : p.Spares p.scopes.next q :=
    ((Outlook.locals _).tells_of_parallel (Conversion.parallel_of_converts hx)
      ⟨Nat.le_refl _, False.elim, fun _ => False.elim⟩ cursor.owed).1
  refine ⟨hspared hq, fun h t ht hnew r hr => hspared ?_⟩
  have hlocal := (hq.tasks h t ht).resolve_left hnew
  have hrun : Parallel .free { binds := t.task.Binds } [] [] Eq
      (Conversion.run fill.release t.task) (Conversion.run fill.release t.task) :=
    Conversion.parallel_run trivial (Conversion.free_releaseAt 0)
      (Task.obeys_of_lax Go.Rules.lax_free _) (Task.spelled_of_all (fun _ => False.elim) _) id
  exact ((Outlook.locals _).tells_of_parallel hrun ⟨hr, hlocal, fun _ => False.elim⟩
    t.cursor.owed).1

/-- A function with a variable that has the name of one of its package. -/
def shadowing : FuncDecl where
  receiver := none
  name := "reset"
  sig := .mk [] []
  body := some [.assign [.ident "total"] .define [.lit .string "\"none\""]]

/-- A program of one unit with the variable of the package. -/
def totals : Program :=
  { drafts := Drafts.new {}
    units := #[default]
    scopes := (Scopes.new {} none).setVar 0 "total" (.ident "int") }

/-- The variable of the function is put off, and bound in the second scope when its task is run. The
one of the package stays. -/
theorem shadowed_total_stays :
    let q := (totals.emit default (Conversion.decl (.func shadowing))).2
    q.scopes.var 0 "total" = some (.ident "int") ∧ ∃ t, (q.drafts.hole 0).task = some t ∧
      let r := (q.emit t.cursor (Conversion.run fill.release t.task)).2
      r.scopes.scopes[1]?.map (·.vars.contains "total") = some true ∧
        r.scopes.var 0 "total" = some (.ident "int") := by
  intro q
  have hscope : 0 < totals.scopes.next := by decide
  have htotal : totals.scopes.var 0 "total" = some (.ident "int") := by
    unfold Scopes.var
    rfl
  obtain ⟨hstays, htasks⟩ := local_variables_stay_local (@Conversion.Converts.declared shadowing)
    totals default
  have hq : q.scopes.var 0 "total" = some (.ident "int") := ((hstays 0 hscope).2 _).trans htotal
  have hbinds : (q.drafts.hole 0).task.map (fun t =>
      (q.emit t.cursor (Conversion.run fill.release t.task)).2.scopes.scopes[1]?.map
        (·.vars.contains "total")) = some (some true) := by decide +kernel
  obtain ⟨t, ht, hbound⟩ := Option.map_eq_some_iff.1 hbinds
  have hnew : (totals.drafts.hole 0).task ≠ some t := nofun
  have hrun := ((htasks 0 t ht hnew q (by decide +kernel)) 0 hscope).2 "total"
  exact ⟨hq, t, ht, hbound, hrun.trans hq⟩

end GoToJava
