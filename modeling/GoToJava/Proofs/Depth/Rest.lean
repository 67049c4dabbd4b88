import GoToJava.Proofs.Depth.Bounds
import GoToJava.Proofs.Members.Forms
import GoToJava.Proofs.Methods.Once

/-!
Programs at rest. The counter is at zero between any two questions about types, and no constant is
numbered between any two commands.
-/

namespace GoToJava

open Go (Expr Field File FuncDecl)
open Emit Program

/-! ## Questions -/

/-- What is asked about types while a program is written. -/
inductive Question where
  | written (style : Style) (type : Expr)
  | writtenNow (style : Style) (type : Expr)
  | inferred (style : Style) (e : Expr)
  | source (e : Expr)

namespace Question

def plain : Question → Emit Unit
  | written style type => writeType style type
  | writtenNow style type => writeTypeNow style type
  | inferred style e => discard (infer style e)
  | source e => discard (sourceType e)

/-- The question with a counter. No more names and questions may be followed one in the other than
the bound says. -/
def counted : Question → Counted Unit
  | written style type => Counted.writeType (maxDepth + 1) style type
  | writtenNow style type =>
    Counted.now (fun target style => Counted.writeType maxDepth style target) style type
  | inferred style e => discard (Counted.infer (maxDepth + 1) style e)
  | source e => discard (Counted.source (Counted.infer (maxDepth + 1)) e)

theorem counts_discard {α : Type} {n : Nat} {x : Emit α} {y : Counted α} (h : Counts n x y) :
    Counts n (discard x) (discard y) := by
  intro place desk peak
  obtain ⟨peak', hle, hmax, hy⟩ := h place desk peak
  refine ⟨peak', hle, hmax, ?_⟩
  have hmap : discard y place desk ⟨n, peak⟩ =
      (y place desk ⟨n, peak⟩).map fun r => (((), r.1.2), r.2) := by
    show (y place desk ⟨n, peak⟩).bind _ = _
    cases y place desk ⟨n, peak⟩ with
    | none => rfl
    | some r => rfl
  rw [hmap, hy]
  rfl

/-- Any question may be asked when none is being followed. -/
theorem counts (question : Question) : Counts 0 question.plain question.counted := by
  have htype := Counted.counts_writeTypeAt maxDepth (maxDepth + 1) 0 (Nat.zero_add _)
    (Nat.lt_succ_self _)
  have hinfer := Counted.counts_inferAt maxDepth (maxDepth + 1) 0 (Nat.zero_add _)
    (Nat.lt_succ_self _)
  cases question with
  | written style type => exact htype style type
  | writtenNow style type =>
    have hnext := Counted.counts_writeTypeAt (maxDepth - 1) maxDepth 1 rfl
      (by decide)
    exact Counted.counts_now (.below (by decide) fun target style => hnext style target) style type
  | inferred style e => exact counts_discard (hinfer style e)
  | source e => exact counts_discard (Counted.counts_source hinfer e)

/-- The gauge after a question that was asked somewhere. -/
def gauge (before : Gauge) (asked : Question × Place × Desk) : Option Gauge :=
  (asked.1.counted asked.2.1 asked.2.2 before).map (·.2)

theorem gauges (questions : List (Question × Place × Desk)) {peak : Nat} (hpeak : peak ≤ maxDepth) :
    ∃ peak' ≤ maxDepth, questions.foldlM gauge ⟨0, peak⟩ = some ⟨0, peak'⟩ := by
  induction questions generalizing peak with
  | nil => exact ⟨peak, hpeak, rfl⟩
  | cons asked questions ih =>
    obtain ⟨question, place, desk⟩ := asked
    obtain ⟨peak₁, -, hmax, hrun⟩ := question.counts place desk peak
    have hpeak₁ : peak₁ ≤ maxDepth := by omega
    obtain ⟨peak₂, hpeak₂, hrest⟩ := ih hpeak₁
    refine ⟨peak₂, hpeak₂, ?_⟩
    have hfirst : gauge ⟨0, peak⟩ (question, place, desk) = some ⟨0, peak₁⟩ := by
      unfold gauge
      rw [hrun]
      rfl
    rw [List.foldlM_cons, hfirst]
    exact hrest

end Question

/-! ## Names -/

namespace Program

/-- What a type stands for, as far as that is one step. -/
def follow (p : Program) (type : Expr) : Expr := (p.target? type).getD type

/-- Names are followed one after the other until one stands for itself, or the bound is reached. -/
theorem unalias_go_follow (p : Program) (depth : Nat) (type : Expr) :
    ∃ n ≤ depth, unalias.go p depth type = p.follow^[n] type ∧
      (∀ k < n, (p.target? (p.follow^[k] type)).isSome) ∧
      (n < depth → p.target? (unalias.go p depth type) = none) := by
  induction depth generalizing type with
  | zero => exact ⟨0, Nat.le_refl _, rfl, by simp, by simp⟩
  | succ depth ih =>
    rw [unalias_go_succ]
    cases htarget : p.target? type with
    | none => exact ⟨0, Nat.zero_le _, rfl, by simp, fun _ => htarget⟩
    | some target =>
      have hfollow : p.follow type = target := by
        unfold follow
        rw [htarget]
        rfl
      obtain ⟨n, hn, hgo, hsteps, hend⟩ := ih target
      refine ⟨n + 1, by omega, ?_, fun k hk => ?_, fun hlt => hend (by omega)⟩
      · rw [Function.iterate_succ_apply, hfollow]
        exact hgo
      · cases k with
        | zero =>
          show (p.target? type).isSome
          rw [htarget]
          rfl
        | succ k =>
          rw [Function.iterate_succ_apply, hfollow]
          exact hsteps k (by omega)

/-! ## Constants -/

theorem iota_discovered (calls : List Call) : (discovered calls).iota = none :=
  (accounted_discovered calls).1.iota

theorem iota_settle_discovered (calls : List Call) : (discovered calls).settle.iota = none := by
  -- The imports are written last, and they are only written.
  obtain ⟨drafts, refused, himported⟩ :=
    rest_imported (discovered calls) (discovered calls).filled.units.size
  rw [settle_eq_imported, himported]
  exact (settled_filled (accounted_discovered calls).1).iota

/-- Whatever is asked of a program, no constant is numbered when it is done. -/
theorem iota_reached (commands : List Command) : (reached commands).iota = none := by
  obtain ⟨calls, houtcome⟩ := outcome_reached commands
  cases houtcome with
  | growing h => rw [h, iota_discovered]
  | final h => rw [h, iota_settle_discovered]
  | flat h =>
    rw [h.rest]
    exact iota_settle_discovered calls

/-- Types are written and found whatever names and variables stand for, in a circle or not. With no
more names and questions followed one in the other than the bound leaves, the counter never exceeds
the bound, ends where it began and does nothing to the text. So it is at zero between any questions,
and no constant is numbered between any commands. -/
theorem questions_end_where_they_began :
    (∀ level ≤ maxDepth, ∀ nesting > maxDepth - level, ∀ style e,
      Counts level (writeTypeAt (maxDepth - level) style e) (Counted.writeType nesting style e) ∧
      Counts level (inferAt (maxDepth - level) style e) (Counted.infer nesting style e) ∧
      Counts level (Inference.source (inferAt (maxDepth - level)) e)
        (Counted.source (Counted.infer nesting) e)) ∧
    (∀ question : Question, Counts 0 question.plain question.counted) ∧
    (∀ (p : Program) type, ∃ n ≤ maxDepth, p.unalias type = p.follow^[n] type ∧
      (∀ k < n, (p.target? (p.follow^[k] type)).isSome) ∧
      (n < maxDepth → p.target? (p.unalias type) = none)) ∧
    (∀ questions : List (Question × Place × Desk),
      ∃ peak ≤ maxDepth, questions.foldlM Question.gauge ⟨0, 0⟩ = some ⟨0, peak⟩) ∧
    ∀ commands, (reached commands).iota = none := by
  refine ⟨fun level hlevel nesting hnesting style e => ?_, Question.counts,
    fun p type => p.unalias_go_follow maxDepth type, fun questions => ?_, iota_reached⟩
  · have hroom : level + (maxDepth - level) = maxDepth := Nat.add_sub_cancel' hlevel
    have hinfer := Counted.counts_inferAt (maxDepth - level) nesting level hroom hnesting
    exact ⟨Counted.counts_writeTypeAt _ nesting level hroom hnesting style e, hinfer style e,
      Counted.counts_source hinfer e⟩
  · exact Question.gauges questions (Nat.zero_le _)

/-- Two names that stand for each other, and a variable that is bound to a sum with itself. -/
def circular : Program :=
  { phase := .finalization
    typeNames := .ofList [("A", .ident "B"), ("B", .ident "A")]
    scopes := ⟨#[{ vars := .ofList [("x", .binary (.ident "x") .add (.ident "x"))] }]⟩ }

set_option maxRecDepth 4000 in
theorem circular_names_are_followed_up_to_the_bound :
    let place : Place := { draft := 0, unit := 0, scope := 0 }
    let names := Counted.writeType (maxDepth + 1) {} (.ident "A") place ⟨circular, false⟩ ⟨0, 0⟩
    let sums := Counted.infer (maxDepth + 1) {} (.ident "x") place ⟨circular, false⟩ ⟨0, 0⟩
    ((∃ peak, 0 ≤ peak ∧ peak ≤ max 0 maxDepth ∧
        names = some (writeTypeAt maxDepth {} (.ident "A") place ⟨circular, false⟩, ⟨0, peak⟩)) ∧
      ∃ peak, 0 ≤ peak ∧ peak ≤ max 0 maxDepth ∧
        sums = some (inferAt maxDepth {} (.ident "x") place ⟨circular, false⟩, ⟨0, peak⟩)) ∧
      names.map (·.2.peak) = some maxDepth ∧ sums.map (·.2.peak) = some maxDepth := by
  have hall := questions_end_where_they_began.1 0 (Nat.zero_le _) (maxDepth + 1)
    (Nat.lt_succ_self _)
  refine ⟨⟨(hall {} (.ident "A")).1 _ _ 0, (hall {} (.ident "x")).2.1 _ _ 0⟩, ?_, ?_⟩
  · decide +kernel
  · decide +kernel

end Program

end GoToJava
