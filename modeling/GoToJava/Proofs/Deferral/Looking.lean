import GoToJava.Proofs.Deferral.Lines
import GoToJava.Proofs.Formula.Assignments

/-!
Texts of parts. Whatever is written at a place can be taken apart into the texts of its parts, and
what is only looked at meanwhile makes no difference.
-/

namespace GoToJava

open Go (Expr)
open Emit Program

variable {α β : Type}

/-! ## Texts of parts -/

theorem exists_adds {x : Emit Unit} (hx : Inline x) (ht : Takes (fun _ _ => True) x)
    {place : Place} {desk : Desk} (hopen : desk.program.Open place.draft) :
    ∃ text, AddsAt place desk x text := by
  obtain ⟨p, owed⟩ := desk
  cases owed with
  | false =>
    obtain ⟨hopened, text, htext⟩ := goesOn_of_takes ht hopen
    refine ⟨text, hopened, hx.rests place _, htext.trans ?_⟩
    exact congrArg (p.drafts.text place.draft ++ ·) (String.empty_append).symm
  | true =>
    -- The indentation may as well stand there already.
    have hpaid := hx.pays place p hopen.known
    have hstill := (goesOn_write hopen place.draft (Emit.margin place)).opened
    obtain ⟨hopened, text, htext⟩ := goesOn_of_steps hstill
      (ht place ⟨p.write place.draft (Emit.margin place), false⟩)
    rw [← hpaid] at hopened htext
    refine ⟨text, hopened, hx.rests place _, htext.trans ?_⟩
    rw [write_of_open _ hopen.unjoined]
    refine (congrArg (· ++ text) (Drafts.text_put_self _ _ hopen.known)).trans ?_
    rw [String.append_assoc]
    rfl

/-- The action writes the text of a value between two others. -/
structure Encloses (place : Place) (desk : Desk) (x value : Emit Unit)
    (before text after : String) : Prop where
  opened : (x.result place desk).2.program.Open place.draft
  written : (x.result place desk).2.program.drafts.text place.draft =
    desk.program.drafts.text place.draft ++
      (indentation place desk.owed ++ (before ++ (text ++ after)))
  /-- The text is that of the value where it stands. -/
  value : ∃ mid : Desk, mid.program.drafts.text place.draft ++ indentation place mid.owed =
      desk.program.drafts.text place.draft ++ (indentation place desk.owed ++ before) ∧
    AddsAt place mid value text

section

variable {place : Place} {desk : Desk} {x y value : Emit Unit} {s before text after : String}

theorem encloses_self (h : AddsAt place desk value text) :
    Encloses place desk value value "" text "" := by
  refine ⟨h.opened, ?_, desk, ?_, h⟩
  · rw [h.written, String.empty_append, String.append_empty]
  · rw [String.append_empty]

theorem encloses_congr (h : x.result place desk = y.result place desk)
    (hy : Encloses place desk y value before text after) :
    Encloses place desk x value before text after := by
  obtain ⟨hopened, hwritten, hvalue⟩ := hy
  rw [← h] at hopened hwritten
  exact ⟨hopened, hwritten, hvalue⟩

theorem encloses_before (hx : AddsAt place desk x s)
    (hy : Encloses place (x.result place desk).2 y value before text after) :
    Encloses place desk (x >>= fun _ => y) value (s ++ before) text after := by
  obtain ⟨mid, hmid, hvalue⟩ := hy.value
  have howed : indentation place (x.result place desk).2.owed = "" := by
    rw [hx.owed]
    rfl
  refine ⟨hy.opened, hy.written.trans ?_, mid, hmid.trans ?_, hvalue⟩
  · rw [hx.written, howed]
    simp only [String.empty_append, String.append_assoc]
  · rw [hx.written, howed]
    simp only [String.empty_append, String.append_assoc]

theorem encloses_after (hx : Encloses place desk x value before text after)
    (howed : (x.result place desk).2.owed = false) (hy : AddsAt place (x.result place desk).2 y s) :
    Encloses place desk (x >>= fun _ => y) value before text (after ++ s) := by
  refine ⟨hy.opened, hy.written.trans ?_, hx.value⟩
  rw [hx.written, howed]
  show _ ++ ("" ++ s) = _
  simp only [String.empty_append, String.append_assoc]

theorem encloses_look {look : Emit α} {f : α → Emit Unit} (hl : Looks look)
    (hopen : desk.program.Open place.draft)
    (h : Encloses place (look place desk).2 (f (look place desk).1) value before text after) :
    Encloses place desk (look >>= f) value before text after := by
  obtain ⟨howed, -, hsame⟩ := hl place desk hopen
  obtain ⟨hopened, hwritten, mid, hmid, hvalue⟩ := h
  rw [hsame, howed] at hwritten hmid
  exact ⟨hopened, hwritten, mid, hmid, hvalue⟩

/-- What stands at the end of a statement. -/
def statementEnd (place : Place) : String := if place.bare then "" else ";\n"

theorem encloses_end (hx : Encloses place desk x value before text after)
    (howed : (x.result place desk).2.owed = false) :
    Encloses place desk (x >>= fun _ => endStatement) value before text
      (after ++ statementEnd place) := by
  cases hbare : place.bare with
  | true =>
    have hresult : (x >>= fun _ => endStatement).result place desk = x.result place desk := by
      show (if place.bare then pure () else _ : Emit Unit) place (x place desk).2 = _
      rw [hbare]
      rfl
    rw [statementEnd, hbare, if_pos rfl, String.append_empty]
    refine ⟨?_, ?_, hx.value⟩
    · rw [hresult]
      exact hx.opened
    · rw [hresult]
      exact hx.written
  | false =>
    have hmark := encloses_after hx howed (addsAt_print ";" hx.opened)
    generalize hdone : ((x >>= fun _ => print ";").result place desk).2 = done at *
    have hresult : (x >>= fun _ => endStatement).result place desk =
        ((), ⟨done.program.write place.draft "\n", true⟩) := by
      rw [← hdone]
      exact endStatement_of_not_bare (x place desk).2 hbare
    have hopened := hmark.opened
    have hwritten := hmark.written
    rw [hdone] at hopened hwritten
    refine ⟨?_, ?_, hx.value⟩
    · rw [hresult]
      exact (goesOn_write hopened _ _).opened
    · rw [hresult, statementEnd, hbare, write_of_open _ hopened.unjoined]
      refine (Drafts.text_put_self _ _ hopened.known).trans ?_
      rw [hwritten, if_neg Bool.false_ne_true, show ";\n" = ";" ++ "\n" from rfl]
      simp only [String.append_assoc]

end

end GoToJava
