import GoToJava.Proofs.Formula.Writing
import GoToJava.Proofs.Methods.Classes

/-!
Texts. Text goes to the end of a draft and stays there, so what an action writes can be looked at
piece by piece.
-/

namespace GoToJava

open Emit

variable {own : String → String → Prop} {α β : Type}

/-! ## Text stays -/

namespace Program

variable {p q r : Program} {draft : Nat}

/-- The draft is still open, and its text goes on. -/
structure GoesOn (draft : Nat) (p q : Program) : Prop where
  opened : q.Open draft
  text : ∃ more, q.drafts.text draft = p.drafts.text draft ++ more

theorem goesOn_of_drafts (hp : p.Open draft) (h : q.drafts = p.drafts) : GoesOn draft p q := by
  obtain ⟨hknown, hopen⟩ := hp
  rw [← h] at hknown hopen
  exact ⟨⟨hknown, hopen⟩, "", by rw [h, String.append_empty]⟩

theorem GoesOn.trans (h : GoesOn draft p q) (h' : GoesOn draft q r) : GoesOn draft p r := by
  obtain ⟨more, hmore⟩ := h.text
  obtain ⟨most, hmost⟩ := h'.text
  exact ⟨h'.opened, more ++ most, by rw [hmost, hmore, String.append_assoc]⟩

section

variable (hp : p.Open draft)
include hp

theorem goesOn_write (id : Nat) (text : String) :
    GoesOn draft p (p.write id text) := by
  rw [write_eq]
  by_cases hjoined : p.drafts.isJoined id = true
  · simp only [hjoined, if_true]
    exact goesOn_of_drafts hp rfl
  · simp only [hjoined]
    refine ⟨⟨by simpa using hp.known, (Drafts.isJoined_put _ _ _ _).trans hp.unjoined⟩, ?_⟩
    by_cases hid : draft = id
    · subst hid
      exact ⟨text, Drafts.text_put_self _ _ hp.known⟩
    · refine ⟨"", ?_⟩
      rw [String.append_empty]
      exact Drafts.text_put_ne _ _ hid

theorem goesOn_new (h : q.drafts = p.drafts.new) : GoesOn draft p q := by
  refine ⟨⟨?_, ?_⟩, "", ?_⟩
  · rw [h, Drafts.next_new]
    exact Nat.lt_succ_of_lt hp.known
  · rw [h, Drafts.isJoined_new, hp.unjoined]
  · rw [h, Drafts.text_new, String.append_empty]

theorem goesOn_reserve (parent : Nat) (task : Option Pending) :
    GoesOn draft p { p with drafts := p.drafts.reserve parent task } := by
  refine ⟨⟨?_, ?_⟩, "", ?_⟩
  · rw [Drafts.next_reserve]
    exact Nat.lt_succ_of_lt hp.known
  · rw [Drafts.isJoined_reserve, hp.unjoined]
  · unfold Drafts.text
    rw [Drafts.draft_reserve_any, String.append_empty]
    split <;> rfl

/-- No step takes back what is written, or closes a draft. -/
theorem goesOn_of_step (h : Step own p q) : GoesOn draft p q := by
  cases h with
  | write id text => exact goesOn_write hp id text
  | newDraft | newPackage | newType => exact goesOn_new hp rfl
  | reserve parent task => exact goesOn_reserve hp parent task
  | resolve hole =>
    have hdrafts : (p.drafts.resolve hole).2.drafts = p.drafts.drafts := by
      unfold Drafts.resolve
      dsimp only
      split <;> rfl
    have hdraft : (p.drafts.resolve hole).2.draft draft = p.drafts.draft draft := by
      unfold Drafts.draft
      rw [hdrafts]
    refine ⟨⟨?_, ?_⟩, "", ?_⟩
    · show draft < (p.drafts.resolve hole).2.drafts.size
      rw [hdrafts]
      exact hp.known
    · unfold Drafts.isJoined
      rw [hdraft]
      exact hp.unjoined
    · unfold Drafts.text
      rw [hdraft, String.append_empty]
  | note cursor _ => exact goesOn_of_drafts hp (drafts_note p cursor _)
  | register | started | importName | learn | library | unpark | phase =>
    exact goesOn_of_drafts hp rfl

theorem goesOn_of_steps (h : Steps own p q) : GoesOn draft p q := by
  induction h with
  | refl => exact goesOn_of_drafts hp rfl
  | tail _ hstep ih => exact ih.trans (goesOn_of_step ih.opened hstep)

end

end Program

/-! ## Texts in texts -/

namespace Emit

variable {T : String → Prop} {place : Place} {x : Emit α} {f : α → Emit β} {desk : Desk}
  {y : Emit Unit}

theorem goesOn_of_takes (h : Takes (fun _ _ => True) x) (hopen : desk.program.Open place.draft) :
    Program.GoesOn place.draft desk.program (x place desk).2.program :=
  Program.goesOn_of_steps hopen (h place desk)

/-- One of the texts stands somewhere in what the action writes at the place. -/
def Includes (T : String → Prop) (place : Place) (x : Emit α) : Prop :=
  ∀ desk, desk.program.Open place.draft → (x place desk).2.program.Open place.draft ∧
    ∃ text before after, T text ∧ (x place desk).2.program.drafts.text place.draft =
      desk.program.drafts.text place.draft ++ (before ++ text ++ after)

theorem includes_of_adds
    (h : ∀ desk, desk.program.Open place.draft → ∃ text, T text ∧ AddsAt place desk y text) :
    Includes T place y := by
  intro desk hopen
  obtain ⟨text, htext, hadds⟩ := h desk hopen
  refine ⟨hadds.opened, text, GoToJava.indentation place desk.owed, "", htext, ?_⟩
  rw [String.append_empty]
  exact hadds.written

theorem includes_bind (hx : Includes T place x) (hf : ∀ a, Takes (fun _ _ => True) (f a)) :
    Includes T place (x >>= f) := by
  intro desk hopen
  obtain ⟨hstill, text, before, after, htext, hwritten⟩ := hx desk hopen
  have hrest := goesOn_of_takes (hf (x place desk).1) hstill
  obtain ⟨more, hmore⟩ := hrest.text
  refine ⟨hrest.opened, text, before, after ++ more, htext, ?_⟩
  rw [hwritten] at hmore
  simp only [String.append_assoc] at hmore ⊢
  exact hmore

theorem bind_includes (hx : Takes (fun _ _ => True) x) (hf : ∀ a, Includes T place (f a)) :
    Includes T place (x >>= f) := by
  intro desk hopen
  have hfirst := goesOn_of_takes hx hopen
  obtain ⟨more, hmore⟩ := hfirst.text
  obtain ⟨hstill, text, before, after, htext, hwritten⟩ := hf (x place desk).1 _ hfirst.opened
  refine ⟨hstill, text, more ++ before, after, htext, ?_⟩
  rw [hmore] at hwritten
  simp only [String.append_assoc] at hwritten ⊢
  exact hwritten

theorem includes_deeper (h : Includes T place.deeper x) :
    Includes T place (withReader Place.deeper x) := h

theorem addsAt_bare {text : String} (h : AddsAt { place with bare := true } desk y text) :
    AddsAt place desk (bare y) text :=
  ⟨h.opened, h.owed, h.written⟩

end Emit

end GoToJava
