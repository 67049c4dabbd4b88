import GoToJava.Proofs.Program.Steps

/-!
Silence. What is written in one place does not see text that was added in another one. So a text
that is only looked at may be written before or after the text around it.
-/

namespace GoToJava

open Go (Expr)
open Emit Drafts

/-! ## Text in two places -/

namespace Drafts

variable {τ : Type} (d : Drafts τ)

theorem put_put (id : Nat) (s t : String) : (d.put id s).put id t = d.put id (s ++ t) := by
  have h : (d.drafts.modify id fun x => { x with text := x.text ++ s }).modify id
      (fun x => { x with text := x.text ++ t }) =
      d.drafts.modify id fun x => { x with text := x.text ++ (s ++ t) } := by
    apply Array.ext_getElem?
    intro i
    simp only [Array.getElem?_modify]
    split
    · simp [Option.map_map, Function.comp_def, String.append_assoc]
    · rfl
  exact congrArg (fun drafts => ({ d with drafts } : Drafts τ)) h

theorem put_comm {i j : Nat} (s t : String) (h : i ≠ j) :
    (d.put i s).put j t = (d.put j t).put i s := by
  have h : (d.drafts.modify i fun x => { x with text := x.text ++ s }).modify j
      (fun x => { x with text := x.text ++ t }) =
      (d.drafts.modify j fun x => { x with text := x.text ++ t }).modify i
        fun x => { x with text := x.text ++ s } := by
    apply Array.ext_getElem?
    intro k
    grind
  exact congrArg (fun drafts => ({ d with drafts } : Drafts τ)) h

theorem new_put {id : Nat} (t : String) (h : id < d.next) : (d.put id t).new = d.new.put id t := by
  have h : (d.drafts.modify id fun x => { x with text := x.text ++ t }).push {} =
      (d.drafts.push {}).modify id fun x => { x with text := x.text ++ t } := by
    have hlt : id < d.drafts.size := h
    apply Array.ext_getElem?
    intro k
    grind
  exact congrArg (fun drafts => ({ d with drafts } : Drafts τ)) h

end Drafts

namespace Program

variable (p : Program) {id : Nat}

theorem write_write (id : Nat) (s t : String) :
    (p.write id s).write id t = p.write id (s ++ t) := by
  cases h : p.drafts.isJoined id <;>
    simp [write_eq, h, isJoined_put, put_put]

theorem write_comm {i j : Nat} (s t : String) (h : i ≠ j) :
    (p.write i s).write j t = (p.write j t).write i s := by
  cases hi : p.drafts.isJoined i <;> cases hj : p.drafts.isJoined j <;>
    simp [write_eq, hi, hj, isJoined_put, put_comm p.drafts s t h]

/-- A change of the drafts that does not see a text may come before or after it. -/
theorem write_drafts (f : Drafts Pending → Drafts Pending) (t : String)
    (hput : f (p.drafts.put id t) = (f p.drafts).put id t)
    (hjoined : (f p.drafts).isJoined id = p.drafts.isJoined id) :
    { p.write id t with drafts := f (p.write id t).drafts } =
      write { p with drafts := f p.drafts } id t := by
  rw [write_eq, write_eq]
  rw [hjoined]
  cases p.drafts.isJoined id with
  | true => rfl
  | false =>
    simp only [Bool.false_eq_true, if_false]
    rw [hput]

theorem next_write (id : Nat) (t : String) : (p.write id t).drafts.next = p.drafts.next := by
  rw [write_eq]
  split
  · rfl
  · rw [next_put]

theorem write_new (t : String) (h : id < p.drafts.next) :
    { p.write id t with drafts := (p.write id t).drafts.new } =
      write { p with drafts := p.drafts.new } id t :=
  p.write_drafts new t (p.drafts.new_put t h) (isJoined_new _ _)

theorem text_write_ne {x : Nat} (t : String) (h : x ≠ id) :
    (p.write id t).drafts.text x = p.drafts.text x := by
  rw [write_eq]
  split
  · rfl
  · rw [text_put_ne _ _ h]

theorem blind_note (n : Note) (cursor : Cursor) (drafts : Drafts Pending)
    (refused : Option DraftError) : n.make cursor { p with drafts, refused } =
      { n.make cursor p with drafts, refused } := by
  cases n with
  | package name =>
    simp only [Note.make]
    split
    · rename_i hq
      rw [show (p.importName cursor.place name).bind (·.qualified) = some _ from hq]
      rfl
    · rename_i hq
      rw [show (p.importName cursor.place name).bind (·.qualified) = none from hq]
  | _ => rfl

theorem like_drafts (drafts : Drafts Pending) (refused : Option DraftError) :
    p.Like (fun _ => True) { p with drafts, refused } :=
  { Like.refl _ p with }

theorem like_write (id : Nat) (t : String) : p.Like (fun _ => True) (p.write id t) := by
  rw [write_eq]
  exact p.like_drafts _ _

end Program

/-! ## Actions that see nothing -/

variable {α β : Type}

/-- Nothing is written but types that are only looked at. -/
def Outlook.quiet : Outlook := { sure .free Eq with declares := False, conforms := False }

theorem quiet_writeTypeAt (room : Nat) (style : Style) (type : Expr) :
    Scripted .quiet (writeTypeAt room style type) :=
  scripted_writeTypeAt room (fun _ => trivial) (type.spelled_of_all fun _ => False.elim)

theorem quiet_inferAt (room : Nat) : Inference.Steady .quiet (inferAt room) :=
  steady_inferAt trivial room

theorem quiet_question (room : Nat) (style : Style) (e : Expr) :
    Parallel .quiet {} [] [] Eq (inferAt room style e) (inferAt room style e) :=
  (quiet_inferAt room style e (e.spelled_of_all fun _ => False.elim) {} []).eq

theorem quiet_infer (style : Style) (e : Expr) : Parallel .quiet {} [] [] Eq (infer style e)
    (infer style e) :=
  quiet_question _ style e

/-- A text that is looked at does not start elsewhere for a text that was written before. -/
theorem Emit.scratchCursor_write (place : Place) (p : Program) (id : Nat) (t : String) :
    scratchCursor place (p.write id t) = scratchCursor place p := by
  unfold scratchCursor
  rw [p.next_write]

theorem frame_note {id : Nat} (n : Note) (text : String) (place : Place) (p : Program)
    (owed : Bool) (hid : id < p.drafts.next) : (note n place ⟨p.write id text, owed⟩).2 =
        ⟨(note n place ⟨p, owed⟩).2.program.write id text, owed⟩ ∧
      id < (note n place ⟨p, owed⟩).2.program.drafts.next := by
  have hblind := fun q => Program.blind_note q n ⟨place, owed⟩
  have hwrite := p.write_of_blind (g := (n.make ⟨place, owed⟩ ·)) id text hblind
  have hdrafts := p.drafts_of_blind (g := (n.make ⟨place, owed⟩ ·)) hblind
  exact ⟨congrArg (Desk.mk · owed) hwrite, Nat.lt_of_lt_of_eq hid (congrArg next hdrafts.symm)⟩

/-- What is only looked at does not see a text in another place. -/
theorem frame_of_parallel {id : Nat} (text : String) {K : Ken} {a b : List Char}
    {R : α → α → Prop} {x y : Emit α} (h : Parallel .quiet K a b R x y) (place : Place)
    (p : Program) (owed : Bool)
    (hscratch : place.scratch = true) (hplace : place.draft ≠ id) (hid : id < p.drafts.next) :
    R (x place ⟨p, owed⟩).1 (y place ⟨p.write id text, owed⟩).1 ∧
      (y place ⟨p.write id text, owed⟩).2 =
        ⟨(x place ⟨p, owed⟩).2.program.write id text, (x place ⟨p, owed⟩).2.owed⟩ ∧
      id < (x place ⟨p, owed⟩).2.program.drafts.next := by
  induction h generalizing place p owed with
  | pure h => exact ⟨h, rfl, hid⟩
  | @bind _ _ _ _ _ _ _ _ x _ _ _ _ _ ihx ihf =>
    obtain ⟨hv, hdesk, hnext⟩ := ihx place p owed hscratch hplace hid
    have hrest := ihf _ _ hv place _ (x place ⟨p, owed⟩).2.owed hscratch hplace hnext
    rw [← hdesk] at hrest
    exact hrest
  | program _ ih =>
    exact ih p (p.write id text) trivial trivial (p.like_write id text) place p owed hscratch
      hplace hid
  | read _ ih =>
    exact ih place place.draft (Outlook.sees_of_loose _ False.elim place) place p owed
      hscratch hplace hid
  | @within _ _ _ _ _ f _ _ _ hf _ ih =>
    exact ih (f place) p owed ((hf.scratch place).trans hscratch) (by rwa [hf.same]) hid
  | print _ =>
    refine ⟨rfl, ?_, Nat.lt_of_lt_of_eq hid (p.next_write _ _).symm⟩
    exact congrArg (Desk.mk · false) (p.write_comm _ _ hplace.symm)
  | newline _ =>
    refine ⟨rfl, ?_, Nat.lt_of_lt_of_eq hid (p.next_write _ _).symm⟩
    exact congrArg (Desk.mk · true) (p.write_comm _ _ hplace.symm)
  | owe => exact ⟨rfl, rfl, hid⟩
  | @note _ _ n _ => exact ⟨rfl, frame_note n text place p owed hid⟩
  | @setVar _ _ name type _ _ =>
    exact ⟨rfl, frame_note (.var place.scope name type) text place p owed hid⟩
  | inspect _ _ ih =>
    have hne : p.drafts.next ≠ id := by omega
    obtain ⟨hv, hdesk, hnext⟩ := ih (scratchCursor place p).place
      { p with drafts := p.drafts.new } false rfl hne
      (Nat.lt_of_lt_of_eq (Nat.lt_succ_of_lt hid) (next_new _).symm)
    rw [inspect_apply, inspect_apply, scratchCursor_write, p.write_new text hid, p.next_write]
    dsimp only
    rw [hdesk]
    exact ⟨⟨hv, (Program.text_write_ne _ _ hne).symm⟩, rfl, hnext⟩
  | @defer _ _ task _ _ _ _ _ ih =>
    have hnow : ∀ q : Program,
        (q.phase != .discovery || task.direct || place.scratch) = true := by
      intro q
      rw [hscratch, Bool.or_true]
    rw [defer_apply, defer_apply, if_pos (hnow _), if_pos (hnow _)]
    exact ih (Or.inl trivial) place p owed hscratch hplace hid
  | inMethods hm => exact hm.elim
  | inImplements hc => exact hc.elim
  | scope hd | reserve hd | inTypeUnit hd | enroll hd => exact hd.elim
  | struct h => exact h.elim
  | atom h => exact h.elim
  | numbered _ hc => exact absurd trivial hc

/-! ## Silence -/

namespace Emit

variable {x : Emit α} {f : α → Emit β}

/-- The action writes nothing here, and what it does may be done before or after a text. -/
def Silent (x : Emit α) : Prop :=
  ∀ (place : Place) (p : Program) (text : String), place.draft < p.drafts.next →
    ∃ v q, x place ⟨p, true⟩ = (v, ⟨q, true⟩) ∧
      x place ⟨p.write place.draft text, false⟩ = (v, ⟨q.write place.draft text, false⟩) ∧
      place.draft < q.drafts.next

theorem silent_pure (v : α) : Silent (pure v : Emit α) :=
  fun _ p _ h => ⟨v, p, rfl, rfl, h⟩

theorem silent_bind (hx : Silent x) (hf : ∀ v, Silent (f v)) : Silent (x >>= f) := by
  intro place p text hp
  obtain ⟨v, q, hbefore, hafter, hq⟩ := hx place p text hp
  obtain ⟨w, r, hbefore', hafter', hr⟩ := hf v place q text hq
  refine ⟨w, r, ?_, ?_, hr⟩
  · show f (x place _).1 place (x place _).2 = _
    rw [hbefore, hbefore']
  · show f (x place _).1 place (x place _).2 = _
    rw [hafter, hafter']

theorem silent_within {f : Place → Place} (hf : ∀ place, (f place).draft = place.draft)
    (h : Silent x) : Silent (withReader f x) := by
  intro place p text hp
  have hx := h (f place) p text
  rw [hf] at hx
  exact hx hp

theorem silent_inspect {K : Ken} (h : Parallel .quiet K [] [] Eq x x) : Silent (inspect x) := by
  intro place p text hp
  have hne : p.drafts.next ≠ place.draft := by omega
  have hnext : place.draft < p.drafts.new.next :=
    Nat.lt_of_lt_of_eq (Nat.lt_succ_of_lt hp) (next_new _).symm
  obtain ⟨hv, hdesk, hq⟩ := frame_of_parallel text h (scratchCursor place p).place
    { p with drafts := p.drafts.new } false rfl hne hnext
  refine ⟨_, _, inspect_apply place x p true, ?_, hq⟩
  rw [inspect_apply, scratchCursor_write, p.write_new text hp, p.next_write]
  dsimp only
  rw [hdesk, ← hv, Program.text_write_ne _ _ hne]

end Emit

end GoToJava
