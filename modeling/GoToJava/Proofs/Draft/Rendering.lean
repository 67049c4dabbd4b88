import GoToJava.Proofs.Draft.Growth
import GoToJava.Proofs.Draft.Joining

/-!
What a draft will read when it is joined, said without joining it: its own text, with what each
hole's draft will read put in.
-/

namespace GoToJava

/-- A text put in behind the start of another one leaves the start alone. -/
theorem insertAt_append_left (before text added : String) (offset : Nat) :
    insertAt (before ++ text) (before.utf8ByteSize + offset) added =
      before ++ insertAt text offset added := by
  have hsplit : ∀ (xs ys : List Char),
      splitBytes ((String.ofList xs).utf8ByteSize + offset) (xs ++ ys) =
        (xs ++ (splitBytes offset ys).1, (splitBytes offset ys).2) := by
    intro xs ys
    induction xs with
    | nil => simp
    | cons x xs ih =>
      have hsize : x.utf8Size + (String.ofList xs).utf8ByteSize + offset - x.utf8Size =
          (String.ofList xs).utf8ByteSize + offset := by omega
      rw [utf8ByteSize_ofList_cons, List.cons_append, splitBytes, if_pos (by omega), hsize, ih]
      rfl
  have h := hsplit before.toList text.toList
  rw [String.ofList_toList] at h
  unfold insertAt
  rw [String.toList_append, h]
  simp [String.append_assoc]

theorem insertAt_empty (before added : String) :
    insertAt before before.utf8ByteSize added = before ++ added := by
  have h := insertAt_append before "" added
  rwa [String.append_empty, String.append_empty] at h

namespace Drafts

variable {τ : Type} {id : Nat} {base d : Drafts τ}

/-- What a draft will read, with the holes that lie less than `depth` below it. -/
def render (d : Drafts τ) : Nat → Nat → String
  | 0, id => d.text id
  | depth + 1, id => (d.draft id).holes.toList.foldr
      (fun h text => insertAt text (d.hole h).offset (render d depth (d.hole h).child)) (d.text id)

theorem text_close (hf : Forest base) :
    ∀ (depth id : Nat) (d : Drafts τ), Ready base d depth id →
      (close depth d id).text id = base.render depth id := by
  intro depth
  induction depth with
  | zero =>
    intro id d hr
    have hknown := hr.known
    have hdeep := hr.deep
    omega
  | succ depth ih =>
    intro id d hr
    have hid := hr.same id .self
    have hfilled := filled_foldr hf hr (closed_close hf depth) (d.text id) _ List.suffix_rfl
    have hfold := foldr_fillHole (P := fun hs s => s.2 = hs.foldr (fun h text =>
      insertAt text (base.hole h).offset (base.render depth (base.hole h).child)) (d.text id)) hf hr
      (d.text id) rfl (fun h hs s _ hready htext => by
        rw [List.foldr_cons, ← htext, ← ih _ _ hready, ← hole_congr hready.holes h]
        rfl) _ List.suffix_rfl
    rw [close_succ, hid]
    unfold finish
    rw [Drafts.text, draft_alter_self _ _ _ (by rw [hfilled.next, hr.next]; exact hr.known)]
    rw [hfold, render]
    unfold Drafts.text
    rw [hid]

/-- Holes nested deeper than there are drafts make no difference. -/
theorem render_succ (hf : Forest d) (depth id : Nat) (h : d.next ≤ depth + id) :
    d.render (depth + 1) id = d.render depth id := by
  induction depth generalizing id with
  | zero =>
    have hempty : d.draft id = {} := draft_of_next_le d id (by omega)
    unfold render
    rw [hempty]
    rfl
  | succ depth ih =>
    rw [render, render]
    refine List.foldr_ext _ _ _ fun hole hm text => ?_
    obtain ⟨hlt, hp⟩ := hf.listed id hole hm
    have hold := hf.older hole hlt
    rw [ih _ (by omega)]

/-- If nothing is joined yet, joining gives what a draft was to read. -/
theorem join_eq_render (hd : d.Whole) (h : id < d.next) :
    ∃ joined, d.join id = .ok (d.render d.next id, joined) := by
  unfold join
  rw [hd.unjoined id]
  refine ⟨d.close d.drafts.size id, ?_⟩
  have htext := text_close hd.forest d.drafts.size id d (.self h)
  simp only [Bool.false_eq_true, if_false, htext]
  rfl

end Drafts

end GoToJava
