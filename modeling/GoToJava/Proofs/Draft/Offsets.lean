import GoToJava.Proofs.Draft.Frozen

/-!
Where holes stand. The offsets of a draft's holes lie between characters of its text, in order; and
so they do when the holes are filled from the last to the first.
-/

namespace GoToJava

open String (Pos.Raw)

/-- A text can be cut after so many bytes: no character is cut apart. -/
def Cuts (text : String) (offset : Nat) : Prop := (⟨offset⟩ : Pos.Raw).IsValid text
  deriving Decidable

theorem cuts_iff {text : String} {offset : Nat} :
    Cuts text offset ↔ ∃ before after, text = before ++ after ∧ offset = before.utf8ByteSize := by
  unfold Cuts
  rw [Pos.Raw.isValid_iff_exists_append]
  simp [Pos.Raw.ext_iff]

theorem cuts_end (text : String) : Cuts text text.utf8ByteSize :=
  cuts_iff.2 ⟨text, "", String.append_empty.symm, rfl⟩

theorem cuts_append {text : String} {offset : Nat} (h : Cuts text offset) (more : String) :
    Cuts (text ++ more) offset := by
  obtain ⟨before, after, rfl, rfl⟩ := cuts_iff.1 h
  exact cuts_iff.2 ⟨before, after ++ more, String.append_assoc .., rfl⟩

theorem le_of_cuts {text : String} {offset : Nat} (h : Cuts text offset) :
    offset ≤ text.utf8ByteSize := by
  obtain ⟨before, after, rfl, rfl⟩ := cuts_iff.1 h
  rw [String.utf8ByteSize_append]
  exact Nat.le_add_right _ _

theorem cuts_insertAt {text : String} {offset place : Nat} (h : Cuts text offset)
    (hle : offset ≤ place) (added : String) : Cuts (insertAt text place added) offset := by
  obtain ⟨before, after, rfl, rfl⟩ := cuts_iff.1 h
  obtain ⟨more, rfl⟩ := Nat.exists_eq_add_of_le hle
  rw [insertAt_append_left]
  exact cuts_iff.2 ⟨before, _, rfl, rfl⟩

/-- The text with another one put in, if it can be cut there. -/
def insertAt? (text : String) (offset : Nat) (added : String) : Option String :=
  if Cuts text offset then some (insertAt text offset added) else none

namespace Drafts

variable {τ : Type} {d d' base : Drafts τ} {op : Op τ} {ops : List (Op τ)}

/-! ## Offsets in every state -/

/-- The holes of a draft stand in its text, one behind the other. -/
structure Placed (d : Drafts τ) (id : Nat) : Prop where
  ordered : (d.draft id).holes.toList.Pairwise fun h h' => (d.hole h).offset ≤ (d.hole h').offset
  cuts : ∀ h ∈ (d.draft id).holes.toList, Cuts (d.text id) (d.hole h).offset

theorem placed_of_none {id : Nat} (h : (d.draft id).holes = #[]) : Placed d id := by
  refine ⟨?_, fun hole hh => ?_⟩
  · rw [h]
    exact .nil
  · rw [h] at hh
    cases hh

theorem placed_grows {id : Nat} (hd : Placed d id) {more : String}
    (hholes : (d'.draft id).holes = (d.draft id).holes)
    (hsame : ∀ h ∈ (d.draft id).holes.toList, (d'.hole h).offset = (d.hole h).offset)
    (htext : d'.text id = d.text id ++ more) : Placed d' id := by
  refine ⟨?_, ?_⟩
  · rw [hholes]
    refine hd.ordered.imp_of_mem fun hh hh' hle => ?_
    rwa [hsame _ hh, hsame _ hh']
  · intro h hh
    rw [hholes] at hh
    rw [hsame h hh, htext]
    exact cuts_append (hd.cuts h hh) more

theorem placed_reserve {id : Nat} (hf : Forest d) (hd : Placed d id) (task : Option τ)
    (hid : id < d.next) : Placed (d.reserve id task) id := by
  have hold : ∀ h ∈ (d.draft id).holes.toList, (d.reserve id task).hole h = d.hole h :=
    fun h hh => hole_reserve_old d id task (hf.listed id h hh).1
  refine ⟨?_, ?_⟩
  · rw [holes_draft_reserve d task id hid, if_pos rfl, List.pairwise_append]
    refine ⟨hd.ordered.imp_of_mem fun hh hh' hle => ?_, List.pairwise_singleton _ _, ?_⟩
    · rwa [hold _ hh, hold _ hh']
    · intro h hh h' hh'
      rw [List.mem_singleton.1 hh', hold h hh, hole_reserve_new]
      exact le_of_cuts (hd.cuts h hh)
  · intro h hh
    rw [holes_draft_reserve d task id hid, if_pos rfl, List.mem_append, List.mem_singleton] at hh
    rw [text_reserve d task id hid]
    rcases hh with hh | rfl
    · rw [hold h hh]
      exact hd.cuts h hh
    · rw [hole_reserve_new]
      exact cuts_end _

theorem placed_change (hf : Forest d) (hd : ∀ id, Placed d id) (hop : d.Names op)
    (h : d.Change op d') (id : Nat) : Placed d' id := by
  have hsame : d.text id = d.text id ++ "" := String.append_empty.symm
  cases h with
  | refused => exact hd id
  | new =>
    have htext := (text_new d id).trans hsame
    exact placed_grows (hd id) (by rw [draft_new]) (fun _ _ => rfl) htext
  | @write target text =>
    have hholes := holes_draft_put d target id text
    by_cases hid : id = target
    · subst hid
      exact placed_grows (hd id) hholes (fun _ _ => rfl) (text_put_self d text hop)
    · exact placed_grows (hd id) hholes (fun _ _ => rfl) ((text_put_ne d text hid).trans hsame)
  | reserve parent task =>
    by_cases hid : id = parent
    · subst hid
      exact placed_reserve hf (hd id) task hop
    · refine placed_grows (hd id) ?_ (fun h hh => ?_) ((text_reserve d task id hop).trans hsame)
      · rw [draft_reserve d task id hop, if_neg hid]
      · rw [hole_reserve_old d parent task (hf.listed id h hh).1]
  | task hole hkeeps =>
    refine placed_grows (hd id) rfl (fun h _ => ?_) hsame
    rw [hole_alterHole]
    split
    · exact (hkeeps _).2.1
    · rfl
  | @join root =>
    have hc := closed_of_forest hf hop
    by_cases hw : d.Within root id
    · exact placed_of_none (hc.joined id hw).2
    · have htext : (d.close d.next root).text id = d.text id :=
        congrArg Draft.text (hc.others id hw)
      refine placed_grows (hd id) (by rw [hc.others id hw]) (fun h _ => ?_) (htext.trans hsame)
      rw [hole_congr hc.holes]

theorem placed_run (hf : Forest d) (hd : ∀ id, Placed d id) (hops : Named d ops) (id : Nat) :
    Placed (ops.foldl step d) id := by
  induction ops generalizing d with
  | nil => exact hd id
  | cons op ops ih =>
    have hstep := change_step d op
    exact ih (forest_change hf hops.1 hstep) (placed_change hf hd hops.1 hstep) hops.2

/-! ## Filling the holes -/

/-- A hole filled, if the text can be cut there, and so on in the hole's draft. -/
def fillHole? (close : Drafts τ → Nat → Option (Drafts τ)) (h : Nat) (s : Drafts τ × String) :
    Option (Drafts τ × String) := do
  let hole := s.1.hole h
  let d ← close s.1 hole.child
  let filled ← insertAt? s.2 hole.offset (d.text hole.child)
  return (d.alter hole.child fun x => { x with text := "" }, filled)

/-- A draft closed, if all holes of its tree can be filled. -/
def close? : Nat → Drafts τ → Nat → Option (Drafts τ)
  | 0, _, _ => none
  | depth + 1, d, id => do
    let s ← (d.draft id).holes.toList.foldrM (fillHole? (close? depth)) (d, d.text id)
    return finish s id

/-- A draft joined, if all holes of its tree can be filled. -/
def join? (d : Drafts τ) (id : Nat) : Option (Except DraftError (String × Drafts τ)) :=
  if d.isJoined id then some (.error .alreadyJoined)
  else (close? d.next d id).map fun d => .ok (d.text id, d)

theorem close?_eq (hf : Forest base) (hp : ∀ id, Placed base id) :
    ∀ (depth id : Nat) (d : Drafts τ), Ready base d depth id →
      close? depth d id = some (close depth d id) := by
  intro depth
  induction depth with
  | zero =>
    intro id d hr
    have hknown := hr.known
    have hdeep := hr.deep
    omega
  | succ depth ih =>
    intro id d hr
    have hid := hr.same id .self
    have htext : d.text id = base.text id := congrArg Draft.text hid
    -- While holes are filled, the offsets before them keep standing between characters.
    have hfold := foldr_fillHole (P := fun hs s =>
      hs.foldrM (fillHole? (close? depth)) (d, d.text id) = some s ∧
        ∀ offset, Cuts (base.text id) offset → (∀ k ∈ hs, offset ≤ (base.hole k).offset) →
          Cuts s.2 offset) hf hr (d.text id) ⟨rfl, fun _ hcuts _ => htext ▸ hcuts⟩ ?_ _
      List.suffix_rfl
    · rw [close?, close_succ, hid, hfold.1]
      rfl
    · intro h hs s hsuffix hready ⟨hfilled, hcuts⟩
      have hhole := hole_congr hready.holes h
      have hpair := (hp id).ordered.sublist hsuffix.sublist
      have hcut : Cuts s.2 (base.hole h).offset :=
        hcuts _ ((hp id).cuts h (hsuffix.subset List.mem_cons_self)) fun k hk =>
          List.rel_of_pairwise_cons hpair hk
      refine ⟨?_, fun offset hoffset hle => ?_⟩
      · rw [List.foldrM_cons, hfilled, Option.bind_eq_bind, Option.bind_some]
        simp only [fillHole?, fillHole, hhole, ih _ _ hready, insertAt?, if_pos hcut]
        rfl
      · unfold fillHole
        rw [hhole]
        exact cuts_insertAt (hcuts offset hoffset fun k hk => hle k (List.mem_cons_of_mem _ hk))
          (hle h List.mem_cons_self) _

/-- After whatever operations, the offsets of a draft's holes are in order, within its text and
between its characters; and every draft can be joined, or has been: each hole is filled between two
characters of the text as it is when its turn comes. -/
theorem holes_stand_between_characters (ops : List (Op τ)) (id : Nat) (hops : Named {} ops) :
    let d := run ops
    let offsets := (d.draft id).holes.toList.map fun h => (d.hole h).offset
    offsets.Pairwise (· ≤ ·) ∧
      (∀ offset ∈ offsets, offset ≤ (d.text id).utf8ByteSize ∧ Cuts (d.text id) offset) ∧
      (id < d.next → d.join? id = some (d.join id)) := by
  intro d offsets
  have hf : Forest d := forest_run forest_empty hops
  have hempty : ∀ x, Placed ({} : Drafts τ) x := fun x =>
    placed_of_none (by rw [draft_of_next_le _ _ (Nat.zero_le x)])
  have hp : ∀ x, Placed d x := placed_run forest_empty hempty hops
  refine ⟨List.pairwise_map.2 (hp id).ordered, ?_, fun hid => ?_⟩
  · intro offset hm
    obtain ⟨h, hh, rfl⟩ := List.mem_map.1 hm
    exact ⟨le_of_cuts ((hp id).cuts h hh), (hp id).cuts h hh⟩
  · unfold join? join
    split
    · rfl
    · rw [close?_eq hf hp d.next id d (.self hid)]
      rfl

/-- Two holes between characters of more than one byte, in a draft around one that is joined. -/
theorem wide_characters_are_not_cut :
    let ops : List (Op Unit) := [.new, .write 0 "é", .reserve 0 none, .write 1 "ß", .join 1,
      .reserve 1 none, .write 0 "→", .reserve 0 none]
    (run ops).join? 0 = some ((run ops).join 0) ∧
      ((run ops).draft 0).holes.toList.map (fun h => ((run ops).hole h).offset) = [2, 5] := by
  intro ops
  have hops : Named {} ops := by
    simp only [ops, Named, Names]
    decide
  exact ⟨(holes_stand_between_characters ops 0 hops).2.2 (by decide), by decide⟩

end Drafts

end GoToJava
