import GoToJava.Proofs.Draft.Forest

/-!
Growing drafts. Until anything is joined, drafts only grow: text comes at the end of a draft, and
holes are left that no earlier hole knows of.
-/

namespace GoToJava.Drafts

variable {τ : Type} {d : Drafts τ} {parent : Nat}

/-! ## Drafts that are not joined -/

/-- A forest of which nothing is joined, with every hole in the list of its draft. -/
structure Whole (d : Drafts τ) : Prop where
  forest : d.Forest
  unjoined : ∀ id, d.isJoined id = false
  complete : ∀ h < d.holes.size, h ∈ (d.draft (d.hole h).parent).holes.toList

theorem whole_empty : Whole ({} : Drafts τ) := by
  refine ⟨forest_empty, ?_, ?_⟩
  · intro id
    unfold isJoined
    rw [draft_of_next_le _ _ (Nat.zero_le id)]
  · intro h hh
    simp at hh

theorem whole_new (hd : Whole d) : Whole d.new := by
  refine ⟨forest_new hd.forest, ?_, ?_⟩
  · intro id
    rw [isJoined_new]
    exact hd.unjoined id
  · intro h hh
    rw [hole_new, draft_new]
    exact hd.complete h hh

theorem whole_put (id : Nat) (text : String) (hd : Whole d) : Whole (d.put id text) := by
  refine ⟨forest_put id text hd.forest, ?_, ?_⟩
  · intro x
    rw [isJoined_put]
    exact hd.unjoined x
  · intro h hh
    rw [hole_put, holes_draft_put]
    exact hd.complete h hh

theorem whole_reserve (task : Option τ) (hd : Whole d) (hp : parent < d.next) :
    Whole (d.reserve parent task) := by
  refine ⟨forest_reserve task hd.forest hp, ?_, ?_⟩
  · intro x
    rw [isJoined_reserve d _ task x]
    exact hd.unjoined x
  · intro h hh
    rw [holes_draft_reserve d task _ hp]
    by_cases hnew : h = d.holes.size
    · subst hnew
      rw [hole_reserve_new, if_pos rfl]
      exact List.mem_append_right _ List.mem_cons_self
    · rw [size_holes_reserve] at hh
      have hold : h < d.holes.size := by omega
      rw [hole_reserve_old d parent task hold]
      exact List.mem_append_left _ (hd.complete h hold)

/-! ## Growth -/

/-- Drafts and holes are added, and the holes there are stay as they are. New holes are filled by
new drafts and are not resolved, and in a quiet time no new hole has a task. -/
structure Grows (quiet : Prop) (d d' : Drafts τ) : Prop where
  next : d.next ≤ d'.next
  holes : d.holes.size ≤ d'.holes.size
  hole : ∀ h < d.holes.size, d'.hole h = d.hole h
  child : ∀ h < d'.holes.size, d.holes.size ≤ h → d.next ≤ (d'.hole h).child
  unresolved : ∀ h, d.holes.size ≤ h → (d'.hole h).resolved = false
  quiet : quiet → ∀ h, d.holes.size ≤ h → (d'.hole h).task = none
  listed : ∀ id, ∃ more, (d'.draft id).holes.toList = (d.draft id).holes.toList ++ more ∧
    ∀ h ∈ more, d.holes.size ≤ h

variable {quiet : Prop}

theorem grows_of_holes {d' : Drafts τ} (hnext : d.next ≤ d'.next) (hh : d'.holes = d.holes)
    (hl : ∀ id, (d'.draft id).holes = (d.draft id).holes) : Grows quiet d d' := by
  have hhole : ∀ h, d'.hole h = d.hole h := by
    intro h
    unfold Drafts.hole
    rw [hh]
  refine ⟨hnext, Nat.le_of_eq (by rw [hh]), fun h _ => hhole h, ?_, ?_, ?_, ?_⟩
  · intro h hlt hle
    rw [hh] at hlt
    exact absurd hle (Nat.not_le_of_lt hlt)
  · intro h hlt
    rw [hhole, hole_of_size_le d h hlt]
  · intro _ h hlt
    rw [hhole, hole_of_size_le d h hlt]
  · intro id
    exact ⟨[], by rw [hl, List.append_nil], by simp⟩

theorem grows_refl (d : Drafts τ) : Grows quiet d d :=
  grows_of_holes (Nat.le_refl _) rfl fun _ => rfl

theorem grows_trans {d₁ d₂ d₃ : Drafts τ} (h : Grows quiet d₁ d₂) (h' : Grows quiet d₂ d₃) :
    Grows quiet d₁ d₃ := by
  refine ⟨Nat.le_trans h.next h'.next, Nat.le_trans h.holes h'.holes, ?_, ?_, ?_, ?_, ?_⟩
  · intro k hk
    rw [h'.hole k (Nat.lt_of_lt_of_le hk h.holes), h.hole k hk]
  · intro k hk hle
    by_cases hlt : k < d₂.holes.size
    · rw [h'.hole k hlt]
      exact h.child k hlt hle
    · exact Nat.le_trans h.next (h'.child k hk (Nat.le_of_not_lt hlt))
  · intro k hk
    by_cases hlt : k < d₂.holes.size
    · rw [h'.hole k hlt]
      exact h.unresolved k hk
    · exact h'.unresolved k (Nat.le_of_not_lt hlt)
  · intro hq k hk
    by_cases hlt : k < d₂.holes.size
    · rw [h'.hole k hlt]
      exact h.quiet hq k hk
    · exact h'.quiet hq k (Nat.le_of_not_lt hlt)
  · intro id
    obtain ⟨more, he, hm⟩ := h.listed id
    obtain ⟨more', he', hm'⟩ := h'.listed id
    refine ⟨more ++ more', by rw [he', he, List.append_assoc], ?_⟩
    intro k hk
    rcases List.mem_append.1 hk with hk | hk
    · exact hm k hk
    · exact Nat.le_trans h.holes (hm' k hk)

theorem grows_new (d : Drafts τ) : Grows quiet d d.new :=
  grows_of_holes (by rw [next_new]; omega) rfl fun id => by rw [draft_new]

theorem grows_put (d : Drafts τ) (id : Nat) (text : String) : Grows quiet d (d.put id text) :=
  grows_of_holes (Nat.le_of_eq (next_put d id text).symm) rfl fun x => holes_draft_put d id x text

theorem grows_reserve (d : Drafts τ) {task : Option τ} (hp : parent < d.next)
    (ht : quiet → task = none) : Grows quiet d (d.reserve parent task) := by
  refine ⟨by rw [next_reserve]; omega, by rw [size_holes_reserve]; omega, ?_, ?_, ?_, ?_, ?_⟩
  · intro h hh
    exact hole_reserve_old d parent task hh
  · intro h hh hle
    rw [size_holes_reserve] at hh
    have hnew : h = d.holes.size := by omega
    refine Nat.le_of_eq ?_
    rw [hnew, hole_reserve_new]
  · intro h hh
    rw [hole_reserve]
    split
    · rfl
    · rw [hole_of_size_le d h hh]
  · intro hq h hh
    rw [hole_reserve]
    split
    · exact ht hq
    · rw [hole_of_size_le d h hh]
  · intro id
    refine ⟨_, holes_draft_reserve d task id hp, ?_⟩
    intro h hh
    split at hh
    · rw [List.mem_singleton] at hh
      exact Nat.le_of_eq hh.symm
    · cases hh

end GoToJava.Drafts
