import GoToJava.Draft
import Mathlib.Data.List.Basic

/-!
Drafts form a forest: a hole belongs to one draft, which is older than the draft that fills it, and
no two holes are filled by the same draft. Every operation on drafts keeps this.
-/

namespace GoToJava

/-! ## Numbered stores -/

theorem getD_modify {α : Type} (xs : Array α) (i j : Nat) (f : α → α) (v : α) :
    (xs.modify i f).getD j v = if j = i ∧ j < xs.size then f (xs.getD j v) else xs.getD j v := by
  simp only [Array.getD_eq_getD_getElem?, Array.getElem?_modify]
  by_cases hj : j < xs.size
  · by_cases hij : i = j <;> simp [hij, hj, eq_comm]
  · simp [hj]

theorem getD_push {α : Type} (xs : Array α) (j : Nat) (x v : α) :
    (xs.push x).getD j v = if j = xs.size then x else xs.getD j v := by
  simp only [Array.getD_eq_getD_getElem?, Array.getElem?_push]
  split <;> simp

theorem getD_of_size_le {α : Type} (xs : Array α) (j : Nat) (v : α) (h : xs.size ≤ j) :
    xs.getD j v = v := by
  simp [Array.getD_eq_getD_getElem?, h]

namespace Drafts

variable {τ : Type} {d : Drafts τ} {x parent id h a b : Nat}

/-! ## What each operation does to a draft and to a hole -/

theorem draft_of_next_le (d : Drafts τ) (id : Nat) (h : d.next ≤ id) : d.draft id = {} :=
  getD_of_size_le _ _ _ h

theorem hole_of_size_le (d : Drafts τ) (h : Nat) (hh : d.holes.size ≤ h) :
    d.hole h = { parent := 0, offset := 0, child := 0, task := none } :=
  getD_of_size_le _ _ _ hh

/-- A draft changed by `f`. -/
def alter (d : Drafts τ) (id : Nat) (f : Draft → Draft) : Drafts τ :=
  { d with drafts := d.drafts.modify id f }

section

variable (d : Drafts τ)

@[simp]
theorem next_alter (id : Nat) (f : Draft → Draft) : (d.alter id f).next = d.next := by
  simp [alter, next]

@[simp]
theorem holes_alter (id : Nat) (f : Draft → Draft) :
    (d.alter id f).holes = d.holes := rfl

@[simp]
theorem hole_alter (id h : Nat) (f : Draft → Draft) :
    (d.alter id f).hole h = d.hole h := rfl

theorem draft_alter (id x : Nat) (f : Draft → Draft) :
    (d.alter id f).draft x = if x = id ∧ x < d.next then f (d.draft x) else d.draft x :=
  getD_modify _ _ _ _ _

theorem draft_alter_self (id : Nat) (f : Draft → Draft) (h : id < d.next) :
    (d.alter id f).draft id = f (d.draft id) := by
  rw [draft_alter, if_pos ⟨rfl, h⟩]

theorem draft_alter_ne (f : Draft → Draft) (h : x ≠ id) :
    (d.alter id f).draft x = d.draft x := by
  rw [draft_alter, if_neg fun hx => h hx.1]

@[simp]
theorem next_new : d.new.next = d.next + 1 := by simp [new, next]

@[simp]
theorem holes_new : d.new.holes = d.holes := rfl

@[simp]
theorem hole_new (h : Nat) : d.new.hole h = d.hole h := rfl

/-- A draft that does not exist yet is as empty as a new one. -/
@[simp]
theorem draft_new (id : Nat) : d.new.draft id = d.draft id := by
  unfold draft new
  rw [getD_push]
  split
  · rename_i h
    rw [h, getD_of_size_le _ _ _ (Nat.le_refl _)]
  · rfl

@[simp]
theorem next_reserve (parent : Nat) (task : Option τ) :
    (d.reserve parent task).next = d.next + 1 := by
  simp [reserve, next]

@[simp]
theorem size_holes_reserve (parent : Nat) (task : Option τ) :
    (d.reserve parent task).holes.size = d.holes.size + 1 := by
  simp [reserve]

/-- A new hole, also in a draft that is not there. -/
theorem draft_reserve_any (parent : Nat) (task : Option τ) (x : Nat) :
    (d.reserve parent task).draft x = if x = parent ∧ x < d.next + 1 then
      { d.draft x with holes := (d.draft x).holes.push d.holes.size } else d.draft x := by
  have hnew : (d.drafts.push {}).getD x {} = d.draft x := draft_new d x
  unfold reserve
  simp only [draft, getD_modify, Array.size_push, hnew]
  rfl

theorem draft_reserve (task : Option τ) (x : Nat) (h : parent < d.next) :
    (d.reserve parent task).draft x =
      if x = parent then { d.draft x with holes := (d.draft x).holes.push d.holes.size }
      else d.draft x := by
  rw [draft_reserve_any]
  by_cases hx : x = parent
  · rw [if_pos ⟨hx, by omega⟩, if_pos hx]
  · rw [if_neg fun h => hx h.1, if_neg hx]

theorem hole_reserve (parent : Nat) (task : Option τ) (h : Nat) :
    (d.reserve parent task).hole h =
      if h = d.holes.size then
        { parent, offset := (d.text parent).utf8ByteSize, child := d.next, task }
      else d.hole h :=
  getD_push _ _ _ _

theorem hole_reserve_old (parent : Nat) (task : Option τ) (hh : h < d.holes.size) :
    (d.reserve parent task).hole h = d.hole h := by
  rw [hole_reserve, if_neg (by omega)]

theorem hole_reserve_new (parent : Nat) (task : Option τ) :
    (d.reserve parent task).hole d.holes.size =
      { parent, offset := (d.text parent).utf8ByteSize, child := d.next, task } := by
  rw [hole_reserve, if_pos rfl]

end

/-- The text of a draft that is not joined, with more at its end. -/
def put (d : Drafts τ) (id : Nat) (text : String) : Drafts τ :=
  d.alter id fun x => { x with text := x.text ++ text }

@[simp]
theorem next_put (d : Drafts τ) (id : Nat) (text : String) : (d.put id text).next = d.next :=
  next_alter d id _

@[simp]
theorem holes_put (d : Drafts τ) (id : Nat) (text : String) : (d.put id text).holes = d.holes := rfl

@[simp]
theorem hole_put (d : Drafts τ) (id h : Nat) (text : String) :
    (d.put id text).hole h = d.hole h := rfl

theorem write_of_open (d : Drafts τ) (text : String) (h : d.isJoined id = false) :
    d.write id text = .ok (d.put id text) := by
  unfold write
  rw [h]
  rfl

/-- The hole `h`, changed by `f`. -/
def alterHole (d : Drafts τ) (h : Nat) (f : Hole τ → Hole τ) : Drafts τ :=
  { d with holes := d.holes.modify h f }

theorem hole_alterHole (d : Drafts τ) (h x : Nat) (f : Hole τ → Hole τ) :
    (d.alterHole h f).hole x = if x = h ∧ x < d.holes.size then f (d.hole x) else d.hole x :=
  getD_modify _ _ _ _ _

@[simp]
theorem size_holes_alterHole (d : Drafts τ) (h : Nat) (f : Hole τ → Hole τ) :
    (d.alterHole h f).holes.size = d.holes.size := by
  simp [alterHole]

/-! ## What a draft holds after an operation -/

section

variable (d : Drafts τ)

theorem text_new (id : Nat) : d.new.text id = d.text id := by
  unfold text
  rw [draft_new]

theorem isJoined_new (id : Nat) : d.new.isJoined id = d.isJoined id := by
  unfold isJoined
  rw [draft_new]

theorem text_put_self (text : String) (h : id < d.next) :
    (d.put id text).text id = d.text id ++ text := by
  unfold Drafts.text put
  rw [draft_alter_self d id _ h]

theorem text_put_ne (text : String) (h : x ≠ id) :
    (d.put id text).text x = d.text x := by
  unfold Drafts.text put
  rw [draft_alter_ne d _ h]

theorem holes_draft_put (id x : Nat) (text : String) :
    ((d.put id text).draft x).holes = (d.draft x).holes := by
  unfold put
  rw [draft_alter]
  split <;> rfl

theorem isJoined_put (id x : Nat) (text : String) :
    (d.put id text).isJoined x = d.isJoined x := by
  unfold isJoined put
  rw [draft_alter]
  split <;> rfl

theorem text_reserve (task : Option τ) (x : Nat) (h : parent < d.next) :
    (d.reserve parent task).text x = d.text x := by
  unfold text
  rw [draft_reserve d task x h]
  split <;> rfl

theorem isJoined_reserve (parent : Nat) (task : Option τ) (x : Nat) :
    (d.reserve parent task).isJoined x = d.isJoined x := by
  unfold isJoined
  rw [draft_reserve_any]
  split <;> rfl

theorem holes_draft_reserve (task : Option τ) (x : Nat) (h : parent < d.next) :
    ((d.reserve parent task).draft x).holes.toList =
      (d.draft x).holes.toList ++ if x = parent then [d.holes.size] else [] := by
  rw [draft_reserve d task x h]
  split <;> simp

end

/-! ## The forest -/

/-- The holes of each draft are its own and stand in the order they were left, and each is filled by
a younger draft that fills no other hole. -/
structure Forest (d : Drafts τ) : Prop where
  older : ∀ h < d.holes.size, (d.hole h).parent < (d.hole h).child
  known : ∀ h < d.holes.size, (d.hole h).child < d.next
  distinct : ∀ h < d.holes.size, ∀ h' < d.holes.size,
    (d.hole h).child = (d.hole h').child → h = h'
  listed : ∀ id, ∀ h ∈ (d.draft id).holes.toList, h < d.holes.size ∧ (d.hole h).parent = id
  ordered : ∀ id, (d.draft id).holes.toList.Pairwise (· < ·)

theorem forest_empty : Forest ({} : Drafts τ) := by
  have hnone : ∀ id, (({} : Drafts τ).draft id) = {} := fun id =>
    draft_of_next_le _ _ (Nat.zero_le id)
  refine ⟨?_, ?_, ?_, ?_, ?_⟩
  · intro h hh
    simp at hh
  · intro h hh
    simp at hh
  · intro h hh
    simp at hh
  · intro id h hh
    simp [hnone] at hh
  · intro id
    simp [hnone]

theorem forest_new (hd : Forest d) : Forest d.new := by
  refine ⟨hd.older, ?_, hd.distinct, ?_, ?_⟩
  · intro h hh
    have := hd.known h hh
    rw [next_new]
    exact Nat.lt_succ_of_lt this
  · intro id h hh
    rw [draft_new] at hh
    exact hd.listed id h hh
  · intro id
    rw [draft_new]
    exact hd.ordered id

/-- A change that takes holes away at most keeps the forest. -/
theorem forest_alter (id : Nat) {f : Draft → Draft} (hd : Forest d)
    (hf : ∀ x, (f x).holes.toList.Sublist x.holes.toList) : Forest (d.alter id f) := by
  have hsub : ∀ x, ((d.alter id f).draft x).holes.toList.Sublist (d.draft x).holes.toList := by
    intro x
    rw [draft_alter]
    split
    · exact hf _
    · exact List.Sublist.refl _
  refine ⟨hd.older, ?_, hd.distinct, ?_, ?_⟩
  · intro h hh
    rw [next_alter]
    exact hd.known h hh
  · intro x h hh
    exact hd.listed x h ((hsub x).subset hh)
  · intro x
    exact (hd.ordered x).sublist (hsub x)

theorem forest_put (id : Nat) (text : String) (hd : Forest d) : Forest (d.put id text) :=
  forest_alter id hd fun _ => List.Sublist.refl _

theorem forest_reserve (task : Option τ) (hd : Forest d) (hp : parent < d.next) :
    Forest (d.reserve parent task) := by
  have hold : ∀ h, h < d.holes.size + 1 → h ≠ d.holes.size → h < d.holes.size := by omega
  refine ⟨?_, ?_, ?_, ?_, ?_⟩
  · intro h hh
    rw [size_holes_reserve] at hh
    rw [hole_reserve]
    split
    · exact hp
    · exact hd.older h (hold h hh ‹_›)
  · intro h hh
    rw [size_holes_reserve] at hh
    rw [hole_reserve, next_reserve]
    split
    · exact Nat.lt_succ_self _
    · exact Nat.lt_succ_of_lt (hd.known h (hold h hh ‹_›))
  · intro h hh h' hh'
    rw [size_holes_reserve] at hh hh'
    rw [hole_reserve, hole_reserve]
    split <;> split
    · omega
    · intro he
      have := hd.known h' (hold h' hh' ‹_›)
      exact absurd he (Nat.ne_of_gt this)
    · intro he
      have := hd.known h (hold h hh ‹_›)
      exact absurd he (Nat.ne_of_lt this)
    · exact hd.distinct h (hold h hh ‹_›) h' (hold h' hh' ‹_›)
  · intro id h hh
    rw [size_holes_reserve]
    rw [draft_reserve d task id hp] at hh
    have hkeep : h ∈ (d.draft id).holes.toList →
        h < d.holes.size + 1 ∧ ((d.reserve parent task).hole h).parent = id := by
      intro hm
      obtain ⟨hlt, hpar⟩ := hd.listed id h hm
      exact ⟨Nat.lt_succ_of_lt hlt, by rw [hole_reserve_old d parent task hlt, hpar]⟩
    split at hh
    · rename_i hid
      simp only [Array.toList_push, List.mem_append, List.mem_singleton] at hh
      rcases hh with hm | hm
      · exact hkeep hm
      · rw [hm, hole_reserve_new]
        exact ⟨Nat.lt_succ_self _, hid.symm⟩
    · exact hkeep hh
  · intro id
    rw [draft_reserve d task id hp]
    split
    · simp only [Array.toList_push]
      rw [List.pairwise_append]
      refine ⟨hd.ordered id, List.pairwise_singleton _ _, ?_⟩
      intro h hm h' hm'
      rw [List.mem_singleton] at hm'
      exact hm' ▸ (hd.listed id h hm).1
    · exact hd.ordered id

theorem forest_alterHole (h : Nat) {f : Hole τ → Hole τ} (hd : Forest d)
    (hparent : ∀ x, (f x).parent = x.parent) (hchild : ∀ x, (f x).child = x.child) :
    Forest (d.alterHole h f) := by
  have hp : ∀ x, ((d.alterHole h f).hole x).parent = (d.hole x).parent := by
    intro x
    rw [hole_alterHole]
    split
    · exact hparent _
    · rfl
  have hc : ∀ x, ((d.alterHole h f).hole x).child = (d.hole x).child := by
    intro x
    rw [hole_alterHole]
    split
    · exact hchild _
    · rfl
  refine ⟨?_, ?_, ?_, ?_, hd.ordered⟩
  · intro x hx
    rw [size_holes_alterHole] at hx
    rw [hp, hc]
    exact hd.older x hx
  · intro x hx
    rw [size_holes_alterHole] at hx
    rw [hc]
    exact hd.known x hx
  · intro x hx x' hx'
    rw [size_holes_alterHole] at hx hx'
    rw [hc, hc]
    exact hd.distinct x hx x' hx'
  · intro id x hx
    rw [size_holes_alterHole, hp]
    exact hd.listed id x hx

/-! ## What lies under a draft -/

/-- The drafts under a draft: itself, and the drafts that fill the holes of drafts under it. -/
inductive Under (d : Drafts τ) (root : Nat) : Nat → Prop
  | self : Under d root root
  | hole {h : Nat} : h < d.holes.size → Under d root (d.hole h).parent →
      Under d root (d.hole h).child

theorem under_le {root : Nat} (hd : Forest d) (hx : Under d root x) : root ≤ x := by
  induction hx with
  | self => exact Nat.le_refl _
  | @hole h hlt _ ih => exact Nat.le_trans ih (Nat.le_of_lt (hd.older h hlt))

theorem under_cases {root : Nat} (hx : Under d root x) :
    x = root ∨ ∃ h < d.holes.size, x = (d.hole h).child ∧ Under d root (d.hole h).parent := by
  cases hx with
  | self => exact Or.inl rfl
  | @hole h hlt hp => exact Or.inr ⟨h, hlt, rfl, hp⟩

/-- Of two drafts above the same draft, one is above the other. -/
theorem under_linear (hd : Forest d) (ha : Under d a x) (hb : Under d b x) :
    Under d a b ∨ Under d b a := by
  induction ha with
  | self => exact Or.inr hb
  | @hole h hlt hp ih =>
    rcases under_cases hb with hx | ⟨h', hlt', hx, hp'⟩
    · exact Or.inl (hx ▸ .hole hlt hp)
    · have hh := hd.distinct h hlt h' hlt' hx
      subst hh
      exact ih hp'

theorem under_disjoint {h' : Nat} (hd : Forest d) (hlt : h < d.holes.size)
    (hlt' : h' < d.holes.size) (hne : h ≠ h') (hp : (d.hole h).parent = (d.hole h').parent)
    (hx : Under d (d.hole h).child x) : ¬ Under d (d.hole h').child x := by
  intro hx'
  -- One of two holes of the same draft would lie under the other.
  have habsurd : ∀ k k', k < d.holes.size → k' < d.holes.size → k ≠ k' →
      (d.hole k).parent = (d.hole k').parent → ¬ Under d (d.hole k).child (d.hole k').child := by
    intro k k' hk hk' hkk hpp hu
    rcases under_cases hu with he | ⟨j, hj, he, hu'⟩
    · exact hkk (hd.distinct k' hk' k hk he).symm
    · have hj' := hd.distinct k' hk' j hj he
      subst hj'
      have hle := under_le hd hu'
      have hlt := hd.older k hk
      omega
  rcases under_linear hd hx hx' with hu | hu
  · exact habsurd h h' hlt hlt' hne hp hu
  · exact habsurd h' h hlt' hlt hne.symm hp.symm hu

end Drafts

end GoToJava
