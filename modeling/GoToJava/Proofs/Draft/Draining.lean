import GoToJava.Proofs.Draft.Growth

/-!
Draining. Tasks are taken from holes one by one, and no hole gets a new one. What is once without
tasks stays without them.
-/

namespace GoToJava.Drafts

variable {τ : Type} {d d' d'' : Drafts τ} {root id k h x : Nat} {quiet : Prop}

/-! ## The tree of a draft -/

/-- The holes in the tree of a draft: its own, and those of the drafts that fill them. -/
inductive Below (d : Drafts τ) (root : Nat) : Nat → Prop
  | own {h : Nat} : h ∈ (d.draft root).holes.toList → Below d root h
  | inner {h k : Nat} : Below d root h → k ∈ (d.draft (d.hole h).child).holes.toList →
      Below d root k

theorem under_of_below (hd : d.Whole) (hb : d.Below root h) :
    h < d.holes.size ∧ Under d root (d.hole h).parent := by
  induction hb with
  | own hm =>
    obtain ⟨hlt, hp⟩ := hd.forest.listed _ _ hm
    rw [hp]
    exact ⟨hlt, .self⟩
  | inner _ hm ih =>
    obtain ⟨hlt, hp⟩ := hd.forest.listed _ _ hm
    rw [hp]
    exact ⟨hlt, .hole ih.1 ih.2⟩

theorem below_of_under (hd : d.Whole) (hx : Under d root x) :
    ∀ h < d.holes.size, (d.hole h).parent = x → d.Below root h := by
  induction hx with
  | self =>
    intro h hlt hp
    have hm := hd.complete h hlt
    rw [hp] at hm
    exact .own hm
  | @hole k hk _ ih =>
    intro h hlt hp
    have hm := hd.complete h hlt
    rw [hp] at hm
    exact .inner (ih k hk rfl) hm

theorem below_iff (hd : d.Whole) :
    d.Below root h ↔ h < d.holes.size ∧ Under d root (d.hole h).parent :=
  ⟨under_of_below hd, fun hu => below_of_under hd hu.2 h hu.1 rfl⟩

/-- Each hole in the tree of a draft is one of its own or lies below one of them. -/
theorem below_cases (hb : d.Below root h) :
    ∃ k ∈ (d.draft root).holes.toList, h = k ∨ d.Below (d.hole k).child h := by
  induction hb with
  | @own h hm => exact ⟨h, hm, Or.inl rfl⟩
  | inner _ hm ih =>
    obtain ⟨k, hk, he | hb⟩ := ih
    · subst he
      exact ⟨_, hk, Or.inr (.own hm)⟩
    · exact ⟨k, hk, Or.inr (.inner hb hm)⟩

theorem below_grows (hd : d.Whole) (hg : Grows quiet d d') (hb : d.Below root h) :
    d'.Below root h := by
  have hlisted : ∀ id, ∀ k ∈ (d.draft id).holes.toList, k ∈ (d'.draft id).holes.toList := by
    intro id k hk
    obtain ⟨more, he, _⟩ := hg.listed id
    rw [he]
    exact List.mem_append_left _ hk
  induction hb with
  | own hm => exact .own (hlisted _ _ hm)
  | @inner h k hb hm ih =>
    have hm' := hlisted _ _ hm
    rw [← hg.hole h (under_of_below hd hb).1] at hm'
    exact .inner ih hm'

/-- No hole in the tree of a draft has a task. -/
def Idle (d : Drafts τ) (id : Nat) : Prop := ∀ h, d.Below id h → (d.hole h).task = none

/-- A hole has no task, and neither has any below it. -/
def Done (d : Drafts τ) (h : Nat) : Prop :=
  (d.hole h).task = none ∧ d.Idle (d.hole h).child

/-! ## Draining -/

/-- Holes keep their places, and new ones are filled by new drafts. -/
structure Extends (d d' : Drafts τ) : Prop where
  next : d.next ≤ d'.next
  holes : d.holes.size ≤ d'.holes.size
  parent : ∀ h < d.holes.size, (d'.hole h).parent = (d.hole h).parent
  child : ∀ h < d.holes.size, (d'.hole h).child = (d.hole h).child
  fresh : ∀ h < d'.holes.size, d.holes.size ≤ h → d.next ≤ (d'.hole h).child

/-- And tasks only go. -/
structure Drains (d d' : Drafts τ) : Prop extends Extends d d' where
  task : ∀ h t, (d'.hole h).task = some t → (d.hole h).task = some t

theorem extends_of_grows (h : Grows quiet d d') : Extends d d' := by
  refine ⟨h.next, h.holes, ?_, ?_, h.child⟩
  · intro k hk
    rw [h.hole k hk]
  · intro k hk
    rw [h.hole k hk]

theorem extends_refl (d : Drafts τ) : Extends d d :=
  extends_of_grows (show Grows True d d from grows_refl d)

theorem extends_trans (h : Extends d d') (h' : Extends d' d'') : Extends d d'' := by
  refine ⟨Nat.le_trans h.next h'.next, Nat.le_trans h.holes h'.holes, ?_, ?_, ?_⟩
  · intro k hk
    rw [h'.parent k (Nat.lt_of_lt_of_le hk h.holes), h.parent k hk]
  · intro k hk
    rw [h'.child k (Nat.lt_of_lt_of_le hk h.holes), h.child k hk]
  · intro k hk hle
    by_cases hlt : k < d'.holes.size
    · rw [h'.child k hlt]
      exact h.fresh k hlt hle
    · exact Nat.le_trans h.next (h'.fresh k hk (Nat.le_of_not_lt hlt))

theorem drains_refl (d : Drafts τ) : Drains d d := ⟨extends_refl d, fun _ _ ht => ht⟩

theorem drains_trans (h : Drains d d') (h' : Drains d' d'') : Drains d d'' :=
  ⟨extends_trans h.toExtends h'.toExtends, fun k t ht => h.task k t (h'.task k t ht)⟩

theorem task_of_quiet (h : Grows quiet d d') (hq : quiet) (k : Nat) :
    (d'.hole k).task = (d.hole k).task := by
  by_cases hk : k < d.holes.size
  · rw [h.hole k hk]
  · rw [h.quiet hq k (Nat.le_of_not_lt hk), hole_of_size_le d k (Nat.le_of_not_lt hk)]

theorem drains_of_quiet (h : Grows quiet d d') (hq : quiet) : Drains d d' := by
  refine ⟨extends_of_grows h, fun k t ht => ?_⟩
  rw [task_of_quiet h hq k] at ht
  exact ht

theorem task_of_new (h : Drains d d') (hk : d.holes.size ≤ k) : (d'.hole k).task = none := by
  cases ht : (d'.hole k).task with
  | none => rfl
  | some t =>
    have hold := h.task k t ht
    rw [hole_of_size_le d k hk] at hold
    cases hold

theorem under_extends (h : Extends d d') (hx : Under d root x) : Under d' root x := by
  induction hx with
  | self => exact .self
  | @hole k hk _ ih =>
    rw [← h.parent k hk] at ih
    rw [← h.child k hk]
    exact .hole (Nat.lt_of_lt_of_le hk h.holes) ih

theorem under_of_extends (h : Extends d d') (hd' : d'.Whole) (hx : Under d' root x)
    (hlt : x < d.next) : Under d root x := by
  induction hx with
  | self => exact .self
  | @hole k hk _ ih =>
    have hold : k < d.holes.size := by
      apply Nat.lt_of_not_le
      intro hle
      exact Nat.not_le_of_lt hlt (h.fresh k hk hle)
    rw [h.parent k hold] at ih
    rw [h.child k hold] at hlt ⊢
    have holder := hd'.forest.older k hk
    rw [h.parent k hold, h.child k hold] at holder
    exact .hole hold (ih (Nat.lt_trans holder hlt))

theorem below_drains (h : Drains d d') (hd : d.Whole) (hd' : d'.Whole) (hb : d.Below root k) :
    d'.Below root k := by
  obtain ⟨hlt, hu⟩ := under_of_below hd hb
  rw [below_iff hd', h.parent k hlt]
  exact ⟨Nat.lt_of_lt_of_le hlt h.holes, under_extends h.toExtends hu⟩

theorem below_of_drains (h : Drains d d') (hd : d.Whole) (hd' : d'.Whole) (hb : d'.Below root k)
    (hlt : k < d.holes.size) : d.Below root k := by
  obtain ⟨_, hu⟩ := under_of_below hd' hb
  rw [h.parent k hlt] at hu
  have hold : (d.hole k).parent < d.next :=
    Nat.lt_trans (hd.forest.older k hlt) (hd.forest.known k hlt)
  exact (below_iff hd).2 ⟨hlt, under_of_extends h.toExtends hd' hu hold⟩

theorem idle_of_old (h : Drains d d')
    (hold : ∀ k < d.holes.size, d'.Below id k → (d'.hole k).task = none) : d'.Idle id := by
  intro k hb
  by_cases hk : k < d.holes.size
  · exact hold k hk hb
  · exact task_of_new h (Nat.le_of_not_lt hk)

theorem idle_drains (h : Drains d d') (hd : d.Whole) (hd' : d'.Whole) (hi : d.Idle id) :
    d'.Idle id := by
  refine idle_of_old h fun k hk hb => ?_
  have hnone := hi k (below_of_drains h hd hd' hb hk)
  cases ht : (d'.hole k).task with
  | none => rfl
  | some t =>
    rw [h.task k t ht] at hnone
    cases hnone

theorem done_drains (h : Drains d d') (hd : d.Whole) (hd' : d'.Whole) (hk : k < d.holes.size)
    (hdone : d.Done k) : d'.Done k := by
  refine ⟨?_, ?_⟩
  · cases ht : (d'.hole k).task with
    | none => rfl
    | some t =>
      rw [Done, h.task k t ht] at hdone
      cases hdone.1
  · rw [h.child k hk]
    exact idle_drains h hd hd' hdone.2

/-- Drafts that came later have no old hole in their trees. -/
theorem idle_of_new (h : Drains d d') (hd : d.Whole) (hd' : d'.Whole) (hid : d.next ≤ id) :
    d'.Idle id := by
  refine idle_of_old h fun k hk hb => ?_
  have hle := under_le hd'.forest (under_of_below hd' hb).2
  rw [h.parent k hk] at hle
  have := hd.forest.older k hk
  have := hd.forest.known k hk
  omega

theorem done_of_new (h : Drains d d') (hd : d.Whole) (hd' : d'.Whole)
    (hnew : d.next ≤ (d'.hole k).child) : d'.Done k := by
  refine ⟨task_of_new h ?_, idle_of_new h hd hd' hnew⟩
  apply Nat.le_of_not_lt
  intro hlt
  rw [h.child k hlt] at hnew
  exact Nat.not_le_of_lt (hd.forest.known k hlt) hnew

/-- When the holes that a draft had are done, its tree is idle. -/
theorem idle_of_done (h : Drains d d') (hd : d.Whole) (hd' : d'.Whole)
    (hdone : ∀ k ∈ (d.draft id).holes.toList, d'.Done k) : d'.Idle id := by
  refine idle_of_old h fun k hk hb => ?_
  obtain ⟨m, hm, he | hbelow⟩ := below_cases (below_of_drains h hd hd' hb hk)
  · rw [he]
    exact (hdone m hm).1
  · have hchild := h.child m (hd.forest.listed id m hm).1
    have hidle := (hdone m hm).2
    rw [hchild] at hidle
    exact hidle k (below_drains h hd hd' hbelow)

/-! ## Taking a task -/

/-- A hole whose task is taken. -/
def emptied (h : Hole τ) : Hole τ := { h with task := none, resolved := true }

theorem resolve_of_open (h : (d.hole id).resolved = false) :
    d.resolve id = (some (d.hole id).task, d.alterHole id emptied) := by
  unfold resolve
  rw [if_neg (by rw [h]; exact Bool.false_ne_true)]
  rfl

theorem resolve_of_resolved (h : (d.hole id).resolved = true) : d.resolve id = (none, d) := by
  unfold resolve
  rw [if_pos h]

theorem hole_emptied_ne (h : k ≠ id) : (d.alterHole id emptied).hole k = d.hole k := by
  rw [hole_alterHole, if_neg fun hk => h hk.1]

theorem hole_emptied_self (h : id < d.holes.size) :
    (d.alterHole id emptied).hole id = emptied (d.hole id) := by
  rw [hole_alterHole, if_pos ⟨rfl, h⟩]

theorem whole_emptied (id : Nat) (hd : d.Whole) : Whole (d.alterHole id emptied) := by
  refine ⟨forest_alterHole id hd.forest (fun _ => rfl) fun _ => rfl, hd.unjoined, ?_⟩
  intro h hh
  rw [size_holes_alterHole] at hh
  have hm := hd.complete h hh
  rw [hole_alterHole]
  split <;> exact hm

theorem drains_emptied (id : Nat) : Drains d (d.alterHole id emptied) := by
  refine ⟨⟨Nat.le_refl _, Nat.le_of_eq (size_holes_alterHole d id emptied).symm, ?_, ?_, ?_⟩, ?_⟩
  · intro h _
    rw [hole_alterHole]
    split <;> rfl
  · intro h _
    rw [hole_alterHole]
    split <;> rfl
  · intro h hlt hle
    rw [size_holes_alterHole] at hlt
    exact absurd hle (Nat.not_le_of_lt hlt)
  · intro h t ht
    rw [hole_alterHole] at ht
    split at ht
    · cases ht
    · exact ht

end GoToJava.Drafts
