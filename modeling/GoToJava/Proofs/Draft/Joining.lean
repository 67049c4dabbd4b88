import GoToJava.Proofs.Draft.Forest

/-!
Joining. Putting the texts of the holes in touches the drafts in the tree of a draft and no others,
and the holes of one draft do not get in each other's way.
-/

namespace GoToJava

/-! ## Text put into a text -/

theorem utf8ByteSize_ofList_cons (c : Char) (cs : List Char) :
    (String.ofList (c :: cs)).utf8ByteSize = c.utf8Size + (String.ofList cs).utf8ByteSize := by
  rw [← List.singleton_append, String.ofList_append, String.utf8ByteSize_append,
    ← String.singleton_eq_ofList, String.utf8ByteSize_singleton]

/-- A text is cut after a part of it by the number of the part's bytes. -/
theorem splitBytes_append (before after : List Char) :
    splitBytes (String.ofList before).utf8ByteSize (before ++ after) = (before, after) := by
  induction before with
  | nil =>
    cases after with
    | nil => rfl
    | cons c cs =>
      have := c.utf8Size_pos
      simp only [String.ofList_nil, String.utf8ByteSize_empty, List.nil_append, splitBytes]
      rw [if_neg (by omega)]
  | cons c cs ih =>
    rw [utf8ByteSize_ofList_cons, List.cons_append, splitBytes, if_pos (Nat.le_add_right _ _),
      Nat.add_sub_cancel_left, ih]

theorem insertAt_append (before after added : String) :
    insertAt (before ++ after) before.utf8ByteSize added = before ++ added ++ after := by
  have hsplit : splitBytes before.utf8ByteSize (before ++ after).toList =
      (before.toList, after.toList) := by
    rw [String.toList_append, ← splitBytes_append, String.ofList_toList]
  unfold insertAt
  rw [hsplit]
  simp

theorem splitBytes_parts (n : Nat) (cs : List Char) :
    (splitBytes n cs).1 ++ (splitBytes n cs).2 = cs := by
  induction cs generalizing n with
  | nil => rfl
  | cons c cs ih =>
    rw [splitBytes]
    split
    · simp [ih]
    · rfl

namespace Drafts

variable {τ : Type} {d d' base : Drafts τ} {id x h depth : Nat} {hs : List Nat}

/-! ## Joined trees -/

/-- A draft that is joined has no holes left, and all under it is joined. -/
structure Sealed (d : Drafts τ) : Prop where
  empty : ∀ id, d.isJoined id = true → (d.draft id).holes = #[]
  complete : ∀ h < d.holes.size, d.isJoined (d.hole h).parent = false →
    h ∈ (d.draft (d.hole h).parent).holes.toList
  deep : ∀ h < d.holes.size, d.isJoined (d.hole h).parent = true →
    d.isJoined (d.hole h).child = true

/-- Only which drafts are joined and which holes they have matters. -/
theorem sealed_congr (hs : Sealed d) (hholes : d'.holes = d.holes)
    (hjoined : ∀ x, d'.isJoined x = d.isJoined x)
    (hdraft : ∀ x, (d'.draft x).holes = (d.draft x).holes) : Sealed d' := by
  have hhole : ∀ h, d'.hole h = d.hole h := by
    intro h
    unfold hole
    rw [hholes]
  refine ⟨?_, ?_, ?_⟩
  · intro x hx
    rw [hjoined] at hx
    rw [hdraft]
    exact hs.empty x hx
  · intro h hh hp
    rw [hholes] at hh
    rw [hhole, hjoined] at hp
    rw [hhole, hdraft]
    exact hs.complete h hh hp
  · intro h hh hp
    rw [hholes] at hh
    rw [hhole, hjoined] at hp ⊢
    exact hs.deep h hh hp

theorem sealed_put (id : Nat) (text : String) (hs : Sealed d) : Sealed (d.put id text) :=
  sealed_congr hs (holes_put d id text) (fun x => isJoined_put d id x text) fun x =>
    holes_draft_put d id x text

theorem sealed_reserve (task : Option τ) (hs : Sealed d) (hid : id < d.next)
    (hopen : d.isJoined id = false) : Sealed (d.reserve id task) := by
  -- A hole is either an old one, or the new one, which belongs to a draft that is not joined.
  have hcases : ∀ h, h < (d.reserve id task).holes.size → h < d.holes.size ∨ h = d.holes.size := by
    intro h hh
    rw [size_holes_reserve] at hh
    omega
  refine ⟨?_, ?_, ?_⟩
  · intro x hx
    rw [isJoined_reserve d _ task x] at hx
    have hne : x ≠ id := by
      rintro rfl
      rw [hopen] at hx
      cases hx
    rw [draft_reserve d task x hid, if_neg hne]
    exact hs.empty x hx
  · intro h hh hp
    rw [holes_draft_reserve d task _ hid]
    rcases hcases h hh with hold | rfl
    · rw [hole_reserve_old d id task hold, isJoined_reserve d _ task _] at hp
      rw [hole_reserve_old d id task hold]
      exact List.mem_append_left _ (hs.complete h hold hp)
    · rw [hole_reserve_new, if_pos rfl]
      exact List.mem_append_right _ List.mem_cons_self
  · intro h hh hp
    rcases hcases h hh with hold | rfl
    · rw [hole_reserve_old d id task hold, isJoined_reserve d _ task _] at hp ⊢
      exact hs.deep h hold hp
    · rw [hole_reserve_new, isJoined_reserve d _ task _, hopen] at hp
      cases hp

/-! ## The tree of a draft -/

/-- The drafts in the tree of a draft: itself, and the drafts that fill the holes of drafts in the
tree. -/
inductive Within (d : Drafts τ) (root : Nat) : Nat → Prop
  | self : Within d root root
  | hole {x h : Nat} : Within d root x → h ∈ (d.draft x).holes.toList →
      Within d root (d.hole h).child

theorem within_of_listed (hh : h ∈ (d.draft id).holes.toList) (hx : Within d (d.hole h).child x) :
    Within d id x := by
  induction hx with
  | self => exact .hole .self hh
  | hole _ hk ih => exact .hole ih hk

/-- What lies in the tree of a draft lies in the tree of one of its holes. -/
theorem within_cases (hx : Within d id x) :
    x = id ∨ ∃ h ∈ (d.draft id).holes.toList, Within d (d.hole h).child x := by
  induction hx with
  | self => exact Or.inl rfl
  | @hole x h _ hh ih =>
    right
    rcases ih with he | ⟨k, hk, hw⟩
    · exact ⟨h, he ▸ hh, .self⟩
    · exact ⟨k, hk, .hole hw hh⟩

theorem under_of_within (hd : Forest d) (hx : Within d id x) : Under d id x := by
  induction hx with
  | self => exact .self
  | @hole x h _ hh ih =>
    obtain ⟨hlt, hp⟩ := hd.listed x h hh
    exact .hole hlt (hp.symm ▸ ih)

/-! ## One hole after the other -/

/-- The text of a hole put into the text of its draft. -/
def fillHole (depth : Nat) (h : Nat) (s : Drafts τ × String) : Drafts τ × String :=
  let hole := s.1.hole h
  let d := close depth s.1 hole.child
  (d.alter hole.child fun x => { x with text := "" },
    insertAt s.2 hole.offset (d.text hole.child))

theorem fst_fillHole (depth h : Nat) (s : Drafts τ × String) :
    (fillHole depth h s).1 = (close depth s.1 (s.1.hole h).child).alter (s.1.hole h).child
      fun x => { x with text := "" } := rfl

/-- A draft as it is when all its holes are filled. -/
def finish (s : Drafts τ × String) (id : Nat) : Drafts τ :=
  s.1.alter id fun _ => { text := s.2, holes := #[], joined := true }

theorem close_succ (depth : Nat) (d : Drafts τ) (id : Nat) : close (depth + 1) d id =
      finish ((d.draft id).holes.toList.foldr (fillHole depth) (d, d.text id)) id := by
  rw [close, ← Array.foldr_toList]
  rfl

/-- The draft `id` can be joined in `d` as in `base`: its tree is as it was there. The depth
suffices, as the drafts of holes are younger. -/
structure Ready (base d : Drafts τ) (depth id : Nat) : Prop where
  known : id < base.next
  deep : base.next ≤ depth + id
  holes : d.holes = base.holes
  next : d.next = base.next
  same : ∀ x, Within base id x → d.draft x = base.draft x

theorem Ready.self (h : id < d.next) : Ready d d d.next id :=
  ⟨h, Nat.le_add_right _ _, rfl, rfl, fun _ _ => rfl⟩

/-- The outcome of joining `id`: all that lies in its tree in `base` is joined, with its text in the
text of `id`, and all else is as in `d`. -/
structure Closed (base d d' : Drafts τ) (id : Nat) : Prop where
  holes : d'.holes = d.holes
  next : d'.next = d.next
  joined : ∀ x, Within base id x → d'.isJoined x = true ∧ (d'.draft x).holes = #[]
  emptied : ∀ x, Within base id x → x ≠ id → d'.text x = ""
  others : ∀ x, ¬ Within base id x → d'.draft x = d.draft x

/-- The outcome of filling some holes of a draft. -/
structure Filled (base d d' : Drafts τ) (hs : List Nat) : Prop where
  holes : d'.holes = d.holes
  next : d'.next = d.next
  joined : ∀ h ∈ hs, ∀ x, Within base (base.hole h).child x →
    d'.isJoined x = true ∧ (d'.draft x).holes = #[] ∧ d'.text x = ""
  others : ∀ x, (∀ h ∈ hs, ¬ Within base (base.hole h).child x) → d'.draft x = d.draft x

theorem filled_nil (base d : Drafts τ) : Filled base d d [] :=
  ⟨rfl, rfl, fun _ hm => absurd hm List.not_mem_nil, fun _ _ => rfl⟩

theorem draft_emptied (d : Drafts τ) (id x : Nat) :
    (d.alter id fun y => { y with text := "" }).draft x =
      if x = id then { d.draft x with text := "" } else d.draft x := by
  rw [draft_alter]
  by_cases hlt : x < d.next
  · simp [hlt]
  · simp [hlt, draft_of_next_le d x (Nat.le_of_not_lt hlt)]

/-- Filling some holes and then another one fills all of them. -/
theorem filled_cons {d₁ d₂ : Drafts τ} (h₁ : Filled base d d₁ hs)
    (h₂ : Closed base d₁ d₂ (base.hole h).child) :
    Filled base d (d₂.alter (base.hole h).child fun x => { x with text := "" }) (h :: hs) := by
  refine ⟨?_, ?_, ?_, ?_⟩
  · rw [holes_alter, h₂.holes, h₁.holes]
  · rw [next_alter, h₂.next, h₁.next]
  · intro k hk x hx
    unfold isJoined text
    rw [draft_emptied]
    by_cases hw : Within base (base.hole h).child x
    · obtain ⟨hjoined, hnone⟩ := h₂.joined x hw
      split
      · exact ⟨hjoined, hnone, rfl⟩
      · exact ⟨hjoined, hnone, h₂.emptied x hw ‹_›⟩
    · have hne : x ≠ (base.hole h).child := fun he => hw (he ▸ .self)
      rw [if_neg hne, h₂.others x hw]
      rcases List.mem_cons.1 hk with rfl | hk
      · exact absurd hx hw
      · exact h₁.joined k hk x hx
  · intro x hx
    have hw := hx h List.mem_cons_self
    have hne : x ≠ (base.hole h).child := fun he => hw (he ▸ .self)
    rw [draft_alter_ne _ _ hne, h₂.others x hw]
    exact h₁.others x fun k hk => hx k (List.mem_cons_of_mem _ hk)

theorem hole_congr (hh : d.holes = base.holes) (h : Nat) : d.hole h = base.hole h := by
  unfold hole
  rw [hh]

theorem ready_hole (hf : Forest base) (hr : Ready base d (depth + 1) id)
    (hm : h ∈ (base.draft id).holes.toList) : Ready base d depth (base.hole h).child := by
  obtain ⟨hlt, hp⟩ := hf.listed id h hm
  have hold := hf.older h hlt
  have hdeep := hr.deep
  refine ⟨hf.known h hlt, by omega, hr.holes, hr.next, fun x hx => ?_⟩
  exact hr.same x (within_of_listed hm hx)

theorem ready_of_filled (hf : Forest base) (hr : Ready base d (depth + 1) id)
    (hfill : Filled base d d' hs) (hs : h :: hs <:+ (base.draft id).holes.toList) :
    Ready base d' depth (base.hole h).child := by
  have hmem := fun k hk => hs.subset (a := k) hk
  have hready := ready_hole hf hr (hmem h List.mem_cons_self)
  refine { hready with holes := hfill.holes.trans hr.holes, next := hfill.next.trans hr.next,
                       same := fun x hx => ?_ }
  rw [hfill.others x, hready.same x hx]
  intro k hk hw
  obtain ⟨hlt, hp⟩ := hf.listed id h (hmem h List.mem_cons_self)
  obtain ⟨hlt', hp'⟩ := hf.listed id k (hmem k (List.mem_cons_of_mem _ hk))
  have hne : h < k := List.rel_of_pairwise_cons ((hf.ordered id).sublist hs.sublist) hk
  exact under_disjoint hf hlt hlt' (Nat.ne_of_lt hne) (hp.trans hp'.symm) (under_of_within hf hx)
    (under_of_within hf hw)

theorem filled_foldr (hf : Forest base) (hr : Ready base d (depth + 1) id)
    (hclose : ∀ (x : Nat) (d : Drafts τ), Ready base d depth x → Closed base d (close depth d x) x)
    (text : String) (hs : List Nat) (hsuffix : hs <:+ (base.draft id).holes.toList) :
    Filled base d (hs.foldr (fillHole depth) (d, text)).1 hs := by
  induction hs with
  | nil => exact filled_nil base d
  | cons h hs ih =>
    have hrest := ih ((List.suffix_cons h hs).trans hsuffix)
    have hhole := hole_congr (hrest.holes.trans hr.holes) h
    rw [List.foldr_cons, fst_fillHole, hhole]
    exact filled_cons hrest (hclose _ _ (ready_of_filled hf hr hrest hsuffix))

theorem closed_close (hf : Forest base) :
    ∀ (depth id : Nat) (d : Drafts τ), Ready base d depth id →
      Closed base d (close depth d id) id := by
  intro depth
  induction depth with
  | zero =>
    intro id d hr
    have hknown := hr.known
    have hdeep := hr.deep
    omega
  | succ depth ih =>
    intro id d hr
    have hfill := filled_foldr hf hr ih (d.text id) _ List.suffix_rfl
    rw [← hr.same id .self] at hfill
    rw [close_succ]
    -- A draft of the tree is the draft itself, or lies in the tree of one of its holes.
    have hinner : ∀ x, Within base id x → x ≠ id →
        ∃ h ∈ (d.draft id).holes.toList, Within base (base.hole h).child x := by
      intro x hx hne
      rw [hr.same id .self]
      exact (within_cases hx).resolve_left hne
    refine ⟨?_, ?_, ?_, ?_, ?_⟩
    · unfold finish
      rw [holes_alter, hfill.holes]
    · unfold finish
      rw [next_alter, hfill.next]
    · intro x hx
      unfold finish isJoined
      by_cases hxid : x = id
      · subst hxid
        rw [draft_alter_self _ _ _ (by rw [hfill.next, hr.next]; exact hr.known)]
        exact ⟨rfl, rfl⟩
      · obtain ⟨h, hm, hw⟩ := hinner x hx hxid
        obtain ⟨hjoined, hnone, -⟩ := hfill.joined h hm x hw
        rw [draft_alter_ne _ _ hxid]
        exact ⟨hjoined, hnone⟩
    · intro x hx hxid
      obtain ⟨h, hm, hw⟩ := hinner x hx hxid
      unfold finish text
      rw [draft_alter_ne _ _ hxid]
      exact (hfill.joined h hm x hw).2.2
    · intro x hx
      have hne : x ≠ id := fun he => hx (he ▸ .self)
      unfold finish
      rw [draft_alter_ne _ _ hne]
      refine hfill.others x fun h hm hw => hx (within_of_listed ?_ hw)
      rwa [← hr.same id .self]

/-- What holds before any hole of a draft is filled, and still holds when one more is, whose draft
can be joined as ever, holds when all are filled. -/
theorem foldr_fillHole {P : List Nat → Drafts τ × String → Prop} (hf : Forest base)
    (hr : Ready base d (depth + 1) id) (text : String) (hnil : P [] (d, text))
    (hcons : ∀ h hs s, h :: hs <:+ (base.draft id).holes.toList →
      Ready base s.1 depth (base.hole h).child → P hs s → P (h :: hs) (fillHole depth h s))
    (hs : List Nat) (hsuffix : hs <:+ (base.draft id).holes.toList) :
    P hs (hs.foldr (fillHole depth) (d, text)) := by
  induction hs with
  | nil => exact hnil
  | cons h hs ih =>
    have hrest := (List.suffix_cons h hs).trans hsuffix
    have hfill := filled_foldr hf hr (closed_close hf depth) text hs hrest
    exact hcons h hs _ hsuffix (ready_of_filled hf hr hfill hsuffix) (ih hrest)

/-! ## After a join -/

theorem forest_closed (hf : Forest d) (hc : Closed d d d' id) : Forest d' := by
  have hhole : ∀ h, d'.hole h = d.hole h := hole_congr hc.holes
  have hsub : ∀ x, (d'.draft x).holes.toList.Sublist (d.draft x).holes.toList := by
    intro x
    by_cases hw : Within d id x
    · rw [(hc.joined x hw).2]
      exact List.nil_sublist _
    · rw [hc.others x hw]
  refine ⟨?_, ?_, ?_, ?_, ?_⟩
  · intro h hh
    rw [hc.holes] at hh
    rw [hhole]
    exact hf.older h hh
  · intro h hh
    rw [hc.holes] at hh
    rw [hhole, hc.next]
    exact hf.known h hh
  · intro h hh h' hh'
    rw [hc.holes] at hh hh'
    rw [hhole, hhole]
    exact hf.distinct h hh h' hh'
  · intro x h hm
    rw [hhole, hc.holes]
    exact hf.listed x h ((hsub x).subset hm)
  · intro x
    exact (hf.ordered x).sublist (hsub x)

theorem joined_of_closed (hc : Closed d d d' id) (hx : d.isJoined x = true) :
    d'.isJoined x = true := by
  by_cases hw : Within d id x
  · exact (hc.joined x hw).1
  · unfold isJoined
    rw [hc.others x hw]
    exact hx

theorem not_within_of_open (hc : Closed d d d' id) (hx : d'.isJoined x = false) :
    ¬ Within d id x := by
  intro hw
  rw [(hc.joined x hw).1] at hx
  cases hx

theorem sealed_closed (hs : Sealed d) (hc : Closed d d d' id) : Sealed d' := by
  have hhole : ∀ h, d'.hole h = d.hole h := hole_congr hc.holes
  refine ⟨?_, ?_, ?_⟩
  · intro x hx
    by_cases hw : Within d id x
    · exact (hc.joined x hw).2
    · unfold isJoined at hx
      rw [hc.others x hw] at hx ⊢
      exact hs.empty x hx
  · intro h hh hp
    rw [hc.holes] at hh
    rw [hhole] at hp ⊢
    have hw := not_within_of_open hc hp
    unfold isJoined at hp
    rw [hc.others _ hw] at hp ⊢
    exact hs.complete h hh hp
  · intro h hh hp
    rw [hc.holes] at hh
    rw [hhole] at hp ⊢
    cases hj : d.isJoined (d.hole h).parent with
    | true => exact joined_of_closed hc (hs.deep h hh hj)
    | false =>
      -- The draft was joined just now, with all of its holes.
      have hw : Within d id (d.hole h).parent := by
        by_contra hw
        unfold isJoined at hp hj
        rw [hc.others _ hw, hj] at hp
        cases hp
      exact (hc.joined _ (.hole hw (hs.complete h hh hj))).1

end Drafts

end GoToJava
