import GoToJava.Proofs.Draft.Draining
import GoToJava.Proofs.Draft.Rendering
import GoToJava.Task

/-!
Detours. The same text is written to a draft, or to the draft of a hole at its end. The second way
has one draft and one hole more, so later ones have other numbers; joined, both drafts read the
same.
-/

namespace GoToJava

variable {i k : Nat}

/-! ## Numbers -/

/-- The number of a thing when another one has got the number `k` before it. -/
def skip (k i : Nat) : Nat := if i < k then i else i + 1

theorem skip_of_lt (h : i < k) : skip k i = i := if_pos h

theorem skip_of_le (h : k ≤ i) : skip k i = i + 1 := if_neg (by omega)

theorem skip_ne (k i : Nat) : skip k i ≠ k := by
  unfold skip
  split <;> omega

theorem skip_inj {j : Nat} (h : skip k i = skip k j) : i = j := by
  unfold skip at h
  split at h <;> split at h <;> omega

/-- Nothing after the things there are gets a number among them. -/
theorem skip_lt_iff {n : Nat} (h : k ≤ n) : skip k i < n + 1 ↔ i < n := by
  unfold skip
  split <;> omega

/-! ## Drafts -/

/-- What is written to the draft `parent` goes to the draft `child` of its hole `hole` instead. The
draft held the text `before` and the holes `old` until then. -/
structure Detour where
  parent : Nat
  child : Nat
  hole : Nat
  before : String
  old : List Nat

namespace Detour

variable {D : Detour} {i j : Nat}

/-- The same place in both drafts. -/
def Twin (D : Detour) (i j : Nat) : Prop :=
  (i = D.parent ∧ j = D.child) ∨ (i ≠ D.parent ∧ j = skip D.child i)

/-- The same hole in both drafts. The first draft has `shift` bytes more before it. -/
structure Moved (D : Detour) (a b : Drafts Pending) (shift h : Nat) : Prop where
  known : h < a.holes.size
  child : (b.hole (skip D.hole h)).child = skip D.child (a.hole h).child
  offset : (a.hole h).offset = shift + (b.hole (skip D.hole h)).offset

/-- The draft `x` is the draft `y` after a text and some holes. -/
structure Ends (D : Detour) (a b : Drafts Pending) (before : String) (old : List Nat)
    (x y : Draft) : Prop where
  text : x.text = before ++ y.text
  joined : y.joined = x.joined
  holes : ∃ new, x.holes.toList = old ++ new ∧ y.holes.toList = new.map (skip D.hole) ∧
    ∀ h ∈ new, D.Moved a b before.utf8ByteSize h

/-- All drafts in `a` and, with the detour, in `b`. -/
structure Traced (D : Detour) (a b : Drafts Pending) : Prop where
  next : b.next = a.next + 1
  size : b.holes.size = a.holes.size + 1
  younger : D.parent < D.child
  child_le : D.child ≤ a.next
  hole_le : D.hole ≤ a.holes.size
  here : D.Ends a b D.before D.old (a.draft D.parent) (b.draft D.child)
  others : ∀ i, i ≠ D.parent → D.Ends a b "" [] (a.draft i) (b.draft (skip D.child i))
  text : (b.draft D.parent).text = D.before
  holes : (b.draft D.parent).holes.toList = D.old.map (skip D.hole) ++ [D.hole]
  old : ∀ h ∈ D.old, D.Moved a b 0 h
  own : (b.hole D.hole).child = D.child ∧ (b.hole D.hole).offset = D.before.utf8ByteSize

variable {a b : Drafts Pending}

theorem Ends.mono {a' b' : Drafts Pending} {before : String} {old : List Nat} {x y : Draft}
    (h : D.Ends a b before old x y) (hm : ∀ shift k, D.Moved a b shift k → D.Moved a' b' shift k) :
    D.Ends a' b' before old x y := by
  obtain ⟨new, hx, hy, hnew⟩ := h.holes
  exact ⟨h.text, h.joined, new, hx, hy, fun k hk => hm _ k (hnew k hk)⟩

section

variable (h : D.Traced a b)
include h

theorem Traced.ends (hij : D.Twin i j) :
    ∃ before old, D.Ends a b before old (a.draft i) (b.draft j) := by
  rcases hij with ⟨rfl, rfl⟩ | ⟨hi, rfl⟩
  · exact ⟨_, _, h.here⟩
  · exact ⟨_, _, h.others i hi⟩

theorem Traced.isJoined (hij : D.Twin i j) : b.isJoined j = a.isJoined i :=
  let ⟨_, _, hends⟩ := h.ends hij
  hends.joined

/-- A draft that is not written to by way of the detour reads the same. -/
theorem Traced.text_eq (hi : i ≠ D.parent) :
    b.text (skip D.child i) = a.text i := by
  have htext := (h.others i hi).text
  rw [String.empty_append] at htext
  exact htext.symm

theorem Traced.lt_iff (hij : D.Twin i j) : j < b.next ↔ i < a.next := by
  have hyounger := h.younger
  have hle := h.child_le
  rw [h.next]
  rcases hij with ⟨rfl, rfl⟩ | ⟨-, rfl⟩
  · omega
  · exact skip_lt_iff hle

/-- Twins are twins of nothing else, and the draft around the detour is nobody's twin. -/
theorem Traced.twin_iff {i' j' : Nat} (hij : D.Twin i j) (hij' : D.Twin i' j') :
    (j' = j ↔ i' = i) ∧ j ≠ D.parent := by
  have hparent : skip D.child D.parent = D.parent := skip_of_lt h.younger
  have hchild := skip_ne D.child
  have hyounger := h.younger
  rcases hij with ⟨rfl, rfl⟩ | ⟨hi, rfl⟩ <;> rcases hij' with ⟨rfl, rfl⟩ | ⟨hi', rfl⟩
  · exact ⟨by simp, by omega⟩
  · exact ⟨⟨fun he => absurd he (hchild i'), fun he => absurd he hi'⟩, by omega⟩
  · refine ⟨⟨fun he => absurd he.symm (hchild i), fun he => absurd he.symm hi⟩, fun he => hi ?_⟩
    exact skip_inj (he.trans hparent.symm)
  · refine ⟨⟨skip_inj, fun he => by rw [he]⟩, fun he => hi ?_⟩
    exact skip_inj (he.trans hparent.symm)

end

/-! ## What is done to twins -/

theorem traced_alter {f : Draft → Draft} (h : D.Traced a b) (hij : D.Twin i j)
    (hf : ∀ before old x y, D.Ends a b before old x y → D.Ends a b before old (f x) (f y)) :
    D.Traced (a.alter i f) (b.alter j f) := by
  have hmoved : ∀ shift k, D.Moved a b shift k → D.Moved (a.alter i f) (b.alter j f) shift k :=
    fun _ _ hm => ⟨hm.known, hm.child, hm.offset⟩
  have hends : ∀ {i' j' before old}, D.Twin i' j' →
      D.Ends a b before old (a.draft i') (b.draft j') →
      D.Ends (a.alter i f) (b.alter j f) before old ((a.alter i f).draft i')
        ((b.alter j f).draft j') := by
    intro i' j' before old hij' he
    refine Ends.mono ?_ hmoved
    have hsame := and_congr (h.twin_iff hij hij').1 (h.lt_iff hij')
    simp only [Drafts.draft_alter, hsame]
    split
    · exact hf _ _ _ _ he
    · exact he
  have hparent : (b.alter j f).draft D.parent = b.draft D.parent :=
    Drafts.draft_alter_ne b f (h.twin_iff hij hij).2.symm
  refine ⟨?_, h.size, h.younger, ?_, h.hole_le, hends (.inl ⟨rfl, rfl⟩) h.here,
    fun i' hi' => hends (.inr ⟨hi', rfl⟩) (h.others i' hi'), ?_, ?_,
    fun k hk => hmoved _ _ (h.old k hk), h.own⟩
  · rw [Drafts.next_alter, Drafts.next_alter, h.next]
  · rw [Drafts.next_alter]
    exact h.child_le
  · rw [hparent, h.text]
  · rw [hparent, h.holes]

theorem traced_put (text : String) (h : D.Traced a b) (hij : D.Twin i j) :
    D.Traced (a.put i text) (b.put j text) := by
  refine traced_alter h hij fun before old x y he => ⟨?_, he.joined, he.holes⟩
  rw [he.text, String.append_assoc]

theorem traced_new (h : D.Traced a b) : D.Traced a.new b.new := by
  have hends : ∀ {before old i j}, D.Ends a b before old (a.draft i) (b.draft j) →
      D.Ends a.new b.new before old (a.new.draft i) (b.new.draft j) := by
    intro before old i j he
    rw [Drafts.draft_new, Drafts.draft_new]
    exact he.mono fun _ _ hm => ⟨hm.known, hm.child, hm.offset⟩
  refine ⟨?_, h.size, h.younger, ?_, h.hole_le, hends h.here,
    fun i hi => hends (h.others i hi), ?_, ?_,
    fun k hk => ⟨(h.old k hk).known, (h.old k hk).child, (h.old k hk).offset⟩, h.own⟩
  · rw [Drafts.next_new, Drafts.next_new, h.next]
  · rw [Drafts.next_new]
    exact Nat.le_succ_of_le h.child_le
  · rw [Drafts.draft_new, h.text]
  · rw [Drafts.draft_new, h.holes]

theorem traced_reserve (task task' : Option Pending) (h : D.Traced a b) (hij : D.Twin i j) :
    D.Traced (a.reserve i task) (b.reserve j task') := by
  have hskip : skip D.hole a.holes.size = b.holes.size := by
    rw [skip_of_le h.hole_le, h.size]
  have hold : ∀ {k}, k < a.holes.size → skip D.hole k < b.holes.size := by
    intro k hk
    rw [h.size]
    exact (skip_lt_iff h.hole_le).2 hk
  have hmoved : ∀ shift k, D.Moved a b shift k →
      D.Moved (a.reserve i task) (b.reserve j task') shift k := by
    intro shift k hm
    refine ⟨?_, ?_, ?_⟩
    · rw [Drafts.size_holes_reserve]
      exact Nat.lt_succ_of_lt hm.known
    · rw [Drafts.hole_reserve_old b j task' (hold hm.known),
        Drafts.hole_reserve_old a i task hm.known, hm.child]
    · rw [Drafts.hole_reserve_old b j task' (hold hm.known),
        Drafts.hole_reserve_old a i task hm.known, hm.offset]
  -- The new hole stands at the ends of the twins.
  have hfresh : ∀ {before old}, D.Ends a b before old (a.draft i) (b.draft j) →
      D.Moved (a.reserve i task) (b.reserve j task') before.utf8ByteSize a.holes.size := by
    intro before old he
    refine ⟨?_, ?_, ?_⟩
    · rw [Drafts.size_holes_reserve]
      exact Nat.lt_succ_self _
    · rw [hskip, Drafts.hole_reserve_new, Drafts.hole_reserve_new, h.next, skip_of_le h.child_le]
    · rw [hskip, Drafts.hole_reserve_new, Drafts.hole_reserve_new]
      show (a.draft i).text.utf8ByteSize = _ + (b.draft j).text.utf8ByteSize
      rw [he.text, String.utf8ByteSize_append]
  have hends : ∀ {i' j' before old}, D.Twin i' j' →
      D.Ends a b before old (a.draft i') (b.draft j') →
      D.Ends (a.reserve i task) (b.reserve j task') before old
        ((a.reserve i task).draft i') ((b.reserve j task').draft j') := by
    intro i' j' before old hij' he
    have hlt : j' < b.next + 1 ↔ i' < a.next + 1 := by
      have hnew := (traced_new h).lt_iff hij'
      rwa [Drafts.next_new, Drafts.next_new] at hnew
    simp only [Drafts.draft_reserve_any, and_congr (h.twin_iff hij hij').1 hlt]
    split
    · rename_i hhere
      obtain ⟨rfl, -⟩ := hhere
      have hjj := (h.twin_iff hij hij').1.2 rfl
      subst hjj
      obtain ⟨new, hx, hy, hnew⟩ := he.holes
      refine ⟨he.text, he.joined, new ++ [a.holes.size], ?_, ?_, ?_⟩
      · simp [hx]
      · simp [hy, hskip]
      · intro k hk
        rcases List.mem_append.1 hk with hk | hk
        · exact hmoved _ _ (hnew k hk)
        · rw [List.mem_singleton.1 hk]
          exact hfresh he
    · exact he.mono hmoved
  have hparent : (b.reserve j task').draft D.parent = b.draft D.parent := by
    rw [Drafts.draft_reserve_any, if_neg fun hj => (h.twin_iff hij hij).2 hj.1.symm]
  refine ⟨?_, ?_, h.younger, ?_, ?_, hends (.inl ⟨rfl, rfl⟩) h.here,
    fun i' hi' => hends (.inr ⟨hi', rfl⟩) (h.others i' hi'), ?_, ?_,
    fun k hk => hmoved _ _ (h.old k hk), ?_⟩
  · rw [Drafts.next_reserve, Drafts.next_reserve, h.next]
  · rw [Drafts.size_holes_reserve, Drafts.size_holes_reserve, h.size]
  · rw [Drafts.next_reserve]
    exact Nat.le_succ_of_le h.child_le
  · rw [Drafts.size_holes_reserve]
    exact Nat.le_succ_of_le h.hole_le
  · rw [hparent, h.text]
  · rw [hparent, h.holes]
  · have hlt : D.hole < b.holes.size := by
      have := h.hole_le
      rw [h.size]
      omega
    rw [Drafts.hole_reserve_old b j task' hlt]
    exact h.own

/-! ## Where a detour starts -/

/-- The detour that starts with a hole at the end of a draft. -/
def start (d : Drafts Pending) (parent : Nat) : Detour :=
  ⟨parent, d.next, d.holes.size, d.text parent, (d.draft parent).holes.toList⟩

theorem traced_start {d : Drafts Pending} {parent : Nat} (task : Option Pending) (hd : d.Whole)
    (h : parent < d.next) : (start d parent).Traced d
      ((d.reserve parent task).alterHole d.holes.size Drafts.emptied) := by
  have hsize : d.holes.size < (d.reserve parent task).holes.size := by
    rw [Drafts.size_holes_reserve]
    exact Nat.lt_succ_self _
  have hlisted : ∀ i, ∀ k ∈ (d.draft i).holes.toList, k < d.holes.size := fun i k hk =>
    (hd.forest.listed i k hk).1
  have hmap : ∀ i, (d.draft i).holes.toList.map (skip d.holes.size) =
      (d.draft i).holes.toList := fun i =>
    (List.map_congr_left fun k hk => skip_of_lt (hlisted i k hk)).trans (List.map_id' _)
  -- Nothing has moved yet.
  have hmoved : ∀ k < d.holes.size, (start d parent).Moved d
      ((d.reserve parent task).alterHole d.holes.size Drafts.emptied) 0 k := by
    intro k hk
    have hhole : ((d.reserve parent task).alterHole d.holes.size Drafts.emptied).hole
        (skip d.holes.size k) = d.hole k := by
      rw [skip_of_lt hk, Drafts.hole_emptied_ne (Nat.ne_of_lt hk), Drafts.hole_reserve_old _ _ _ hk]
    refine ⟨hk, ?_, ?_⟩
    · show (Drafts.hole _ (skip d.holes.size k)).child = skip d.next _
      rw [hhole, skip_of_lt (hd.forest.known k hk)]
    · show _ = 0 + (Drafts.hole _ (skip d.holes.size k)).offset
      rw [hhole, Nat.zero_add]
  refine ⟨Drafts.next_reserve d parent task, ?_, h, Nat.le_refl _, Nat.le_refl _, ?_, ?_, ?_, ?_,
    fun k hk => hmoved k (hlisted parent k hk), ?_⟩
  · rw [Drafts.size_holes_alterHole, Drafts.size_holes_reserve]
  · have hchild : (d.reserve parent task).draft d.next = {} := by
      rw [Drafts.draft_reserve d task _ h, if_neg (Nat.ne_of_gt h)]
      exact Drafts.draft_of_next_le _ _ (Nat.le_refl _)
    show Ends _ _ _ _ _ _ ((d.reserve parent task).draft d.next)
    rw [hchild]
    exact ⟨String.append_empty.symm, (hd.unjoined parent).symm, [], (List.append_nil _).symm, rfl,
      fun k hk => absurd hk List.not_mem_nil⟩
  · intro i (hi : i ≠ parent)
    have hsame : (d.reserve parent task).draft (skip d.next i) = d.draft i := by
      rcases Nat.lt_or_ge i d.next with hlt | hge
      · rw [skip_of_lt hlt, Drafts.draft_reserve d task _ h, if_neg hi]
      · have hne : i + 1 ≠ parent := by omega
        rw [skip_of_le hge, Drafts.draft_reserve d task _ h, if_neg hne,
          Drafts.draft_of_next_le _ _ hge, Drafts.draft_of_next_le _ _ (Nat.le_succ_of_le hge)]
    show Ends _ _ _ _ _ _ ((d.reserve parent task).draft (skip d.next i))
    rw [hsame]
    exact ⟨String.empty_append.symm, rfl, (d.draft i).holes.toList, rfl, (hmap i).symm,
      fun k hk => hmoved k (hlisted i k hk)⟩
  · show ((d.reserve parent task).draft parent).text = d.text parent
    rw [Drafts.draft_reserve d task _ h, if_pos rfl]
    rfl
  · show ((d.reserve parent task).draft parent).holes.toList =
      (d.draft parent).holes.toList.map (skip d.holes.size) ++ [d.holes.size]
    rw [Drafts.holes_draft_reserve d task _ h, if_pos rfl, hmap]
  · show (Drafts.hole _ d.holes.size).child = d.next ∧ (Drafts.hole _ d.holes.size).offset = _
    rw [Drafts.hole_emptied_self hsize, Drafts.hole_reserve_new]
    exact ⟨rfl, rfl⟩

/-! ## What is read in the end -/

/-- Holes that have moved are filled alike, behind the same text. -/
theorem foldr_moved {before : String} {hs : List Nat} {depth depth' : Nat} (text : String)
    (hm : ∀ h ∈ hs, D.Moved a b before.utf8ByteSize h)
    (hr : ∀ h ∈ hs, a.render depth (a.hole h).child =
      b.render depth' (skip D.child (a.hole h).child)) :
    hs.foldr (fun h t => insertAt t (a.hole h).offset (a.render depth (a.hole h).child))
        (before ++ text) = before ++ (hs.map (skip D.hole)).foldr
        (fun h t => insertAt t (b.hole h).offset (b.render depth' (b.hole h).child)) text := by
  induction hs with
  | nil => rfl
  | cons h hs ih =>
    have hhere := hm h List.mem_cons_self
    rw [List.foldr_cons, ih (fun k hk => hm k (List.mem_cons_of_mem _ hk))
      fun k hk => hr k (List.mem_cons_of_mem _ hk), hhere.offset, insertAt_append_left,
      hr h List.mem_cons_self, ← hhere.child]
    rfl

/-- What is younger than the draft around the detour reads the same. -/
theorem Traced.render_younger (h : D.Traced a b) (ha : a.Forest) :
    ∀ depth i, D.parent < i → a.render depth i = b.render depth (skip D.child i) := by
  intro depth
  induction depth with
  | zero => exact fun i hi => (h.text_eq (Nat.ne_of_gt hi)).symm
  | succ depth ih =>
    intro i hi
    have hi' : i ≠ D.parent := Nat.ne_of_gt hi
    obtain ⟨new, hx, hy, hnew⟩ := (h.others i hi').holes
    rw [List.nil_append] at hx
    have hyounger : ∀ k ∈ new, D.parent < (a.hole k).child := by
      intro k hk
      obtain ⟨hlt, hparent⟩ := ha.listed i k (by rw [hx]; exact hk)
      exact Nat.lt_trans (hparent ▸ hi) (ha.older k hlt)
    have hfold := foldr_moved (a.text i) hnew fun k hk => ih _ (hyounger k hk)
    rw [String.empty_append, String.empty_append] at hfold
    rw [Drafts.render, Drafts.render, hx, hy, hfold, h.text_eq hi']

/-- The draft reads the same, whether or not a part of it has gone by way of the detour. -/
theorem Traced.render_parent (h : D.Traced a b) (ha : a.Forest) :
    a.render a.next D.parent = b.render b.next D.parent := by
  obtain ⟨n, hn⟩ : ∃ n, a.next = n + 1 := ⟨a.next - 1, by
    have := h.younger
    have := h.child_le
    omega⟩
  obtain ⟨new, hx, hy, hnew⟩ := h.here.holes
  have hyounger : ∀ k ∈ D.old ++ new, D.parent < (a.hole k).child := by
    intro k hk
    obtain ⟨hlt, hparent⟩ := ha.listed D.parent k (by rw [hx]; exact hk)
    exact hparent ▸ ha.older k hlt
  have hnewer := foldr_moved (b.draft D.child).text hnew fun k hk =>
    h.render_younger ha n _ (hyounger k (List.mem_append_right _ hk))
  -- With the detour, the older holes stand one level higher above what is deepest.
  have hlevel : ∀ k ∈ D.old, a.render n (a.hole k).child =
      b.render (n + 1) (skip D.child (a.hole k).child) := by
    intro k hk
    have hlt := hyounger k (List.mem_append_left _ hk)
    rw [← Drafts.render_succ ha n _ (by omega)]
    exact h.render_younger ha (n + 1) _ hlt
  have hold : ∀ k ∈ D.old, D.Moved a b "".utf8ByteSize k := h.old
  have holder := foldr_moved (D.before ++ b.render (n + 1) D.child) hold hlevel
  rw [String.empty_append, String.empty_append] at holder
  have hdetour : b.render (n + 1) D.child = (new.map (skip D.hole)).foldr
      (fun k t => insertAt t (b.hole k).offset (b.render n (b.hole k).child))
      (b.draft D.child).text := by
    rw [Drafts.render, hy]
    rfl
  have hparent : b.render (n + 1 + 1) D.parent = (D.old.map (skip D.hole)).foldr
      (fun k t => insertAt t (b.hole k).offset (b.render (n + 1) (b.hole k).child))
      (D.before ++ b.render (n + 1) D.child) := by
    rw [Drafts.render, h.holes, List.foldr_append, Drafts.text, h.text, List.foldr_cons,
      List.foldr_nil, h.own.1, h.own.2, insertAt_empty]
  rw [h.next, hn, hparent, Drafts.render, hx, List.foldr_append, Drafts.text, h.here.text, hnewer,
    ← hdetour, holder]

end Detour

end GoToJava
