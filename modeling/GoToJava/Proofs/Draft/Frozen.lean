import GoToJava.Proofs.Draft.Run

/-!
Drafts that are joined. Joining a draft joins its tree and leaves all else alone. What is joined
stays joined, and its text stays until a draft around it is joined; but holes may still be left in
it.
-/

namespace GoToJava.Drafts

variable {τ : Type} {d d' : Drafts τ} {op : Op τ} {id x : Nat} {ops : List (Op τ)}

/-! ## What an operation does -/

/-- The operation names a draft or a hole that is there. -/
def Names (d : Drafts τ) : Op τ → Prop
  | .new => True
  | .write id _ | .reserve id _ | .join id => id < d.next
  | .attach hole _ | .resolve hole => hole < d.holes.size

/-- Each operation of a run names what is there when it comes. -/
def Named : Drafts τ → List (Op τ) → Prop
  | _, [] => True
  | d, op :: ops => d.Names op ∧ Named (d.step op) ops

theorem named_append {more : List (Op τ)} :
    Named d (ops ++ more) ↔ Named d ops ∧ Named (ops.foldl step d) more := by
  induction ops generalizing d with
  | nil => simp [Named]
  | cons op ops ih => simp [Named, ih, and_assoc]

/-- What comes of an operation: nothing if it is refused. -/
inductive Change (d : Drafts τ) : Op τ → Drafts τ → Prop
  | refused {op : Op τ} : Change d op d
  | new : Change d .new d.new
  | write {id : Nat} (text : String) : d.isJoined id = false →
      Change d (.write id text) (d.put id text)
  | reserve (id : Nat) (task : Option τ) : Change d (.reserve id task) (d.reserve id task)
  | task {op : Op τ} (h : Nat) {f : Hole τ → Hole τ} :
      (∀ x, (f x).parent = x.parent ∧ (f x).offset = x.offset ∧ (f x).child = x.child) →
      Change d op (d.alterHole h f)
  | join {id : Nat} : d.isJoined id = false → Change d (.join id) (d.close d.next id)

theorem change_step (d : Drafts τ) (op : Op τ) : d.Change op (d.step op) := by
  cases op with
  | new => exact .new
  | write id text =>
    cases hj : d.isJoined id with
    | false =>
      rw [step, write_of_open d text hj]
      exact .write text hj
    | true =>
      simp only [step, write, hj]
      exact .refused
  | reserve id task => exact .reserve id task
  | attach hole task =>
    cases hr : (d.hole hole).resolved with
    | false =>
      simp only [step, attach, hr]
      exact .task hole fun _ => ⟨rfl, rfl, rfl⟩
    | true =>
      simp only [step, attach, hr]
      exact .refused
  | resolve hole =>
    simp only [step, resolve]
    split
    · exact .refused
    · exact .task hole fun _ => ⟨rfl, rfl, rfl⟩
  | join id =>
    cases hj : d.isJoined id with
    | false =>
      simp only [step, join, hj]
      exact .join hj
    | true =>
      simp only [step, join, hj]
      exact .refused

theorem closed_of_forest (hf : Forest d) (hid : id < d.next) : Closed d d (d.close d.next id) id :=
  closed_close hf d.next id d (.self hid)

theorem forest_change (hf : Forest d) (hop : d.Names op) (h : d.Change op d') : Forest d' := by
  cases h with
  | refused => exact hf
  | new => exact forest_new hf
  | write text => exact forest_put _ text hf
  | reserve id task => exact forest_reserve task hf hop
  | task h hsame => exact forest_alterHole h hf (fun x => (hsame x).1) fun x => (hsame x).2.2
  | join => exact forest_closed hf (closed_of_forest hf hop)

theorem forest_run (hf : Forest d) (hops : Named d ops) : Forest (ops.foldl step d) := by
  induction ops generalizing d with
  | nil => exact hf
  | cons op ops ih => exact ih (forest_change hf hops.1 (change_step d op)) hops.2

/-! ## Joining -/

/-- Of two drafts with the same draft in their trees, one is in the tree of the other. -/
theorem within_linear {a b : Nat} (hf : Forest d) (ha : d.Within a x) (hb : d.Within b x) :
    d.Within a b ∨ d.Within b a := by
  induction ha with
  | self => exact Or.inr hb
  | @hole y h hy hh ih =>
    obtain ⟨hlt, hp⟩ := hf.listed y h hh
    generalize hx : (d.hole h).child = x at hb
    cases hb with
    | self => exact Or.inl (hx ▸ .hole hy hh)
    | @hole z k hz hk =>
      obtain ⟨hlt', hp'⟩ := hf.listed z k hk
      rw [hf.distinct h hlt k hlt' hx, hp'] at hp
      exact ih (hp ▸ hz)

/-- In whatever run, joining a draft joins its tree and leaves all else alone, other trees among it;
and joining it again is refused. -/
theorem joining_touches_its_tree_only (ops : List (Op τ)) (id : Nat) (hops : Named {} ops)
    (hid : id < (run ops).next) :
    let d := run ops
    (d.isJoined id = true → d.join id = .error .alreadyJoined ∧ d.step (.join id) = d) ∧
      (d.isJoined id = false → ∃ after, d.join id = .ok (after.text id, after) ∧
        after.holes = d.holes ∧ after.next = d.next ∧
        (∀ x, d.Within id x → after.isJoined x = true ∧ (after.draft x).holes = #[] ∧
          (x ≠ id → after.text x = "")) ∧
        (∀ x, ¬d.Within id x → after.draft x = d.draft x) ∧
        ∀ other, ¬d.Within id other → ¬d.Within other id →
          ∀ x, d.Within other x → after.draft x = d.draft x) := by
  intro d
  have hf : Forest d := forest_run forest_empty hops
  refine ⟨fun hj => ?_, fun hj => ?_⟩
  · simp only [step, join, hj]
    exact ⟨rfl, rfl⟩
  · have hc := closed_of_forest hf hid
    refine ⟨d.close d.next id, ?_, hc.holes, hc.next, ?_, hc.others, ?_⟩
    · simp only [join, hj]
      rfl
    · intro x hx
      obtain ⟨hjoined, hnone⟩ := hc.joined x hx
      exact ⟨hjoined, hnone, hc.emptied x hx⟩
    · intro other hout hin x hx
      refine hc.others x fun hx' => ?_
      exact (within_linear hf hx' hx).elim hout hin

/-- A draft around one that was joined before and has got another hole since. -/
def late : List (Op Unit) :=
  [.new, .reserve 0 none, .write 1 "a", .join 1, .reserve 1 none, .write 2 "b"]

theorem late_is_joined_around : Named {} late ∧ 0 < (run late).next ∧
    (run late).isJoined 0 = false ∧ ∃ after, (run late).join 0 = .ok (after.text 0, after) ∧
      after.text 1 = "" ∧ after.isJoined 2 = true := by
  have hops : Named {} late := by
    simp only [late, Named, Names]
    decide
  obtain ⟨after, he, -, -, htree, -⟩ :=
    (joining_touches_its_tree_only late 0 hops (by decide)).2 (by decide)
  have hin : (run late).Within 0 1 := .hole (h := 0) .self (by decide)
  have hlast : (run late).Within 0 2 := .hole (h := 1) hin (by decide)
  exact ⟨hops, by decide, by decide, after, he, (htree 1 hin).2.2 (by decide), (htree 2 hlast).1⟩

/-! ## After a join -/

/-- One operation on drafts with a joined one among them. -/
structure Holds (d d' : Drafts τ) (op : Op τ) (x : Nat) : Prop where
  joined : d'.isJoined x = true
  text : d'.text x = d.text x ∨
    d'.text x = "" ∧ ∃ root, op = .join root ∧ root ≠ x ∧ d.Within root x
  holes : (d'.draft x).holes = (d.draft x).holes ∨ (d'.draft x).holes = #[] ∨
    ∃ task, op = .reserve x task

theorem holds_change (hf : Forest d) (hop : d.Names op) (h : d.Change op d')
    (hx : d.isJoined x = true) : Holds d d' op x := by
  -- The draft of an operation that asks for one that is not joined is another one.
  have hne : ∀ id, d.isJoined id = false → x ≠ id := by
    rintro id hopen rfl
    rw [hopen] at hx
    cases hx
  cases h with
  | refused | task h _ => exact ⟨hx, .inl rfl, .inl rfl⟩
  | new => exact ⟨(isJoined_new d x).trans hx, .inl (text_new d x), .inl (by rw [draft_new])⟩
  | write text hopen =>
    exact ⟨(isJoined_put d _ x text).trans hx, .inl (text_put_ne d text (hne _ hopen)),
      .inl (holes_draft_put d _ x text)⟩
  | reserve id task =>
    refine ⟨(isJoined_reserve d id task x).trans hx, .inl (text_reserve d task x hop), ?_⟩
    by_cases hxid : x = id
    · exact .inr (.inr ⟨task, by rw [hxid]⟩)
    · exact .inl (by rw [draft_reserve d task x hop, if_neg hxid])
  | @join root hopen =>
    have hc := closed_of_forest hf hop
    by_cases hw : d.Within root x
    · obtain ⟨hjoined, hnone⟩ := hc.joined x hw
      have hroot := hne root hopen
      exact ⟨hjoined, .inr ⟨hc.emptied x hw hroot, root, rfl, hroot.symm, hw⟩, .inr (.inl hnone)⟩
    · refine ⟨joined_of_closed hc hx, .inl ?_, .inl ?_⟩
      · exact congrArg Draft.text (hc.others x hw)
      · rw [hc.others x hw]

theorem holds_run (hf : Forest d) (hops : Named d ops) (hx : d.isJoined x = true) :
    let d' := ops.foldl step d
    d'.isJoined x = true ∧ (d'.text x = d.text x ∨ d'.text x = "") ∧
      ((d.draft x).holes = #[] → (d'.draft x).holes = #[] ∨ ∃ task, .reserve x task ∈ ops) := by
  induction ops generalizing d with
  | nil => exact ⟨hx, .inl rfl, .inl⟩
  | cons op ops ih =>
    have hstep := change_step d op
    have hfirst := holds_change hf hops.1 hstep hx
    obtain ⟨hjoined, htext, hholes⟩ := ih (forest_change hf hops.1 hstep) hops.2 hfirst.joined
    refine ⟨hjoined, ?_, fun hempty => ?_⟩
    · rcases hfirst.text with he | ⟨he, -⟩
      · rwa [he] at htext
      · exact .inr (htext.elim (·.trans he) id)
    · have hlater : (((d.step op).draft x).holes = #[]) →
          (((op :: ops).foldl step d).draft x).holes = #[] ∨ ∃ task, .reserve x task ∈ op :: ops :=
        fun h => (hholes h).imp_right fun ⟨task, hm⟩ => ⟨task, List.mem_cons_of_mem _ hm⟩
      rcases hfirst.holes with he | he | ⟨task, he⟩
      · exact hlater (he.trans hempty)
      · exact hlater he
      · exact .inr ⟨task, he ▸ List.mem_cons_self⟩

theorem lt_next_of_joined (hx : d.isJoined x = true) : x < d.next := by
  by_contra hlt
  unfold isJoined at hx
  rw [draft_of_next_le d x (Nat.le_of_not_lt hlt)] at hx
  cases hx

/-- What a join has joined stays joined, takes no text, and keeps the text it has until a draft
around it is joined, which leaves it empty. It has no holes but those that are left in it later, and
these are not refused. -/
theorem joined_drafts_are_frozen_but_for_new_holes (ops more : List (Op τ)) (root x : Nat)
    (hops : Named {} (ops ++ .join root :: more)) (hopen : (run ops).isJoined root = false)
    (hx : (run ops).Within root x) :
    let joined := run (ops ++ [.join root])
    let later := run (ops ++ .join root :: more)
    later.isJoined x = true ∧ (∀ text, later.write x text = .error .writeToJoined) ∧
      (later.text x = joined.text x ∨ later.text x = "") ∧
      ((later.draft x).holes = #[] ∨ ∃ task, .reserve x task ∈ more) ∧
      (∀ op, later.Names op → Holds later (later.step op) op x) ∧
      ∀ task, ((later.step (.reserve x task)).draft x).holes ≠ #[] := by
  intro joined later
  obtain ⟨hbefore, hroot, hmore⟩ := named_append.1 hops
  have hf : Forest (run ops) := forest_run forest_empty hbefore
  have hjoined : joined = (run ops).step (.join root) := by simp [joined, run]
  have hlater : later = more.foldl step joined := by simp [later, joined, run]
  have hc : Closed (run ops) (run ops) joined root := by
    rw [hjoined]
    simp only [step, join, hopen]
    exact closed_of_forest hf hroot
  have hfj : Forest joined := forest_closed hf hc
  have hrest : Named joined more := hjoined ▸ hmore
  obtain ⟨hstays, htext, hholes⟩ := holds_run hfj hrest (hc.joined x hx).1
  rw [← hlater] at hstays htext hholes
  refine ⟨hstays, fun text => ?_, htext, hholes (hc.joined x hx).2, fun op hop => ?_,
    fun task => ?_⟩
  · simp only [write, hstays]
    rfl
  · exact holds_change (hlater ▸ forest_run hfj hrest) hop (change_step later op) hstays
  · rw [step, draft_reserve later task x (lt_next_of_joined hstays), if_pos rfl]
    simp

/-- A hole is left in a draft that is joined, and its text will not be in the text of the draft. -/
theorem late_text_is_left_out :
    let later : Drafts Unit := run [.new, .write 0 "a", .join 0, .reserve 0 none, .write 1 "b"]
    later.text 0 = "a" ∧ later.text 1 = "b" ∧ (later.draft 0).holes = #[0] ∧
      later.isJoined 0 = true ∧ later.join 0 = .error .alreadyJoined := by
  have hops : Named ({} : Drafts Unit)
      ([.new, .write 0 "a"] ++ .join 0 :: [.reserve 0 none, .write 1 "b"]) := by
    simp only [List.cons_append, List.nil_append, Named, Names]
    decide
  have hfrozen := joined_drafts_are_frozen_but_for_new_holes _ _ 0 0 hops (by decide) .self
  exact ⟨by decide, by decide, by decide, hfrozen.1, rfl⟩

end GoToJava.Drafts
