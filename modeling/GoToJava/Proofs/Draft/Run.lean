import GoToJava.Proofs.Draft.Log

/-!
Runs of operations on drafts, in any order and on any number of drafts. As long as nothing is added
to a draft that is joined, joining another one renders its log, whatever was joined before.
-/

namespace GoToJava.Drafts

variable {τ : Type} {log log' : Nat → List Entry} {d : Drafts τ} {id : Nat}

/-! ## Operations -/

inductive Op (τ : Type) where
  | new
  | write (id : Nat) (text : String)
  | reserve (parent : Nat) (task : Option τ)
  | attach (hole : Nat) (task : τ)
  | resolve (hole : Nat)
  | join (id : Nat)

/-- The drafts after an operation. One that is refused changes nothing. -/
def step (d : Drafts τ) : Op τ → Drafts τ
  | .new => d.new
  | .write id text =>
    match d.write id text with
    | .ok after => after
    | .error _ => d
  | .reserve parent task => d.reserve parent task
  | .attach hole task =>
    match d.attach hole task with
    | .ok after => after
    | .error _ => d
  | .resolve hole => (d.resolve hole).2
  | .join id =>
    match d.join id with
    | .ok (_, after) => after
    | .error _ => d

def run (ops : List (Op τ)) : Drafts τ := ops.foldl step {}

/-- Drafts that exist are written to, given holes and joined, the first two only while they are not
joined. -/
def Admits (d : Drafts τ) : Op τ → Prop
  | .write id _ | .reserve id _ => id < d.next ∧ d.isJoined id = false
  | .join id => id < d.next
  | _ => True

/-- Each operation of a run is admitted where it comes. -/
def Admitted : Drafts τ → List (Op τ) → Prop
  | _, [] => True
  | d, op :: ops => d.Admits op ∧ Admitted (d.step op) ops

/-- The log of the draft `id` in a run that starts with `n` drafts: what is written into it, and its
holes with the numbers of the drafts that fill them. Drafts are numbered as they come. -/
def entries (id : Nat) : Nat → List (Op τ) → List Entry
  | _, [] => []
  | n, .new :: ops => entries id (n + 1) ops
  | n, .write x text :: ops =>
    if x = id then .text text :: entries id n ops else entries id n ops
  | n, .reserve x _ :: ops =>
    if x = id then .hole n :: entries id (n + 1) ops else entries id (n + 1) ops
  | n, _ :: ops => entries id n ops

/-- The logs of all drafts in a run. -/
def logOf (ops : List (Op τ)) (id : Nat) : List Entry := entries id 0 ops

/-! ## Each operation keeps the logs -/

theorem renders_grown (hd : Faithful log d) (hlog : ∀ c, d.isJoined c = true → log' c = log c)
    {c : Nat} {t : String} (hc : d.isJoined c = true) (h : Renders log (log c) t) :
    Renders log' (log' c) t := by
  rw [hlog c hc]
  exact renders_of_agree hlog hd.deep (hd.deep c hc) h

theorem log_of_joined {e : Entry} (hopen : d.isJoined id = false)
    (hlog : ∀ x, log' x = if x = id then log x ++ [e] else log x) :
    ∀ c, d.isJoined c = true → log' c = log c := by
  intro c hc
  rw [hlog, if_neg]
  rintro rfl
  rw [hopen] at hc
  cases hc

theorem faithful_new (hd : Faithful log d) : Faithful log d.new := by
  have hsealed : Sealed d.new :=
    sealed_congr hd.sealed (holes_new d) (isJoined_new d) fun x => by rw [draft_new]
  refine ⟨forest_new hd.forest, hsealed, ?_, ?_, ?_⟩
  · intro id hi
    rw [isJoined_new] at hi
    rw [text_new, draft_new]
    exact laid_congr (holes_new d) (hd.laid id hi)
  · intro h hh hp hc
    rw [isJoined_new] at hp hc
    rw [text_new]
    exact hd.whole h hh hp hc
  · intro id hi c hc
    rw [isJoined_new] at hi ⊢
    exact hd.deep id hi c hc

theorem faithful_alterHole (h : Nat) {f : Hole τ → Hole τ} (hd : Faithful log d)
    (hf : ∀ x, (f x).parent = x.parent ∧ (f x).offset = x.offset ∧ (f x).child = x.child) :
    Faithful log (d.alterHole h f) := by
  have hhole : ∀ x, ((d.alterHole h f).hole x).parent = (d.hole x).parent ∧
      ((d.alterHole h f).hole x).offset = (d.hole x).offset ∧
      ((d.alterHole h f).hole x).child = (d.hole x).child := by
    intro x
    rw [hole_alterHole]
    split
    · exact hf _
    · exact ⟨rfl, rfl, rfl⟩
  refine ⟨forest_alterHole h hd.forest (fun x => (hf x).1) fun x => (hf x).2.2,
    ⟨hd.sealed.empty, ?_, ?_⟩, ?_, ?_, hd.deep⟩
  · intro x hx hp
    rw [size_holes_alterHole] at hx
    rw [(hhole x).1] at hp ⊢
    exact hd.sealed.complete x hx hp
  · intro x hx hp
    rw [size_holes_alterHole] at hx
    rw [(hhole x).1] at hp
    rw [(hhole x).2.2]
    exact hd.sealed.deep x hx hp
  · intro id hi
    exact laid_of_holes (Nat.le_of_eq (size_holes_alterHole d h f).symm)
      (fun x _ => ⟨(hhole x).2.1, (hhole x).2.2⟩) (hd.laid id hi)
  · intro x hx hp hc
    rw [size_holes_alterHole] at hx
    rw [(hhole x).1] at hp
    rw [(hhole x).2.2] at hc ⊢
    exact hd.whole x hx hp hc

theorem faithful_put {s : String} (hd : Faithful log d) (hid : id < d.next)
    (hopen : d.isJoined id = false)
    (hlog : ∀ x, log' x = if x = id then log x ++ [.text s] else log x) :
    Faithful log' (d.put id s) := by
  have hkeep := log_of_joined hopen hlog
  refine ⟨forest_put id s hd.forest, sealed_put id s hd.sealed, ?_, ?_, ?_⟩
  · intro x hx
    rw [isJoined_put] at hx
    have hl := laid_congr (holes_put d id s) (hd.laid x hx)
    rw [hlog, holes_draft_put]
    by_cases hxid : x = id
    · subst hxid
      rw [if_pos rfl, text_put_self d s hid]
      exact .text s hl
    · rw [if_neg hxid, text_put_ne d s hxid]
      exact hl
  · intro h hlt hp hc
    rw [isJoined_put, hole_put] at hp hc
    -- The draft of a hole that is joined already is not the one written to.
    have hne : (d.hole h).child ≠ id := by
      intro he
      rw [he, hopen] at hc
      cases hc
    rw [hole_put, text_put_ne d s hne]
    exact renders_grown hd hkeep hc (hd.whole h hlt hp hc)
  · intro x hx c hc
    rw [isJoined_put] at hx ⊢
    rw [hkeep x hx] at hc
    exact hd.deep x hx c hc

theorem faithful_reserve (task : Option τ) (hd : Faithful log d) (hid : id < d.next)
    (hopen : d.isJoined id = false)
    (hlog : ∀ x, log' x = if x = id then log x ++ [.hole d.next] else log x) :
    Faithful log' (d.reserve id task) := by
  have hkeep := log_of_joined hopen hlog
  refine ⟨forest_reserve task hd.forest hid, sealed_reserve task hd.sealed hid hopen, ?_, ?_, ?_⟩
  · intro x hx
    rw [isJoined_reserve d _ task x] at hx
    have hl : Laid (d.reserve id task) (log x) (d.text x) (d.draft x).holes.toList := by
      refine laid_of_holes ?_ ?_ (hd.laid x hx)
      · rw [size_holes_reserve]
        exact Nat.le_succ _
      · intro h hh
        rw [hole_reserve_old d id task hh]
        exact ⟨rfl, rfl⟩
    rw [hlog, text_reserve d task x hid, holes_draft_reserve d task x hid]
    by_cases hxid : x = id
    · -- The new hole stands at the end of what is written so far.
      subst hxid
      have hnew := hole_reserve_new d x task
      have hlast := Laid.hole (h := d.holes.size) hl (by rw [size_holes_reserve]; omega)
        (by rw [hnew])
      rw [hnew] at hlast
      rw [if_pos rfl, if_pos rfl]
      exact hlast
    · rw [if_neg hxid, if_neg hxid, List.append_nil]
      exact hl
  · intro h hh hp hc
    rw [isJoined_reserve d _ task _] at hp hc
    rw [text_reserve d task _ hid]
    by_cases hold : h < d.holes.size
    · rw [hole_reserve_old d id task hold] at hp hc ⊢
      exact renders_grown hd hkeep hc (hd.whole h hold hp hc)
    · -- The draft of the new hole is new too, so it is not joined.
      have hnew : h = d.holes.size := by
        rw [size_holes_reserve] at hh
        omega
      rw [hnew, hole_reserve_new] at hc
      unfold isJoined at hc
      rw [draft_of_next_le d _ (Nat.le_refl _)] at hc
      cases hc
  · intro x hx c hc
    rw [isJoined_reserve d _ task _] at hx ⊢
    rw [hkeep x hx] at hc
    exact hd.deep x hx c hc

/-- Joining changes no log, and the joined draft is kept as the text of its log. -/
theorem faithful_closed {d' : Drafts τ} (hd : Faithful log d) (hc : Closed d d d' id)
    (hr : Renders log (log id) (d'.text id)) : Faithful log d' := by
  have hhole : ∀ h, d'.hole h = d.hole h := hole_congr hc.holes
  refine ⟨forest_closed hd.forest hc, sealed_closed hd.sealed hc, ?_, ?_, ?_⟩
  · intro x hx
    have hw := not_within_of_open hc hx
    unfold isJoined at hx
    unfold text
    rw [hc.others x hw] at hx ⊢
    exact laid_congr hc.holes (hd.laid x hx)
  · intro h hh hp hj
    rw [hc.holes] at hh
    rw [hhole] at hp hj ⊢
    have hwp := not_within_of_open hc hp
    by_cases hw : Within d id (d.hole h).child
    · -- Only the joined draft itself fills a hole of a draft that is not joined.
      generalize hx : (d.hole h).child = x at hw
      cases hw with
      | self => exact hr
      | @hole x k hw hk =>
        obtain ⟨hlt, hpk⟩ := hd.forest.listed x k hk
        rw [hd.forest.distinct h hh k hlt hx, hpk] at hwp
        exact absurd hw hwp
    · unfold isJoined at hp hj
      unfold text
      rw [hc.others _ hwp] at hp
      rw [hc.others _ hw] at hj ⊢
      exact hd.whole h hh hp hj
  · intro x hx c hm
    cases hxd : d.isJoined x with
    | true => exact joined_of_closed hc (hd.deep x hxd c hm)
    | false =>
      -- The draft was joined just now, so it is in the tree of `id`, and so are its holes.
      have hw : Within d id x := by
        by_contra hw
        unfold isJoined at hx hxd
        rw [hc.others x hw, hxd] at hx
        cases hx
      obtain ⟨k, hk, he⟩ := exists_of_laid (hd.laid x hxd) hm
      rw [he]
      exact (hc.joined _ (.hole hw hk)).1

/-! ## Runs -/

theorem faithful_empty : Faithful (fun _ => []) ({} : Drafts τ) := by
  have hdraft : ∀ id, (({} : Drafts τ).draft id) = {} := fun id =>
    draft_of_next_le _ _ (Nat.zero_le id)
  have hopen : ∀ id, ({} : Drafts τ).isJoined id = false := by
    intro id
    unfold isJoined
    rw [hdraft]
  refine ⟨forest_empty, ⟨?_, ?_, ?_⟩, ?_, ?_, ?_⟩
  · intro id hi
    rw [hopen] at hi
    cases hi
  · intro h hh
    simp at hh
  · intro h hh
    simp at hh
  · intro id _
    rw [hdraft]
    exact .nil
  · intro h hh
    simp at hh
  · intro id hi
    rw [hopen] at hi
    cases hi

/-- A join of a draft that is not joined gives the text of its log. -/
theorem join_of_faithful (hd : Faithful log d) (hid : id < d.next) (hopen : d.isJoined id = false) :
    ∃ text after, d.join id = .ok (text, after) ∧ Renders log (log id) text ∧
      Faithful log after ∧ after.next = d.next := by
  have hc := closed_close hd.forest d.next id d (.self hid)
  have hr := renders_close hd d.next id d (.self hid) fun hj => by rw [hopen] at hj; cases hj
  refine ⟨_, _, ?_, hr, faithful_closed hd hc hr, hc.next⟩
  unfold join
  rw [hopen]
  rfl

/-- The number of drafts an operation starts. -/
def Op.starts : Op τ → Nat
  | .new | .reserve .. => 1
  | _ => 0

theorem entries_append (id n : Nat) (op : Op τ) (ops : List (Op τ)) :
    entries id n (op :: ops) = entries id n [op] ++ entries id (n + op.starts) ops := by
  cases op with
  | write x text | reserve x task => by_cases h : x = id <;> simp [entries, Op.starts, h]
  | _ => simp [entries, Op.starts]

/-- One operation keeps the logs, with what it adds to them. -/
theorem faithful_step {op : Op τ} (hd : Faithful log d) (hop : d.Admits op) :
    Faithful (fun id => log id ++ entries id d.next [op]) (d.step op) ∧
      (d.step op).next = d.next + op.starts := by
  have hsame : (fun id => log id ++ []) = log := funext fun id => List.append_nil _
  cases op with
  | new =>
    simp only [entries, hsame]
    exact ⟨faithful_new hd, next_new d⟩
  | write id text =>
    obtain ⟨hid, hopen⟩ := hop
    simp only [step, write_of_open d text hopen]
    refine ⟨faithful_put hd hid hopen fun x => ?_, next_put d id text⟩
    by_cases hx : x = id
    · simp [entries, hx]
    · simp [entries, hx, Ne.symm hx]
  | reserve id task =>
    obtain ⟨hid, hopen⟩ := hop
    refine ⟨faithful_reserve task hd hid hopen fun x => ?_, next_reserve d id task⟩
    by_cases hx : x = id
    · simp [entries, hx]
    · simp [entries, hx, Ne.symm hx]
  | attach hole task =>
    simp only [entries, hsame, step, attach]
    split
    · rename_i h
      split at h
      · cases h
      · cases h
        exact ⟨faithful_alterHole hole hd fun x => ⟨rfl, rfl, rfl⟩, rfl⟩
    · exact ⟨hd, rfl⟩
  | resolve hole =>
    simp only [entries, hsame, step, resolve]
    split
    · exact ⟨hd, rfl⟩
    · exact ⟨faithful_alterHole hole hd fun x => ⟨rfl, rfl, rfl⟩, rfl⟩
  | join id =>
    simp only [entries, hsame, step]
    cases hj : d.isJoined id with
    | true =>
      unfold join
      rw [hj]
      exact ⟨hd, rfl⟩
    | false =>
      obtain ⟨text, after, he, -, hafter, hnext⟩ := join_of_faithful hd hop hj
      rw [he]
      exact ⟨hafter, hnext⟩

theorem faithful_foldl (ops : List (Op τ)) : ∀ (log : Nat → List Entry) (d : Drafts τ),
    Faithful log d → Admitted d ops →
      Faithful (fun id => log id ++ entries id d.next ops) (ops.foldl step d) := by
  induction ops with
  | nil =>
    intro log d hd _
    simpa [entries] using hd
  | cons op ops ih =>
    intro log d hd hops
    obtain ⟨hstep, hnext⟩ := faithful_step hd hops.1
    have hrest := ih _ _ hstep hops.2
    rw [hnext] at hrest
    simp only [List.append_assoc, ← entries_append] at hrest
    exact hrest

theorem faithful_run {ops : List (Op τ)} (hops : Admitted {} ops) :
    Faithful (logOf ops) (run ops) := by
  have h := faithful_foldl ops _ _ faithful_empty hops
  exact h

/-! ## The law of joining -/

/-- Joining a draft after any run gives the text of its log and nothing else. Another run that left
the same logs, with whatever numbers and in whatever order, gives the same text. -/
theorem a_joined_draft_is_its_log (ops : List (Op τ)) (root : Nat) (hops : Admitted {} ops)
    (hroot : root < (run ops).next) (hopen : (run ops).isJoined root = false) :
    ∃ text after, (run ops).join root = .ok (text, after) ∧
      (∀ other, Renders (logOf ops) (logOf ops root) other ↔ other = text) ∧
      ∀ (ops' : List (Op τ)) (root' : Nat) (same : Nat → Nat → Prop), Admitted {} ops' →
        root' < (run ops').next → (run ops').isJoined root' = false → same root root' →
        (∀ a b, same a b → List.Forall₂ (Entry.Alike same) (logOf ops a) (logOf ops' b)) →
        ∃ after', (run ops').join root' = .ok (text, after') := by
  obtain ⟨text, after, he, hr, -⟩ := join_of_faithful (faithful_run hops) hroot hopen
  refine ⟨text, after, he, ?_, ?_⟩
  · intro other
    constructor
    · intro ho
      exact renders_unique ho hr
    · intro ho
      rw [ho]
      exact hr
  · intro ops' root' same hops' hroot' hopen' hsame hlogs
    obtain ⟨text', after', he', hr', -⟩ := join_of_faithful (faithful_run hops') hroot' hopen'
    have htext := renders_unique hr' (renders_of_alike hlogs (hlogs root root' hsame) hr)
    rw [htext] at he'
    exact ⟨after', he'⟩

/-- Two holes in one place, behind a letter of two bytes. The second one has a hole of its own and
is joined before the draft around it. -/
def nested : List (Op Unit) :=
  [.new, .write 0 "é", .reserve 0 none, .reserve 0 none, .write 2 "b", .write 1 "a",
    .reserve 2 none, .write 3 "c", .join 2, .write 0 ")"]

theorem nested_joined : Admitted {} nested ∧ 0 < (run nested).next ∧
    (run nested).isJoined 0 = false ∧ ∃ after, (run nested).join 0 = .ok ("éabc)", after) := by
  have hops : Admitted {} nested := by
    simp only [nested, Admitted, Admits]
    decide
  have hroot : 0 < (run nested).next := by decide
  have hopen : (run nested).isJoined 0 = false := by decide
  obtain ⟨text, after, he, hlog, -⟩ := a_joined_draft_is_its_log nested 0 hops hroot hopen
  have hr : Renders (logOf nested) (logOf nested 0) ("é" ++ ("a" ++ (("b" ++ "c") ++ ")"))) :=
    .text "é" (.hole 1 (renders_text _ "a") (.hole 2 (.text "b" (renders_hole (renders_text _ "c")))
      (renders_text _ ")")))
  refine ⟨hops, hroot, hopen, after, ?_⟩
  rw [he, ← (hlog _).1 hr]
  rfl

end GoToJava.Drafts
