import GoToJava.Proofs.Emit.Logic

/-! What the ways of writing do to brackets: within a line, in lines, in holes and elsewhere. -/

namespace GoToJava

open Program

namespace Emit

variable {tidy : Prop} {α : Type} {w : Program} {a b c : List Char} {x : Emit α}
  {Q : α → Program → Prop} {text : String} {task : Option Task}

/-! ## Text -/

theorem mem_pushn {c d : Char} {n : Nat} (h : d ∈ ("".pushn c n).toList) : d = c := by
  induction n with
  | zero => cases h
  | succ n ih =>
    have hrec : "".pushn c (n + 1) = ("".pushn c n).push c := rfl
    rw [hrec, String.toList_push, List.mem_append, List.mem_singleton] at h
    rcases h with h | h
    · exact ih h
    · exact h

theorem plain_pushn (n : Nat) : Plain tidy ("".pushn '\t' n) := by
  apply plain_of_chars
  intro d hd
  rw [mem_pushn hd]
  rfl

theorem keeps_print (h : Turns tidy a b text) : Keeps tidy w a b (print text) fun _ _ => True := by
  intro place desk _ hs hp
  refine ⟨moves_write hs hp.draft ?_, trivial⟩
  split
  · exact turns_append (turns_of_plain (plain_pushn _) a) h
  · exact h

theorem keeps_word (h : scan text.toList a = some b) :
    Keeps tidy w a b (print text) fun _ _ => True :=
  keeps_print (turns_of_scan h)

theorem balanced_print (h : Plain tidy text) : Balanced tidy (print text) :=
  fun _ a => keeps_print (turns_of_plain h a)

theorem balanced_owe : Balanced tidy owe :=
  fun _ _ _ _ _ hs _ => ⟨.refl hs, trivial⟩

theorem keeps_println (h : Turns tidy a b text) :
    Keeps tidy w a b (println text) fun _ _ => True := by
  have hend : ∀ c, Keeps tidy w c c
      (do let place ← read; modifyProgram (·.write place.draft "\n"); owe) fun _ _ => True := by
    intro c place desk _ hs hp
    exact ⟨moves_write hs hp.draft (turns_of_scan rfl), trivial⟩
  unfold println
  split
  · rename_i hempty
    have htext : text = "" := by simpa using hempty
    subst htext
    intro place desk hw hs hp
    obtain ⟨hm, -⟩ := hend b place desk hw hs hp
    refine ⟨⟨hm.sound, hm.ext, ?_, hm.writes.others⟩, trivial⟩
    exact adds_trans ⟨"", by rw [String.append_empty], h⟩ hm.writes.here
  · exact keeps_seq (keeps_print h) (hend b)

theorem keeps_line (h : scan text.toList a = some b) :
    Keeps tidy w a b (println text) fun _ _ => True :=
  keeps_println (turns_of_scan h)

theorem balanced_println (h : Plain tidy text) : Balanced tidy (println text) :=
  fun _ a => keeps_println (turns_of_plain h a)

/-! ## Places -/

theorem keeps_withReader {f : Place → Place}
    (hf : ∀ place p, w.Extends p → place.Sits tidy p.extent →
      (f place).Sits tidy p.extent ∧ (f place).draft = place.draft)
    (hx : Keeps tidy w a b x Q) : Keeps tidy w a b (withReader f x) Q := by
  intro place desk hw hs hp
  obtain ⟨hsits, hdraft⟩ := hf place desk.program hw hp
  obtain ⟨hm, hq⟩ := hx (f place) desk hw hs hsits
  rw [hdraft] at hm
  exact ⟨hm, hq⟩

theorem keeps_deeper (hx : Keeps tidy w a b x Q) : Keeps tidy w a b (withReader Place.deeper x) Q :=
  keeps_withReader (fun _ _ _ hp => ⟨{ hp with }, rfl⟩) hx

theorem keeps_elsewhere {cursor : Cursor} (hc : cursor.place.Sits tidy w.extent)
    (hx : Keeps tidy w [] [] x Q) : Keeps tidy w a a (elsewhere cursor x) Q := by
  intro place desk hw hs _
  obtain ⟨hm, hq⟩ := hx cursor.place { desk with owed := cursor.owed } hw hs (hc.mono hw.extent)
  exact ⟨hm.anywhere a, hq⟩

/-! ## Holes -/

theorem keeps_reserve (owed : Bool) (ht : ∀ t, task = some t → t.Spelled (Plain tidy))
    (hq : w.phase ≠ .discovery → task = none) :
    Keeps tidy w a a (reserve owed task) fun cursor p => cursor.place.Sits tidy p.extent := by
  intro place desk hw hs hp
  -- The place of the hole is in a draft that comes with it.
  have hsits : Place.Sits tidy (desk.program.extent.grown 1 0)
      { place with draft := desk.program.drafts.next } :=
    { hp with draft := Nat.lt_succ_self _ }
  refine ⟨moves_reserve hs hp.draft ?_ ?_, ?_⟩
  · intro t htask
    obtain ⟨task', htask', rfl⟩ := Option.map_eq_some_iff.1 htask
    exact ⟨hsits, ht task' htask'⟩
  · intro hphase
    rw [hq (by rw [← hw.phase]; exact hphase)]
    rfl
  · have hextent : ∀ t, extent
        { desk.program with drafts := desk.program.drafts.reserve place.draft t } =
          desk.program.extent.grown 1 0 := by
      intro t
      simp [extent, Extent.grown]
    rw [← hextent] at hsits
    exact hsits

theorem keeps_reserveBlock (ht : ∀ t, task = some t → t.Spelled (Plain tidy))
    (hq : w.phase ≠ .discovery → task = none) :
    Keeps tidy w a a (reserveBlock task) fun cursor p => cursor.place.Sits tidy p.extent :=
  keeps_reserve true ht hq

theorem keeps_reserveInline (ht : ∀ t, task = some t → t.Spelled (Plain tidy))
    (hq : w.phase ≠ .discovery → task = none) :
    Keeps tidy w a a (reserveInline task) fun cursor p => cursor.place.Sits tidy p.extent :=
  keeps_seq (keeps_word rfl) (keeps_reserve false ht hq)

/-- Text that may be put off is closed if both the text and what it is formed from are. -/
theorem keeps_defer {task : Task} {now : Emit Unit} (ht : task.Spelled (Plain tidy))
    (hn : Keeps tidy w a a now fun _ _ => True) :
    Keeps tidy w a a (defer task now) fun _ _ => True := by
  refine keeps_bind (keeps_isEager _) fun eager p hw _ he => ?_
  have htask : ∀ t, some task = some t → t.Spelled (Plain tidy) := by
    intro t h
    cases h
    exact ht
  split
  · exact keeps_later hn hw
  · rename_i hnot
    have hphase : p.phase ≠ .discovery → some task = none := fun h =>
      absurd (he (by simpa using hnot)) h
    have hinline := keeps_discard (a := a) (keeps_reserveInline htask hphase)
    split
    · exact hinline
    · apply keeps_seq hinline
      refine keeps_bind keeps_read fun place q _ _ _ => ?_
      split
      · exact keeps_pure fun _ _ _ => trivial
      · exact balanced_owe q a
    · exact keeps_discard (keeps_reserveBlock htask hphase)

theorem keeps_inspect (hx : Keeps tidy w [] [] x Q) :
    Keeps tidy w a a (inspect x) fun r p => Q r.1 p := by
  intro place desk hw hs hp
  have hnew : desk.program.Moves tidy place.draft a a
      { desk.program with drafts := desk.program.drafts.new } := moves_new hs
  have hsits : Place.Sits tidy { desk.program with drafts := desk.program.drafts.new }.extent
      { place with
        draft := desk.program.drafts.next, tabs := 0, bare := true, scratch := true } :=
    { hp.mono hnew.ext.extent with
      draft := Nat.lt_of_lt_of_eq (Nat.lt_succ_self _) (Drafts.next_new _).symm }
  obtain ⟨hm, hq⟩ := hx _ ⟨_, false⟩ (hw.trans hnew.ext) hnew.sound hsits
  exact ⟨hnew.trans (hm.anywhere a), hq⟩

/-! ## Actions run at a cursor -/

/-- A whole action, run at a cursor of a sound program. -/
theorem moves_emit {p : Program} (cursor : Cursor) (hs : p.Sound tidy)
    (hc : cursor.place.Sits tidy p.extent) (hx : Keeps tidy p a b x Q) :
    p.Moves tidy cursor.place.draft a b (p.emit cursor x).2 ∧
      Q (p.emit cursor x).1 (p.emit cursor x).2 :=
  hx cursor.place ⟨p, cursor.owed⟩ (.refl p) hs hc

end Emit

end GoToJava
