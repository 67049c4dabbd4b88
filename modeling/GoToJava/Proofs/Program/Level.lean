import GoToJava.Proofs.Conversion

/-!
Open and closed texts. While a program is discovered, the class of each package stays open, and all
other texts are closed.
-/

namespace GoToJava

open Emit

variable {tidy : Prop}

namespace Program

variable {p q : Program} {d u : Nat} {dir name : String}

/-- The units of the program's packages, whose classes are open. -/
def IsOpen (p : Program) (u : Nat) : Prop :=
  u < p.units.size ∧ (p.unit u).isPackage = true ∧ (p.unit u).library = false

/-- Each open class lacks its last brace, and all other texts are closed. -/
structure Level (tidy : Prop) (p : Program) : Prop where
  opened : ∀ u, p.IsOpen u → Turns tidy [] ['\x7d'] (p.drafts.text (p.unit u).root)
  closed : ∀ d, (∀ u, p.IsOpen u → (p.unit u).root ≠ d) → Turns tidy [] [] (p.drafts.text d)

theorem isOpen_of_extends (h : p.Extends q) (hu : q.IsOpen u) :
    p.IsOpen u ∧ (q.unit u).root = (p.unit u).root := by
  obtain ⟨hlt, hpackage, hlibrary⟩ := hu
  by_cases hold : u < p.units.size
  · have hl := h.unit u hold
    rw [hl.isPackage] at hpackage
    rw [hl.library] at hlibrary
    exact ⟨⟨hold, hpackage, hlibrary⟩, hl.root⟩
  · have hfresh := h.fresh u (Nat.le_of_not_lt hold) hlt
    rw [hfresh.1] at hpackage
    cases hpackage

theorem IsOpen.later (hu : p.IsOpen u) (h : p.Extends q) : q.IsOpen u := by
  obtain ⟨hlt, hpackage, hlibrary⟩ := hu
  have hl := h.unit u hlt
  exact ⟨Nat.lt_of_lt_of_le hlt h.extent.units, hl.isPackage.trans hpackage,
    hl.library.trans hlibrary⟩

theorem turns_of_adds {b : List Char} {old new : String} (h : Adds tidy [] [] old new)
    (ho : Turns tidy [] b old) : Turns tidy [] b new := by
  obtain ⟨t, rfl, ht⟩ := adds_frame h b
  exact turns_append ho ht

theorem level_of_moves (hp : p.Level tidy) (h : p.Moves tidy d [] [] q) : q.Level tidy := by
  have hadds : ∀ id, Adds tidy [] [] (p.drafts.text id) (q.drafts.text id) := by
    intro id
    by_cases hid : id = d
    · rw [hid]
      exact h.writes.here
    · exact h.writes.others id hid
  refine ⟨?_, ?_⟩
  · intro u hu
    obtain ⟨hopen, hroot⟩ := isOpen_of_extends h.ext hu
    rw [hroot]
    exact turns_of_adds (hadds _) (hp.opened u hopen)
  · intro id hid
    refine turns_of_adds (hadds id) (hp.closed id fun u hu => ?_)
    rw [← (h.ext.unit u hu.1).root]
    exact hid u (hu.later h.ext)

/-- What holds of a program under discovery that has at least `n` units. -/
structure Growing (tidy : Prop) (n : Nat) (p : Program) : Prop where
  sound : p.Sound tidy
  level : p.Level tidy
  phase : p.phase = .discovery
  unresolved : ∀ h, (p.drafts.hole h).resolved = false
  units : n ≤ p.units.size

theorem unresolved_of_grows {d d' : Drafts Pending} {quiet : Prop} (h : d.Grows quiet d')
    (hd : ∀ k, (d.hole k).resolved = false) (k : Nat) : (d'.hole k).resolved = false := by
  by_cases hk : k < d.holes.size
  · rw [h.hole k hk]
    exact hd k
  · exact h.unresolved k (Nat.le_of_not_lt hk)

theorem growing_of_moves {n : Nat} (hp : p.Growing tidy n) (h : p.Moves tidy d [] [] q) :
    q.Growing tidy n := by
  exact ⟨h.sound, level_of_moves hp.level h, h.ext.phase.trans hp.phase,
    unresolved_of_grows h.ext.drafts hp.unresolved, Nat.le_trans hp.units h.ext.extent.units⟩

theorem growing_empty : Growing tidy 0 {} := by
  have hdraft : ∀ id, (({} : Program).drafts.draft id) = {} := fun id =>
    Drafts.draft_of_next_le _ _ (Nat.zero_le id)
  have htext : ∀ id, Turns tidy [] [] (({} : Program).drafts.text id) := by
    intro id
    unfold Drafts.text
    rw [hdraft]
    exact turns_of_scan rfl
  refine ⟨⟨⟨Drafts.whole_empty, ?_, ?_⟩, ?_⟩, ⟨?_, fun d _ => htext d⟩, rfl, ?_, Nat.le_refl _⟩
  · intro u hu
    simp at hu
  · intro u hu
    simp at hu
  · refine ⟨?_, ?_, ?_, ?_, Table.all_empty, Table.all_empty, Table.all_empty, ?_,
      Table.all_empty, ?_⟩
    · intro h hh
      simp at hh
    · intro u hu
      simp at hu
    · intro c hc
      simp at hc
    · intro m hm
      cases hm
    · intro n hn
      cases hn
    · exact ⟨fun _ => Table.all_empty, fun _ _ h => by cases h⟩
  · intro u hu
    exact absurd hu.1 (Nat.not_lt_zero u)
  · intro h
    rfl

/-! ## Units of packages -/

theorem isOpen_newUnit {library : Bool} (h : (p.newUnit dir name library none).IsOpen u) :
    p.IsOpen u ∧ ((p.newUnit dir name library none).unit u).root = (p.unit u).root ∨
      u = p.units.size ∧ library = false := by
  obtain ⟨hlt, hpackage, hlibrary⟩ := h
  have hunit := unit_newUnit p dir name library none u
  rw [size_units_newUnit] at hlt
  by_cases hu : u = p.units.size
  · rw [hunit, if_pos hu] at hlibrary
    exact Or.inr ⟨hu, hlibrary⟩
  · rw [hunit, if_neg hu] at hpackage hlibrary
    rw [hunit, if_neg hu]
    exact Or.inl ⟨⟨by omega, hpackage, hlibrary⟩, rfl⟩

theorem isOpen_newUnit_old (dir name : String) (library : Bool) (h : p.IsOpen u) :
    (p.newUnit dir name library none).IsOpen u ∧
      ((p.newUnit dir name library none).unit u).root = (p.unit u).root := by
  unfold IsOpen
  rw [unit_newUnit_old _ _ _ _ _ h.1, size_units_newUnit]
  exact ⟨⟨Nat.lt_succ_of_lt h.1, h.2⟩, rfl⟩

theorem level_newLibrary (hp : p.Level tidy) : (p.newUnit dir name true none).Level tidy := by
  refine ⟨?_, ?_⟩
  · intro u hu
    rcases isOpen_newUnit hu with ⟨hold, hroot⟩ | ⟨_, habsurd⟩
    · rw [text_newUnit, hroot]
      exact hp.opened u hold
    · cases habsurd
  · intro d hd
    rw [text_newUnit]
    refine hp.closed d fun u hu => ?_
    obtain ⟨hopen, hroot⟩ := isOpen_newUnit_old dir name true hu
    rw [← hroot]
    exact hd u hopen

/-- The class of a package is opened at the start of its unit. -/
theorem level_newPackage (hp : p.Level tidy)
    (h : (p.newUnit dir name false none).Moves tidy p.drafts.next [] ['\x7d'] q) :
    q.Level tidy := by
  have hadds : ∀ id, id ≠ p.drafts.next → Adds tidy [] [] (p.drafts.text id) (q.drafts.text id) :=
    fun id hid => text_newUnit p dir name false none id ▸ h.writes.others id hid
  -- The new unit has a draft of its own, which was empty before its class was opened.
  have hnew : Turns tidy [] ['\x7d'] (q.drafts.text p.drafts.next) := by
    obtain ⟨t, ht, hturns⟩ := h.writes.here
    have hempty : p.drafts.text p.drafts.next = "" := by
      unfold Drafts.text
      rw [Drafts.draft_of_next_le _ _ (Nat.le_refl _)]
    rw [ht, text_newUnit, hempty, String.empty_append]
    exact hturns
  have hlast := unit_newUnit_last p dir name false none
  refine ⟨?_, ?_⟩
  · intro u hu
    obtain ⟨hopen, hroot⟩ := isOpen_of_extends h.ext hu
    rw [hroot]
    rcases isOpen_newUnit hopen with ⟨hold, hsame⟩ | ⟨rfl, _⟩
    · rw [hsame]
      by_cases hid : (p.unit u).root = p.drafts.next
      · rw [hid]
        exact hnew
      · exact turns_of_adds (hadds _ hid) (hp.opened u hold)
    · rw [hlast]
      exact hnew
  · intro d hd
    have hadded : (p.newUnit dir name false none).IsOpen p.units.size := by
      refine ⟨lt_size_newUnit _ _ _ _ _, ?_⟩
      rw [hlast]
      exact ⟨rfl, rfl⟩
    have hne : d ≠ p.drafts.next := by
      have hroot := hd _ (hadded.later h.ext)
      rw [(h.ext.unit _ hadded.1).root, hlast] at hroot
      exact Ne.symm hroot
    refine turns_of_adds (hadds d hne) (hp.closed d fun u hu => ?_)
    obtain ⟨hopen, hsame⟩ := isOpen_newUnit_old dir name false hu
    rw [← hsame, ← (h.ext.unit u hopen.1).root]
    exact hd u (hopen.later h.ext)

theorem growing_packageUnit {n : Nat} (library : Bool) (hp : p.Growing tidy n)
    (hdir : Plain tidy dir) (hname : Plain tidy name) :
    (p.packageUnit dir name library).2.Growing tidy n ∧
      (p.packageUnit dir name library).1 < (p.packageUnit dir name library).2.units.size := by
  unfold packageUnit
  split
  · rename_i id hid
    exact ⟨hp, hp.sound.holds.unitIndex _ _ hid⟩
  · have hsound : (p.newUnit dir name library none).Sound tidy :=
      sound_newUnit hp.sound hdir hname fun u hu => by cases hu
    have hsize := lt_size_newUnit p dir name library none
    have hunits := Nat.le_trans hp.units (Nat.le_of_lt hsize)
    cases library with
    | true =>
      exact ⟨⟨hsound, level_newLibrary hp.level, hp.phase, hp.unresolved, hunits⟩, hsize⟩
    | false =>
      have hline : ∀ w, Keeps tidy w [] ['\x7d'] (println ("public class " ++ name ++ " \x7b"))
          fun _ _ => True := fun w =>
        keeps_println (turns_append (turns_append (turns_of_scan rfl) (turns_of_plain hname [] ))
          (turns_of_scan rfl))
      have hmoves := moves_startUnit hsound hsize hline
      rw [unit_newUnit_last] at hmoves
      dsimp only
      rw [if_neg Bool.false_ne_true]
      -- Only what is known of the started unit matters from here on.
      generalize (p.newUnit dir name false none).startUnit p.units.size _ = q at hmoves ⊢
      have hle := hmoves.ext.extent.units
      refine ⟨⟨hmoves.sound, level_newPackage hp.level hmoves, hmoves.ext.phase.trans hp.phase,
        ?_, Nat.le_trans hunits hle⟩, Nat.lt_of_lt_of_le hsize hle⟩
      exact unresolved_of_grows hmoves.ext.drafts hp.unresolved

end Program

end GoToJava
