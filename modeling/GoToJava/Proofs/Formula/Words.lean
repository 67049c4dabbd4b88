import GoToJava.Forms.Expression
import GoToJava.Go.Lexeme
import GoToJava.Proofs.Java.Lexing
import GoToJava.Proofs.Spelling

/-!
Names and numbers of Go are words of Java, also after they are written: a name may become another
name, and an octal number may lose a letter.
-/

namespace GoToJava

open Java (isWordChar)

variable {c : Char} {name : String}

/-- One token of Java, and no operator. -/
def IsWord (text : String) : Prop :=
  text.toList ≠ [] ∧ ∀ c ∈ text.toList, isWordChar c = true

instance (text : String) : Decidable (IsWord text) :=
  decidable_of_iff (text.toList ≠ [] ∧ text.toList.all isWordChar = true) (by simp [IsWord])

/-! ## Characters -/

theorem isWordChar_of_alphanum (h : c.isAlphanum = true) : isWordChar c = true := by
  simp [isWordChar, h]

theorem isWordChar_of_alpha (h : c.isAlpha = true) : isWordChar c = true := by
  apply isWordChar_of_alphanum
  show (c.isAlpha || c.isDigit) = true
  rw [h, Bool.true_or]

theorem isWordChar_of_digit (h : c.isDigit = true) : isWordChar c = true := by
  apply isWordChar_of_alphanum
  show (c.isAlpha || c.isDigit) = true
  rw [h, Bool.or_true]

theorem isWordChar_of_upper (hlow : 'A' ≤ c) (hhigh : c ≤ 'Z') : isWordChar c = true := by
  have hupper : c.isUpper = true := decide_eq_true ⟨hlow, hhigh⟩
  apply isWordChar_of_alpha
  show (c.isUpper || c.isLower) = true
  rw [hupper, Bool.true_or]

theorem isWordChar_of_lower (hlow : 'a' ≤ c) (hhigh : c ≤ 'z') : isWordChar c = true := by
  have hlower : c.isLower = true :=
    Bool.and_eq_true_iff.2 ⟨decide_eq_true hlow, decide_eq_true hhigh⟩
  apply isWordChar_of_alpha
  show (c.isUpper || c.isLower) = true
  rw [hlower, Bool.or_true]

theorem isWordChar_of_large (h : 0x80 ≤ c.toNat) : isWordChar c = true := by
  simp [isWordChar, h]

theorem isWordChar_of_letter (h : Text.isLetter c = true) : isWordChar c = true := by
  by_cases hlarge : 0x80 ≤ c.toNat
  · exact isWordChar_of_large hlarge
  · simp only [Text.isLetter, if_pos (Nat.lt_of_not_le hlarge), Bool.or_false] at h
    exact isWordChar_of_alpha h

theorem isWordChar_of_continues (h : Text.continuesIdentifier c = true) : isWordChar c = true := by
  simp only [Text.continuesIdentifier, Bool.or_eq_true, beq_iff_eq] at h
  rcases h with ((h | rfl) | h) | h
  · exact isWordChar_of_alphanum h
  · decide
  · exact isWordChar_of_letter h
  · by_cases hlarge : 0x80 ≤ c.toNat
    · exact isWordChar_of_large hlarge
    · simp [Nat.lt_of_not_le hlarge] at h

theorem isWordChar_of_capital (h : Text.isCapital c = true) : isWordChar c = true := by
  simp only [Text.isCapital, Bool.or_eq_true, Bool.and_eq_true, decide_eq_true_eq] at h
  rcases h with ⟨hlow, hhigh⟩ | hlarge
  · exact isWordChar_of_upper hlow hhigh
  · exact isWordChar_of_large hlarge

/-! ## Lexemes of Go -/

namespace Go.Lexeme

variable {scan : List Char → Option Nat} {n : Nat} {cs : List Char} {found : List (Option Nat)}
  {p : Char → Bool}

/-- What is scanned is a word. -/
def ScansWord (scan : List Char → Option Nat) : Prop :=
  ∀ cs n, scan cs = some n → 0 < n ∧ ∀ c ∈ cs.take n, isWordChar c = true

theorem mem_take_span (h : c ∈ cs.take (span p cs)) : p c = true := by
  induction cs with
  | nil => simp at h
  | cons d cs ih =>
    rw [span] at h
    split at h
    · rename_i hd
      rcases List.mem_cons.1 h with rfl | h
      · exact hd
      · exact ih h
    · simp at h

theorem scansWord_identifier : ScansWord identifier := by
  intro cs n h
  cases cs with
  | nil => cases h
  | cons c cs =>
    rw [identifier] at h
    split at h
    · rename_i hc
      cases h
      refine ⟨Nat.succ_pos _, ?_⟩
      intro d hd
      rcases List.mem_cons.1 hd with rfl | hd
      · rw [Bool.or_eq_true, beq_iff_eq] at hc
        rcases hc with rfl | hc
        · decide
        · exact isWordChar_of_letter hc
      · exact isWordChar_of_continues (mem_take_span hd)
    · cases h

section Digits

variable {p : Char → Bool} (hp : ∀ c, p c = true → isWordChar c = true)
include hp

theorem isWordChar_moreDigits (cs : List Char) :
    ∀ c ∈ cs.take (moreDigits p cs), isWordChar c = true := by
  fun_induction moreDigits p cs with
  | case1 d cs hd ih =>
    intro c hc
    rcases List.mem_cons.1 hc with rfl | hc
    · decide
    rcases List.mem_cons.1 hc with rfl | hc
    · exact hp _ hd
    · exact ih c hc
  | case2 => simp
  | case3 d cs _ hd ih =>
    intro c hc
    rcases List.mem_cons.1 hc with rfl | hc
    · exact hp _ hd
    · exact ih c hc
  | case4 => simp
  | case5 => simp

theorem scansWord_digits : ScansWord (digits p) := by
  intro cs n h
  cases cs with
  | nil => cases h
  | cons c cs =>
    rw [digits] at h
    split at h
    · rename_i hc
      cases h
      refine ⟨Nat.succ_pos _, ?_⟩
      intro d hd
      rcases List.mem_cons.1 hd with rfl | hd
      · exact hp _ hc
      · exact isWordChar_moreDigits hp cs d hd
    · cases h

end Digits

theorem scansWord_cons (hscan : ScansWord scan) (hc : isWordChar c = true)
    (h : (scan cs).map (· + 1) = some n) : 0 < n ∧ ∀ d ∈ (c :: cs).take n, isWordChar d = true := by
  obtain ⟨m, hm, rfl⟩ := Option.map_eq_some_iff.1 h
  refine ⟨Nat.succ_pos _, ?_⟩
  intro d hd
  rcases List.mem_cons.1 hd with rfl | hd
  · exact hc
  · exact (hscan cs m hm).2 d hd

theorem scansWord_ledDigits (hp : ∀ c, p c = true → isWordChar c = true) :
    ScansWord (ledDigits p) := by
  intro cs n h
  unfold ledDigits at h
  split at h
  · exact scansWord_cons (scansWord_digits hp) (by decide) h
  · exact scansWord_digits hp _ _ h

theorem scansWord_based {small large : Char} (hsmall : isWordChar small = true)
    (hlarge : isWordChar large = true) (hscan : ScansWord scan) :
    ScansWord (based small large scan) := by
  intro cs n h
  unfold based at h
  split at h
  · rename_i c cs
    split at h
    · rename_i hc
      have hword : isWordChar c = true := by
        simp only [Bool.or_eq_true, beq_iff_eq] at hc
        rcases hc with rfl | rfl
        · exact hsmall
        · exact hlarge
      obtain ⟨m, hm, rfl⟩ := Option.map_eq_some_iff.1 h
      refine ⟨Nat.succ_pos _, ?_⟩
      intro d hd
      rcases List.mem_cons.1 hd with rfl | hd
      · decide
      rcases List.mem_cons.1 hd with rfl | hd
      · exact hword
      · exact (hscan cs m hm).2 d hd
    · cases h
  · cases h

/-- A fold that keeps its best so far or takes what comes ends with one of them. -/
theorem mem_of_foldl {pick : Option Nat → Option Nat → Option Nat}
    (hpick : ∀ best x, pick best x = best ∨ pick best x = x) {best : Option Nat}
    (h : found.foldl pick best = some n) : best = some n ∨ some n ∈ found := by
  induction found generalizing best with
  | nil => exact Or.inl h
  | cons x found ih =>
    rcases ih h with hbest | hmem
    · rcases hpick best x with hkept | htaken
      · exact Or.inl (hkept.symm.trans hbest)
      · exact Or.inr (List.mem_cons.2 (Or.inl (hbest.symm.trans htaken)))
    · exact Or.inr (List.mem_cons_of_mem _ hmem)

theorem mem_of_longest (h : longest found = some n) : some n ∈ found := by
  refine (mem_of_foldl ?_ h).resolve_left fun hnone => by cases hnone
  intro best x
  cases best with
  | none => exact Or.inr rfl
  | some b =>
    cases x with
    | none => exact Or.inl rfl
    | some m =>
      by_cases hlt : b < m
      · exact Or.inr (if_pos hlt)
      · exact Or.inl (if_neg hlt)

theorem scansWord_decimalInt : ScansWord decimalInt := by
  intro cs n h
  unfold decimalInt at h
  split at h
  · cases h
    refine ⟨Nat.one_pos, ?_⟩
    intro d hd
    rcases List.mem_cons.1 hd with rfl | hd
    · decide
    · simp at hd
  · rename_i c cs _
    split at h
    · rename_i hc
      exact scansWord_digits (fun _ => isWordChar_of_digit) (c :: cs) n
        (by rw [digits, if_pos hc]; exact h)
    · cases h
  · cases h

theorem isWordChar_of_octal (c : Char) (h : isOctal c = true) : isWordChar c = true := by
  simp only [isOctal, Bool.and_eq_true, decide_eq_true_eq] at h
  apply isWordChar_of_digit
  exact Bool.and_eq_true_iff.2 ⟨decide_eq_true h.1, decide_eq_true (Nat.le_trans h.2 (by decide))⟩

theorem isWordChar_of_binary (c : Char) (h : isBinary c = true) : isWordChar c = true := by
  simp only [isBinary, Bool.or_eq_true, beq_iff_eq] at h
  rcases h with rfl | rfl
  · decide
  · decide

theorem isWordChar_of_hex (c : Char) (h : isHex c = true) : isWordChar c = true := by
  simp only [isHex, Bool.or_eq_true, Bool.and_eq_true, decide_eq_true_eq] at h
  rcases h with (h | ⟨hlow, hhigh⟩) | ⟨hlow, hhigh⟩
  · exact isWordChar_of_digit h
  · exact isWordChar_of_lower hlow (Nat.le_trans hhigh (by decide))
  · exact isWordChar_of_upper hlow (Nat.le_trans hhigh (by decide))

theorem scansWord_octalInt : ScansWord octalInt := by
  intro cs n h
  have hdigits := scansWord_ledDigits isWordChar_of_octal
  rcases List.mem_cons.1 (mem_of_longest h) with h | h
  · exact scansWord_based (by decide) (by decide) hdigits cs n h.symm
  · have htail := (List.mem_singleton.1 h).symm
    split at htail
    · exact scansWord_cons hdigits (by decide) htail
    · cases htail

theorem scansWord_int : ScansWord int := by
  intro cs n h
  have hmem := mem_of_longest h
  simp only [List.mem_cons, List.not_mem_nil, or_false] at hmem
  rcases hmem with h | h | h | h
  · exact scansWord_based (by decide) (by decide) (scansWord_ledDigits isWordChar_of_binary) cs n
      h.symm
  · exact scansWord_decimalInt cs n h.symm
  · exact scansWord_octalInt cs n h.symm
  · exact scansWord_based (by decide) (by decide) (scansWord_ledDigits isWordChar_of_hex) cs n
      h.symm

theorem isWord_of_scan {text : String} (hscan : ScansWord scan)
    (h : scan text.toList = some text.toList.length) : IsWord text := by
  obtain ⟨hpos, hall⟩ := hscan _ _ h
  rw [List.take_length] at hall
  exact ⟨List.ne_nil_of_length_pos hpos, hall⟩

end Go.Lexeme

/-! ## Written names and numbers -/

theorem isWord_title (h : IsWord name) : IsWord (Go.title name) := by
  obtain ⟨hne, hall⟩ := h
  unfold Go.title
  split
  · rename_i c rest hname
    rw [hname] at hall
    refine ⟨?_, ?_⟩
    · rw [String.toList_ofList]
      exact List.append_ne_nil_of_left_ne_nil (Text.toUppercase_ne_nil c) rest
    · intro d hd
      rw [String.toList_ofList, List.mem_append] at hd
      rcases hd with hd | hd
      · rcases Text.mem_toUppercase hd with rfl | hcap
        · exact hall _ List.mem_cons_self
        · exact isWordChar_of_capital hcap
      · exact hall d (List.mem_cons_of_mem _ hd)
  · rename_i hname
    exact absurd hname hne

theorem isWord_identifier (h : IsWord name) : IsWord (Java.identifier name) := by
  unfold Java.identifier
  split
  · decide
  · exact h

theorem isWord_nat (n : Nat) : IsWord (toString n) := by
  rw [Nat.toString_eq_ofList_toDigits, IsWord, String.toList_ofList]
  refine ⟨Nat.toDigits_ne_nil, ?_⟩
  intro c hc
  exact isWordChar_of_digit (Nat.isDigit_of_mem_toDigits (by decide) (by decide) hc)

theorem isWord_intLit {text : String} (h : IsWord text) : IsWord (Forms.intLit text) := by
  obtain ⟨hne, hall⟩ := h
  have hshort : ∀ (o : Char) (rest : List Char), text.toList = '0' :: o :: rest →
      IsWord (String.ofList ('0' :: rest)) := by
    intro o rest htext
    rw [htext] at hall
    rw [IsWord, String.toList_ofList]
    refine ⟨List.cons_ne_nil _ _, ?_⟩
    intro c hc
    rcases List.mem_cons.1 hc with rfl | hc
    · decide
    · exact hall c (List.mem_cons_of_mem _ (List.mem_cons_of_mem _ hc))
  unfold Forms.intLit
  split
  · rename_i rest htext
    exact hshort _ rest htext
  · rename_i rest htext
    exact hshort _ rest htext
  · exact ⟨hne, hall⟩

end GoToJava
