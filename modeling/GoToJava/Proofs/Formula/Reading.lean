import GoToJava.Proofs.Formula.Words
import GoToJava.Proofs.Java.Grouping

/-!
Formulas: names and numbers with the operators that Go and Java share. Go has five levels of binary
operators and Java has ten, so a formula that is written without more parentheses may be grouped in
another way.
-/

namespace GoToJava

open Forms

open Java (Reads reads_append reads_of_step)

/-! ## Operators -/

/-- The unary operators of Go that are operators of Java too. -/
inductive Sign where
  | pos
  | neg
  | not
  | complement
  deriving DecidableEq, Repr

namespace Sign

def go : Sign → Go.UnaryOp
  | pos => .pos
  | neg => .neg
  | not => .not
  | complement => .bitNot

def java : Sign → Java.UnaryOp
  | pos => .pos
  | neg => .neg
  | not => .not
  | complement => .complement

/-- Signs that are another operator when they are written twice. -/
def Doubles : Sign → Prop
  | pos | neg => True
  | not | complement => False

instance : DecidablePred Doubles
  | pos | neg => isTrue trivial
  | not | complement => isFalse id

end Sign

namespace Go.BinaryOp

/-- How tightly an operator binds in Go. -/
def level : BinaryOp → Nat
  | mul | div | rem | shl | shr | bitAnd | andNot => 5
  | add | sub | bitOr | bitXor => 4
  | eq | ne | lt | le | gt | ge => 3
  | and => 2
  | or => 1

/-- The operator of Java. That the right operand of `&^` is complemented is not said here. -/
def java : BinaryOp → Java.BinaryOp
  | add => .add
  | sub => .sub
  | mul => .mul
  | div => .div
  | rem => .rem
  | bitAnd | andNot => .bitAnd
  | bitOr => .bitOr
  | bitXor => .bitXor
  | shl => .shl
  | shr => .shr
  | and => .and
  | or => .or
  | eq => .eq
  | ne => .ne
  | lt => .lt
  | le => .le
  | gt => .gt
  | ge => .ge

/-- The right operand that Java needs: `a &^ b` is `a & (~b)`. -/
def rightOperand (op : BinaryOp) (right : Java.Tree) : Java.Tree :=
  if op = andNot then .unary .complement right else right

/-- The tokens between two operands. -/
def tokens (op : BinaryOp) : List Java.Token :=
  [.operator op.java.text] ++ if op = andNot then [.operator Java.UnaryOp.complement.text] else []

end Go.BinaryOp

/-! ## Formulas -/

inductive Formula where
  | name (text : String)
  | number (text : String)
  | paren (inner : Formula)
  | unary (sign : Sign) (operand : Formula)
  | binary (left : Formula) (op : Go.BinaryOp) (right : Formula)
  deriving DecidableEq, Repr

namespace Formula

def expr : Formula → Go.Expr
  | name text => .ident text
  | number text => .lit .int text
  | paren inner => .paren inner.expr
  | unary sign operand => .unary sign.go operand.expr
  | binary left op right => .binary left.expr op right.expr

/-- The level in Go of the operator at the top. All but binary operators bind most tightly. -/
def level : Formula → Nat
  | binary _ op _ => op.level
  | _ => 6

/-- The formula is one that Go reads without more parentheses. -/
def Grammatical : Formula → Prop
  | name _ | number _ => True
  | paren inner => inner.Grammatical
  | unary _ operand => operand.level = 6 ∧ operand.Grammatical
  | binary left op right =>
    op.level ≤ left.level ∧ op.level < right.level ∧ left.Grammatical ∧ right.Grammatical

instance decidableGrammatical : DecidablePred Grammatical
  | name _ | number _ => isTrue trivial
  | paren inner => decidableGrammatical inner
  | unary _ operand =>
    have := decidableGrammatical operand
    inferInstanceAs (Decidable (operand.level = 6 ∧ operand.Grammatical))
  | binary left op right =>
    have := decidableGrammatical left
    have := decidableGrammatical right
    inferInstanceAs (Decidable (op.level ≤ left.level ∧ op.level < right.level ∧
      left.Grammatical ∧ right.Grammatical))

/-- All names are identifiers of Go and all numbers are integer literals of Go. -/
def Lexed : Formula → Prop
  | name text => Go.Lexeme.identifier text.toList = some text.toList.length
  | number text => Go.Lexeme.int text.toList = some text.toList.length
  | paren inner => inner.Lexed
  | unary _ operand => operand.Lexed
  | binary left _ right => left.Lexed ∧ right.Lexed

instance decidableLexed : DecidablePred Lexed
  | name _ => inferInstanceAs (Decidable (_ = _))
  | number _ => inferInstanceAs (Decidable (_ = _))
  | paren inner => decidableLexed inner
  | unary _ operand => decidableLexed operand
  | binary left _ right =>
    have := decidableLexed left
    have := decidableLexed right
    inferInstanceAs (Decidable (left.Lexed ∧ right.Lexed))

section Names

-- `names` says how names are written.
variable (names : String → String)

/-- What the formula means, as a tree of Java. -/
def meaning : Formula → Java.Tree
  | name text => .leaf (names text).toList
  | number text => .leaf (intLit text).toList
  | paren inner => .paren inner.meaning
  | unary sign operand => .unary sign.java operand.meaning
  | binary left op right => .binary left.meaning op.java (op.rightOperand right.meaning)

/-- The text of the formula. -/
def text : Formula → String
  | name text => names text
  | number text => intLit text
  | paren inner => "(" ++ inner.text ++ ")"
  | unary sign operand => unaryToken sign.go ++ operand.text
  | binary left op right => left.text ++ (" " ++ binaryToken op ++ " ") ++ right.text

/-- All names and numbers are written as words. -/
def Words : Formula → Prop
  | name text => IsWord (names text)
  | number text => IsWord (intLit text)
  | paren inner => inner.Words
  | unary _ operand => operand.Words
  | binary left _ right => left.Words ∧ right.Words

end Names

/-! ## When Java reads what is meant -/

/-- The sign that the text starts with. -/
def firstSign? : Formula → Option Sign
  | unary sign _ => some sign
  | binary left _ _ => left.firstSign?
  | _ => none

/-- No plus stands right before a plus, and no minus before a minus. -/
def SignsApart : Formula → Prop
  | name _ | number _ => True
  | paren inner => inner.SignsApart
  | unary sign operand =>
    (sign.Doubles → operand.firstSign? ≠ some sign) ∧ operand.SignsApart
  | binary left _ right => left.SignsApart ∧ right.SignsApart

instance decidableSignsApart : DecidablePred SignsApart
  | name _ | number _ => isTrue trivial
  | paren inner => decidableSignsApart inner
  | unary sign operand =>
    have := decidableSignsApart operand
    inferInstanceAs (Decidable ((sign.Doubles → operand.firstSign? ≠ some sign) ∧
      operand.SignsApart))
  | binary left _ right =>
    have := decidableSignsApart left
    have := decidableSignsApart right
    inferInstanceAs (Decidable (left.SignsApart ∧ right.SignsApart))

/-- The level in Java of the operator at the top. -/
def javaLevel : Formula → Nat
  | binary _ op _ => op.java.level
  | _ => 11

/-- The operands of each operator bind more tightly in Java too, or as tightly on the left side. -/
def LevelsAgree : Formula → Prop
  | name _ | number _ => True
  | paren inner => inner.LevelsAgree
  | unary _ operand => operand.LevelsAgree
  | binary left op right =>
    op.java.level ≤ left.javaLevel ∧ op.java.level < right.javaLevel ∧
      left.LevelsAgree ∧ right.LevelsAgree

instance decidableLevelsAgree : DecidablePred LevelsAgree
  | name _ | number _ => isTrue trivial
  | paren inner => decidableLevelsAgree inner
  | unary _ operand => decidableLevelsAgree operand
  | binary left op right =>
    have := decidableLevelsAgree left
    have := decidableLevelsAgree right
    inferInstanceAs (Decidable (op.java.level ≤ left.javaLevel ∧ op.java.level < right.javaLevel ∧
      left.LevelsAgree ∧ right.LevelsAgree))

/-- The word that the formula is. -/
def word? (names : String → String) : Formula → Option (List Char)
  | name text => some (names text).toList
  | number text => some (intLit text).toList
  | _ => none

/-- No word is `new`, which starts a creation, and no basic type stands alone between parentheses,
which would make a cast. -/
def NoKeywords (names : String → String) : Formula → Prop
  | name text => (names text).toList ≠ ['n', 'e', 'w']
  | number text => (intLit text).toList ≠ ['n', 'e', 'w']
  | paren inner => (∀ w ∈ inner.word? names, w ∉ Java.basicTypes) ∧ inner.NoKeywords names
  | unary _ operand => operand.NoKeywords names
  | binary left _ right => left.NoKeywords names ∧ right.NoKeywords names

instance decidableNoKeywords (names : String → String) : DecidablePred (NoKeywords names)
  | name _ => inferInstanceAs (Decidable (_ ≠ _))
  | number _ => inferInstanceAs (Decidable (_ ≠ _))
  | paren inner =>
    have := decidableNoKeywords names inner
    inferInstanceAs (Decidable ((∀ w ∈ inner.word? names, w ∉ Java.basicTypes) ∧
      inner.NoKeywords names))
  | unary _ operand => decidableNoKeywords names operand
  | binary left _ right =>
    have := decidableNoKeywords names left
    have := decidableNoKeywords names right
    inferInstanceAs (Decidable (left.NoKeywords names ∧ right.NoKeywords names))

/-! ## Levels -/

variable {names : String → String} {f : Formula} {op : Java.UnaryOp} {sign : Sign}

theorem level_meaning (f : Formula) : min (f.meaning names).phrase.level 11 = f.javaLevel := by
  cases f with
  | name text => rfl
  | number text => rfl
  | paren inner => rfl
  | unary sign operand => rfl
  | binary left op right => exact Nat.min_eq_left (Nat.le_succ_of_le op.java.level_le)

/-- What is no binary formula binds most tightly in Java too. -/
theorem javaLevel_of_level (h : 5 < f.level) : f.javaLevel = 11 := by
  cases f with
  | name text => rfl
  | number text => rfl
  | paren inner => rfl
  | unary sign operand => rfl
  | binary left op right =>
    have hop : op.level ≤ 5 := by
      cases op <;> decide
    exact absurd hop (Nat.not_le_of_lt h)

theorem isBasic_meaning (f : Formula) : Java.isBasic (f.meaning names).tokens = false ↔
    ∀ w ∈ f.word? names, w ∉ Java.basicTypes := by
  cases f with
  | name text | number text => simp [meaning, Java.Tree.tokens, Java.isBasic, word?]
  | paren inner => simp [meaning, Java.Tree.tokens, Java.isBasic, word?]
  | unary sign operand => simp [meaning, Java.Tree.tokens, Java.isBasic, word?]
  | binary left op right =>
    obtain ⟨t, ts, hleft⟩ := List.exists_cons_of_ne_nil (left.meaning names).tokens_ne_nil
    simp [meaning, Java.Tree.tokens, Java.isBasic, word?, hleft]

/-- Java groups the meaning of a formula as it is meant exactly if the levels agree. -/
theorem grouped_meaning (hg : f.Grammatical) :
    (f.meaning names).Grouped ↔ f.LevelsAgree ∧ f.NoKeywords names := by
  induction f with
  | name text | number text => exact (iff_of_eq (true_and _)).symm
  | paren inner ih =>
    simp only [meaning, Java.Tree.Grouped, isBasic_meaning, LevelsAgree, NoKeywords, ih hg]
    exact and_left_comm
  | unary sign operand ih =>
    obtain ⟨hlevel, hoperand⟩ := hg
    have hhigh : 11 ≤ (operand.meaning names).phrase.level := by
      have hmin := @level_meaning names operand
      rw [javaLevel_of_level (by omega)] at hmin
      omega
    simp only [meaning, Java.Tree.Grouped, LevelsAgree, NoKeywords, hhigh, true_and]
    exact ih hoperand
  | binary left op right ihl ihr =>
    obtain ⟨-, hr, hleft, hright⟩ := hg
    have hop := op.java.level_le
    have hlevel := @level_meaning names left
    have hlevel' := @level_meaning names right
    have hl : op.java.level ≤ (left.meaning names).phrase.level ↔
        op.java.level ≤ left.javaLevel := by omega
    have hr' : op.java.level < (right.meaning names).phrase.level ↔
        op.java.level < right.javaLevel := by omega
    simp only [meaning, Java.Tree.Grouped, LevelsAgree, NoKeywords, Go.BinaryOp.rightOperand, hl]
    split
    · -- the right operand of `&^` is no binary formula, so its complement is what it should be
      rename_i hop'
      subst hop'
      have hhigh := javaLevel_of_level hr
      have hcomplement :
          (Java.Tree.unary .complement (right.meaning names)).phrase.level = 11 := rfl
      have hright' : 11 ≤ (right.meaning names).phrase.level := by omega
      simp only [Java.Tree.Grouped, hcomplement, hhigh, hright', true_and, ihl hleft, ihr hright]
      tauto
    · rw [hr', ihl hleft, ihr hright]
      tauto

/-! ## Tokens -/

/-- The operator that a sign makes with the operator right before it. -/
def fused? : Option Java.UnaryOp → Sign → Option Java.UnaryOp
  | some .pos, .pos => some .increment
  | some .neg, .neg => some .decrement
  | _, _ => none

/-- What was read of a token when an operator may still go on. -/
def pendingPart : Option Java.UnaryOp → Java.Part
  | none => .nothing
  | some op => .operator op.text

/-- The tokens of the text of a formula, right after a unary operator or not. -/
def tokensAfter (names : String → String) : Option Java.UnaryOp → Formula → List Java.Token
  | pending, name text => (pendingPart pending).tokens ++ [.word (names text).toList]
  | pending, number text => (pendingPart pending).tokens ++ [.word (intLit text).toList]
  | pending, paren inner =>
    (pendingPart pending).tokens ++ [.separator '('] ++ inner.tokensAfter names none ++
      [.separator ')']
  | pending, unary sign operand =>
    match fused? pending sign with
    | some op => operand.tokensAfter names (some op)
    | none => (pendingPart pending).tokens ++ operand.tokensAfter names (some sign.java)
  | pending, binary left op right =>
    left.tokensAfter names pending ++ op.tokens ++ right.tokensAfter names none

theorem reads_sign (pending : Option Java.UnaryOp) (sign : Sign) :
    match fused? pending sign with
    | some op => Reads (pendingPart pending) sign.java.text (pendingPart (some op)) []
    | none => Reads (pendingPart pending) sign.java.text (pendingPart (some sign.java))
        (pendingPart pending).tokens := by
  cases pending with
  | none => cases sign <;> exact reads_of_step (by decide)
  | some op => cases op <;> cases sign <;> exact reads_of_step (by decide)

theorem toList_unaryToken (sign : Sign) : (unaryToken sign.go).toList = sign.java.text := by
  cases sign <;> decide

theorem reads_operator (op : Java.BinaryOp) : Reads .nothing op.text (.operator op.text) [] := by
  unfold Reads
  cases op <;> decide

theorem toList_binaryToken (op : Go.BinaryOp) : (" " ++ binaryToken op ++ " ").toList =
    [' '] ++ op.java.text ++ [' '] ++
      if op = .andNot then Java.UnaryOp.complement.text ++ [' '] else [] := by
  cases op <;> decide

theorem reads_binaryToken (part : Java.Part) (op : Go.BinaryOp) :
    Reads part (" " ++ binaryToken op ++ " ").toList .nothing (part.tokens ++ op.tokens) := by
  have hblank : ∀ part, Reads part [' '] .nothing part.tokens := fun part =>
    Java.reads_blank part (by decide)
  have hop := reads_append (reads_append (hblank part) (reads_operator op.java)) (hblank _)
  rw [toList_binaryToken, Go.BinaryOp.tokens]
  split
  · have hsign := reads_append (reads_sign none .complement) (hblank _)
    have hall := reads_append hop hsign
    simp only [List.append_assoc, List.append_nil] at hall ⊢
    exact hall
  · simp only [List.append_assoc, List.append_nil] at hop ⊢
    exact hop

/-- A name or a number after an operator, or after nothing. -/
theorem reads_operand {text : String} (pending : Option Java.UnaryOp) (h : IsWord text) :
    Reads (pendingPart pending) text.toList (.word text.toList) (pendingPart pending).tokens := by
  refine Java.reads_word ?_ h.1 h.2
  intro word
  cases pending with
  | none | some op => exact Java.Part.noConfusion

/-- The text of a formula has the tokens that `tokensAfter` says. -/
theorem reads_text (hw : f.Words names) (pending : Option Java.UnaryOp) :
    ∃ last ts, Reads (pendingPart pending) (f.text names).toList last ts ∧
      ts ++ last.tokens = f.tokensAfter names pending := by
  induction f generalizing pending with
  | name text | number text => exact ⟨_, _, reads_operand pending hw, rfl⟩
  | paren inner ih =>
    obtain ⟨last, ts, hreads, htokens⟩ := ih hw none
    have hopen : Reads _ ['('] _ _ := Java.reads_separator (pendingPart pending) (by decide)
    have hclose : Reads _ [')'] _ _ := Java.reads_separator last (by decide)
    have hall := reads_append (reads_append hopen hreads) hclose
    rw [text, String.toList_append, String.toList_append, tokensAfter, ← htokens]
    exact ⟨_, _, hall, by simp [Java.Part.tokens]⟩
  | unary sign operand ih =>
    -- The sign is a token of its own, or goes on with the operator before it.
    have hsign := reads_sign pending sign
    rw [text, String.toList_append, toList_unaryToken, tokensAfter]
    split at hsign
    · rename_i op _
      obtain ⟨last, ts, hreads, htokens⟩ := ih hw (some op)
      exact ⟨last, ts, reads_append hsign hreads, htokens⟩
    · obtain ⟨last, ts, hreads, htokens⟩ := ih hw (some sign.java)
      refine ⟨last, _, reads_append hsign hreads, ?_⟩
      rw [List.append_assoc, htokens]
  | binary left op right ihl ihr =>
    obtain ⟨lastl, tsl, hleft, htokensl⟩ := ihl hw.1 pending
    obtain ⟨lastr, tsr, hright, htokensr⟩ := ihr hw.2 none
    have hall := reads_append (reads_append hleft (reads_binaryToken lastl op)) hright
    rw [text, String.toList_append, String.toList_append, tokensAfter, ← htokensl, ← htokensr]
    exact ⟨_, _, hall, by simp only [List.append_assoc]⟩

/-! ## Signs side by side -/

theorem tokens_rightOperand (op : Go.BinaryOp) (t right : Java.Tree) :
    (Java.Tree.binary t op.java (op.rightOperand right)).tokens =
      t.tokens ++ op.tokens ++ right.tokens := by
  unfold Go.BinaryOp.rightOperand Go.BinaryOp.tokens
  split <;> simp [Java.Tree.tokens]

/-- If no signs are read as one, the tokens are those of the meaning. -/
theorem tokensAfter_of_apart (pending : Option Java.UnaryOp) (h : f.SignsApart)
    (hpending : ∀ sign, f.firstSign? = some sign → fused? pending sign = none) :
    f.tokensAfter names pending = (pendingPart pending).tokens ++ (f.meaning names).tokens := by
  induction f generalizing pending with
  | name text => rfl
  | number text => rfl
  | paren inner ih =>
    have hinner := ih none h fun sign _ => rfl
    rw [tokensAfter, hinner, meaning, Java.Tree.tokens]
    simp [pendingPart, Java.Part.tokens]
  | unary sign operand ih =>
    obtain ⟨hapart, hoperand⟩ := h
    -- The sign and the first sign of the operand are not one operator.
    have hnext : ∀ inner, operand.firstSign? = some inner →
        fused? (some sign.java) inner = none := by
      intro inner hinner
      have hne : sign.Doubles → inner ≠ sign := by
        rintro hdoubles rfl
        exact hapart hdoubles hinner
      revert hne
      cases sign <;> cases inner <;> simp [fused?, Sign.java, Sign.Doubles]
    rw [tokensAfter, hpending sign rfl, ih _ hoperand hnext]
    rfl
  | binary left op right ihl ihr =>
    have hright := ihr none h.2 fun sign _ => rfl
    rw [tokensAfter, ihl _ h.1 hpending, hright, meaning, tokens_rightOperand]
    simp [pendingPart, Java.Part.tokens]

/-- Operators that two signs are read as. -/
def IsFused (op : Java.UnaryOp) : Prop := op = .increment ∨ op = .decrement

theorem isFused_of_fused {pending : Option Java.UnaryOp} (h : fused? pending sign = some op) :
    IsFused op := by
  unfold fused? at h
  split at h
  · cases h
    exact Or.inl rfl
  · cases h
    exact Or.inr rfl
  · cases h

/-- An operator that was made of two signs takes no third one. -/
theorem mem_tokensAfter_fused (hop : IsFused op) :
    Java.Token.operator op.text ∈ f.tokensAfter names (some op) := by
  induction f with
  | name text | number text | paren inner => simp [tokensAfter, pendingPart, Java.Part.tokens]
  | unary sign operand =>
    have hnone : fused? (some op) sign = none := by
      rcases hop with rfl | rfl
      · rfl
      · rfl
    rw [tokensAfter, hnone]
    simp [pendingPart, Java.Part.tokens]
  | binary left _ right ih =>
    rw [tokensAfter, List.append_assoc]
    exact List.mem_append_left _ ih

/-- A sign right before the first sign of a formula may make one operator with it. -/
theorem mem_tokensAfter_first {before : Java.UnaryOp} (hfirst : f.firstSign? = some sign)
    (hfused : fused? (some before) sign = some op) :
    Java.Token.operator op.text ∈ f.tokensAfter names (some before) := by
  induction f with
  | name text => cases hfirst
  | number text => cases hfirst
  | paren inner => cases hfirst
  | unary inner operand =>
    cases hfirst
    rw [tokensAfter, hfused]
    exact mem_tokensAfter_fused (isFused_of_fused hfused)
  | binary left _ right ih =>
    rw [tokensAfter, List.append_assoc]
    exact List.mem_append_left _ (ih hfirst)

/-- Signs that are not apart are read as another operator. -/
theorem mem_tokensAfter_of_not_apart (h : ¬f.SignsApart) (pending : Option Java.UnaryOp) :
    ∃ op, IsFused op ∧ Java.Token.operator op.text ∈ f.tokensAfter names pending := by
  induction f generalizing pending with
  | name text | number text => exact absurd trivial h
  | paren inner ih =>
    obtain ⟨op, hop, hmem⟩ := ih h none
    exact ⟨op, hop, by simp [tokensAfter, hmem]⟩
  | unary sign operand ih =>
    rw [tokensAfter]
    cases hfused : fused? pending sign with
    | some op =>
      have hop := isFused_of_fused hfused
      exact ⟨op, hop, mem_tokensAfter_fused hop⟩
    | none =>
      -- either the operand starts with the same sign, or the doubled sign is further in
      by_cases hoperand : operand.SignsApart
      · have hdoubled : sign.Doubles ∧ operand.firstSign? = some sign := by
          by_contra hnot
          exact h ⟨fun hdoubles hfirst => hnot ⟨hdoubles, hfirst⟩, hoperand⟩
        obtain ⟨op, hop⟩ : ∃ op, fused? (some sign.java) sign = some op := by
          have hdoubles := hdoubled.1
          cases sign with
          | pos | neg => exact ⟨_, rfl⟩
          | not | complement => exact absurd hdoubles id
        have hmem : Java.Token.operator op.text ∈ operand.tokensAfter names (some sign.java) :=
          mem_tokensAfter_first hdoubled.2 hop
        exact ⟨op, isFused_of_fused hop, List.mem_append_right _ hmem⟩
      · obtain ⟨op, hop, hmem⟩ := ih hoperand (some sign.java)
        exact ⟨op, hop, List.mem_append_right _ hmem⟩
  | binary left _ right ihl ihr =>
    rw [tokensAfter]
    by_cases hleft : left.SignsApart
    · have hright : ¬right.SignsApart := fun hright => h ⟨hleft, hright⟩
      obtain ⟨op, hop, hmem⟩ := ihr hright none
      exact ⟨op, hop, List.mem_append_right _ hmem⟩
    · obtain ⟨op, hop, hmem⟩ := ihl hleft pending
      exact ⟨op, hop, by simp [hmem]⟩

theorem not_mem_tokens_meaning (hop : IsFused op) (f : Formula) :
    Java.Token.operator op.text ∉ (f.meaning names).tokens := by
  induction f with
  | name text | number text => simp [meaning, Java.Tree.tokens]
  | paren inner ih => simp [meaning, Java.Tree.tokens, ih]
  | unary sign operand ih =>
    have hne : op.text ≠ sign.java.text := by
      rcases hop with rfl | rfl
      · cases sign <;> decide
      · cases sign <;> decide
    simp [meaning, Java.Tree.tokens, ih, hne]
  | binary left mid right ihl ihr =>
    have hne : Java.Token.operator op.text ∉ mid.tokens := by
      rcases hop with rfl | rfl
      · cases mid <;> decide
      · cases mid <;> decide
    rw [meaning, tokens_rightOperand]
    simp [ihl, ihr, hne]

/-- Java reads the tokens of the meaning exactly if no sign stands before the same sign. -/
theorem tokens_meaning_iff :
    (f.meaning names).tokens = f.tokensAfter names none ↔ f.SignsApart := by
  refine ⟨?_, ?_⟩
  · intro h
    by_contra hnot
    obtain ⟨op, hop, hmem⟩ := mem_tokensAfter_of_not_apart hnot none
    rw [← h] at hmem
    exact not_mem_tokens_meaning hop f hmem
  · intro h
    exact (tokensAfter_of_apart none h fun sign _ => rfl).symm

/-- Java reads the text of a formula as what it means exactly if no sign stands before the same
sign, the levels of all operators agree and no keywords make it something else. Blanks before the
text do not matter. -/
theorem read_text_iff {blanks : String} (hg : f.Grammatical) (hw : f.Words names)
    (hb : ∀ c ∈ blanks.toList, Java.isBlank c = true) :
    Java.read (blanks ++ f.text names) = some (f.meaning names) ↔
      f.SignsApart ∧ f.LevelsAgree ∧ f.NoKeywords names := by
  obtain ⟨last, ts, hreads, htokens⟩ := reads_text hw none
  have hscan : Java.scan (blanks ++ f.text names) = some (f.tokensAfter names none) := by
    rw [← htokens]
    apply Java.scan_of_reads
    rw [String.toList_append]
    exact reads_append (Java.reads_blanks hb) hreads
  rw [Java.read_eq_some_iff, hscan, Option.some_inj, eq_comm, tokens_meaning_iff,
    grouped_meaning hg]

end Formula

end GoToJava
