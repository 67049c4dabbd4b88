import GoToJava.Proofs.Java.Phrases

/-!
Trees of operators over words. Between parentheses the reader starts afresh. A text is read as a
tree exactly if the tree keeps the rules of grouping and is written as the text.
-/

namespace GoToJava.Java

/-- An expression as Java groups it, with all that stands between parentheses. -/
inductive Tree where
  | leaf (text : List Char)
  | paren (inner : Tree)
  | unary (op : UnaryOp) (operand : Tree)
  | binary (left : Tree) (op : BinaryOp) (right : Tree)
  deriving DecidableEq, Repr

namespace Tree

/-- The tokens of a tree. Parentheses are written where the tree has them and nowhere else. -/
def tokens : Tree → List Token
  | leaf text => [.word text]
  | paren inner => [.separator '('] ++ inner.tokens ++ [.separator ')']
  | unary op operand => [.operator op.text] ++ operand.tokens
  | binary left op right => left.tokens ++ [.operator op.text] ++ right.tokens

/-- The tree as a phrase, in which only the tokens between parentheses are left. -/
def phrase : Tree → Phrase
  | leaf text => .word text
  | paren inner => .paren inner.tokens
  | unary op operand => .unary op operand.phrase
  | binary left op right => .binary left.phrase op right.phrase

/-- The tree keeps the levels of operators, groups to the left, and has no keywords. -/
def Grouped : Tree → Prop
  | leaf text => text ≠ ['n', 'e', 'w']
  | paren inner => isBasic inner.tokens = false ∧ inner.Grouped
  | unary _ operand => 11 ≤ operand.phrase.level ∧ operand.Grouped
  | binary left op right =>
    op.level ≤ left.phrase.level ∧ op.level < right.phrase.level ∧ left.Grouped ∧ right.Grouped

end Tree

theorem Phrase.tokens_binary (left : Phrase) (op : BinaryOp) (right : Phrase) :
    (binary left op right).tokens = left.tokens ++ [.operator op.text] ++ right.tokens := by
  simp [tokens, items, Item.tokens]

namespace Tree

variable {t : Tree}

theorem tokens_phrase (t : Tree) : t.phrase.tokens = t.tokens := by
  induction t with
  | leaf text => rfl
  | paren inner => simp [phrase, tokens, Phrase.tokens, Phrase.items, Item.tokens, closing]
  | unary op operand ih =>
    rw [tokens, ← ih]
    rfl
  | binary left op right ihl ihr =>
    rw [tokens, ← ihl, ← ihr]
    exact Phrase.tokens_binary _ _ _

theorem tokens_ne_nil (t : Tree) : t.tokens ≠ [] := by
  cases t <;> simp [tokens]

theorem whole_phrase (t : Tree) : ∀ i ∈ t.phrase.items, i.Whole := by
  induction t with
  | leaf text => simp [phrase, Phrase.items, Item.Whole]
  | paren inner ih =>
    have hinner := balanced_items ih
    rw [← Phrase.tokens, tokens_phrase] at hinner
    simpa [phrase, Phrase.items, Item.Whole, isOpening] using hinner
  | unary op operand ih => simpa [phrase, Phrase.items, Item.Whole] using ih
  | binary left op right ihl ihr =>
    simpa [phrase, Phrase.items, Item.Whole, or_imp, forall_and] using ⟨ihl, ihr⟩

theorem proper_phrase (h : t.Grouped) : t.phrase.Proper := by
  refine ⟨?_, whole_phrase t⟩
  induction t with
  | leaf text => exact h
  | paren inner => exact h.1
  | unary op operand ih => exact ⟨h.1, ih h.2⟩
  | binary left op right ihl ihr => exact ⟨h.1, h.2.1, ihl h.2.2.1, ihr h.2.2.2⟩

end Tree

/-- The tree of a phrase, in which what stands between parentheses is read in the same way. -/
def Phrase.tree? : Phrase → Option Tree
  | word text => some (.leaf text)
  | paren inner =>
    match _h : ofTokens? inner with
    | some t => t.tree?.map .paren
    | none => none
  | unary op operand => operand.tree?.map (.unary op)
  | binary left op right => left.tree?.bind fun l => right.tree?.map (.binary l op)
  | _ => none
termination_by t => t.tokens.length
decreasing_by
  · have htokens := (ofTokens?_eq_some_iff.1 _h).1
    have hlength : (paren inner).tokens.length = inner.length + 2 := by
      simp [tokens, items, Item.tokens]
    rw [htokens, hlength]
    omega
  · exact Nat.lt_succ_self _
  all_goals
    rw [tokens_binary, List.length_append, List.length_append, List.length_singleton]
    omega

/-- The tree that Java reads in a text. -/
def read (text : String) : Option Tree := (Phrase.read text).bind Phrase.tree?

theorem tree?_phrase {t : Tree} (h : t.Grouped) : t.phrase.tree? = some t := by
  induction t with
  | leaf text => rw [Tree.phrase, Phrase.tree?]
  | paren inner ih =>
    have hread : Phrase.ofTokens? inner.tokens = some inner.phrase :=
      Phrase.ofTokens?_eq_some_iff.2 ⟨inner.tokens_phrase, Tree.proper_phrase h.2⟩
    rw [Tree.phrase, Phrase.tree?]
    split
    · rename_i t ht
      rw [hread] at ht
      cases ht
      rw [ih h.2]
      rfl
    · rename_i ht
      rw [hread] at ht
      cases ht
  | unary op operand ih =>
    rw [Tree.phrase, Phrase.tree?, ih h.2]
    rfl
  | binary left op right ihl ihr =>
    rw [Tree.phrase, Phrase.tree?, ihl h.2.2.1, ihr h.2.2.2]
    rfl

theorem phrase_of_tree? {p : Phrase} {t : Tree} (h : p.tree? = some t) (hp : p.Grouped) :
    p = t.phrase ∧ t.Grouped := by
  fun_induction Phrase.tree? p generalizing t with
  | case1 text =>
    cases h
    exact ⟨rfl, hp⟩
  | case2 inner q hq ih =>
    obtain ⟨u, hu, rfl⟩ := Option.map_eq_some_iff.1 h
    obtain ⟨htokens, hproper⟩ := Phrase.ofTokens?_eq_some_iff.1 hq
    obtain ⟨rfl, hgrouped⟩ := ih hu hproper.grouped
    rw [Tree.tokens_phrase] at htokens
    subst htokens
    exact ⟨rfl, hp, hgrouped⟩
  | case4 op operand ih =>
    obtain ⟨u, hu, rfl⟩ := Option.map_eq_some_iff.1 h
    obtain ⟨rfl, hgrouped⟩ := ih hu hp.2
    exact ⟨rfl, hp.1, hgrouped⟩
  | case5 left op right ihl ihr =>
    obtain ⟨l, hl, hmap⟩ := Option.bind_eq_some_iff.1 h
    obtain ⟨r, hr, rfl⟩ := Option.map_eq_some_iff.1 hmap
    obtain ⟨rfl, hleft⟩ := ihl hl hp.2.2.1
    obtain ⟨rfl, hright⟩ := ihr hr hp.2.2.2
    exact ⟨rfl, hp.1, hp.2.1, hleft, hright⟩
  | _ => cases h

/-- A text is read as a tree exactly if the tree keeps the rules and is written so. -/
theorem read_eq_some_iff {text : String} {t : Tree} :
    read text = some t ↔ scan text = some t.tokens ∧ t.Grouped := by
  simp only [read, Option.bind_eq_some_iff, Phrase.read_eq_some_iff]
  refine ⟨?_, ?_⟩
  · rintro ⟨p, ⟨hscan, hproper⟩, htree⟩
    obtain ⟨rfl, hgrouped⟩ := phrase_of_tree? htree hproper.grouped
    exact ⟨t.tokens_phrase ▸ hscan, hgrouped⟩
  · rintro ⟨hscan, hgrouped⟩
    exact ⟨t.phrase, ⟨t.tokens_phrase ▸ hscan, Tree.proper_phrase hgrouped⟩, tree?_phrase hgrouped⟩

end GoToJava.Java
