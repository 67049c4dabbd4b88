import GoToJava.Proofs.Java.Items

/-!
Java expressions with casts, calls, members, indices and literals. Operators of a higher level bind
more tightly, and those of one level group to the left. What stands between brackets is taken as a
whole. A text is read as a phrase exactly if the phrase keeps these rules and is written as the
text.
-/

namespace GoToJava.Java

/-! ## Operators -/

inductive UnaryOp where
  | pos
  | neg
  | not
  | complement
  | increment
  | decrement
  deriving DecidableEq, Repr

inductive BinaryOp where
  | mul
  | div
  | rem
  | add
  | sub
  | shl
  | shr
  | ushr
  | lt
  | le
  | gt
  | ge
  | eq
  | ne
  | bitAnd
  | bitXor
  | bitOr
  | and
  | or
  deriving DecidableEq, Repr

def UnaryOp.text : UnaryOp → List Char
  | pos => ['+']
  | neg => ['-']
  | not => ['!']
  | complement => ['~']
  | increment => ['+', '+']
  | decrement => ['-', '-']

def UnaryOp.all : List UnaryOp := [pos, neg, not, complement, increment, decrement]

def UnaryOp.ofText? (text : List Char) : Option UnaryOp := all.find? (·.text == text)

namespace BinaryOp

def text : BinaryOp → List Char
  | mul => ['*']
  | div => ['/']
  | rem => ['%']
  | add => ['+']
  | sub => ['-']
  | shl => ['<', '<']
  | shr => ['>', '>']
  | ushr => ['>', '>', '>']
  | lt => ['<']
  | le => ['<', '=']
  | gt => ['>']
  | ge => ['>', '=']
  | eq => ['=', '=']
  | ne => ['!', '=']
  | bitAnd => ['&']
  | bitXor => ['^']
  | bitOr => ['|']
  | and => ['&', '&']
  | or => ['|', '|']

/-- Operators of a higher level bind more tightly. -/
def level : BinaryOp → Nat
  | mul | div | rem => 10
  | add | sub => 9
  | shl | shr | ushr => 8
  | lt | le | gt | ge => 7
  | eq | ne => 6
  | bitAnd => 5
  | bitXor => 4
  | bitOr => 3
  | and => 2
  | or => 1

def all : List BinaryOp :=
  [mul, div, rem, add, sub, shl, shr, ushr, lt, le, gt, ge, eq, ne, bitAnd, bitXor, bitOr, and, or]

def ofText? (text : List Char) : Option BinaryOp := all.find? (·.text == text)

theorem level_le (op : BinaryOp) : op.level ≤ 10 := by
  cases op <;> decide

theorem ofText?_text (op : BinaryOp) : ofText? op.text = some op := by
  cases op <;> decide

theorem text_of_ofText? {text : List Char} {op : BinaryOp} (h : ofText? text = some op) :
    op.text = text := by
  simpa using List.find?_some h

end BinaryOp

theorem UnaryOp.ofText?_text (op : UnaryOp) : ofText? op.text = some op := by
  cases op <;> decide

theorem UnaryOp.text_of_ofText? {text : List Char} {op : UnaryOp} (h : ofText? text = some op) :
    op.text = text := by
  simpa using List.find?_some h

/-! ## Types between parentheses -/

/-- The type names that Java itself has. -/
def basicTypes : List (List Char) :=
  ["byte", "short", "int", "long", "char", "float", "double", "boolean"].map String.toList

def isBasic : List Token → Bool
  | [.word text] => basicTypes.contains text
  | _ => false

def isTypeToken : Token → Bool
  | .word _ => true
  | .operator text => ["<", ">", ">>", ">>>", "?"].any (·.toList == text)
  | .separator c => ['.', ',', '[', ']'].contains c

/-- The tokens may be those of a type. -/
def isType : List Token → Bool
  | .word text :: ts => ts.all isTypeToken && decide (Balanced (.word text :: ts))
  | _ => false

/-- What a type has between `new` and the brackets with its arguments. -/
def Item.isTypePart : Item → Bool
  | word _ => true
  | operator text => isTypeToken (.operator text)
  | separator c => c == '.' || c == ','
  | group opening inner => opening == '[' && inner.isEmpty

/-- The signs that also stand between two operands. -/
def UnaryOp.isSign : UnaryOp → Bool
  | pos | neg | increment | decrement => true
  | not | complement => false

/-- What follows a type between parentheses is the operand of a cast. Before a sign only a basic
type makes a cast: `(a) - b` is a difference. -/
def startsOperand (basic : Bool) : List Item → Bool
  | .word _ :: _ => true
  | .group opening _ :: _ => opening == '('
  | .operator text :: _ => (UnaryOp.ofText? text).any fun op => basic || !op.isSign
  | _ => false

/-! ## Phrases -/

/-- An expression as Java groups it, up to what stands between brackets. -/
inductive Phrase where
  /-- A name or a literal. -/
  | word (text : List Char)
  | paren (inner : List Token)
  | creation (type : List Item) (opening : Char) (inner : List Token)
  | member (base : Phrase) (name : List Char)
  | call (callee : Phrase) (args : List Token)
  | index (base : Phrase) (subscript : List Token)
  | cast (type : List Token) (operand : Phrase)
  | unary (op : UnaryOp) (operand : Phrase)
  | binary (left : Phrase) (op : BinaryOp) (right : Phrase)
  deriving DecidableEq, Repr

namespace Phrase

variable {t operand : Phrase} {is rest : List Item}

def items : Phrase → List Item
  | word text => [.word text]
  | paren inner => [.group '(' inner]
  | creation type opening inner => .word ['n', 'e', 'w'] :: type ++ [.group opening inner]
  | member base name => base.items ++ [.separator '.', .word name]
  | call callee args => callee.items ++ [.group '(' args]
  | index base subscript => base.items ++ [.group '[' subscript]
  | cast type operand => .group '(' type :: operand.items
  | unary op operand => .operator op.text :: operand.items
  | binary left op right => left.items ++ [.operator op.text] ++ right.items

def tokens (t : Phrase) : List Token := t.items.flatMap Item.tokens

/-- How tightly the outermost part of a phrase binds. -/
def level : Phrase → Nat
  | binary _ op _ => op.level
  | cast _ _ | unary _ _ => 11
  | _ => 12

def isName : Phrase → Bool
  | word _ | member _ _ => true
  | _ => false

/-- The phrase starts with a sign that also stands between two operands. -/
def isSigned : Phrase → Bool
  | unary op _ => op.isSign
  | _ => false

/-- The phrase keeps the levels of operators, and groups to the left. -/
def Grouped : Phrase → Prop
  | word text => text ≠ ['n', 'e', 'w']
  | paren inner => isBasic inner = false
  | creation type opening inner =>
    type ≠ [] ∧ (∀ i ∈ type, i.isTypePart = true) ∧ (Item.group opening inner).isTypePart = false
  | member base _ => base.level = 12 ∧ base.Grouped
  | call callee _ => callee.isName = true ∧ callee.Grouped
  | index base _ => base.level = 12 ∧ base.Grouped
  | cast type operand =>
    isType type = true ∧ (isBasic type = true ∨ operand.isSigned = false) ∧
      11 ≤ operand.level ∧ operand.Grouped
  | unary _ operand => 11 ≤ operand.level ∧ operand.Grouped
  | binary left op right =>
    op.level ≤ left.level ∧ op.level < right.level ∧ left.Grouped ∧ right.Grouped

/-- Puts an operator with its right operand at its place on the right side of a phrase. -/
def insert : Phrase → BinaryOp → Phrase → Phrase
  | binary left above right, op, operand =>
    if above.level < op.level then binary left above (right.insert op operand)
    else binary (binary left above right) op operand
  | t, op, operand => binary t op operand

/-! ## The reader -/

/-- What binds to the operand after it. -/
inductive Mark where
  | sign (op : UnaryOp)
  | cast (type : List Token)

def Mark.apply : Mark → Phrase → Phrase
  | sign op, t => unary op t
  | cast type, t => Phrase.cast type t

/-- What stands before an operand. -/
structure Frame where
  /-- The phrase so far and the operator after it. -/
  before : Option (Phrase × BinaryOp)
  /-- The signs and casts right before the operand, the last one first. -/
  marks : List Mark

def marked (marks : List Mark) (operand : Phrase) : Phrase :=
  marks.foldl (fun t mark => mark.apply t) operand

def Frame.complete (frame : Frame) (operand : Phrase) : Phrase :=
  match frame.before with
  | none => marked frame.marks operand
  | some (t, op) => t.insert op (marked frame.marks operand)

def Frame.mark (frame : Frame) (mark : Mark) : Frame :=
  { frame with marks := mark :: frame.marks }

/-- Where the reader stands: before an operand, in the type after `new`, or after an operand that
may still go on. -/
inductive Position where
  | before (frame : Frame)
  | creating (frame : Frame) (type : List Item)
  | after (frame : Frame) (operand : Phrase)

@[simp]
def parseFrom : Position → List Item → Option Phrase
  | .before frame, .word text :: is =>
    if text = ['n', 'e', 'w'] then parseFrom (.creating frame []) is
    else parseFrom (.after frame (.word text)) is
  | .before frame, .operator text :: is =>
    match UnaryOp.ofText? text with
    | some op => parseFrom (.before (frame.mark (.sign op))) is
    | none => none
  | .before frame, .group opening inner :: is =>
    if opening ≠ '(' then none
    else if startsOperand (isBasic inner) is then
      if isType inner then parseFrom (.before (frame.mark (.cast inner))) is else none
    else if isBasic inner then none
    else parseFrom (.after frame (.paren inner)) is
  | .before _, .separator _ :: _ => none
  | .before _, [] => none
  | .creating frame type, .group opening inner :: is =>
    if (Item.group opening inner).isTypePart then
      parseFrom (.creating frame (type ++ [.group opening inner])) is
    else if type = [] then none
    else parseFrom (.after frame (.creation type opening inner)) is
  | .creating frame type, i :: is =>
    if i.isTypePart then parseFrom (.creating frame (type ++ [i])) is else none
  | .creating _ _, [] => none
  | .after frame operand, [] => some (frame.complete operand)
  | .after frame operand, .operator text :: is =>
    match BinaryOp.ofText? text with
    | some op => parseFrom (.before ⟨some (frame.complete operand, op), []⟩) is
    | none => none
  | .after frame operand, .separator c :: .word name :: is =>
    if c = '.' then parseFrom (.after frame (.member operand name)) is else none
  | .after frame operand, .group opening inner :: is =>
    if opening = '[' then parseFrom (.after frame (.index operand inner)) is
    else if opening = '(' ∧ operand.isName then parseFrom (.after frame (.call operand inner)) is
    else none
  | .after _ _, _ => none

def parse (is : List Item) : Option Phrase := parseFrom (.before ⟨none, []⟩) is

/-- The phrase that some tokens are read as. -/
def ofTokens? (ts : List Token) : Option Phrase := (Java.items ts).bind parse

/-- The phrase that Java reads in a text. -/
def read (text : String) : Option Phrase := (scan text).bind ofTokens?

/-! ## What is read is what is written -/

theorem items_insert (t : Phrase) (op : BinaryOp) (operand : Phrase) :
    (t.insert op operand).items = t.items ++ [.operator op.text] ++ operand.items := by
  induction t with
  | binary left above right _ ih =>
    rw [insert]
    split
    · simp [items, ih]
    · rfl
  | _ => rfl

theorem level_insert (t : Phrase) (op : BinaryOp) (operand : Phrase) :
    min t.level op.level ≤ (t.insert op operand).level := by
  cases t with
  | binary left above right =>
    rw [insert]
    split
    · exact Nat.min_le_left _ _
    · exact Nat.min_le_right _ _
  | _ => exact Nat.min_le_right _ _

theorem insert_top {op : BinaryOp} (operand : Phrase) (h : op.level ≤ t.level) :
    t.insert op operand = binary t op operand := by
  cases t with
  | binary left above right => exact if_neg (Nat.not_lt_of_le h)
  | _ => rfl

theorem grouped_insert (op : BinaryOp) (ht : t.Grouped) (ho : operand.Grouped)
    (hlevel : 11 ≤ operand.level) : (t.insert op operand).Grouped := by
  have hop := op.level_le
  by_cases htop : op.level ≤ t.level
  · rw [insert_top operand htop]
    exact ⟨htop, by omega, ht, ho⟩
  · induction t with
    | binary left above right _ ih =>
      obtain ⟨hl, hr, hleft, hright⟩ := ht
      have habove : above.level < op.level := Nat.lt_of_not_le htop
      have hmin := level_insert right op operand
      rw [insert, if_pos habove]
      refine ⟨hl, by omega, hleft, ?_⟩
      by_cases hinner : op.level ≤ right.level
      · rw [insert_top operand hinner]
        exact ⟨hinner, by omega, hright, ho⟩
      · exact ih hright hinner
    | _ => exact absurd (by simp only [level]; omega) htop

def Mark.item : Mark → Item
  | sign op => .operator op.text
  | cast type => .group '(' type

/-- The items of what stands before an operand. -/
def Frame.items (frame : Frame) : List Item :=
  (match frame.before with
    | none => []
    | some (t, op) => t.items ++ [.operator op.text]) ++
  frame.marks.reverse.map Mark.item

/-- Casts are to types, and only those to basic types stand before signs. -/
def Fit : List Mark → Prop
  | [] => True
  | [.sign _] => True
  | .sign op :: .cast type :: marks =>
    (isBasic type = true ∨ op.isSign = false) ∧ Fit (.cast type :: marks)
  | .sign _ :: marks => Fit marks
  | .cast type :: marks => isType type = true ∧ Fit marks

structure Frame.Grouped (frame : Frame) : Prop where
  before : ∀ t op, frame.before = some (t, op) → t.Grouped
  fit : Fit frame.marks

theorem items_marked (marks : List Mark) (operand : Phrase) :
    (marked marks operand).items = marks.reverse.map Mark.item ++ operand.items := by
  induction marks generalizing operand with
  | nil => rfl
  | cons mark marks ih =>
    have hcons : (mark.apply operand).items = mark.item :: operand.items := by
      cases mark <;> rfl
    simp only [marked, List.foldl_cons] at ih ⊢
    rw [ih, hcons]
    simp

theorem grouped_marked {marks : List Mark} (hm : Fit marks) (ho : operand.Grouped)
    (hlevel : 11 ≤ operand.level) (hsign : ∀ type rest, marks = .cast type :: rest →
      isBasic type = true ∨ operand.isSigned = false) :
    (marked marks operand).Grouped ∧ 11 ≤ (marked marks operand).level := by
  induction marks generalizing operand with
  | nil => exact ⟨ho, hlevel⟩
  | cons mark marks ih =>
    cases mark with
    | cast type =>
      exact ih hm.2 ⟨hm.1, hsign type marks rfl, hlevel, ho⟩ (Nat.le_refl 11)
        fun _ _ _ => Or.inr rfl
    | sign op =>
      cases marks with
      | nil => exact ⟨⟨hlevel, ho⟩, Nat.le_refl 11⟩
      | cons next marks =>
        cases next with
        | sign op' =>
          exact ih hm ⟨hlevel, ho⟩ (Nat.le_refl 11) fun _ _ h => by cases h
        | cast type =>
          refine ih hm.2 ⟨hlevel, ho⟩ (Nat.le_refl 11) fun type' rest h => ?_
          cases h
          exact hm.1

theorem Frame.items_complete (frame : Frame) (operand : Phrase) :
    (frame.complete operand).items = frame.items ++ operand.items := by
  unfold complete items
  cases frame.before with
  | none => exact items_marked frame.marks operand
  | some before =>
    rw [items_insert, items_marked]
    simp only [List.append_assoc]

theorem Frame.grouped_complete {frame : Frame} (hf : frame.Grouped) (ho : operand.Grouped)
    (hlevel : operand.level = 12) : (frame.complete operand).Grouped := by
  have hsign : operand.isSigned = false := by
    cases operand with
    | unary op t => cases hlevel
    | _ => rfl
  obtain ⟨hmarked, hmarkedLevel⟩ :=
    grouped_marked hf.fit ho (by omega) fun _ _ _ => Or.inr hsign
  unfold complete
  cases hbefore : frame.before with
  | none => exact hmarked
  | some before => exact grouped_insert before.2 (hf.before _ _ hbefore) hmarked hmarkedLevel

/-- The operand that a cast waits for comes next. -/
def Frame.Ready (frame : Frame) (is : List Item) : Prop :=
  ∀ type rest, frame.marks = .cast type :: rest → startsOperand (isBasic type) is = true

def Position.items : Position → List Item
  | before frame => frame.items
  | creating frame type => frame.items ++ .word ['n', 'e', 'w'] :: type
  | after frame operand => frame.items ++ operand.items

def Position.Grouped (is : List Item) : Position → Prop
  | before frame => frame.Grouped ∧ frame.Ready is
  | creating frame type => frame.Grouped ∧ ∀ i ∈ type, i.isTypePart = true
  | after frame operand => frame.Grouped ∧ operand.Grouped ∧ operand.level = 12

theorem Frame.grouped_sign {frame : Frame} {text : List Char} {op : UnaryOp} (hf : frame.Grouped)
    (hr : frame.Ready (.operator text :: is)) (hop : UnaryOp.ofText? text = some op) :
    (frame.mark (.sign op)).Grouped := by
  refine ⟨hf.before, ?_⟩
  have hfit := hf.fit
  unfold mark
  cases hmarks : frame.marks with
  | nil => trivial
  | cons mark marks =>
    rw [hmarks] at hfit
    cases mark with
    | sign op' => exact hfit
    | cast type =>
      have hnext := hr type marks hmarks
      rw [startsOperand, hop] at hnext
      exact ⟨by simpa using hnext, hfit⟩

theorem level_of_isName (h : t.isName = true) : t.level = 12 := by
  cases t with
  | word text => rfl
  | member base name => rfl
  | _ => cases h

/-- The reader loses and adds no item, and keeps the rules of grouping. -/
theorem parseFrom_sound {position : Position} (h : parseFrom position is = some t)
    (hp : position.Grouped is) : t.items = position.items ++ is ∧ t.Grouped := by
  -- The items of the position and of the rest are always those of the text.
  fun_induction parseFrom position is with
  | case1 frame is ih =>
    obtain ⟨he, hg⟩ := ih h ⟨hp.1, by simp⟩
    exact ⟨by simpa [Position.items] using he, hg⟩
  | case2 frame text is hnew ih =>
    obtain ⟨he, hg⟩ := ih h ⟨hp.1, hnew, rfl⟩
    exact ⟨by simpa [Position.items, items] using he, hg⟩
  | case3 frame text is op hop ih =>
    obtain ⟨he, hg⟩ := ih h ⟨Frame.grouped_sign hp.1 hp.2 hop, fun _ _ hcast => by cases hcast⟩
    refine ⟨?_, hg⟩
    rw [he, ← UnaryOp.text_of_ofText? hop]
    simp [Position.items, Frame.items, Frame.mark, Mark.item]
  | case6 frame opening inner is hopening hnext htype ih =>
    obtain ⟨he, hg⟩ := ih h ⟨⟨hp.1.before, htype, hp.1.fit⟩, fun _ _ hcast => by
      cases hcast
      exact hnext⟩
    refine ⟨?_, hg⟩
    rw [he, not_not.1 hopening]
    simp [Position.items, Frame.items, Frame.mark, Mark.item]
  | case9 frame opening inner is hopening _ hbasic ih =>
    obtain ⟨he, hg⟩ := ih h ⟨hp.1, Bool.eq_false_iff.2 hbasic, rfl⟩
    refine ⟨?_, hg⟩
    rw [he, not_not.1 hopening]
    simp [Position.items, items]
  | case12 frame type opening inner is hpart ih | case15 frame type i is _ hpart ih =>
    obtain ⟨he, hg⟩ := ih h ⟨hp.1, List.forall_mem_append.2 ⟨hp.2, by simpa using hpart⟩⟩
    exact ⟨by simpa [Position.items] using he, hg⟩
  | case14 frame type opening inner is hpart htype ih =>
    obtain ⟨he, hg⟩ := ih h ⟨hp.1, ⟨htype, hp.2, by simpa using hpart⟩, rfl⟩
    exact ⟨by simpa [Position.items, items] using he, hg⟩
  | case18 frame operand =>
    cases h
    exact ⟨by simp [Position.items, Frame.items_complete],
      Frame.grouped_complete hp.1 hp.2.1 hp.2.2⟩
  | case19 frame operand text is op hop ih =>
    have hdone := Frame.grouped_complete hp.1 hp.2.1 hp.2.2
    have hbefore : ∀ t op', some (frame.complete operand, op) = some (t, op') → t.Grouped := by
      rintro t op' ⟨⟩
      exact hdone
    obtain ⟨he, hg⟩ := ih h ⟨⟨hbefore, trivial⟩, fun _ _ hcast => by cases hcast⟩
    refine ⟨?_, hg⟩
    rw [he, ← BinaryOp.text_of_ofText? hop]
    simp [Position.items, Frame.items, Frame.items_complete]
  | case21 frame operand name is ih | case23 frame operand inner is ih =>
    obtain ⟨he, hg⟩ := ih h ⟨hp.1, ⟨hp.2.2, hp.2.1⟩, rfl⟩
    exact ⟨by simpa [Position.items, items] using he, hg⟩
  | case24 frame operand opening inner is _ hcall ih =>
    obtain ⟨he, hg⟩ := ih h ⟨hp.1, ⟨hcall.2, hp.2.1⟩, rfl⟩
    exact ⟨by simpa [Position.items, items, hcall.1] using he, hg⟩
  | _ => cases h

/-! ## What is written is what is read -/

/-- The operand after all signs and casts. -/
def core : Phrase → Phrase
  | cast _ operand | unary _ operand => operand.core
  | t => t

/-- The signs and casts in front, the last one first. -/
def marks : Phrase → List Mark
  | cast type operand => operand.marks ++ [.cast type]
  | unary op operand => operand.marks ++ [.sign op]
  | _ => []

theorem marked_append (marks more : List Mark) (t : Phrase) :
    marked (marks ++ more) t = marked more (marked marks t) :=
  List.foldl_append

theorem marked_core (t : Phrase) : marked t.marks t.core = t := by
  induction t with
  | cast type operand ih | unary op operand ih =>
    rw [marks, core, marked_append, ih]
    rfl
  | _ => rfl

theorem startsOperand_binary (op : BinaryOp) (is : List Item) :
    startsOperand false (.operator op.text :: is) = false := by
  cases op <;> rfl

theorem startsOperand_word (ht : t.Grouped) (h : t.level = 12) (basic : Bool) (rest : List Item) :
    startsOperand basic (t.items ++ rest) = true := by
  induction t generalizing rest with
  | word text => rfl
  | paren inner => rfl
  | creation type opening inner => rfl
  | member base name ih | index base subscript ih =>
    rw [items, List.append_assoc]
    exact ih ht.2 ht.1 _
  | call callee args ih =>
    rw [items, List.append_assoc]
    exact ih ht.2 (level_of_isName ht.1) _
  | cast type operand => cases h
  | unary op operand => cases h
  | binary left op right =>
    have hop := op.level_le
    rw [level] at h
    omega

/-- What may be the operand of a cast is taken for one. -/
theorem startsOperand_items (ht : t.Grouped) (hlevel : 11 ≤ t.level) {basic : Bool}
    (hsign : basic = true ∨ t.isSigned = false) (rest : List Item) :
    startsOperand basic (t.items ++ rest) = true := by
  cases t with
  | cast type operand => rfl
  | unary op operand =>
    rw [items, List.cons_append, startsOperand, UnaryOp.ofText?_text]
    simpa [isSigned] using hsign
  | binary left op right =>
    have hop := op.level_le
    rw [level] at hlevel
    omega
  | _ => exact startsOperand_word ht rfl basic rest

theorem parseFrom_creating (frame : Frame) {type : List Item} {opening : Char}
    {inner : List Token} (start : List Item) (rest : List Item)
    (htype : ∀ i ∈ type, i.isTypePart = true) (hne : start ++ type ≠ [])
    (hend : (Item.group opening inner).isTypePart = false) :
    parseFrom (.creating frame start) (type ++ .group opening inner :: rest) =
      parseFrom (.after frame (.creation (start ++ type) opening inner)) rest := by
  induction type generalizing start with
  | nil =>
    rw [List.append_nil] at hne ⊢
    rw [List.nil_append, parseFrom, hend, if_neg Bool.false_ne_true, if_neg hne]
  | cons i type ih =>
    have hi := htype i List.mem_cons_self
    have hrest := ih (start ++ [i]) (fun j hj => htype j (List.mem_cons_of_mem _ hj)) (by simp)
    rw [List.append_assoc, List.singleton_append] at hrest
    rw [List.cons_append, ← hrest]
    cases i with
    | group opening' inner' => rw [parseFrom, if_pos hi]
    | _ =>
      rw [parseFrom, if_pos hi]
      intro _ _ h
      cases h

/-- An operand without signs is read in one go, where what follows does not make it a cast. -/
theorem parseFrom_operand (ht : t.Grouped) (hlevel : t.level = 12) (frame : Frame)
    (hrest : t.isName = true ∨ startsOperand false rest = false) :
    parseFrom (.before frame) (t.items ++ rest) = parseFrom (.after frame t) rest := by
  induction t generalizing rest with
  | word text =>
    rw [items, List.singleton_append, parseFrom, if_neg ht]
  | paren inner =>
    have hbasic : isBasic inner = false := ht
    have hend : startsOperand false rest = false := hrest.resolve_left Bool.false_ne_true
    rw [items, List.singleton_append, parseFrom, hbasic, hend]
    simp
  | creation type opening inner =>
    obtain ⟨hne, htype, hend⟩ := ht
    rw [items, List.append_assoc, List.cons_append, parseFrom, if_pos rfl]
    simpa using parseFrom_creating frame [] rest htype (by simpa using hne) hend
  | member base name ih =>
    rw [items, List.append_assoc, ih ht.2 ht.1 (Or.inr rfl)]
    rfl
  | call callee args ih =>
    rw [items, List.append_assoc, ih ht.2 (level_of_isName ht.1) (Or.inl ht.1),
      List.singleton_append, parseFrom, if_neg (by decide), if_pos ⟨rfl, ht.1⟩]
  | index base subscript ih =>
    rw [items, List.append_assoc, ih ht.2 ht.1 (Or.inr rfl), List.singleton_append, parseFrom,
      if_pos rfl]
  | cast type operand => cases hlevel
  | unary op operand => cases hlevel
  | binary left op right =>
    have hop := op.level_le
    rw [level] at hlevel
    omega

theorem parseFrom_marked (ht : t.Grouped) (hlevel : 11 ≤ t.level) (frame : Frame)
    (hrest : startsOperand false rest = false) :
    parseFrom (.before frame) (t.items ++ rest) =
      parseFrom (.after { frame with marks := t.marks ++ frame.marks } t.core) rest := by
  induction t generalizing frame with
  | cast type operand ih =>
    obtain ⟨htype, hsign, hl, ho⟩ := ht
    have hstarts := startsOperand_items ho hl hsign rest
    rw [items, List.cons_append, parseFrom, if_neg (not_not.2 rfl), if_pos hstarts, if_pos htype,
      ih ho hl, marks, core]
    simp [Frame.mark]
  | unary op operand ih =>
    rw [items, List.cons_append, parseFrom, UnaryOp.ofText?_text]
    dsimp only
    rw [ih ht.2 ht.1, marks, core]
    simp [Frame.mark]
  | binary left op right =>
    have hop := op.level_le
    rw [level] at hlevel
    omega
  | _ => exact parseFrom_operand ht rfl frame (Or.inr hrest)

/-- A phrase after what stands before it, operator by operator. -/
@[simp]
def attach : Option (Phrase × BinaryOp) → Phrase → Phrase
  | before, binary left op right => attach (some (attach before left, op)) right
  | none, t => t
  | some (left, op), t => left.insert op t

/-- Operators that bind more tightly go to the right operand of one that binds less. -/
theorem attach_below (ht : t.Grouped) :
    ∀ {left right : Phrase} {above op : BinaryOp}, above.level < op.level →
      above.level < t.level → attach (some (binary left above right, op)) t =
        binary left above (attach (some (right, op)) t) := by
  induction t with
  | binary l o r ihl ihr =>
    -- Both operands bind more tightly than `above`, so both go below it.
    intro left right above op hop hlevel
    obtain ⟨hl, hr, hleft, hright⟩ := ht
    have habove : above.level < o.level := hlevel
    rw [attach, ihl hleft hop (Nat.lt_of_lt_of_le habove hl), ihr hright habove
      (Nat.lt_trans habove hr)]
    rfl
  | _ =>
    intro left right above op hop _
    exact if_pos hop

/-- A phrase that keeps the rules takes its place as it is. -/
theorem attach_right (ht : t.Grouped) :
    ∀ {left : Phrase} {op : BinaryOp}, op.level ≤ left.level → op.level < t.level →
      attach (some (left, op)) t = binary left op t := by
  induction t with
  | binary l o r ihl ihr =>
    intro left op hle hlt
    obtain ⟨hl, hr, hleft, hright⟩ := ht
    have hop : op.level < o.level := hlt
    rw [attach, ihl hleft hle (Nat.lt_of_lt_of_le hop hl), attach_below hright hop
      (Nat.lt_trans hop hr), ihr hright hl hr]
  | _ => exact fun hle _ => insert_top _ hle

theorem attach_none (ht : t.Grouped) : attach none t = t := by
  induction t with
  | binary left op right ih _ =>
    obtain ⟨hl, hr, hleft, hright⟩ := ht
    rw [attach, ih hleft, attach_right hright hl hr]
  | _ => rfl

theorem complete_marks (before : Option (Phrase × BinaryOp)) (hlevel : 11 ≤ t.level) :
    Frame.complete ⟨before, t.marks ++ []⟩ t.core = attach before t := by
  have hattach : attach before t = (match before with
      | none => t
      | some (left, op) => left.insert op t) := by
    cases t with
    | binary left op right =>
      have hop := op.level_le
      rw [level] at hlevel
      omega
    | _ => cases before <;> rfl
  rw [hattach, Frame.complete, List.append_nil, marked_core]

/-- The reader reads the items of a phrase in one go, wherever they stand. -/
theorem parseFrom_items (ht : t.Grouped) (before : Option (Phrase × BinaryOp)) :
    ∃ frame operand, frame.complete operand = attach before t ∧
      ∀ rest, startsOperand false rest = false →
        parseFrom (.before ⟨before, []⟩) (t.items ++ rest) =
          parseFrom (.after frame operand) rest := by
  induction t generalizing before with
  | binary left op right ihl ihr =>
    obtain ⟨hl, hr, hleft, hright⟩ := ht
    obtain ⟨frame, operand, hc, hread⟩ := ihl hleft before
    obtain ⟨frame', operand', hc', hread'⟩ := ihr hright (some (frame.complete operand, op))
    refine ⟨frame', operand', by rw [hc', hc, attach], fun rest hrest => ?_⟩
    rw [items, List.append_assoc, List.append_assoc, List.singleton_append,
      hread _ (startsOperand_binary op _), parseFrom, BinaryOp.ofText?_text]
    exact hread' rest hrest
  | cast type operand | unary op operand =>
    exact ⟨_, _, complete_marks before (Nat.le_refl 11), fun rest hrest =>
      parseFrom_marked ht (Nat.le_refl 11) _ hrest⟩
  | _ =>
    exact ⟨_, _, complete_marks before (Nat.le_succ 11), fun rest hrest =>
      parseFrom_marked ht (Nat.le_succ 11) _ hrest⟩

theorem parse_eq_some_iff : parse is = some t ↔ t.items = is ∧ t.Grouped := by
  refine ⟨fun h => ?_, ?_⟩
  · have hstart : (Position.before ⟨none, []⟩).Grouped is :=
      ⟨⟨fun _ _ hbefore => (by cases hbefore), trivial⟩, fun _ _ hcast => by cases hcast⟩
    simpa [Position.items, Frame.items] using parseFrom_sound h hstart
  · rintro ⟨rfl, hgrouped⟩
    obtain ⟨frame, operand, hc, hread⟩ := parseFrom_items hgrouped none
    have hall := hread [] rfl
    rw [List.append_nil] at hall
    rw [parse, hall, parseFrom, hc, attach_none hgrouped]

/-- The phrase is one that Java can have: grouped by the rules, with whole brackets. -/
structure Proper (t : Phrase) : Prop where
  grouped : t.Grouped
  whole : ∀ i ∈ t.items, i.Whole

theorem ofTokens?_eq_some_iff {ts : List Token} :
    ofTokens? ts = some t ↔ t.tokens = ts ∧ t.Proper := by
  simp only [ofTokens?, Option.bind_eq_some_iff, items_eq_some_iff, parse_eq_some_iff]
  refine ⟨?_, ?_⟩
  · rintro ⟨is, ⟨rfl, hwhole⟩, rfl, hgrouped⟩
    exact ⟨rfl, hgrouped, hwhole⟩
  · rintro ⟨rfl, hproper⟩
    exact ⟨t.items, ⟨rfl, hproper.whole⟩, rfl, hproper.grouped⟩

/-- A text is read as a phrase exactly if the phrase keeps the rules and is written so. -/
theorem read_eq_some_iff {text : String} :
    read text = some t ↔ scan text = some t.tokens ∧ t.Proper := by
  simp only [read, Option.bind_eq_some_iff, ofTokens?_eq_some_iff]
  refine ⟨?_, fun ⟨hscan, hproper⟩ => ⟨_, hscan, rfl, hproper⟩⟩
  rintro ⟨ts, hscan, rfl, hproper⟩
  exact ⟨hscan, hproper⟩

example : read "(double) a + b" = some (.binary
    (.cast [.word "double".toList] (.word ['a'])) .add (.word ['b'])) := by decide

end Phrase
end GoToJava.Java
