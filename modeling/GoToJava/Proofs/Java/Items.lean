import GoToJava.Proofs.Java.Lexing

/-!
Items of Java texts: tokens, and all that stands between two brackets as a whole.
-/

namespace GoToJava.Java

variable {ts : List Token} {stack rest : List Char}

/-- A token, or all that stands between two brackets. -/
inductive Item where
  | word (text : List Char)
  | operator (text : List Char)
  | separator (c : Char)
  | group (opening : Char) (inner : List Token)
  deriving DecidableEq, Repr

variable {all : List Item}

def closing (c : Char) : Char :=
  if c = '(' then ')' else if c = '[' then ']' else '\x7d'

def isOpening (c : Char) : Bool := ['(', '[', '\x7b'].contains c

def isClosing (c : Char) : Bool := [')', ']', '\x7d'].contains c

/-- The brackets that are still to be closed after a token, the innermost first. -/
def nest (pending : List Char) : Token → Option (List Char)
  | .separator c =>
    if isOpening c then some (closing c :: pending)
    else if isClosing c then
      match pending with
      | [] => none
      | d :: rest => if c = d then some rest else none
    else some pending
  | _ => some pending

/-- Every bracket is closed, and none is closed that is not open. -/
def Balanced (ts : List Token) : Prop := ts.foldlM nest [] = some []

instance (ts : List Token) : Decidable (Balanced ts) :=
  inferInstanceAs (Decidable (ts.foldlM nest [] = some []))

namespace Item

def tokens : Item → List Token
  | word text => [.word text]
  | operator text => [.operator text]
  | separator c => [.separator c]
  | group opening inner => .separator opening :: inner ++ [.separator (closing opening)]

/-- Brackets stand around groups and nowhere else. -/
def Whole : Item → Prop
  | separator c => isOpening c = false ∧ isClosing c = false
  | group opening inner => isOpening opening = true ∧ Balanced inner
  | _ => True

end Item

/-- The group that is open: its bracket, the brackets open in it, and what was read of it. -/
structure Open where
  opening : Char
  nested : List Char
  inner : List Token

def itemsFrom : Option Open → List Token → Option (List Item)
  | none, [] => some []
  | some _, [] => none
  | none, .word text :: ts => (itemsFrom none ts).map (.word text :: ·)
  | none, .operator text :: ts => (itemsFrom none ts).map (.operator text :: ·)
  | none, .separator c :: ts =>
    if isOpening c then itemsFrom (some ⟨c, [], []⟩) ts
    else if isClosing c then none
    else (itemsFrom none ts).map (.separator c :: ·)
  | some o, t :: ts =>
    if o.nested = [] ∧ t = .separator (closing o.opening) then
      (itemsFrom none ts).map (.group o.opening o.inner :: ·)
    else
      match nest o.nested t with
      | none => none
      | some nested => itemsFrom (some ⟨o.opening, nested, o.inner ++ [t]⟩) ts

/-- The items of a row of tokens. -/
def items (ts : List Token) : Option (List Item) := itemsFrom none ts

def Open.tokens (o : Open) : List Token := .separator o.opening :: o.inner

def Open.Whole (o : Open) : Prop :=
  isOpening o.opening = true ∧ o.inner.foldlM nest [] = some o.nested

theorem foldlM_nest_append {t : Token} {a b : List Char} (h : ts.foldlM nest [] = some a)
    (ht : nest a t = some b) : (ts ++ [t]).foldlM nest [] = some b := by
  simp [List.foldlM_append, h, ht]

theorem itemsFrom_sound {before : Option Open} (h : itemsFrom before ts = some all)
    (hb : ∀ o ∈ before, o.Whole) :
    all.flatMap Item.tokens = (before.elim [] Open.tokens) ++ ts ∧ ∀ i ∈ all, i.Whole := by
  fun_induction itemsFrom before ts generalizing all with
  | case1 =>
    cases h
    exact ⟨rfl, by simp⟩
  | case2 => cases h
  | case3 text ts ih | case4 text ts ih =>
    obtain ⟨rest, hrest, rfl⟩ := Option.map_eq_some_iff.1 h
    obtain ⟨he, hw⟩ := ih hrest (by simp)
    refine ⟨by simpa [Item.tokens] using he, ?_⟩
    simpa [Item.Whole] using hw
  | case5 c ts hopening ih =>
    obtain ⟨he, hw⟩ := ih h (by
      rintro o ⟨⟩
      exact ⟨hopening, rfl⟩)
    exact ⟨by simpa [Open.tokens] using he, hw⟩
  | case6 => cases h
  | case7 c ts hopening hclosing ih =>
    obtain ⟨rest, hrest, rfl⟩ := Option.map_eq_some_iff.1 h
    obtain ⟨he, hw⟩ := ih hrest (by simp)
    refine ⟨by simpa [Item.tokens] using he, ?_⟩
    simpa [Item.Whole, hopening, hclosing] using hw
  | case8 o t ts hend ih =>
    obtain ⟨rest, hrest, rfl⟩ := Option.map_eq_some_iff.1 h
    obtain ⟨he, hw⟩ := ih hrest (by simp)
    obtain ⟨hopening, hinner⟩ := hb o rfl
    rw [hend.1] at hinner
    refine ⟨?_, ?_⟩
    · simp [Item.tokens, Open.tokens, he, hend.2]
    · simpa [Item.Whole, hopening, Balanced, hinner] using hw
  | case9 => cases h
  | case10 o t ts hend nested hnest ih =>
    obtain ⟨hopening, hinner⟩ := hb o rfl
    obtain ⟨he, hw⟩ := ih h (by
      rintro o' ⟨⟩
      exact ⟨hopening, foldlM_nest_append hinner hnest⟩)
    exact ⟨by simpa [Open.tokens] using he, hw⟩

theorem nest_closing {opening : Char} (h : isOpening opening = true) :
    nest [] (.separator (closing opening)) = none := by
  simp only [isOpening, List.contains_iff_mem, List.mem_cons, List.not_mem_nil, or_false] at h
  rcases h with rfl | rfl | rfl
  · decide
  · decide
  · decide

/-- A group is read to its end: a bracket that closes it stands nowhere in it. -/
theorem itemsFrom_group {o : Open} (rest : List Token) (ho : isOpening o.opening = true)
    (h : ts.foldlM nest o.nested = some []) :
    itemsFrom (some o) (ts ++ .separator (closing o.opening) :: rest) =
      (itemsFrom none rest).map (.group o.opening (o.inner ++ ts) :: ·) := by
  induction ts generalizing o with
  | nil =>
    have hnested : o.nested = [] := by simpa using h
    rw [List.nil_append, itemsFrom, if_pos ⟨hnested, rfl⟩, List.append_nil]
  | cons t ts ih =>
    obtain ⟨nested, hnest, hrest⟩ : ∃ nested, nest o.nested t = some nested ∧
        ts.foldlM nest nested = some [] := by
      simpa [List.foldlM_cons, Option.bind_eq_some_iff] using h
    have hgoes : ¬ (o.nested = [] ∧ t = .separator (closing o.opening)) := by
      rintro ⟨hnested, rfl⟩
      rw [hnested, nest_closing ho] at hnest
      cases hnest
    rw [List.cons_append, itemsFrom, if_neg hgoes, hnest]
    simpa using ih (o := ⟨o.opening, nested, o.inner ++ [t]⟩) ho hrest

theorem items_flatMap (h : ∀ i ∈ all, i.Whole) : items (all.flatMap Item.tokens) = some all := by
  induction all with
  | nil => rfl
  | cons i all ih =>
    have hall := ih fun x hx => h x (List.mem_cons_of_mem _ hx)
    have hi := h i List.mem_cons_self
    rw [items] at hall ⊢
    cases i with
    | word text | operator text => simp [Item.tokens, itemsFrom, hall]
    | separator c => simp [Item.tokens, itemsFrom, hi.1, hi.2, hall]
    | group opening inner =>
      have hgroup := itemsFrom_group (o := ⟨opening, [], []⟩) (all.flatMap Item.tokens) hi.1 hi.2
      simpa [Item.tokens, itemsFrom, hi.1, hall] using hgroup

theorem items_eq_some_iff :
    items ts = some all ↔ all.flatMap Item.tokens = ts ∧ ∀ i ∈ all, i.Whole := by
  refine ⟨fun h => ?_, ?_⟩
  · simpa using itemsFrom_sound h (by simp)
  · rintro ⟨rfl, hw⟩
    exact items_flatMap hw

/-! ## Whole items -/

theorem nest_append {t : Token} (s : List Char) (h : nest stack t = some rest) :
    nest (stack ++ s) t = some (rest ++ s) := by
  cases t with
  | word text | operator text => simpa [nest] using h
  | separator c =>
    simp only [nest] at h ⊢
    split
    · rename_i hopening
      rw [if_pos hopening] at h
      cases h
      rfl
    · rename_i hopening
      rw [if_neg hopening] at h
      split
      · rename_i hclosing
        rw [if_pos hclosing] at h
        cases stack with
        | nil => cases h
        | cons d stack =>
          simp only [List.cons_append] at h ⊢
          split at h
          · rename_i hd
            rw [if_pos hd]
            cases h
            rfl
          · cases h
      · rename_i hclosing
        rw [if_neg hclosing] at h
        cases h
        rfl

theorem foldlM_nest_over (s : List Char) (h : ts.foldlM nest stack = some rest) :
    ts.foldlM nest (stack ++ s) = some (rest ++ s) := by
  induction ts generalizing stack with
  | nil => simpa using h
  | cons t ts ih =>
    obtain ⟨next, hnext, hrest⟩ : ∃ next, nest stack t = some next ∧
        ts.foldlM nest next = some rest := by
      simpa [List.foldlM_cons, Option.bind_eq_some_iff] using h
    simp [List.foldlM_cons, nest_append s hnext, ih hrest]

theorem foldlM_nest_item {i : Item} (h : i.Whole) (s : List Char) :
    i.tokens.foldlM nest s = some s := by
  cases i with
  | word text => rfl
  | operator text => rfl
  | separator c => simp [Item.tokens, nest, h.1, h.2]
  | group opening inner =>
    obtain ⟨hopening, hinner⟩ := h
    have hall := foldlM_nest_over (closing opening :: s) hinner
    have hopen : nest s (.separator opening) = some (closing opening :: s) := if_pos hopening
    have hclose : nest (closing opening :: s) (.separator (closing opening)) = some s := by
      simp only [isOpening, List.contains_iff_mem, List.mem_cons, List.not_mem_nil, or_false]
        at hopening
      rcases hopening with rfl | rfl | rfl <;> rfl
    rw [List.nil_append] at hall
    simp only [Item.tokens, List.cons_append, List.foldlM_cons, List.foldlM_append, hopen,
      Option.bind_eq_bind, Option.bind_some, hall, hclose, List.foldlM_nil, Option.pure_def]

theorem balanced_items (h : ∀ i ∈ all, i.Whole) : Balanced (all.flatMap Item.tokens) := by
  unfold Balanced
  induction all with
  | nil => rfl
  | cons i is ih =>
    rw [List.flatMap_cons, List.foldlM_append, foldlM_nest_item (h i List.mem_cons_self)]
    exact ih fun j hj => h j (List.mem_cons_of_mem _ hj)

end GoToJava.Java
