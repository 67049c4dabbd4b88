import GoToJava.Proofs.Formula.Reading

/-!
What may stand around a value: a cast, a member after it, brackets, or an operator before it. Main
lemma: the value is read as the operand of what stands around it exactly if it binds tightly enough.
-/

namespace GoToJava.Java

variable {c : Char} {ts : List Token} {cs : List Char}

theorem scan_word {text : String} (h : IsWord text) : scan text = some [.word text.toList] :=
  scan_of_reads (reads_word (fun _ => Part.noConfusion) h.1 h.2)

/-! ## Contexts -/

/-- What stands around a value. -/
inductive Context where
  | nothing
  | cast (type : String)
  /-- A member of the value. It may be called. -/
  | suffix (name : String) (called : Bool)
  /-- The value is all that a new object is made from. -/
  | made (type : String)
  /-- The value is the only argument of a call. -/
  | passed (callee : String)
  | complement
  /-- The value is the right operand. -/
  | operand (left : String) (op : BinaryOp)
  /-- The right operand is the complement of the value. -/
  | masked (left : String)

namespace Context

def before : Context → String
  | nothing | suffix _ _ => ""
  | cast type => "(" ++ (type ++ ") ")
  | made type => "new " ++ (type ++ "(")
  | passed callee => callee ++ "("
  | complement => "~"
  | operand left op => left ++ (" " ++ String.ofList op.text ++ " ")
  | masked left => left ++ " & ~ "

def after : Context → String
  | suffix name called => "." ++ (name ++ if called then "()" else "")
  | made _ | passed _ => ")"
  | _ => ""

/-- The phrase in which the value is the operand of what stands around it. -/
def phrase (t : Phrase) : Context → Option Phrase
  | nothing => some t
  | cast type => (scan type).map (.cast · t)
  | suffix name called =>
    some (if called then .call (.member t name.toList) [] else .member t name.toList)
  | made type => some (.creation [.word type.toList] '(' t.tokens)
  | passed callee => (Phrase.read callee).map (.call · t.tokens)
  | complement => some (.unary .complement t)
  | operand left op => (Phrase.read left).map (.binary · op t)
  | masked left => (Phrase.read left).map (.binary · .bitAnd (.unary .complement t))

/-- What stands around can be read by itself. -/
def Clear : Context → Prop
  | nothing | complement => True
  | cast type => ∃ ts, scan type = some ts ∧ isType ts = true
  | suffix name _ | made name => IsWord name
  | passed callee => ∃ c, Phrase.read callee = some c ∧ c.isName = true
  | operand left _ | masked left => ∃ l, Phrase.read left = some l ∧ l.level = 12

/-- The value binds tightly enough. -/
def Room (t : Phrase) : Context → Prop
  | nothing | made _ | passed _ => True
  | cast type => 11 ≤ t.level ∧ ((scan type).any isBasic = true ∨ t.isSigned = false)
  | suffix _ _ => t.level = 12
  | complement | masked _ => 11 ≤ t.level
  | operand _ op => op.level < t.level

instance (t : Phrase) (c : Context) : Decidable (c.Room t) := by
  cases c <;> unfold Room <;> infer_instance

end Context

/-! ## Reading in a context -/

variable {w : String} {t : Phrase}

theorem startsApart_of_cons {text : String} (h : text.toList = c :: cs) (hc : isBreak c = true) :
    StartsApart text := by
  intro d hd
  rw [h] at hd
  cases hd
  exact hc

theorem startsApart_append {s u : String} (hs : s.toList ≠ []) (h : StartsApart s) :
    StartsApart (s ++ u) := by
  intro c hc
  refine h c ?_
  rw [String.toList_append, List.head?_append_of_ne_nil _ hs] at hc
  exact hc

theorem balanced_tokens (h : t.Proper) : Balanced t.tokens := balanced_items h.whole

theorem balanced_of_isType (h : isType ts = true) : Balanced ts := by
  cases ts with
  | nil => cases h
  | cons first ts =>
    cases first with
    | word text =>
      simp only [isType, Bool.and_eq_true, decide_eq_true_eq] at h
      exact h.2
    | _ => cases h

namespace Context

variable {l p : Phrase} {left : String} {ts : List Token}

theorem scan_cast {type : String} (hs : scan type = some ts) (hw : scan w = some t.tokens) :
    scan ((cast type).before ++ (w ++ (cast type).after)) = some (Phrase.cast ts t).tokens := by
  have hclose : StartsApart (") " ++ w) :=
    startsApart_append (by decide) (startsApart_of_cons rfl (by decide))
  simp only [before, after, String.append_empty, String.append_assoc]
  rw [scan_append_of_done [.separator '('] _ rfl, scan_append hs hclose,
    scan_append_of_done [.separator ')'] _ rfl, hw]
  simp [Phrase.tokens, Phrase.items, Item.tokens, closing]

theorem scan_suffix {name : String} (called : Bool) (hn : IsWord name)
    (hw : scan w = some t.tokens) :
    scan ((suffix name called).before ++ (w ++ (suffix name called).after)) =
      some (if called then Phrase.call (.member t name.toList) []
        else .member t name.toList).tokens := by
  have hpoint : ∀ rest : String, StartsApart ("." ++ rest) := fun rest =>
    startsApart_append (by decide) (startsApart_of_cons rfl (by decide))
  simp only [before, after, String.empty_append]
  cases called with
  | true =>
    have hcall : scan (name ++ "()") =
        some [.word name.toList, .separator '(', .separator ')'] := by
      rw [scan_append (scan_word hn) (startsApart_of_cons rfl (by decide))]
      rfl
    rw [if_pos rfl, scan_append hw (hpoint _), scan_append_of_done [.separator '.'] _ rfl, hcall]
    simp [Phrase.tokens, Phrase.items, Item.tokens, closing]
  | false =>
    rw [if_neg Bool.false_ne_true, String.append_empty, scan_append hw (hpoint _),
      scan_append_of_done [.separator '.'] _ rfl, scan_word hn]
    simp [Phrase.tokens, Phrase.items, Item.tokens]

theorem scan_bracketed {text : String} (hs : scan text = some ts) (hw : scan w = some t.tokens) :
    scan (text ++ ("(" ++ (w ++ ")"))) = some (ts ++ (Item.group '(' t.tokens).tokens) := by
  have hopen : StartsApart ("(" ++ (w ++ ")")) :=
    startsApart_append (by decide) (startsApart_of_cons rfl (by decide))
  have hclose : StartsApart ")" := startsApart_of_cons rfl (by decide)
  have hend : scan ")" = some [.separator ')'] := rfl
  rw [scan_append hs hopen, scan_append_of_done [.separator '('] _ rfl, scan_append hw hclose, hend]
  simp [Item.tokens, closing]

theorem scan_made {type : String} (hn : IsWord type) (hw : scan w = some t.tokens) :
    scan ((made type).before ++ (w ++ (made type).after)) =
      some (Phrase.creation [.word type.toList] '(' t.tokens).tokens := by
  have hnew : scanFrom (.token .nothing) "new ".toList =
      some (.token .nothing, [.word ['n', 'e', 'w']]) := by decide
  simp only [before, after, String.append_assoc]
  rw [scan_append_of_done _ _ hnew, scan_bracketed (scan_word hn) hw]
  simp [Phrase.tokens, Phrase.items, Item.tokens]

theorem scan_passed {callee : String} (hs : scan callee = some p.tokens)
    (hw : scan w = some t.tokens) : scan ((passed callee).before ++ (w ++ (passed callee).after)) =
      some (Phrase.call p t.tokens).tokens := by
  simp only [before, after, String.append_assoc]
  rw [scan_bracketed hs hw]
  simp [Phrase.tokens, Phrase.items]

theorem scan_blanks (op : BinaryOp) : scanFrom (.token .nothing)
    (" " ++ String.ofList op.text ++ " ").toList = some (.token .nothing, [.operator op.text]) := by
  cases op <;> decide

theorem scan_operand (op : BinaryOp) (hs : scan left = some l.tokens)
    (hw : scan w = some t.tokens) :
    scan ((operand left op).before ++ (w ++ (operand left op).after)) =
      some (Phrase.binary l op t).tokens := by
  have hblank : StartsApart (" " ++ String.ofList op.text ++ " " ++ w) := by
    rw [String.append_assoc, String.append_assoc]
    exact startsApart_append (by decide) (startsApart_of_cons rfl (by decide))
  simp only [before, after, String.append_empty]
  rw [String.append_assoc, scan_append hs hblank, scan_append_of_done _ _ (scan_blanks op), hw]
  simp [Phrase.tokens, Phrase.items, Item.tokens]

theorem scan_masked (hs : scan left = some l.tokens) (hw : scan w = some t.tokens) :
    scan ((masked left).before ++ (w ++ (masked left).after)) =
      some (Phrase.binary l .bitAnd (.unary .complement t)).tokens := by
  have hblank : StartsApart (" & ~ " ++ w) :=
    startsApart_append (by decide) (startsApart_of_cons rfl (by decide))
  have hmask : scanFrom (.token .nothing) " & ~ ".toList =
      some (.token .nothing, [.operator ['&'], .operator ['~']]) := by decide
  simp only [before, after, String.append_empty]
  rw [String.append_assoc, scan_append hs hblank, scan_append_of_done _ _ hmask, hw]
  simp [Phrase.tokens, Phrase.items, Item.tokens, BinaryOp.text, UnaryOp.text]

/-- The whole is read as a phrase that is written so exactly if the phrase keeps the rules. -/
theorem read_iff_of_scan {text : String} (h : scan text = some p.tokens)
    (hwhole : ∀ i ∈ p.items, i.Whole) : Phrase.read text = some p ↔ p.Grouped := by
  rw [Phrase.read_eq_some_iff]
  exact ⟨fun hread => hread.2.grouped, fun hgrouped => ⟨h, hgrouped, hwhole⟩⟩

/-- The value is read as the operand of what stands around it exactly if it binds tightly enough. -/
theorem read_iff (c : Context) (hc : c.Clear) (hw : Phrase.read w = some t) :
    Phrase.read (c.before ++ (w ++ c.after)) = c.phrase t ↔ c.Room t := by
  obtain ⟨hscan, hproper⟩ := Phrase.read_eq_some_iff.1 hw
  have hgrouped := hproper.grouped
  have hwhole := hproper.whole
  have hgroup : (Item.group '(' t.tokens).Whole := ⟨rfl, balanced_tokens hproper⟩
  cases c with
  | nothing => simpa [before, after, phrase, Room] using hw
  | cast type =>
    obtain ⟨ts, hs, htype⟩ := hc
    have hitem : (Item.group '(' ts).Whole := ⟨rfl, balanced_of_isType htype⟩
    rw [phrase, hs]
    refine (read_iff_of_scan (scan_cast hs hscan) (List.forall_mem_cons.2 ⟨hitem, hwhole⟩)).trans ?_
    simp only [Phrase.Grouped, Room, hs, Option.any_some]
    exact ⟨fun h => ⟨h.2.2.1, h.2.1⟩, fun h => ⟨htype, h.2, h.1, hgrouped⟩⟩
  | suffix name called =>
    have hmember : ∀ i ∈ (Phrase.member t name.toList).items, i.Whole := by
      simp only [Phrase.items, List.forall_mem_append]
      exact ⟨hwhole, by simp [Item.Whole, isOpening, isClosing]⟩
    have hcall : ∀ i ∈ (if called then Phrase.call (.member t name.toList) []
        else .member t name.toList).items, i.Whole := by
      split
      · exact List.forall_mem_append.2 ⟨hmember, by simp [Item.Whole, isOpening, Balanced]⟩
      · exact hmember
    refine (read_iff_of_scan (scan_suffix called hc hscan) hcall).trans ?_
    cases called with
    | true => exact ⟨fun h => h.2.1, fun h => ⟨rfl, h, hgrouped⟩⟩
    | false => exact ⟨fun h => h.1, fun h => ⟨h, hgrouped⟩⟩
  | made type =>
    refine (read_iff_of_scan (scan_made hc hscan) ?_).trans ?_
    · simpa [Phrase.items, Item.Whole] using hgroup
    · simp [Phrase.Grouped, Room, Item.isTypePart]
  | passed callee =>
    obtain ⟨p, hread, hname⟩ := hc
    obtain ⟨hs, hp⟩ := Phrase.read_eq_some_iff.1 hread
    rw [phrase, hread]
    refine (read_iff_of_scan (scan_passed hs hscan)
      (List.forall_mem_append.2 ⟨hp.whole, by simpa using hgroup⟩)).trans ?_
    exact ⟨fun _ => trivial, fun _ => ⟨hname, hp.grouped⟩⟩
  | complement =>
    have hsign : scan (complement.before ++ (w ++ complement.after)) =
        some (Phrase.unary .complement t).tokens := by
      simp only [before, after, String.append_empty]
      rw [scan_complement, hscan]
      rfl
    refine (read_iff_of_scan hsign (List.forall_mem_cons.2 ⟨trivial, hwhole⟩)).trans ?_
    exact ⟨fun h => h.1, fun h => ⟨h, hgrouped⟩⟩
  | operand left op =>
    obtain ⟨l, hread, hlevel⟩ := hc
    obtain ⟨hs, hl⟩ := Phrase.read_eq_some_iff.1 hread
    have hop := op.level_le
    rw [phrase, hread]
    refine (read_iff_of_scan (scan_operand op hs hscan) ?_).trans ?_
    · simpa [Phrase.items, Item.Whole, or_imp, forall_and] using ⟨hl.whole, hwhole⟩
    · exact ⟨fun h => h.2.1, fun h => ⟨by omega, h, hl.grouped, hgrouped⟩⟩
  | masked left =>
    obtain ⟨l, hread, hlevel⟩ := hc
    obtain ⟨hs, hl⟩ := Phrase.read_eq_some_iff.1 hread
    rw [phrase, hread]
    refine (read_iff_of_scan (scan_masked hs hscan) ?_).trans ?_
    · simpa [Phrase.items, Item.Whole, or_imp, forall_and] using ⟨hl.whole, hwhole⟩
    · refine ⟨fun h => h.2.2.2.1, fun h => ⟨?_, (by decide : 5 < 11), hl.grouped, h, hgrouped⟩⟩
      rw [hlevel]
      decide

end Context

/-! ## Values that bind loosely -/

namespace Phrase

/-- A sign before a phrase goes to its first operand. -/
def signed (op : UnaryOp) : Phrase → Phrase
  | binary left above right => binary (left.signed op) above right
  | t => unary op t

theorem items_signed (op : UnaryOp) (t : Phrase) :
    (t.signed op).items = .operator op.text :: t.items := by
  induction t with
  | binary left above right ih _ => simp [signed, items, ih]
  | _ => rfl

theorem grouped_signed (op : UnaryOp) (h : t.Grouped) : (t.signed op).Grouped := by
  induction t with
  | binary left above right ih _ =>
    obtain ⟨hl, hr, hleft, hright⟩ := h
    refine ⟨?_, hr, ih hleft, hright⟩
    have habove := above.level_le
    cases left with
    | binary l o r => exact hl
    | _ => exact Nat.le_succ_of_le habove
  | cast type operand | unary sign operand => exact ⟨Nat.le_refl 11, h⟩
  | _ => exact ⟨Nat.le_succ 11, h⟩

theorem level_insert_le (t : Phrase) (op : BinaryOp) (operand : Phrase) :
    (t.insert op operand).level ≤ 10 := by
  cases t with
  | binary left above right =>
    rw [insert]
    split
    · exact above.level_le
    · exact op.level_le
  | _ => exact op.level_le

theorem level_attach (left : Phrase) (op : BinaryOp) (t : Phrase) :
    (attach (some (left, op)) t).level ≤ 10 := by
  induction t generalizing left op with
  | binary l o r _ ih => exact ih _ _
  | _ => exact level_insert_le _ _ _

theorem parse_binary {l r : Phrase} (op : BinaryOp) (hl : l.Grouped) (hr : r.Grouped) :
    parse (l.items ++ .operator op.text :: r.items) = some (attach (some (l, op)) r) := by
  obtain ⟨frame, operand, hc, hread⟩ := parseFrom_items hl none
  obtain ⟨frame', operand', hc', hread'⟩ := parseFrom_items hr (some (l, op))
  have hend := hread' [] rfl
  rw [List.append_nil] at hend
  rw [parse, hread _ (startsOperand_binary op _), parseFrom, BinaryOp.ofText?_text, hc,
    attach_none hl]
  exact hend.trans (congrArg some hc')

/-- Two phrases with an operator between them are a phrase that binds more loosely than a sign. -/
theorem exists_binary {l r : Phrase} (op : BinaryOp) (hl : l.Proper) (hr : r.Proper) :
    ∃ t : Phrase, t.Proper ∧ t.tokens = l.tokens ++ .operator op.text :: r.tokens ∧
      t.level ≤ 10 := by
  obtain ⟨hitems, hgrouped⟩ := parse_eq_some_iff.1 (parse_binary op hl.grouped hr.grouped)
  refine ⟨attach (some (l, op)) r, ⟨hgrouped, ?_⟩, ?_, level_attach l op r⟩
  · rw [hitems]
    simpa [Item.Whole, or_imp, forall_and] using ⟨hl.whole, hr.whole⟩
  · rw [tokens, hitems]
    simp [tokens, Item.tokens]

end Phrase

end GoToJava.Java

namespace GoToJava

open Java (scanFrom StartsApart startsApart_append startsApart_of_cons)
open Java.Phrase (read read_eq_some_iff)

/-- A binary expression of Go binds more loosely than a sign, whatever its operands are. -/
theorem read_of_binary {s u : String} {l r : Java.Phrase} (op : Go.BinaryOp)
    (hl : read s = some l) (hr : read u = some r) :
    ∃ t, read (s ++ ((" " ++ Forms.binaryToken op ++ " ") ++ u)) = some t ∧ t.level ≤ 10 := by
  obtain ⟨hs, hlp⟩ := read_eq_some_iff.1 hl
  obtain ⟨hu, hrp⟩ := read_eq_some_iff.1 hr
  have hblank : StartsApart ((" " ++ Forms.binaryToken op ++ " ") ++ u) := by
    rw [String.append_assoc, String.append_assoc]
    exact startsApart_append (by decide) (startsApart_of_cons rfl (by decide))
  have hop : scanFrom (.token .nothing) (" " ++ Forms.binaryToken op ++ " ").toList =
      some (.token .nothing, op.tokens) := by
    cases op <;> decide
  have hscan : Java.scan (s ++ ((" " ++ Forms.binaryToken op ++ " ") ++ u)) =
      some (l.tokens ++ (op.tokens ++ r.tokens)) := by
    rw [Java.scan_append hs hblank, Java.scan_append_of_done _ _ hop, hu]
    rfl
  -- A complement after `&` belongs to the first operand on the right.
  obtain ⟨right, hright, htokens⟩ : ∃ right : Java.Phrase, right.Proper ∧
      op.tokens ++ r.tokens = .operator op.java.text :: right.tokens := by
    by_cases hnot : op = .andNot
    · subst hnot
      refine ⟨r.signed .complement, ⟨Java.Phrase.grouped_signed _ hrp.grouped, ?_⟩, ?_⟩
      · rw [Java.Phrase.items_signed]
        exact List.forall_mem_cons.2 ⟨trivial, hrp.whole⟩
      · simp [Go.BinaryOp.tokens, Java.Phrase.tokens, Java.Phrase.items_signed, Java.Item.tokens]
    · exact ⟨r, hrp, by simp [Go.BinaryOp.tokens, hnot]⟩
  obtain ⟨t, ht, hall, hlevel⟩ := Java.Phrase.exists_binary op.java hlp hright
  refine ⟨t, read_eq_some_iff.2 ⟨?_, ht⟩, hlevel⟩
  rw [hscan, htokens, hall]

/-! ## Raw strings -/

/-- The tokens of a raw string from within a line, of which `literal` was read. -/
def rawTokens (literal : List Char) : List Char → List Java.Token
  | [] => [.word (literal ++ ['"'])]
  | c :: cs =>
    if c = '\n' then
      .word (literal ++ ['\\', 'n', '"']) :: .operator Java.BinaryOp.add.text :: rawTokens ['"'] cs
    else rawTokens (literal ++ Forms.rawChar c) cs

theorem scanFrom_rawChar {c : Char} (literal : List Char) (hc : c ≠ '\n') :
    scanFrom (.literal '"' false literal) (Forms.rawChar c) =
      some (.literal '"' false (literal ++ Forms.rawChar c), []) := by
  unfold Forms.rawChar
  split
  · simp [scanFrom, Java.Stand.step]
  · simp [scanFrom, Java.Stand.step]
  · simp [scanFrom]
  · exact absurd rfl hc
  · rename_i hslash hquote _ _
    have hslash' : c ≠ '\\' := hslash
    have hquote' : c ≠ '"' := hquote
    simp [scanFrom, Java.Stand.step, hc, hslash', hquote']

theorem scanFrom_rawLine (literal : List Char) :
    scanFrom (.literal '"' false literal) (Forms.rawChar '\n') = some (.literal '"' false ['"'],
        [.word (literal ++ ['\\', 'n', '"']), .operator Java.BinaryOp.add.text]) := by
  have hline : scanFrom (.literal '"' false literal) ['\\', 'n', '"'] =
      some (.token .nothing, [.word (literal ++ ['\\', 'n', '"'])]) := by
    simp [scanFrom, Java.Stand.step]
  have hsum : scanFrom (.token .nothing) ['+', '\n', '"'] =
      some (.literal '"' false ['"'], [.operator Java.BinaryOp.add.text]) := by decide
  show scanFrom (.literal '"' false literal) (['\\', 'n', '"'] ++ ['+', '\n', '"']) = _
  rw [Java.scanFrom_append, hline]
  simp [hsum]

theorem scanFrom_raw (literal cs : List Char) :
    scanFrom (.literal '"' false literal) (cs.flatMap Forms.rawChar ++ ['"']) =
      some (.token .nothing, rawTokens literal cs) := by
  induction cs generalizing literal with
  | nil => simp [scanFrom, Java.Stand.step, rawTokens]
  | cons c cs ih =>
    rw [List.flatMap_cons, List.append_assoc, Java.scanFrom_append]
    by_cases hc : c = '\n'
    · subst hc
      simp [scanFrom_rawLine, ih, rawTokens]
    · simp [scanFrom_rawChar literal hc, ih, rawTokens, hc]

theorem proper_literal {literal : List Char} (h : literal.head? = some '"') (more : List Char) :
    (Java.Phrase.word (literal ++ more)).Proper := by
  refine ⟨?_, by simp [Java.Phrase.items, Java.Item.Whole]⟩
  intro hnew
  cases literal with
  | nil => cases h
  | cons d literal =>
    cases h
    cases hnew

/-- Raw strings of one line are literals, and others are sums. -/
theorem exists_raw (literal cs : List Char) (h : literal.head? = some '"') :
    ∃ t : Java.Phrase, t.Proper ∧ t.tokens = rawTokens literal cs ∧
      (if '\n' ∈ cs then t.level ≤ 10 else t.level = 12) := by
  induction cs generalizing literal with
  | nil => exact ⟨_, proper_literal h ['"'], rfl, rfl⟩
  | cons c cs ih =>
    by_cases hc : c = '\n'
    · subst hc
      obtain ⟨rest, hrest, htokens, -⟩ := ih ['"'] rfl
      obtain ⟨t, ht, hall, hlevel⟩ :=
        Java.Phrase.exists_binary .add (proper_literal h ['\\', 'n', '"']) hrest
      exact ⟨t, ht, by rw [hall, htokens]; rfl, by simpa using hlevel⟩
    · obtain ⟨t, ht, htokens, hlevel⟩ := ih (literal ++ Forms.rawChar c) (by simp [h])
      have hne : '\n' ≠ c := Ne.symm hc
      exact ⟨t, ht, by simp [rawTokens, hc, htokens], by simpa [hne] using hlevel⟩

theorem mem_dropWhile_iff {p : Char → Bool} {c : Char} (h : p c = false) (cs : List Char) :
    c ∈ cs.dropWhile p ↔ c ∈ cs := by
  induction cs with
  | nil => rfl
  | cons d cs ih =>
    rw [List.dropWhile_cons]
    split
    · rename_i hd
      have hne : c ≠ d := by
        rintro rfl
        rw [h] at hd
        cases hd
      simp [ih, hne]
    · rfl

theorem read_rawString (text : String) :
    ∃ t, read (Forms.rawString text) = some t ∧
      (if '\n' ∈ text.toList then t.level ≤ 10 else t.level = 12) := by
  generalize hinner : ((text.toList.dropWhile Forms.isBackquote).reverse.dropWhile
    Forms.isBackquote).reverse = inner
  obtain ⟨t, ht, htokens, hlevel⟩ := exists_raw ['"'] inner rfl
  have hlines : '\n' ∈ inner ↔ '\n' ∈ text.toList := by
    rw [← hinner, List.mem_reverse, mem_dropWhile_iff (by decide), List.mem_reverse,
      mem_dropWhile_iff (by decide)]
  have htext : (Forms.rawString text).toList = '"' :: (inner.flatMap Forms.rawChar ++ ['"']) := by
    simp [Forms.rawString, hinner]
  have hscan : Java.scan (Forms.rawString text) = some t.tokens := by
    rw [Java.scan, htext, scanFrom]
    show ((scanFrom (.literal '"' false ['"']) _).map _).bind Java.finish = _
    rw [scanFrom_raw, htokens]
    simp [Java.finish, Java.Part.tokens]
  exact ⟨t, read_eq_some_iff.2 ⟨hscan, ht⟩, by simpa [hlines] using hlevel⟩

end GoToJava
