import GoToJava.Proofs.Emit.Pieces
import GoToJava.Proofs.Loops.Answers

/-!
Text within a line. Types and expressions start with text, so their indentation may be paid for them
beforehand, and they end with text, so none is owed after them.
-/

namespace GoToJava

open Go (Expr Field Signature Stmt title)
open Emit Forms TypeText Program

namespace Emit

variable {α β : Type} {x : Emit α} {f : α → Emit β} {task : Task}

/-! ## Starting and ending with text -/

def margin (place : Place) : String := "".pushn '\t' place.tabs

/-- The action starts with text: it makes no difference whether the indentation is still owed or
stands there already. -/
def Pays (x : Emit α) : Prop :=
  ∀ (place : Place) (p : Program), place.draft < p.drafts.next →
    x place ⟨p, true⟩ = x place ⟨p.write place.draft (margin place), false⟩

/-- No indentation is owed after the action. -/
def Rests (x : Emit α) : Prop := ∀ place desk, (x place desk).2.owed = false

/-- The action writes text within a line. -/
structure Inline (x : Emit α) : Prop where
  pays : Pays x
  rests : Rests x

/-- Afterwards the place owes what it owed before. -/
def Levels (x : Emit α) : Prop := ∀ place desk, (x place desk).2.owed = desk.owed

theorem silent_program {f : Program → Emit α} (h : ∀ p, Silent (f p))
    (hf : ∀ p drafts refused, f { p with drafts, refused } = f p) : Silent (program >>= f) := by
  intro place p text hp
  obtain ⟨v, q, hbefore, hafter, hq⟩ := h p place p text hp
  refine ⟨v, q, hbefore, ?_, hq⟩
  have hsame : f (p.write place.draft text) = f p := by
    rw [write_eq, hf]
  show f (p.write place.draft text) place _ = _
  rw [hsame, hafter]

theorem silent_read {f : Place → Emit α} (h : ∀ place, Silent (f place)) : Silent (read >>= f) :=
  fun place p text hp => h place place p text hp

theorem silent_modifyProgram {g : Program → Program}
    (hg : ∀ p drafts refused, g { p with drafts, refused } = { g p with drafts, refused }) :
    Silent (modifyProgram g) := by
  intro place p text hp
  refine ⟨(), g p, rfl, ?_, ?_⟩
  · show ((), (⟨g (p.write place.draft text), false⟩ : Desk)) = _
    rw [p.write_of_blind _ _ hg]
  · rw [p.drafts_of_blind hg]
    exact hp

theorem pays_print (text : String) : Pays (print text) := by
  intro place p _
  show ((), (⟨p.write place.draft (margin place ++ text), false⟩ : Desk)) =
    ((), ⟨(p.write place.draft (margin place)).write place.draft text, false⟩)
  rw [write_write]

theorem pays_bind (hx : Pays x) : Pays (x >>= f) := by
  intro place p hp
  show f (x place _).1 place (x place _).2 = f (x place _).1 place (x place _).2
  rw [hx place p hp]

theorem pays_of_silent (hx : Silent x) (hf : ∀ v, Pays (f v)) : Pays (x >>= f) := by
  intro place p hp
  obtain ⟨v, q, hbefore, hafter, hq⟩ := hx place p (margin place) hp
  show f (x place _).1 place (x place _).2 = f (x place _).1 place (x place _).2
  rw [hbefore, hafter]
  exact hf v place q hq

theorem pays_program {f : Program → Emit α} (h : ∀ p, Pays (f p))
    (hf : ∀ p drafts refused, f { p with drafts, refused } = f p) : Pays (program >>= f) := by
  intro place p hp
  have hsame : f (p.write place.draft (margin place)) = f p := by
    rw [write_eq, hf]
  show f p place _ = f (p.write place.draft (margin place)) place _
  rw [hsame]
  exact h p place p hp

theorem pays_read {f : Place → Emit α} (h : ∀ place, Pays (f place)) : Pays (read >>= f) :=
  fun place p hp => h place place p hp

theorem rests_print (text : String) : Rests (print text) := fun _ _ => rfl

theorem rests_bind (hf : ∀ v, Rests (f v)) : Rests (x >>= f) := fun place _ => hf _ place _

theorem rests_of_levels (hx : Rests x) (hf : ∀ v, Levels (f v)) : Rests (x >>= f) :=
  fun place desk => (hf _ place _).trans (hx place desk)

theorem levels_pure (v : α) : Levels (pure v : Emit α) := fun _ _ => rfl

theorem levels_seq (hx : Levels x) (hf : ∀ v, Levels (f v)) : Levels (x >>= f) :=
  fun place desk => (hf _ place _).trans (hx place desk)

theorem inline_print (text : String) : Inline (print text) := ⟨pays_print text, rests_print text⟩

theorem inline_bind (hx : Pays x) (hf : ∀ v, Rests (f v)) : Inline (x >>= f) :=
  ⟨pays_bind hx, rests_bind hf⟩

theorem inline_of_silent (hx : Silent x) (hf : ∀ v, Inline (f v)) : Inline (x >>= f) :=
  ⟨pays_of_silent hx fun v => (hf v).pays, rests_bind fun v => (hf v).rests⟩

theorem inline_of_levels (hx : Inline x) (hf : ∀ v, Levels (f v)) : Inline (x >>= f) :=
  ⟨pays_bind hx.pays, rests_of_levels hx.rests hf⟩

theorem inline_program {f : Program → Emit α} (h : ∀ p, Inline (f p))
    (hf : ∀ p drafts refused, f { p with drafts, refused } = f p) : Inline (program >>= f) :=
  ⟨pays_program (fun p => (h p).pays) hf, rests_bind fun p => (h p).rests⟩

theorem inline_read {f : Place → Emit α} (h : ∀ place, Inline (f place)) : Inline (read >>= f) :=
  ⟨pays_read fun place => (h place).pays, rests_bind fun place => (h place).rests⟩

/-- A task within a line is put off with a hole within the line. -/
theorem leave_inline (ht : task.placement = .inline) :
    leave task = (print "" >>= fun _ => discard (reserve false (some task))) := by
  unfold leave
  rw [ht]
  rfl

theorem inline_defer {now : Emit Unit} (ht : task.placement = .inline) (h : Inline now) :
    Inline (defer task now) := by
  refine ⟨fun place p hp => ?_, fun place desk => ?_⟩
  · have hphase : (p.write place.draft (margin place)).phase = p.phase := by
      rw [write_eq]
    rw [defer_apply, defer_apply]
    rw [hphase]
    split
    · exact h.pays place p hp
    · rw [leave_inline ht]
      exact pays_bind (pays_print "") place p hp
  · rw [defer_apply]
    split
    · exact h.rests place desk
    · rw [leave_inline ht]
      rfl

theorem silent_modifyUnit (f : CompilationUnit → CompilationUnit) : Silent (modifyUnit f) :=
  silent_read fun _ => silent_modifyProgram fun _ _ _ => rfl

theorem silent_need (i : Java.Import) : Silent (need i) := silent_modifyUnit _

theorem silent_refer (name : String) : Silent (refer name) := silent_modifyUnit _

theorem silent_newScope (parent : Nat) (vars : List (String × Expr)) :
    Silent (newScope parent vars) := by
  refine silent_program (fun p => ?_) fun _ _ _ => rfl
  exact silent_bind (silent_modifyProgram fun _ _ _ => rfl) fun _ => silent_pure _

end Emit

/-! ## Types -/

namespace TypeText

variable {s : Sight} {follow : Option (Expr → Style → List Piece)} {style : Style}

/-- Classes that are needed are no text. -/
def Piece.isText : Piece → Bool
  | .need _ => false
  | _ => true

theorem owed_writePieces (pieces : List Piece) (place : Place) (desk : Desk) :
    (writePieces pieces place desk).2.owed = (desk.owed && !pieces.any Piece.isText) := by
  induction pieces generalizing desk with
  | nil => exact (Bool.and_true _).symm
  | cons piece rest ih =>
    refine (ih (piece.write place desk).2).trans ?_
    cases piece with
    | need i => rfl
    | _ => exact (Bool.and_false _).symm

theorem inline_writePieces {pieces : List Piece} (h : pieces.any Piece.isText = true) :
    Inline (writePieces pieces) := by
  refine ⟨?_, fun place desk => ?_⟩
  · induction pieces with
    | nil => cases h
    | cons piece rest ih =>
      cases piece with
      | word text => exact pays_bind (pays_print text)
      | cls name => exact pays_bind (pays_of_silent (silent_refer name) fun _ => pays_print name)
      | need i => exact pays_of_silent (silent_need i) fun _ => ih h
      | later type style =>
        have hlater : Pays (leave (.typeName type style)) := by
          rw [leave_inline rfl]
          exact pays_bind (pays_print "")
        exact pays_bind hlater
  · rw [owed_writePieces, h, Bool.not_true, Bool.and_false]

/-- What is written by pieces with text in them stands within a line. -/
theorem inline_of_spelt {x : Emit Unit} {pieces : Sight → List Piece}
    (hx : ∀ s place, Spelt s place x (pieces s)) (h : ∀ s, (pieces s).any Piece.isText = true) :
    Inline x := by
  refine ⟨fun place p hp => ?_, fun place desk => ?_⟩
  · have hsight : (p.write place.draft (Emit.margin place)).sight place = p.sight place := by
      rw [write_eq]
      rfl
    rw [hx _ place ⟨p, true⟩ rfl, hx _ place ⟨p.write place.draft _, false⟩ hsight]
    exact (inline_writePieces (h _)).pays place p hp
  · rw [hx _ place desk rfl]
    exact (inline_writePieces (h _)).rests place desk

theorem isText_later {type : Expr} {now : List Piece} (h : now.any Piece.isText = true) :
    (piecesLater s type style now).any Piece.isText = true := by
  unfold piecesLater
  split
  · split
    · exact h
    · rfl
  · exact h

theorem isText_now (hf : ∀ f ∈ follow, ∀ target style, (f target style).any Piece.isText = true)
    (style : Style) : (type : Expr) → (piecesNow s follow style type).any Piece.isText = true
  | .ident name => by
    unfold piecesNow piecesNamed
    split
    · rfl
    · split
      · exact hf _ rfl _ _
      · rfl
  | .paren e | .star e => isText_later (isText_now hf style e)
  | .arrayType _ e | .ellipsis e => by
    have hwhole := isText_now hf style.whole e
    rw [piecesNow, piecesArray]
    split
    · exact isText_later hwhole
    · simp [Piece.isText]
  | .mapType _ v => by
    have hwhole := isText_now hf style.whole v
    rw [piecesNow, piecesOfMap]
    split
    · exact isText_later hwhole
    · simp [piecesMap, Piece.isText]
  | .selector base name => by
    have hmember : ∀ pieces : List Piece,
        (pieces ++ [Piece.word ".", Piece.word name]).any Piece.isText = true := by
      simp [Piece.isText]
    cases base
    case ident package =>
      rw [piecesNow, piecesQualified]
      split
      · split <;> rfl
      · split <;> rfl
    all_goals exact hmember _
  | .funcType (.mk params results) => by
    rw [piecesNow, piecesOfSignature]
    split
    · rfl
    · simp [piecesSignature, Piece.isText]
  | .lit .. | .composite .. | .funcLit .. | .index .. | .slice .. | .assert .. | .call ..
  | .unary .. | .binary .. | .keyValue .. | .structType .. | .interfaceType .. | .chanType ..
  | .unsupported .. => rfl

theorem isText_piecesAt (room : Nat) (style : Style) (type : Expr) :
    (piecesAt s room style type).any Piece.isText = true := by
  induction room generalizing style type with
  | zero => exact isText_later (isText_now (fun f hf => by cases hf) style type)
  | succ room ih =>
    refine isText_later (isText_now ?_ style type)
    rintro f ⟨⟩ target style
    exact ih style target

end TypeText

theorem inline_writeTypeAt (room : Nat) (style : Style) (type : Expr) :
    Inline (writeTypeAt room style type) :=
  inline_of_spelt (fun _ _ => spelt_writeTypeAt room style type)
    fun _ => isText_piecesAt room style type

theorem inline_writeType (style : Style) (type : Expr) : Inline (writeType style type) :=
  inline_writeTypeAt _ style type

theorem inline_writeTypeNow (style : Style) (type : Expr) : Inline (writeTypeNow style type) := by
  refine inline_of_spelt (fun _ _ => spelt_writeTypeNow style type) fun _ =>
    isText_now ?_ style type
  rintro f ⟨⟩ target style
  exact isText_piecesAt _ style target

/-! ## Types of expressions -/

namespace Program

variable (p : Program) (drafts : Drafts Pending) (refused : Option DraftError)

theorem unalias_drafts (type : Expr) : unalias { p with drafts, refused } type = p.unalias type :=
  ((p.like_drafts drafts refused).akin (S := everywhere)).unalias_of_all (fun _ => trivial) type

theorem isTypeCallee_drafts (place : Place) (e : Expr) :
    isTypeCallee { p with drafts, refused } place e = p.isTypeCallee place e :=
  (p.like_drafts drafts refused).isTypeCallee place place.draft (fun _ => trivial) e

end Program

theorem Inference.Move.inline_run {again known : Answer}
    (hagain : ∀ style e, Inline (again style e))
    (hknown : ∀ style type, Inline (known style type)) (style : Style) (move : Move) :
    Inline (move.run again known style) := by
  cases move with
  | unknown => exact inline_of_levels (inline_print _) fun _ => levels_pure _
  | known type => exact hknown style type
  | again e => exact hagain style e

theorem inline_inferAt (room : Nat) (style : Style) (e : Expr) : Inline (inferAt room style e) := by
  induction room generalizing style e with
  | zero => exact inline_of_levels (inline_print _) fun _ => levels_pure _
  | succ room ih =>
    have hmove : ∀ move : Inference.Move,
        Inline (move.run (inferAt room) (Inference.knownAt room) style) :=
      Inference.Move.inline_run ih (fun style type =>
        inline_of_levels (inline_writeTypeAt room style type) fun _ _ _ => rfl) style
    have hcomes := fun (p : Program) (place : Place) =>
      comesTo_inferAt room (p := p) (a := place) (b := place) ⟨rfl, rfl, rfl⟩ style e
    refine ⟨fun place p hp => ?_, fun place desk => ?_⟩
    · obtain ⟨look, hpeeks, hrun⟩ := hcomes p place
      obtain ⟨v, q, hbefore, hafter, hq⟩ := hpeeks.silent place p (Emit.margin place) hp
      rw [hrun ⟨p, true⟩ (.refl _ _), hrun ⟨p.write place.draft _, false⟩
        (p.mentions_write _ _).sameLore, hbefore, hafter]
      exact (hmove _).pays place q hq
    · obtain ⟨look, -, hrun⟩ := hcomes desk.program place
      rw [hrun desk (.refl _ _)]
      exact (hmove _).rests place _

theorem inline_infer (style : Style) (e : Expr) : Inline (infer style e) :=
  inline_inferAt _ style e

theorem silent_sourceType (e : Expr) : Silent (sourceType e) := by
  refine silent_bind (silent_inspect (quiet_infer .atOnce e)) fun v => ?_
  refine silent_program (fun _ => silent_pure _) fun p drafts refused => ?_
  simp only [unalias_drafts]

/-! ## Expressions -/

namespace Forms

variable {callee base value : Term} {args : List Term}

theorem inline_ident (name : String) : Inline (ident name) := by
  have hplain : ∀ (p : Program) (place : Place), Inline (ident.plain name p place) := by
    intro p place
    unfold ident.plain
    split
    · split
      · exact inline_print _
      · split
        · exact inline_of_silent (silent_modifyUnit _) fun _ => inline_print _
        · exact inline_print _
    · exact inline_print _
  refine inline_program (fun p => inline_read fun place => ?_) fun _ _ _ => rfl
  split
  · exact inline_print _
  · split
    · split
      · exact inline_print _
      · exact hplain _ _
    · exact hplain _ _

theorem inline_literal (kind : Go.LitKind) (text : String) : Inline (literal kind text) := by
  unfold literal
  split <;> exact inline_print _

theorem inline_binary {left right : Emit Unit} (op : Go.BinaryOp) (hl : Inline left)
    (hr : Inline right) : Inline (binary left op right) :=
  inline_bind hl.pays fun _ => rests_bind fun _ => hr.rests

theorem inline_cast (style : Style) (type : Expr) (value : Emit Unit) :
    Inline (cast style type value) :=
  inline_bind (pays_print _) fun _ _ _ => rfl

theorem inline_composite (type implied : Option Expr) (elements : List Element) :
    Inline (composite type implied elements) := by
  unfold composite
  split
  · exact inline_bind (pays_print _) fun _ _ _ => rfl
  · refine inline_program (fun p => ?_) fun p drafts refused => ?_
    · split <;> cases elements <;> exact inline_bind (pays_print _) fun _ _ _ => rfl
    · simp only [unalias_drafts]

theorem inline_funcLit (sig : Signature) (body : Emit Unit) : Inline (funcLit sig body) := by
  unfold funcLit
  refine inline_read fun place => inline_of_silent (silent_newScope _ _) fun scope => ?_
  exact inline_bind (pays_print _) fun _ _ _ => rfl

/-! ### Elements, parts and lengths -/

theorem inline_elementNow (index : Term) (h : Inline base.write) :
    Inline (elementNow base index) := by
  refine inline_of_silent (silent_sourceType _) fun type => ?_
  exact inline_bind h.pays fun _ _ _ => rfl

theorem inline_sliceNow (low high : Option Term) (h : Inline base.write) :
    Inline (sliceNow base low high) := by
  refine inline_of_silent (silent_sourceType _) fun type => ?_
  split
  · cases high <;> exact inline_bind h.pays fun _ _ _ => rfl
  · refine inline_of_silent (silent_need _) fun _ => ?_
    cases high <;> exact inline_bind (pays_print _) fun _ _ _ => rfl

theorem inline_lengthNow (h : Inline value.write) : Inline (lengthNow value) := by
  refine inline_of_silent (silent_sourceType _) fun type => ?_
  exact inline_bind h.pays fun _ _ _ => rfl

/-! ### Calls -/

theorem inline_conversion (type : Expr) (h : Inline value.write) :
    Inline (conversion type value) := by
  refine inline_of_silent (silent_inspect (quiet_writeTypeAt _ .atOnce type {} [])) fun target => ?_
  refine inline_of_silent (silent_inspect (quiet_infer .atOnce _)) fun source => ?_
  dsimp only
  split
  · exact inline_bind h.pays fun _ _ _ => rfl
  · exact inline_bind (pays_print _) fun _ _ _ => rfl
  · split
    · exact h
    · exact inline_cast _ _ _

theorem inline_make (type : Expr) (size : Option Term) : Inline (make type size) := by
  refine inline_program (fun p => ?_) fun p drafts refused => ?_
  · split
    · exact inline_bind (pays_print _) fun _ _ _ => rfl
    · cases size <;> exact inline_bind (pays_print _) fun _ _ _ => rfl
    · exact inline_print _
    · exact inline_bind (pays_print _) fun _ _ _ => rfl
  · simp only [unalias_drafts]

theorem inline_builtin {name : String} {x : Emit Unit} (h : ∀ t ∈ args, Inline t.write)
    (hx : builtin? name args = some x) : Inline x := by
  unfold builtin? at hx
  split at hx <;> cases hx
  · exact inline_defer rfl (inline_lengthNow (h _ List.mem_cons_self))
  · exact inline_defer rfl (inline_lengthNow (h _ List.mem_cons_self))
  · exact inline_make _ _
  · exact inline_bind (pays_print _) fun _ _ _ => rfl
  · exact inline_bind (h _ List.mem_cons_self).pays fun _ _ _ => rfl
  · exact inline_bind (pays_print _) fun _ _ _ => rfl

theorem inline_plainCall (args : List Term) (h : Inline callee.write) :
    Inline (plainCall callee args) := by
  refine inline_program (fun p => inline_read fun place => ?_) fun _ _ _ => rfl
  split
  · split
    · refine inline_of_silent (silent_need _) fun _ => ?_
      exact inline_bind (pays_print _) fun _ _ _ => rfl
    · exact inline_bind (pays_print _) fun _ _ _ => rfl
  · split
    · exact inline_bind (pays_print _) fun _ _ _ => rfl
    · exact inline_bind h.pays fun _ _ _ => rfl

theorem inline_call (hc : Inline callee.write) (ha : ∀ t ∈ args, Inline t.write) :
    Inline (call callee args) := by
  have hcall : ∀ (p : Program) (place : Place),
      Inline ((namedCall? p place callee.source args).getD (plainCall callee args)) := by
    intro p place
    cases hnamed : namedCall? p place callee.source args with
    | none => exact inline_plainCall args hc
    | some x =>
      unfold namedCall? at hnamed
      split at hnamed
      · split at hnamed
        · cases hnamed
        · exact inline_builtin ha hnamed
      · cases hnamed
  refine inline_program (fun p => inline_read fun place => ?_) fun p drafts refused => ?_
  · split
    · split
      · exact inline_conversion _ (ha _ List.mem_cons_self)
      · exact hcall p place
    · exact hcall p place
  · simp only [isTypeCallee_drafts]
    rfl

end Forms

namespace Conversion

variable (release : Release)

mutual

theorem inline_expr (implied : Option Expr) : (e : Expr) → Inline (expr release implied e)
  | .ident name => inline_ident name
  | .lit kind text => inline_literal kind text
  | .composite type es => inline_composite type implied _
  | .funcLit sig body => inline_funcLit sig _
  | .paren _ => inline_bind (pays_print _) fun _ _ _ => rfl
  | .selector base _ =>
    inline_bind (inline_expr none base).pays fun _ _ _ => rfl
  | .index base _ => inline_defer rfl (inline_elementNow _ (inline_expr none base))
  | .slice base _ _ => by
    have hbase : Inline (Term.mk base (expr release none base)).write := inline_expr none base
    rw [expr_slice]
    exact inline_defer rfl (inline_sliceNow _ _ hbase)
  | .assert _ (some _) => inline_cast _ _ _
  | .assert base none => inline_expr none base
  | .call callee args _ => inline_call (inline_expr none callee) (inline_terms args)
  | .star e => inline_expr none e
  | .unary op e => by
    have hsign : ∀ (text : String) (implied : Option Expr),
        Inline (do print text; expr release implied e) := fun text implied =>
      inline_bind (pays_print _) fun _ => (inline_expr implied e).rests
    cases op with
    | addr => exact hsign "" implied
    | _ => exact hsign _ none
  | .binary l op r => inline_binary op (inline_expr none l) (inline_expr none r)
  | .keyValue _ value => inline_expr none value
  | .unsupported _ => inline_print _
  | .arrayType .. | .mapType .. | .funcType _ | .structType _ | .interfaceType _ | .ellipsis _
  | .chanType _ => inline_writeType _ _

theorem inline_terms : (es : List Expr) → ∀ t ∈ terms release es, Inline t.write
  | [], t, ht => by cases ht
  | e :: es, t, ht => by
    rcases List.mem_cons.1 ht with rfl | ht
    · exact inline_expr none e
    · exact inline_terms es t ht

end

end Conversion

/-! ## Tasks -/

namespace Forms

variable {α : Type} {x : Emit α} {base : Term} {update : ElementUpdate Term}

theorem inline_declaredNow (style : Style) (name : String) (value : Expr) :
    Inline (declaredNow style name value) := by
  refine inline_of_levels (inline_infer style value) fun type => ?_
  cases type with
  | none => exact levels_pure _
  | some type => exact fun _ _ => rfl

theorem levels_bind (name : Option String) (type : Expr) : Levels (bind name type) := by
  cases name with
  | none => exact levels_pure _
  | some name => exact fun _ _ => rfl

theorem inline_counter (name : String) (limit : Emit Unit) : Inline (counter name limit) :=
  inline_bind (pays_print _) fun _ _ _ => rfl

theorem inline_forEach (type : Emit Unit) (name : String) (values : Emit Unit) :
    Inline (forEach type name values) :=
  inline_bind (pays_print _) fun _ _ _ => rfl

/-- A loop that counts, or one that goes through values. -/
theorem inline_countedHeader (key value : Option String) (limit kind values : Emit Unit)
    (type : Expr) : Inline (match key with
      | some key => do
        counter key limit
        setVar key (.ident "int")
        bind value type
      | none => do
        forEach kind (value.getD "ignored") values
        bind value type) := by
  split
  · refine inline_of_levels (inline_counter _ _) fun _ => ?_
    exact levels_seq (fun _ _ => rfl) fun _ => levels_bind _ _
  · exact inline_of_levels (inline_forEach _ _ _) fun _ => levels_bind _ _

theorem inline_rangeHeaderNow (loop : RangeLoop) (iterable : Emit Unit) :
    Inline (rangeHeaderNow loop iterable) := by
  have hunknown : Inline (rangeHeaderNow.unknown loop iterable) := inline_forEach _ _ _
  refine inline_of_silent (silent_sourceType _) fun type => ?_
  split
  · refine inline_bind (pays_print _) fun _ => rests_bind fun _ => rests_bind fun _ => ?_
    refine rests_of_levels (rests_bind fun _ _ _ => rfl) fun _ => ?_
    exact levels_seq (levels_bind _ _) fun _ => levels_bind _ _
  · exact inline_countedHeader _ _ _ _ _ _
  · exact inline_countedHeader _ _ _ _ _ _
  · exact inline_countedHeader _ _ _ _ _ _
  · split
    · exact inline_of_levels (inline_counter _ _) fun _ => levels_bind _ _
    · exact hunknown
  · exact hunknown

theorem pays_elementUpdateNow (index : Term) (update : ElementUpdate Term) (h : Inline base.write) :
    Pays (elementUpdateNow base index update) := by
  refine pays_of_silent (silent_sourceType _) fun type => ?_
  split <;> exact pays_bind (pays_bind h.pays)

/-- The action ends a line. -/
def Breaks {α : Type} (x : Emit α) : Prop := ∀ place desk, (x place desk).2.owed = true

theorem breaks_println (text : String) : Breaks (println text) := by
  intro place desk
  unfold println
  split <;> rfl

/-- A statement that rests ends as statements end at its place. -/
theorem owed_statement {x : Emit Unit} (hx : Rests x) (place : Place) (desk : Desk) :
    ((do x; endStatement : Emit Unit) place desk).2.owed = !place.bare := by
  show ((if place.bare = true then pure () else println ";" : Emit Unit) place
    (x place desk).2).2.owed = _
  cases place.bare with
  | true => exact hx place desk
  | false => exact breaks_println ";" place _

theorem owed_updateOf {index : Term} (hput : Rests (mapPut base index update))
    (hset : Rests (arraySet base index update)) (type : Option Expr) (place : Place) (desk : Desk) :
    ((match type with
      | some (.mapType _ _) => do mapPut base index update; endStatement
      | _ => do arraySet base index update; endStatement : Emit Unit) place desk).2.owed =
        !place.bare := by
  split
  · exact owed_statement hput place desk
  · exact owed_statement hset place desk

theorem owed_elementUpdateNow (base index : Term) (place : Place) (desk : Desk)
    (h : match update with
      | .set value | .compound _ value => Rests value.write
      | .step _ => True) :
    (elementUpdateNow base index update place desk).2.owed = !place.bare := by
  have hput : Rests (mapPut base index update) := by cases update <;> exact fun _ _ => rfl
  have hset : Rests (arraySet base index update) := by
    cases update with
    | set value | compound op value => exact fun place _ => h place _
    | step up => exact fun _ _ => rfl
  exact owed_updateOf hput hset _ place _

/-- Whole lines leave the indentation of the next one owed. -/
def Lined {α : Type} (x : Emit α) : Prop :=
  ∀ place desk, desk.owed = true → (x place desk).2.owed = true

theorem lined_pure : Lined (pure () : Emit Unit) := fun _ _ h => h

theorem lined_of_breaks {x : Emit Unit} (h : Breaks x) : Lined x := fun place desk _ => h place desk

theorem lined_bind {f : α → Emit Unit} (hx : Lined x) (hf : ∀ v, Lined (f v)) : Lined (x >>= f) :=
  fun place desk h => hf _ place _ (hx place desk h)

/-- A part of a map's entry that has a name gets a line. -/
theorem lined_entryPart (name : Option String) (type : Expr) (part : String) :
    Lined (match name with
      | some name => do
        writeType .atOnce type
        println (" " ++ name ++ " = entry." ++ part ++ "();")
      | none => pure ()) := by
  cases name with
  | none => exact lined_pure
  | some name => exact lined_of_breaks fun _ _ => rfl

theorem lined_rangeBindingsNow (loop : RangeLoop) (iterable : Emit Unit) :
    Lined (rangeBindingsNow loop iterable) := by
  refine lined_bind (fun _ _ h => h) fun type => ?_
  split
  · exact lined_bind (lined_entryPart _ _ _) fun _ => lined_entryPart _ _ _
  iterate 3
    split
    · exact lined_of_breaks fun _ _ => rfl
    · exact lined_pure
  · exact lined_pure

end Forms

namespace Conversion

variable (release : Release) {task : Task}

theorem inline_run (hc : ∀ value declared, task ≠ .conformance value declared)
    (hp : task.placement = .inline) : Inline (run release task) := by
  have hexpr := inline_expr release none
  cases task with
  | typeName type style => exact inline_writeTypeNow style type
  | declared name value style => exact inline_declaredNow style name value
  | rangeHeader loop => exact inline_rangeHeaderNow loop _
  | element base index => exact inline_elementNow _ (hexpr base)
  | slice base low high => exact inline_sliceNow _ _ (hexpr base)
  | length value => exact inline_lengthNow (hexpr value)
  | conformance value declared => exact absurd rfl (hc value declared)
  | _ => cases hp

theorem pays_run (hc : ∀ value declared, task ≠ .conformance value declared)
    (hp : task.placement ≠ .block) : Pays (run release task) := by
  cases task with
  | rangeBindings loop => exact absurd rfl hp
  | elementUpdate base => exact pays_elementUpdateNow _ _ (inline_expr release none base)
  | _ => exact (inline_run release hc rfl).pays

theorem owed_run (hc : ∀ value declared, task ≠ .conformance value declared) (place : Place)
    (desk : Desk) (hp : task.placement = .block → desk.owed = true) :
    (run release task place desk).2.owed = (leave task place desk).2.owed := by
  cases task with
  | rangeBindings loop =>
    have howed := hp rfl
    exact (lined_rangeBindingsNow loop _ place desk howed).trans howed.symm
  | elementUpdate base index update =>
    have hhole : (leave (.elementUpdate base index update) place desk).2.owed = !place.bare := by
      show ((if place.bare = true then pure () else owe : Emit Unit) place _).2.owed = _
      cases place.bare <;> rfl
    rw [hhole]
    refine owed_elementUpdateNow _ _ place desk ?_
    cases update with
    | set e | compound op e => exact (inline_expr release none e).rests
    | step up => trivial
  | _ => exact (inline_run release hc rfl).rests place desk

end Conversion

end GoToJava
