import GoToJava.Proofs.Formula.Operands
import GoToJava.Proofs.Structs.Constructors
import Mathlib.Data.List.Perm.Basic

/-!
Literals of structs. The values of a literal are the arguments of a constructor, in the order in
which they are written in Go. So a literal that gives its fields by key gives each of them to the
right parameter exactly if its values read the same in the order of the fields.
-/

namespace GoToJava

open Go (Expr Field title)
open Emit Conversion Formula Program

variable {p : Program} {place : Place}

/-! ## Values -/

namespace Conversion

/-- The values of elements are written without their keys. -/
theorem values_elements (release : Release) (es : List Expr) :
    Forms.values none (elements release es) = separated ", " (es.map (expr release none)) := by
  unfold Forms.values
  congr 1
  induction es with
  | nil => rfl
  | cons e es ih => cases e <;> exact congrArg (List.cons _) ih

end Conversion

/-- The name is the name of a class: of no basic type, and of none that stands for another. -/
structure Program.IsClass (p : Program) (name : String) : Prop where
  notBasic : Java.isPrimitive name = false
  notAlias : p.typeNames.get? (title name) = none

theorem Program.IsClass.mentions {q : Program} {name : String} (h : p.IsClass name)
    (hq : p.Mentions q) : q.IsClass name :=
  ⟨h.notBasic, (congrArg (·.typeNames.get? (title name)) hq.same).trans h.notAlias⟩

theorem program_bind {desk : Desk} (f : Program → Emit Unit) :
    (program >>= f).result place desk = (f desk.program).result place desk := rfl

namespace Forms

variable {name : String} {desk : Desk}

/-- A call of the constructor of a class. -/
def construction (name : String) (arguments : List (Emit Unit)) : Emit Unit := do
  print "new "
  writeType .constructed (.ident name)
  print "("
  separated ", " arguments
  print ")"

theorem literal_result (release : Release) (h : desk.program.IsClass name) (implied : Option Expr)
    (es : List Expr) :
    (expr release implied (.composite (some (.ident name)) es)).result place desk =
      (construction name (es.map (expr release none))).result place desk := by
  have hunalias : desk.program.unalias (.ident name) = .ident name := by
    unfold unalias maxDepth unalias.go
    rw [h.notAlias]
  have hstrip : (Expr.ident name).stripPointer = .ident name := rfl
  show (composite (some (.ident name)) implied (elements release es)).result place desk = _
  rw [construction, ← values_elements]
  unfold composite
  simp only [Option.orElse_eq_orElse, Option.orElse_some]
  rw [program_bind, hstrip, hunalias]

theorem keys_result (release : Release) (h : desk.program.IsClass name) (implied : Option Expr)
    (es : List (Expr × Expr)) : (expr release implied (.composite (some (.ident name))
        (es.map fun e => .keyValue e.1 e.2))).result place desk =
      (expr release implied (.composite (some (.ident name))
        (es.map (·.2)))).result place desk := by
  have hvalues : (es.map fun e => Expr.keyValue e.1 e.2).map (expr release none) =
      (es.map (·.2)).map (expr release none) := by
    rw [List.map_map, List.map_map]
    exact List.map_congr_left fun e _ => rfl
  rw [literal_result release h, literal_result release h, hvalues]

/-! ## Arguments -/

/-- Texts with a separator between two of them, and the text after them. -/
theorem says_separated {last : String} {xs : List (Emit Unit)} {texts : List String}
    {y : Emit Unit} (separator : String) (hxs : List.Forall₂ (Says p place) xs texts)
    (hy : Says p place y last) :
    Says p place (do
      separated separator xs
      y) (separator.intercalate texts ++ last) := by
  induction hxs with
  | nil =>
    exact hy
  | @cons x text xs texts hx hxs ih =>
    cases hxs with
    | nil =>
      exact says_seq hx hy
    | cons hnext hrest =>
      rw [String.intercalate_cons_cons, String.append_assoc, String.append_assoc]
      have hall := says_seq hx (says_seq (says_print separator) ih)
      exact hall

/-- How the name of a class is written: not at all if it is put off. -/
def classText (p : Program) (place : Place) (name : String) : String :=
  if p.phase != .discovery || place.scratch then title name else ""

theorem says_reserve (owed : Bool) (task : Option Task) {text : String} {x : Emit Unit}
    (h : Says p place x text) : Says p place (do
      x
      discard (reserve owed task)) text := by
  intro desk hp hopen
  obtain ⟨⟨hopened, howed, hwritten⟩, hmore⟩ := h desk hp hopen
  refine ⟨⟨⟨?_, ?_⟩, howed, ?_⟩, hmore.trans (mentions_drafts _ _ _)⟩
  · exact Nat.lt_of_lt_of_eq (Nat.lt_succ_of_lt hopened.known) (Drafts.next_reserve _ _ _).symm
  · exact (Drafts.isJoined_reserve _ _ _ _).trans hopened.unjoined
  · exact (Drafts.text_reserve _ _ _ hopened.known).trans hwritten

theorem writeType_class (style : Style) (h : Java.isPrimitive name = false) :
    ∃ follow, writeType style (.ident name) =
      defer (.typeName (.ident name) style) (TypeText.named follow name style) := by
  refine ⟨some fun target style => writeTypeAt (maxDepth - 1) style target, ?_⟩
  show (if Java.isPrimitive name then _ else defer _ _) = _
  rw [h]
  rfl

theorem named_result (follow : TypeText.Follow) (h : desk.program.IsClass name) :
    (TypeText.named follow name .constructed).result place desk = Emit.result (do
      refer (title name)
      print (title name)) place desk := by
  have hprimitive : Java.primitive? name false = none := by
    unfold Java.primitive?
    simpa [Java.isPrimitive, Table.contains] using h.notBasic
  have hboxed : Style.constructed.boxed = false := rfl
  unfold TypeText.named
  rw [hboxed, hprimitive]
  rw [program_bind, h.notAlias]

theorem says_refer (name : String) : Says p place (do
    refer name
    print name) name :=
  says_mention (fun _ => ⟨rfl, NameSet.subset_insert _ _, fun _ h => h⟩) (says_print name)

theorem says_className (hclass : p.IsClass name) :
    Says p place (writeType .constructed (.ident name)) (classText p place name) := by
  obtain ⟨follow, hwrite⟩ := writeType_class .constructed hclass.notBasic
  have hdirect : (Task.typeName (.ident name) .constructed).direct = false := rfl
  have hdefer := fun desk : Desk => defer_apply (.typeName (.ident name) .constructed)
    (TypeText.named follow name .constructed) place desk
  simp only [hdirect, Bool.or_false] at hdefer
  have hphase : ∀ {desk : Desk}, p.Mentions desk.program → desk.program.phase = p.phase :=
    fun h => congrArg (·.phase) h.same
  rw [hwrite]
  unfold classText
  split
  · rename_i heager
    refine says_congr (fun desk hp => ?_) (says_refer (title name))
    refine (hdefer desk).trans ?_
    rw [hphase hp, if_pos heager]
    exact named_result follow (hclass.mentions hp)
  · -- the hole leaves no text
    rename_i hlater
    refine says_congr (fun desk hp => ?_)
      (says_reserve false (some (.typeName (.ident name) .constructed)) (says_print ""))
    refine (hdefer desk).trans ?_
    rw [hphase hp, if_neg hlater]
    rfl

/-- The text of a call of a constructor. -/
def constructionText (p : Program) (place : Place) (name : String) (arguments : List String) :
    String :=
  "new " ++ (classText p place name ++ ("(" ++ (", ".intercalate arguments ++ ")")))

theorem says_construction {arguments : List (Emit Unit)} {texts : List String}
    (hclass : p.IsClass name) (hargs : List.Forall₂ (Says p place) arguments texts) :
    Says p place (construction name arguments) (constructionText p place name texts) :=
  says_seq (says_print "new ") (says_seq (says_className hclass)
    (says_seq (says_print "(") (says_separated ", " hargs (says_print ")"))))

/-- The literal of a struct that gives fields by key, in the order in which they are written. -/
def keyed (name : String) (value : String → Expr) (written : List String) : Expr :=
  .composite (some (.ident name)) (written.map fun field => .keyValue (.ident field) (value field))

section

variable (release : Release) (implied : Option Expr) {value : String → Operand}
  (written : List String) (hclass : p.IsClass name)
  (harrays : ∀ field, ∀ a ∈ (value field).arrays, p.IsArray place a)
include hclass harrays

theorem says_keyed : Says p place
    (expr release implied (keyed name (fun field => (value field).expr) written))
    (constructionText p place name
      (written.map fun field => (value field).text (identText p place))) := by
  refine says_congr (fun desk hp => literal_result release (hclass.mentions hp) implied _)
    (says_construction hclass ?_)
  rw [List.map_map, List.forall₂_map_left_iff, List.forall₂_map_right_iff, List.forall₂_same]
  exact fun field _ => Operand.says_expr release (value field) none (harrays field)

theorem says_address : Says p place
    (expr release implied (.unary .addr (keyed name (fun field => (value field).expr) written)))
    (constructionText p place name
      (written.map fun field => (value field).text (identText p place))) := by
  have hall := says_seq (says_print "") (says_keyed release implied written hclass harrays)
  rw [String.empty_append] at hall
  exact hall

end

/-! ## The order of arguments -/

end Forms

theorem Operand.not_comma {names : String → String} {o : Operand} (h : o.Words names) :
    ',' ∉ (o.text names).toList := by
  have hword : ∀ {text : String}, IsWord text → ',' ∉ text.toList := by
    intro text htext hmem
    exact absurd (htext.2 _ hmem) (by decide)
  induction o with
  | name text | number text => exact hword h
  | element array index ih => simp [text, hword h.1, ih h.2]
  | paren inner ih => simp [text, ih h]
  | unary sign operand ih =>
    have hsign : ',' ∉ (Forms.unaryToken sign.go).toList := by
      cases sign <;> decide
    simp [text, ih h, hsign]
  | binary left op right ihl ihr =>
    have hop : ',' ∉ (Forms.binaryToken op).toList := by
      cases op <;> decide
    simp [text, ihl h.1, ihr h.2, hop]

theorem parts_at_comma {x y r s : List Char} (hx : ',' ∉ x) (hy : ',' ∉ y)
    (h : x ++ ',' :: r = y ++ ',' :: s) : x = y ∧ r = s := by
  -- If one part were longer, it would have the comma that ends the other.
  rcases List.append_eq_append_iff.1 h with ⟨more, rfl, hmore⟩ | ⟨more, rfl, hmore⟩
  · cases more with
    | nil => simpa using hmore
    | cons c more => simp_all
  · cases more with
    | nil => simpa [eq_comm] using hmore
    | cons c more => simp_all

/-- Texts without commas can be told apart between commas. -/
theorem eq_of_intercalate_eq {xs ys : List String} (hlength : xs.length = ys.length)
    (hxs : ∀ x ∈ xs, ',' ∉ x.toList) (hys : ∀ y ∈ ys, ',' ∉ y.toList)
    (h : ", ".intercalate xs = ", ".intercalate ys) : xs = ys := by
  induction xs generalizing ys with
  | nil => exact (List.length_eq_zero_iff.1 hlength.symm).symm
  | cons x xs ih =>
    obtain ⟨y, ys, rfl⟩ := List.exists_cons_of_length_eq_add_one hlength.symm
    simp only [List.length_cons, Nat.add_right_cancel_iff] at hlength
    simp only [List.mem_cons, forall_eq_or_imp] at hxs hys
    by_cases hempty : xs = []
    · subst hempty
      obtain rfl := List.length_eq_zero_iff.1 hlength.symm
      simpa using h
    · have hempty' : ys ≠ [] := by
        rintro rfl
        exact hempty (List.length_eq_zero_iff.1 hlength)
      rw [String.intercalate_cons_of_ne_nil hempty, String.intercalate_cons_of_ne_nil hempty',
        ← String.toList_inj] at h
      simp only [String.toList_append, List.append_assoc] at h
      obtain ⟨hhead, htail⟩ := parts_at_comma hxs.1 hys.1 h
      have hrest : ", ".intercalate xs = ", ".intercalate ys :=
        String.toList_inj.1 (by simpa using htail)
      rw [String.toList_inj.1 hhead, ih hlength hxs.2 hys.2 hrest]

/-- All orders of some values read the same exactly if all values do. -/
theorem forall_perm_map_eq_iff {α β : Type} [DecidableEq α] (f : α → β) (l : List α) :
    (∀ l' : List α, l'.Perm l → l'.map f = l.map f) ↔ ∀ a ∈ l, ∀ b ∈ l, f a = f b := by
  refine ⟨?_, ?_⟩
  · intro h a ha b hb
    -- each of the two values may come first
    have hboth := (h _ (List.perm_cons_erase ha).symm).trans
      (h _ (List.perm_cons_erase hb).symm).symm
    exact (List.cons.inj hboth).1
  · intro h l' hperm
    have hpairs : List.Forall₂ (fun a b => f a = f b) l' l := by
      rw [List.forall₂_iff_get]
      refine ⟨hperm.length_eq, ?_⟩
      intro i hi hi'
      exact h _ (hperm.subset (List.getElem_mem _)) _ (List.getElem_mem _)
    rwa [← List.forall₂_eq_eq_eq, List.forall₂_map_left_iff, List.forall₂_map_right_iff]

namespace Forms

/-- A literal of a struct is written with its values in the order in which they stand in Go,
whatever keys they have. The constructor takes the fields in the order of their declaration, so it
gets each value for its field exactly if both orders read the same; and all orders of the keys are
written in the same way only if all values are. -/
theorem keyed_literals_follow_the_writing (release : Release) (n : Nat) {name : String}
    {fields : List Field} (hfields : namedFields fields ≠ []) (value : String → Operand)
    (hvalue : ∀ field, (value field).Lexed) (p : Program) (cursor : Cursor)
    (harrays : ∀ field, ∀ a ∈ (value field).arrays, p.IsArray cursor.place a)
    (hclass : p.IsClass name) (hopen : p.Open cursor.place.draft) :
    let declared := (namedFields fields).map (·.1)
    let reading := fun field => (value field).text (identText p cursor.place)
    let text := fun written => constructionText p cursor.place name (written.map reading)
    (∀ es : List (Expr × Expr),
      p.emit cursor (expr release none (.composite (some (.ident name))
          (es.map fun e => .keyValue e.1 e.2))) =
        p.emit cursor (expr release none (.composite (some (.ident name))
          (es.map (·.2))))) ∧
    (∀ written, ∀ e ∈ [keyed name (fun field => (value field).expr) written,
        .unary .addr (keyed name (fun field => (value field).expr) written)],
      (p.emit cursor (expr release none e)).2.drafts.text cursor.place.draft =
        p.drafts.text cursor.place.draft ++
          (GoToJava.indentation cursor.place cursor.owed ++ text written)) ∧
    (∀ written, written.Perm declared →
      (text written = text declared ↔ written.map reading = declared.map reading)) ∧
    ((∀ written, written.Perm declared → text written = text declared) ↔
      ∀ a ∈ declared, ∀ b ∈ declared, reading a = reading b) ∧
    ∀ place, Includes (IsConstructor (title name) (namedFields fields)) place
      (struct (releaseAt n) (title name) fields) := by
  intro declared reading text
  have hwords : ∀ fields : List String, ∀ x ∈ fields.map reading, ',' ∉ x.toList := by
    intro fields x hx
    obtain ⟨field, -, rfl⟩ := List.mem_map.1 hx
    exact Operand.not_comma (Operand.words_of_lexed (hvalue field) p cursor.place)
  have htext : ∀ written, written.Perm declared →
      (text written = text declared ↔ written.map reading = declared.map reading) := by
    intro written hperm
    refine ⟨?_, fun h => congrArg (constructionText p cursor.place name) h⟩
    intro h
    refine eq_of_intercalate_eq (by simpa using hperm.length_eq) (hwords _) (hwords _) ?_
    simpa [text, constructionText, String.append_right_inj, String.append_left_inj] using h
  refine ⟨?_, ?_, htext, ?_, fun place => includes_struct n (title name) fields hfields place⟩
  · have hdesk : (Desk.mk p cursor.owed).program.IsClass name := hclass
    exact fun es => congrArg (fun r => (r.1, r.2.program)) (keys_result release hdesk none es)
  · intro written e he
    rcases List.mem_pair.1 he with rfl | rfl
    · exact (says_keyed release none written hclass harrays ⟨p, cursor.owed⟩ (.refl p)
        hopen).1.written
    · exact (says_address release none written hclass harrays ⟨p, cursor.owed⟩ (.refl p)
        hopen).1.written
  · rw [← forall_perm_map_eq_iff]
    exact forall₂_congr htext

/-- The fields of a point of the plane. -/
def pointFields : List Field := [.mk ["X"] (.ident "int"), .mk ["Y"] (.ident "int")]

/-- The point with the coordinates `xs[0]` and 1. -/
def pointValue (field : String) : Operand :=
  if field = "X" then .element "xs" (.number "0") else .number "1"

/-- A page on which everything is written at once, and an array. -/
def finalPage : Program :=
  { onePage with
    phase := .finalization
    scopes := (({} : Scopes).new none).setVar 0 "xs" (.arrayType none (.ident "int")) }

theorem point_is_turned_around :
    (namedFields pointFields ≠ [] ∧ (∀ field, (pointValue field).Lexed) ∧
      (∀ field, ∀ a ∈ (pointValue field).arrays, finalPage.IsArray indentedLine.place a) ∧
      finalPage.IsClass "P" ∧ finalPage.Open 0) ∧
    (finalPage.emit indentedLine (expr (fun _ _ => pure ()) none
      (keyed "P" (fun field => (pointValue field).expr) ["X", "Y"]))).2.drafts.text 0 =
        "\t\tnew P(xs[0], 1)" ∧ (finalPage.emit indentedLine (expr (fun _ _ => pure ()) none
      (keyed "P" (fun field => (pointValue field).expr) ["Y", "X"]))).2.drafts.text 0 =
        "\t\tnew P(1, xs[0])" := by
  have hvalue : ∀ field, (pointValue field).Lexed := by
    intro field
    unfold pointValue
    split <;> decide +kernel
  have harray : finalPage.IsArray indentedLine.place "xs" :=
    ⟨by decide, none, .ident "int", by with_unfolding_all rfl⟩
  have harrays : ∀ field, ∀ a ∈ (pointValue field).arrays,
      finalPage.IsArray indentedLine.place a := by
    intro field a ha
    unfold pointValue at ha
    split at ha
    · rw [List.mem_singleton.1 ha]
      exact harray
    · cases ha
  have hclass : finalPage.IsClass "P" := ⟨by decide +kernel, by decide +kernel⟩
  have hopen : finalPage.Open 0 := ⟨by decide, by decide⟩
  have hfields : namedFields pointFields ≠ [] := by decide
  obtain ⟨-, hwritten, -⟩ := keyed_literals_follow_the_writing (fun _ _ => pure ()) 0 hfields
    pointValue hvalue finalPage indentedLine harrays hclass hopen
  refine ⟨⟨hfields, hvalue, harrays, hclass, hopen⟩, ?_, ?_⟩
  · refine (hwritten ["X", "Y"] _ List.mem_cons_self).trans ?_
    decide +kernel
  · refine (hwritten ["Y", "X"] _ List.mem_cons_self).trans ?_
    decide +kernel

end Forms

end GoToJava
