import GoToJava.Proofs.Forms.Isolation
import GoToJava.Proofs.Loops.Declarations

/-!
Texts of loops. The head of a loop and the first lines of its body are those that fit the type which
is found for its value. Both look for the type on their own.
-/

namespace GoToJava

open Go (Expr)
open Emit RangeKind

/-! ## Texts that are written -/

/-- A text that the action writes at the place while the program knows what it knows now. -/
def Wording (place : Place) (p : Program) (x : Emit Unit) (text : String) : Prop :=
  ∃ desk : Desk, p.SameLore everywhere desk.program ∧ AddsAt place desk x text

/-- As long as the program knows the same, the action writes a text of this sort. -/
def Renders (place : Place) (p : Program) (x : Emit Unit) (sort : String → Prop) : Prop :=
  ∀ desk : Desk, p.SameLore everywhere desk.program → desk.program.Open place.draft →
    ∃ text, sort text ∧ AddsAt place desk x text

section

variable {place : Place} {p : Program} {x y : Emit Unit} {sort sort' : String → Prop}

theorem renders_print (text : String) : Renders place p (print text) (· = text) :=
  fun _ _ hopen => ⟨text, rfl, addsAt_print text hopen⟩

theorem renders_worded (h : Worded x) : Renders place p x (Wording place p x) := by
  intro desk hsame hopen
  obtain ⟨text, htext⟩ := h.text hopen
  exact ⟨text, ⟨desk, hsame, htext⟩, htext⟩

/-- What comes first may be written, but nothing may be learned by it. -/
theorem renders_seq (hx : Renders place p x sort) (hd : Discreet everywhere x)
    (hy : Renders place p y sort') : Renders place p (x >>= fun _ => y) fun text =>
      ∃ s t, sort s ∧ sort' t ∧ text = s ++ t := by
  intro desk hsame hopen
  obtain ⟨s, hs, hadds⟩ := hx desk hsame hopen
  obtain ⟨t, ht, hadds'⟩ := hy _ (hsame.trans (hd place desk)) hadds.opened
  exact ⟨s ++ t, ⟨s, t, hs, ht, rfl⟩, addsAt_seq hadds hadds'⟩

theorem renders_before (before : String) (h : Renders place p x sort) :
    Renders place p (print before >>= fun _ => x) fun text => ∃ s, sort s ∧ text = before ++ s := by
  intro desk hsame hopen
  obtain ⟨text, ⟨s, t, hs, ht, rfl⟩, hadds⟩ :=
    renders_seq (renders_print before) (discreet_print before) h desk hsame hopen
  exact ⟨_, ⟨t, ht, by rw [hs]⟩, hadds⟩

theorem renders_after (after : String) (h : Renders place p x sort) :
    Renders place p (x >>= fun _ => print after) fun text => ∃ s, sort s ∧ text = s ++ after := by
  intro desk hsame hopen
  obtain ⟨s, hs, hadds⟩ := h desk hsame hopen
  exact ⟨_, ⟨s, hs, rfl⟩, addsAt_seq hadds (addsAt_print after hadds.opened)⟩

theorem renders_look (h : Renders place p x sort) (hy : Looks y) :
    Renders place p (x >>= fun _ => y) sort := by
  intro desk hsame hopen
  obtain ⟨s, hs, hopened, howed, hwritten⟩ := h desk hsame hopen
  obtain ⟨howed', hopened', hsame'⟩ := hy place _ hopened
  exact ⟨s, hs, hopened', howed'.trans howed, hsame'.trans hwritten⟩

theorem look_renders {look : Emit Unit} (hl : Looks look) (hd : Discreet everywhere look)
    (h : Renders place p x sort) : Renders place p (look >>= fun _ => x) sort := by
  intro desk hsame hopen
  obtain ⟨s, hs, hadds⟩ := h _ (hsame.trans (hd place desk)) (hl place desk hopen).2.1
  exact ⟨s, hs, addsAt_look hl hopen hadds⟩

theorem renders_mono (h : Renders place p x sort) (hsort : ∀ text, sort text → sort' text) :
    Renders place p x sort' := by
  intro desk hsame hopen
  obtain ⟨text, htext, hadds⟩ := h desk hsame hopen
  exact ⟨text, hsort text htext, hadds⟩

end

theorem looks_setVar (name : String) (type : Expr) : Looks (setVar name type) :=
  fun _ _ hopen => ⟨rfl, ⟨hopen.known, hopen.unjoined⟩, rfl⟩

theorem looks_bind (name : Option String) (type : Expr) : Looks (Forms.bind name type) := by
  cases name with
  | none => exact fun _ _ hopen => ⟨rfl, hopen, rfl⟩
  | some name => exact looks_setVar name type

theorem looks_need (i : Java.Import) : Looks (need i) :=
  fun _ _ hopen => ⟨rfl, ⟨hopen.known, hopen.unjoined⟩, rfl⟩

theorem looks_seq {x y : Emit Unit} (hx : Looks x) (hy : Looks y) : Looks (x >>= fun _ => y) := by
  intro place desk hopen
  obtain ⟨howed, hopened, hsame⟩ := hx place desk hopen
  obtain ⟨howed', hopened', hsame'⟩ := hy place _ hopened
  exact ⟨howed'.trans howed, hopened', hsame'.trans hsame⟩

/-! ## Heads of loops -/

/-- A map as the variable of a loop over its entries. -/
def Style.entryAtOnce : Style := { entry := true, direct := true }

/-- The text of the type in the head of a loop. -/
def RangeKind.HeadType (kind : RangeKind) (place : Place) (p : Program) (type : String) : Prop :=
  match kind with
  | .map key value => ∃ keyText valueText,
      Wording place p (writeType Style.entryAtOnce.argument key) keyText ∧
      Wording place p (writeType Style.entryAtOnce.argument value) valueText ∧
      type = "Map.Entry<" ++ keyText ++ ", " ++ valueText ++ ">"
  | .array e => Wording place p (writeType .atOnce e) type
  | _ => True

/-- Texts of heads of a loop. -/
def RangeLoop.HeadText (loop : RangeLoop) (kind : RangeKind) (place : Place) (p : Program)
    (iterable : Emit Unit) (text : String) : Prop :=
  ∃ type value, kind.HeadType place p type ∧ Wording place p iterable value ∧
    text = (loop.head kind type).text value

namespace Forms

/-- The head of a loop that counts if there is a key. -/
def countedHeader (key value : Option String) (limit type values : Emit Unit) (element : Expr) :
    Emit Unit :=
  match key with
  | some key => do
    counter key limit
    setVar key (.ident "int")
    bind value element
  | none => do
    forEach type (value.getD "ignored") values
    bind value element

/-- The head of a loop over a value of this kind. -/
def headerAs (loop : RangeLoop) (iterable : Emit Unit) : RangeKind → Emit Unit
  | .map key value => do
    print "for ("
    writeType .entryAtOnce (.mapType key value)
    print " : "
    (do iterable; print ".entrySet())")
    bind loop.key key
    bind loop.value value
  | .array e =>
    countedHeader loop.key loop.value (do iterable; print ".length")
      (writeType .atOnce e) iterable e
  | .string =>
    countedHeader loop.key loop.value (do iterable; print ".length()") (print "char")
      (do iterable; print ".toCharArray()") (.ident "rune")
  | .integer => do
    counter (loop.key.getD "i") iterable
    bind loop.key (.ident "int")
  | .unknown => forEach (print "Object") ((loop.value <|> loop.key).getD "ignored") iterable

theorem rangeHeaderNow_eq (loop : RangeLoop) (iterable : Emit Unit) : rangeHeaderNow loop iterable =
      sourceType loop.iterable >>= fun type => headerAs loop iterable (.of type) := by
  refine congrArg (sourceType loop.iterable >>= ·) (funext fun type => ?_)
  split
  · rfl
  · rfl
  · rfl
  · rfl
  · rename_i hname
    rw [of_ident hname]
    split <;> rfl
  · rename_i hmap harray hellipsis _ hident
    rw [of_other hmap harray hellipsis hident]
    rfl

section

variable {place : Place} {p : Program} {iterable values type : Emit Unit}
  {sort sort' : String → Prop}

theorem renders_counter (name : String) (h : Renders place p values sort) :
    Renders place p (counter name values) fun text => ∃ s, sort s ∧
      text = "for (int " ++ name ++ " = 0; " ++ name ++ " < " ++ s ++ "; " ++ name ++ "++)" := by
  refine renders_mono (renders_before _ (renders_after _ h)) ?_
  rintro text ⟨_, ⟨s, hs, rfl⟩, rfl⟩
  exact ⟨s, hs, by simp only [String.append_assoc]⟩

theorem renders_forEach (name : String) (ht : Renders place p type sort)
    (hd : Discreet everywhere type) (h : Renders place p values sort') :
    Renders place p (forEach type name values) fun text => ∃ t s, sort t ∧ sort' s ∧
      text = "for (" ++ t ++ " " ++ name ++ " : " ++ s ++ ")" := by
  refine renders_mono (renders_before _ (renders_seq ht hd (renders_before _ (renders_before _
    (renders_before _ (renders_after _ h)))))) ?_
  rintro text ⟨_, ⟨t, _, ht, ⟨_, ⟨_, ⟨_, ⟨s, hs, rfl⟩, rfl⟩, rfl⟩, rfl⟩, rfl⟩, rfl⟩
  exact ⟨t, s, ht, hs, by simp only [String.append_assoc]⟩

/-- The type of an entry, with the name of the variable. -/
theorem renders_entryType (key value : Expr) :
    Renders place p (writeType .entryAtOnce (.mapType key value)) fun text => ∃ type,
      (map key value).HeadType place p type ∧ text = type ++ " entry" := by
  have htype : ∀ type, Renders place p (writeType Style.entryAtOnce.argument type) _ :=
    fun type => renders_worded (worded_writeType _ type)
  have hall := look_renders (looks_need .map) (discreet_need .map) (renders_before "Map.Entry<"
    (renders_seq (htype key) (discreet_writeType _ _) (renders_before ", "
      (renders_seq (htype value) (discreet_writeType _ _)
        (renders_before ">" (renders_print " entry"))))))
  refine renders_mono hall ?_
  rintro text ⟨_, ⟨k, _, hk, ⟨_, ⟨v, _, hv, ⟨_, rfl, rfl⟩, rfl⟩, rfl⟩, rfl⟩, rfl⟩
  exact ⟨_, ⟨k, v, hk, hv, rfl⟩, by simp only [String.append_assoc]⟩

/-- A head that counts, or goes through the parts of a value. -/
theorem renders_countedHeader {key value : Option String} (element : Expr) (limit : Java.Limit)
    (parts : Java.Parts) (hv : Renders place p iterable (Wording place p iterable))
    (ht : Renders place p type sort) (hd : Discreet everywhere type)
    (hvalues : Renders place p values fun text =>
      ∃ value, Wording place p iterable value ∧ text = value ++ parts.suffix) :
    Renders place p (countedHeader key value (do iterable; print limit.suffix) type values element)
      fun text => ∃ t s, (key = none → sort t) ∧ Wording place p iterable s ∧
        text = Java.LoopHead.text s (match key with
          | some key => .counting key limit
          | none => .each t (value.getD "ignored") parts) := by
  cases key with
  | some key =>
    have hcounter := renders_look (renders_counter key (renders_after limit.suffix hv))
      (looks_seq (looks_setVar key (.ident "int")) (looks_bind value element))
    refine renders_mono hcounter ?_
    rintro text ⟨_, ⟨s, hs, rfl⟩, rfl⟩
    refine ⟨"", s, nofun, hs, ?_⟩
    simp only [Java.LoopHead.text_counting, String.append_assoc]
  | none =>
    have heach := renders_look (renders_forEach (value.getD "ignored") ht hd hvalues)
      (looks_bind value element)
    refine renders_mono heach ?_
    rintro text ⟨t, _, ht, ⟨s, hs, rfl⟩, rfl⟩
    refine ⟨t, s, fun _ => ht, hs, ?_⟩
    simp only [Java.LoopHead.text_each, String.append_assoc]

/-- The head of a loop is written as it should be for the kind of the value. -/
theorem renders_headerAs (loop : RangeLoop) (hworded : Worded iterable) (kind : RangeKind) :
    Renders place p (headerAs loop iterable kind) (loop.HeadText kind place p iterable) := by
  have hv : Renders place p iterable (Wording place p iterable) := renders_worded hworded
  have hwhole : Renders place p iterable fun text =>
      ∃ value, Wording place p iterable value ∧ text = value ++ Java.Parts.elements.suffix :=
    renders_mono hv fun text h => ⟨text, h, (String.append_empty).symm⟩
  cases kind with
  | map key value =>
    refine renders_mono (renders_before "for (" (renders_seq (renders_entryType key value)
      (discreet_writeType _ _) (renders_before " : " (renders_look (renders_after _ hv)
        (looks_seq (looks_bind loop.key key) (looks_bind loop.value value)))))) ?_
    rintro text ⟨_, ⟨_, _, ⟨type, htype, rfl⟩, ⟨_, ⟨s, hs, rfl⟩, rfl⟩, rfl⟩, rfl⟩
    refine ⟨type, s, htype, hs, ?_⟩
    simp only [RangeLoop.head, Java.LoopHead.text_each, Java.Parts.suffix, String.append_assoc]
    rfl
  | array e =>
    have htype : Renders place p (writeType .atOnce e) (Wording place p (writeType .atOnce e)) :=
      renders_worded (worded_writeType _ e)
    intro desk hsame hopen
    obtain ⟨text, ⟨t, s, ht, hs, htext⟩, hadds⟩ :=
      renders_countedHeader e .length .elements hv htype
      (discreet_writeType _ _) hwhole desk hsame hopen
    refine ⟨text, ?_, hadds⟩
    -- A loop that counts has no type in its head, but its elements have one.
    cases hkey : loop.key with
    | none =>
      rw [hkey] at ht htext
      refine ⟨t, s, ht rfl, hs, htext.trans ?_⟩
      rw [RangeLoop.head, hkey]
    | some key =>
      obtain ⟨t', ht', -⟩ := htype desk hsame hopen
      refine ⟨t', s, ht', hs, htext.trans ?_⟩
      rw [RangeLoop.head, hkey]
  | string =>
    refine renders_mono (renders_countedHeader (.ident "rune") .stringLength .letters hv
      (renders_print "char") (discreet_print _) (renders_after _ hv)) ?_
    rintro text ⟨t, s, ht, hs, rfl⟩
    refine ⟨"", s, trivial, hs, ?_⟩
    cases hkey : loop.key with
    | none => rw [RangeLoop.head, hkey, ht hkey]
    | some key => rw [RangeLoop.head, hkey]
  | integer =>
    refine renders_mono (renders_look (renders_counter (loop.key.getD "i") hv)
      (looks_bind loop.key (.ident "int"))) ?_
    rintro text ⟨s, hs, rfl⟩
    refine ⟨"", s, trivial, hs, ?_⟩
    simp only [RangeLoop.head, Java.LoopHead.text_counting, Java.Limit.suffix, String.append_empty]
  | unknown =>
    refine renders_mono (renders_forEach _ (renders_print "Object") (discreet_print _) hwhole) ?_
    rintro text ⟨t, _, rfl, ⟨s, hs, rfl⟩, rfl⟩
    refine ⟨"", s, trivial, hs, ?_⟩
    simp only [RangeLoop.head, Java.LoopHead.text_each, String.append_assoc]

/-- What the head of a loop is depends on the type that is found for its value. -/
theorem addsAt_rangeHeaderNow {desk : Desk} (loop : RangeLoop) (hworded : Worded iterable)
    (hopen : desk.program.Open place.draft) :
    ∃ text, loop.HeadText (.of (sourceType loop.iterable place desk).1) place desk.program iterable
        text ∧ AddsAt place desk (rangeHeaderNow loop iterable) text := by
  have hlook := looks_sourceType loop.iterable
  obtain ⟨text, htext, hadds⟩ := renders_headerAs loop hworded _ _
    (discreet_sourceType loop.iterable place desk) (hlook place desk hopen).2.1
  rw [rangeHeaderNow_eq]
  exact ⟨text, htext, addsAt_look hlook hopen hadds⟩

end

end Forms

/-! ## Lines -/

/-- At this place and desk the action writes the lines. -/
structure LinesAt (place : Place) (desk : Desk) (x : Emit Unit) (lines : List String) : Prop where
  opened : (x.result place desk).2.program.Open place.draft
  owed : (x.result place desk).2.owed = (desk.owed || !lines.isEmpty)
  written : (x.result place desk).2.program.drafts.text place.draft =
    desk.program.drafts.text place.draft ++ linesText place desk.owed lines

theorem linesText_append (place : Place) (owed : Bool) (a b : List String) :
    linesText place owed (a ++ b) =
      linesText place owed a ++ linesText place (owed || !a.isEmpty) b := by
  induction a generalizing owed with
  | nil =>
    show linesText place owed b = "" ++ linesText place (owed || false) b
    rw [Bool.or_false, String.empty_append]
  | cons line a ih =>
    show _ ++ linesText place true (a ++ b) = (_ ++ linesText place true a) ++ _
    rw [ih, Bool.true_or]
    simp only [List.isEmpty_cons, Bool.not_false, Bool.or_true, String.append_assoc]

/-- As long as the program knows the same, the action writes lines of this sort. -/
def RendersLines (place : Place) (p : Program) (x : Emit Unit) (sort : List String → Prop) : Prop :=
  ∀ desk : Desk, p.SameLore everywhere desk.program → desk.program.Open place.draft →
    ∃ lines, sort lines ∧ LinesAt place desk x lines

section

variable {place : Place} {p : Program} {x y : Emit Unit} {t : String}

theorem rendersLines_nothing : RendersLines place p (pure ()) (· = []) := by
  intro desk _ hopen
  refine ⟨[], rfl, hopen, (Bool.or_false _).symm, ?_⟩
  exact (String.append_empty).symm

theorem rendersLines_seq {sort sort' : List String → Prop} (hx : RendersLines place p x sort)
    (hd : Discreet everywhere x) (hy : RendersLines place p y sort') :
    RendersLines place p (x >>= fun _ => y) fun lines =>
      ∃ a b, sort a ∧ sort' b ∧ lines = a ++ b := by
  intro desk hsame hopen
  obtain ⟨a, ha, hopened, howed, hwritten⟩ := hx desk hsame hopen
  obtain ⟨b, hb, hopened', howed', hwritten'⟩ :=
    hy (x.result place desk).2 (hsame.trans (hd place desk)) hopened
  refine ⟨a ++ b, ⟨a, b, ha, hb, rfl⟩, hopened', ?_, ?_⟩
  · refine howed'.trans ?_
    rw [howed]
    cases a <;> simp
  · refine hwritten'.trans ?_
    rw [hwritten, howed, linesText_append, String.append_assoc]

theorem println_of_text (h : t.isEmpty = false) (place : Place) (desk : Desk) :
    println t place desk = ((), ⟨(print t place desk).2.program.write place.draft "\n", true⟩) := by
  unfold println
  rw [h]
  rfl

theorem rendersLines_println {sort : String → Prop} (ht : t.isEmpty = false)
    (h : Renders place p x sort) : RendersLines place p (x >>= fun _ => println t) fun lines =>
      ∃ s, sort s ∧ lines = [s ++ t] := by
  intro desk hsame hopen
  obtain ⟨s, hs, hadds⟩ := h desk hsame hopen
  obtain ⟨hopened, howed, hwritten⟩ := addsAt_seq hadds (addsAt_print t hadds.opened)
  generalize hdone : ((x >>= fun _ => print t).result place desk).2 = done at hopened howed hwritten
  have hresult : (x >>= fun _ => println t).result place desk =
      ((), ⟨done.program.write place.draft "\n", true⟩) := by
    rw [← hdone]
    exact println_of_text ht place (x place desk).2
  refine ⟨[s ++ t], ⟨s, hs, rfl⟩, ?_, ?_, ?_⟩
  · rw [hresult]
    exact (Program.goesOn_write hopened _ _).opened
  · rw [hresult]
    exact (Bool.or_true _).symm
  · rw [hresult]
    rw [Program.write_of_open _ hopened.unjoined]
    refine (Drafts.text_put_self _ _ hopened.known).trans ?_
    rw [hwritten]
    simp only [linesText, String.append_assoc, String.append_empty]

end

/-! ## Declarations in the body -/

/-- The texts of the types of a key and an element that are declared. -/
def RangeKind.BodyTypes (kind : RangeKind) (place : Place) (p : Program)
    (keyType valueType : String) : Prop :=
  match kind with
  | .map key value => Wording place p (writeType .atOnce key) keyType ∧
      Wording place p (writeType .atOnce value) valueType
  | .array e => Wording place p (writeType .atOnce e) valueType
  | _ => True

/-- The lines that a loop's body starts with. -/
def RangeLoop.BodyLines (loop : RangeLoop) (kind : RangeKind) (place : Place) (p : Program)
    (iterable : Emit Unit) (lines : List String) : Prop :=
  ∃ keyType valueType value, kind.BodyTypes place p keyType valueType ∧
    Wording place p iterable value ∧
    lines = (loop.declarations kind keyType valueType).map (·.text value)

namespace Forms

/-- A part of an entry. -/
def entryPart (name : Option String) (type : Expr) (part : String) : Emit Unit :=
  match name with
  | some name => do
    writeType .atOnce type
    println (" " ++ name ++ " = entry." ++ part ++ "();")
  | none => pure ()

/-- The element at an index, if there are names for both. What stands before it is written by
`declare`. -/
def elementPart (key value : Option String) (declare : String → Emit Unit) (iterable : Emit Unit)
    (opening closing : String) : Emit Unit :=
  match key, value with
  | some key, some value => do
    (do declare value; iterable)
    println (opening ++ key ++ closing)
  | _, _ => pure ()

/-- The first lines of a loop over a value of this kind. -/
def bindingsAs (loop : RangeLoop) (iterable : Emit Unit) : RangeKind → Emit Unit
  | .map key value => do
    entryPart loop.key key "getKey"
    entryPart loop.value value "getValue"
  | .array e =>
    elementPart loop.key loop.value
      (fun value => do writeType .atOnce e; print (" " ++ value ++ " = ")) iterable "[" "];"
  | .string =>
    elementPart loop.key loop.value (fun value => print ("char " ++ value ++ " = ")) iterable
      ".charAt(" ");"
  | _ => pure ()

theorem rangeBindingsNow_eq (loop : RangeLoop) (iterable : Emit Unit) :
    rangeBindingsNow loop iterable =
      sourceType loop.iterable >>= fun type => bindingsAs loop iterable (.of type) := by
  obtain ⟨key, value, source⟩ := loop
  refine congrArg (sourceType source >>= ·) (funext fun type => ?_)
  split
  case h_1 => rfl
  case h_2 | h_3 | h_4 =>
    cases key with
    | none => rfl
    | some key =>
      cases value with
      | none => rfl
      | some value => simp only [bindingsAs, of, elementPart, bind_assoc]
  case h_5 hmap harray hellipsis hstring =>
    by_cases hident : ∃ name, type = some (.ident name)
    · obtain ⟨name, rfl⟩ := hident
      have hname : name ≠ "string" := by
        rintro rfl
        exact hstring rfl
      rw [of_ident hname]
      split <;> rfl
    · rw [of_other hmap harray hellipsis fun name h => hident ⟨name, h⟩]
      rfl

section

variable {place : Place} {p : Program} {iterable : Emit Unit}

theorem renders_writeType (style : Style) (type : Expr) :
    Renders place p (writeType style type) (Wording place p (writeType style type)) :=
  renders_worded (worded_writeType style type)

theorem rendersLines_entryPart (name : Option String) (type : Expr) (part : String) :
    RendersLines place p (entryPart name type part) fun lines => ∃ t,
      Wording place p (writeType .atOnce type) t ∧
      lines = name.toList.map fun name => t ++ " " ++ name ++ " = entry." ++ part ++ "();" := by
  intro desk hsame hopen
  cases name with
  | none =>
    obtain ⟨t, ht, -⟩ := renders_writeType .atOnce type desk hsame hopen
    obtain ⟨lines, rfl, hlines⟩ := rendersLines_nothing desk hsame hopen
    exact ⟨_, ⟨t, ht, rfl⟩, hlines⟩
  | some name =>
    have hline : (" " ++ name ++ " = entry." ++ part ++ "();").isEmpty = false := by simp
    obtain ⟨lines, ⟨t, ht, rfl⟩, hlines⟩ :=
      rendersLines_println hline (renders_writeType .atOnce type) desk hsame hopen
    refine ⟨_, ⟨t, ht, ?_⟩, hlines⟩
    simp [String.append_assoc]

theorem discreet_entryPart (name : Option String) (type : Expr) (part : String) :
    Discreet everywhere (entryPart name type part) := by
  cases name with
  | none => exact discreet_pure _
  | some name => exact discreet_bind (discreet_writeType _ _) fun _ => discreet_println _

theorem rendersLines_elementPart {key value opening closing : String} {sort : String → Prop}
    (declare : String → Emit Unit) (hclosing : (opening ++ key ++ closing).isEmpty = false)
    (hv : Renders place p iterable (Wording place p iterable))
    (hdeclare : Renders place p (declare value) sort) (hd : Discreet everywhere (declare value)) :
    RendersLines place p (elementPart (some key) (some value) declare iterable opening closing)
      fun lines => ∃ t s, sort t ∧ Wording place p iterable s ∧
        lines = [t ++ s ++ (opening ++ key ++ closing)] := by
  intro desk hsame hopen
  obtain ⟨lines, ⟨_, ⟨t, s, ht, hs, rfl⟩, rfl⟩, hlines⟩ :=
    rendersLines_println hclosing (renders_seq hdeclare hd hv) desk hsame hopen
  exact ⟨_, ⟨t, s, ht, hs, rfl⟩, hlines⟩

/-- The first lines of a loop's body are as they should be for the kind of the value. -/
theorem rendersLines_bindingsAs (loop : RangeLoop) (hworded : Worded iterable) (kind : RangeKind) :
    RendersLines place p (bindingsAs loop iterable kind)
      (loop.BodyLines kind place p iterable) := by
  have hv : Renders place p iterable (Wording place p iterable) := renders_worded hworded
  intro desk hsame hopen
  obtain ⟨text, htext, -⟩ := hv desk hsame hopen
  have hnothing : ∀ kind valueType, kind.BodyTypes place p "" valueType →
      loop.declarations kind "" valueType = [] →
      ∃ lines, loop.BodyLines kind place p iterable lines ∧ LinesAt place desk (pure ()) lines := by
    intro kind valueType htypes hnone
    obtain ⟨lines, rfl, hlines⟩ := rendersLines_nothing desk hsame hopen
    exact ⟨[], ⟨"", valueType, text, htypes, htext, by rw [hnone]; rfl⟩, hlines⟩
  obtain ⟨key, value, source⟩ := loop
  cases kind with
  | map k v =>
    obtain ⟨lines, ⟨_, _, ⟨kt, hkt, rfl⟩, ⟨vt, hvt, rfl⟩, rfl⟩, hlines⟩ :=
      rendersLines_seq (rendersLines_entryPart key k "getKey") (discreet_entryPart key k "getKey")
        (rendersLines_entryPart value v "getValue") desk hsame hopen
    refine ⟨_, ⟨kt, vt, text, ⟨hkt, hvt⟩, htext, ?_⟩, hlines⟩
    simp only [RangeLoop.declarations, List.map_append, List.map_map]
    refine congr (congrArg _ (List.map_congr_left fun name _ => ?_))
      (List.map_congr_left fun name _ => ?_)
    · simp [Java.Declaration.text, Java.Source.text, String.append_assoc]
    · simp [Java.Declaration.text, Java.Source.text, String.append_assoc]
  | array e =>
    obtain ⟨t, ht, -⟩ := renders_writeType .atOnce e desk hsame hopen
    cases key with
    | none => exact hnothing _ t ht rfl
    | some key =>
      cases value with
      | none => exact hnothing _ t ht rfl
      | some value =>
        have hend : ("[" ++ key ++ "];").isEmpty = false := by simp
        obtain ⟨lines, ⟨_, s, ⟨t, ht, rfl⟩, hs, rfl⟩, hlines⟩ := rendersLines_elementPart
          (fun value => do writeType .atOnce e; print (" " ++ value ++ " = ")) hend hv
          (renders_after (" " ++ value ++ " = ") (renders_writeType .atOnce e))
          (discreet_bind (discreet_writeType _ _) fun _ => discreet_print _) desk hsame hopen
        refine ⟨_, ⟨"", t, s, ht, hs, ?_⟩, hlines⟩
        simp [RangeLoop.declarations, Java.Declaration.text, Java.Source.text, String.append_assoc]
  | string =>
    cases key with
    | none => exact hnothing _ "" trivial rfl
    | some key =>
      cases value with
      | none => exact hnothing _ "" trivial rfl
      | some value =>
        have hend : (".charAt(" ++ key ++ ");").isEmpty = false := by simp
        obtain ⟨lines, ⟨_, s, rfl, hs, rfl⟩, hlines⟩ := rendersLines_elementPart
          (fun value => print ("char " ++ value ++ " = ")) hend hv
          (renders_print ("char " ++ value ++ " = ")) (discreet_print _) desk hsame hopen
        refine ⟨_, ⟨"", "", s, trivial, hs, ?_⟩, hlines⟩
        simp only [RangeLoop.declarations, Java.Declaration.text, Java.Source.text,
          String.append_assoc, List.map_cons, List.map_nil]
        rfl
  | integer | unknown => exact hnothing _ "" trivial rfl

theorem linesAt_rangeBindingsNow {desk : Desk} (loop : RangeLoop) (hworded : Worded iterable)
    (hopen : desk.program.Open place.draft) :
    ∃ lines, loop.BodyLines (.of (sourceType loop.iterable place desk).1) place
      desk.program iterable
        lines ∧ LinesAt place desk (rangeBindingsNow loop iterable) lines := by
  obtain ⟨howed, hopened, hsame⟩ := looks_sourceType loop.iterable place desk hopen
  obtain ⟨lines, hlines, hwritten⟩ := rendersLines_bindingsAs loop hworded _ _
    (discreet_sourceType loop.iterable place desk) hopened
  rw [rangeBindingsNow_eq]
  refine ⟨lines, hlines, hwritten.opened, hwritten.owed.trans ?_, hwritten.written.trans ?_⟩
  · rw [howed]
  · rw [hsame, howed]

end

end Forms

end GoToJava
