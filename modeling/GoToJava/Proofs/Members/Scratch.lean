import GoToJava.Proofs.Depth.Bounds
import GoToJava.Proofs.Members.Forms

/-!
Types that are asked for. A type that is asked for is answered as the type whose text is written,
and asking on scratch paper leaves nothing behind but text on that paper and the classes that are
named.
-/

namespace GoToJava

open Go (Expr)
open Emit Conversion Inference

variable {place : Place} {desk : Desk}

/-! ## Answers -/

open Program (maxDepth)

/-- The type that is answered is the one that is written, with fewer names to follow. -/
theorem adds_answer (room : Nat) {style : Style} (hwhole : style.elementOnly = false) (e : Expr)
    (hopen : desk.program.Open place.draft) :
    ∃ text, AddsAt place desk (inferAt room style e >>= fun _ => pure ()) text ∧
      ((inferAt room style e place desk).1 = none → text = "Object") ∧
      ∀ type, (inferAt room style e place desk).1 = some type →
        ∃ less < room, AddsAt place desk (writeTypeAt less style type) text := by
  have hsame : desk.program.SameLore everywhere desk.program := .refl _ _
  refine ⟨_, adds_inferAt (a := place) room style ⟨rfl, rfl, rfl⟩ e hsame hopen, ?_⟩
  rw [inferAt_find (a := place) room ⟨rfl, rfl, rfl⟩ style hwhole e hsame]
  cases hfind : desk.program.find room place e with
  | none => exact ⟨fun _ => rfl, fun _ h => nomatch h⟩
  | some f =>
    refine ⟨fun h => (nomatch h), ?_⟩
    rintro type ⟨⟩
    exact ⟨f.room, Program.find_room hfind, TypeText.adds_piecesAt f.room style f.type hopen⟩

/-! ## Traces -/

theorem glances_writeTypeAt (room : Nat) (style : Style) (type : Expr) (place : Place)
    (desk : Desk) : desk.program.Glances place (writeTypeAt room style type place desk).2.program :=
  glances_of_quiet (quiet_writeTypeAt room style type {} []) place desk

theorem glances_inferAt (room : Nat) (style : Style) (e : Expr) (place : Place) (desk : Desk) :
    desk.program.Glances place (inferAt room style e place desk).2.program :=
  glances_of_quiet (quiet_question room style e) place desk

theorem declaredNow_eq (style : Style) (name : String) (value : Expr) :
    Forms.declaredNow style name value =
      infer style value >>= fun answer => answer.elim (pure ()) (setVar name) := by
  unfold Forms.declaredNow
  refine bind_congr fun answer => ?_
  cases answer <;> rfl

/-- A variable that is declared by its value is bound to the answer. -/
theorem declared_result (release : Release) (name : String) (value : Expr) (style : Style)
    (place : Place) (desk : Desk) :
    let asked := inferAt maxDepth style value place desk
    (Conversion.run release (.declared name value style)).result place desk =
      ((), { asked.2 with program := { asked.2.program with
        scopes := asked.1.elim asked.2.program.scopes
          (asked.2.program.scopes.setVar place.scope name) } }) := by
  intro asked
  show (Forms.declaredNow style name value).result place desk = _
  rw [declaredNow_eq]
  show Emit.result (asked.1.elim (pure ()) (setVar name)) place asked.2 = _
  cases asked.1 with
  | none => rfl
  | some type => rfl

/-- Where nothing is put off, inference adds the text of one type and nothing else: `Object` if it
answers none, and else what is written for the answer with fewer names to follow. So a variable that
is declared by its value is bound to the type that is shown. -/
theorem answers_are_the_types_shown (place : Place) (desk : Desk)
    (honce : desk.program.AtOnce place) (hopen : desk.program.Open place.draft) :
    (∀ room style e, style.elementOnly = false → ∃ text,
      AddsAt place desk (inferAt room style e >>= fun _ => pure ()) text ∧
      desk.program.Sketches (· = place.draft) (inferAt room style e place desk).2.program ∧
      ((inferAt room style e place desk).1 = none → text = "Object") ∧
      ∀ type, (inferAt room style e place desk).1 = some type →
        ∃ less < room, AddsAt place desk (writeTypeAt less style type) text ∧
          desk.program.Sketches (· = place.draft)
            (writeTypeAt less style type place desk).2.program) ∧
    ∀ release name value style, style.elementOnly = false → ∃ text,
      AddsAt place desk (Conversion.run release (.declared name value style)) text ∧
      (text = "Object" ∧ (Conversion.run release (.declared name value style)
          place desk).2.program.scopes = desk.program.scopes ∨
        ∃ type, ∃ less < maxDepth, AddsAt place desk (writeTypeAt less style type) text ∧
          (Conversion.run release (.declared name value style) place desk).2.program.scopes =
            desk.program.scopes.setVar place.scope name type) := by
  refine ⟨fun room style e hwhole => ?_, fun release name value style hwhole => ?_⟩
  · obtain ⟨text, hadds, hnone, hsome⟩ := adds_answer room hwhole e hopen
    refine ⟨text, hadds, (glances_inferAt room style e place desk).2 honce hopen.unjoined, hnone,
      fun type htype => ?_⟩
    obtain ⟨less, hless, htext⟩ := hsome type htype
    exact ⟨less, hless, htext,
      (glances_writeTypeAt less style type place desk).2 honce hopen.unjoined⟩
  · obtain ⟨text, hadds, hnone, hsome⟩ := adds_answer maxDepth hwhole value hopen
    obtain ⟨hopened, howed, hwritten⟩ := hadds
    have hscopes := congrArg (·.scopes) (glances_inferAt maxDepth style value place
      desk).mentions.same
    have hresult := declared_result release name value style place desk
    refine ⟨text, ⟨?_, ?_, ?_⟩, ?_⟩
    · rw [hresult]
      exact ⟨hopened.known, hopened.unjoined⟩
    · rw [hresult]
      exact howed
    · rw [hresult]
      exact hwritten
    · have hbound := congrArg (fun r => r.2.program.scopes) hresult
      cases hanswer : (inferAt maxDepth style value place desk).1 with
      | none =>
        rw [hanswer] at hbound
        exact .inl ⟨hnone hanswer, hbound.trans hscopes⟩
      | some type =>
        rw [hanswer] at hbound
        obtain ⟨less, hless, htext⟩ := hsome type hanswer
        refine .inr ⟨type, less, hless, htext, hbound.trans ?_⟩
        exact congrArg (·.setVar place.scope name type) hscopes

/-- A variable for a map, and a draft for scratch. -/
def wordList : Program :=
  { drafts := Drafts.new {}
    units := #[default]
    scopes := ⟨#[{ vars := .ofList [("words", .mapType (.ident "string") (.ident "int"))] }]⟩ }

def scratchPaper : Place := { draft := 0, scratch := true, unit := 0, scope := 0 }

/-- The type of an element is `int`, and this is what is shown. -/
theorem element_of_words_is_shown :
    wordList.AtOnce scratchPaper ∧ wordList.Open scratchPaper.draft ∧
    (inferAt maxDepth {} (.index (.ident "words") (.ident "k")) scratchPaper ⟨wordList, false⟩).1 =
      some (.ident "int") ∧ ∃ text, AddsAt scratchPaper ⟨wordList, false⟩
        (inferAt maxDepth {} (.index (.ident "words") (.ident "k")) >>= fun _ => pure ()) text ∧
      ∃ less < maxDepth, AddsAt scratchPaper ⟨wordList, false⟩
        (writeTypeAt less {} (.ident "int")) text := by
  have honce : wordList.AtOnce scratchPaper := .inl rfl
  have hopen : wordList.Open scratchPaper.draft := ⟨by decide, by decide⟩
  have hanswer : (inferAt maxDepth {} (.index (.ident "words") (.ident "k")) scratchPaper
      ⟨wordList, false⟩).1 = some (.ident "int") := by
    with_unfolding_all rfl
  obtain ⟨text, hadds, -, -, hsome⟩ := (answers_are_the_types_shown scratchPaper ⟨wordList, false⟩
    honce hopen).1 maxDepth {} (.index (.ident "words") (.ident "k")) rfl
  obtain ⟨less, hless, htext, -⟩ := hsome _ hanswer
  exact ⟨honce, hopen, hanswer, text, hadds, less, hless, htext⟩

/-- Asking leaves nothing behind. Types that are written or found on scratch paper add text to it
and leave no holes there or elsewhere, and a type that is only asked for does not even add text. All
tables of the program stay, and units only name and need more classes. The counter ends where it
began. -/
theorem asking_leaves_no_trace (level : Nat) (hlevel : level ≤ maxDepth) (style : Style) (e : Expr)
    (place : Place) (desk : Desk) :
    (place.scratch = true → desk.program.drafts.isJoined place.draft = false →
      (desk.program.Mentions (inferAt (maxDepth - level) style e place desk).2.program ∧
        desk.program.Sketches (· = place.draft)
          (inferAt (maxDepth - level) style e place desk).2.program) ∧
      desk.program.Mentions (writeTypeAt (maxDepth - level) style e place desk).2.program ∧
      desk.program.Sketches (· = place.draft)
        (writeTypeAt (maxDepth - level) style e place desk).2.program) ∧ (desk.program.Mentions
        (source (inferAt (maxDepth - level)) e place desk).2.program ∧
      desk.program.Sketches (fun _ => False)
        (source (inferAt (maxDepth - level)) e place desk).2.program ∧
      (source (inferAt (maxDepth - level)) e place desk).2.owed = desk.owed) ∧
    ∀ nesting > maxDepth - level,
      Counts level (inferAt (maxDepth - level) style e) (Counted.infer nesting style e) ∧
      Counts level (writeTypeAt (maxDepth - level) style e) (Counted.writeType nesting style e) ∧
      Counts level (source (inferAt (maxDepth - level)) e)
        (Counted.source (Counted.infer nesting) e) := by
  have hroom : level + (maxDepth - level) = maxDepth := Nat.add_sub_cancel' hlevel
  generalize maxDepth - level = room at hroom ⊢
  refine ⟨fun hscratch hopen => ?_, ?_, fun nesting hnesting => ?_⟩
  · obtain ⟨hmention, hsketch⟩ := glances_inferAt room style e place desk
    obtain ⟨hmention', hsketch'⟩ := glances_writeTypeAt room style e place desk
    exact ⟨⟨hmention, hsketch (.inl hscratch) hopen⟩, hmention', hsketch' (.inl hscratch) hopen⟩
  · exact sketches_inspect (quiet_question room .atOnce e) _ place desk
  · have hinfer := Counted.counts_inferAt room nesting level hroom hnesting
    exact ⟨hinfer style e, Counted.counts_writeTypeAt room nesting level hroom hnesting style e,
      Counted.counts_source hinfer e⟩

/-- The type of the map is added to the scratch paper, and its unit needs a class for it. -/
theorem words_are_asked_for :
    scratchPaper.scratch = true ∧ wordList.drafts.isJoined scratchPaper.draft = false ∧
    let found := (inferAt (maxDepth - 0) {} (.ident "words") scratchPaper
      ⟨wordList, false⟩).2.program
    wordList.Mentions found ∧ wordList.Sketches (· = 0) found ∧
    found.drafts.text 0 = "Map<String, Integer>" ∧
      (found.unit 0).imports.contains "java.util.Map" = true := by
  have hopen : wordList.drafts.isJoined scratchPaper.draft = false := by decide
  obtain ⟨hscratch, -, -⟩ := asking_leaves_no_trace 0 (Nat.zero_le _) {} (.ident "words")
    scratchPaper ⟨wordList, false⟩
  obtain ⟨⟨hmention, hsketch⟩, -⟩ := hscratch rfl hopen
  refine ⟨rfl, hopen, hmention, hsketch, ?_, ?_⟩
  · decide +kernel
  · decide +kernel

end GoToJava
