import GoToJava.Proofs.Loops.Texts
import GoToJava.Proofs.Structs.Literals

/-!
Texts of types. Pointers are left out wherever they are met, and names are followed as far as there
is room. The text of a type is that of a map or of an array just if the type is one after that, and
inference writes the text of the type that it finds.
-/

namespace GoToJava

open Go (Expr Field Signature title)
open Emit Java

/-! ## Texts of maps and arrays -/

namespace Java

variable {text name : String}

/-- The text of the type of a map. -/
def IsMapText (text : String) : Prop :=
  "Map<".toList <+: text.toList ∧ ">".toList <:+ text.toList

/-- The text of the type of an array, or of a variable number of parameters. -/
def IsArrayText (text : String) : Prop :=
  "[]".toList <:+ text.toList ∨ "...".toList <:+ text.toList

instance (text : String) : Decidable (IsMapText text) := inferInstanceAs (Decidable (_ ∧ _))

instance (text : String) : Decidable (IsArrayText text) := inferInstanceAs (Decidable (_ ∨ _))

theorem isMapText_enclosed (text : String) : IsMapText ("Map<" ++ text ++ ">") := by
  unfold IsMapText
  simp only [String.toList_append, List.append_assoc]
  exact ⟨List.prefix_append _ _, List.suffix_append_of_suffix (List.suffix_append _ _)⟩

theorem isArrayText_brackets (text : String) : IsArrayText (text ++ "[]") := by
  unfold IsArrayText
  rw [String.toList_append]
  exact Or.inl (List.suffix_append _ _)

theorem isArrayText_dots (text : String) : IsArrayText (text ++ "...") := by
  unfold IsArrayText
  rw [String.toList_append]
  exact Or.inr (List.suffix_append _ _)

theorem getLast?_of_suffix {xs ys : List Char} {c : Char} (h : xs <:+ ys)
    (hc : xs.getLast? = some c) : ys.getLast? = some c := by
  obtain ⟨before, rfl⟩ := h
  rw [List.getLast?_append, hc]
  rfl

theorem getLast?_of_isMapText (h : IsMapText text) :
    text.toList.getLast? = some '>' := getLast?_of_suffix h.2 rfl

theorem getLast?_of_isArrayText (h : IsArrayText text) :
    text.toList.getLast? = some ']' ∨ text.toList.getLast? = some '.' := by
  rcases h with h | h
  · exact Or.inl (getLast?_of_suffix h rfl)
  · exact Or.inr (getLast?_of_suffix h rfl)

theorem not_isArrayText_of_isMapText (h : IsMapText text) : ¬IsArrayText text := by
  intro h'
  have hlast := getLast?_of_isMapText h
  rcases getLast?_of_isArrayText h' with h' | h'
  · rw [hlast] at h'
    cases h'
  · rw [hlast] at h'
    cases h'

/-- A text that is neither that of a map nor that of an array. -/
def IsPlainText (text : String) : Prop := ¬IsMapText text ∧ ¬IsArrayText text

theorem isPlainText_of_last {text : String} {c : Char} (h : text.toList.getLast? = some c)
    (hc : c ∉ ['>', ']', '.']) : IsPlainText text := by
  simp only [List.mem_cons, List.not_mem_nil, or_false, not_or] at hc
  refine ⟨fun hmap => ?_, fun harray => ?_⟩
  · rw [getLast?_of_isMapText hmap] at h
    exact hc.1 (Option.some.inj h).symm
  · rcases getLast?_of_isArrayText harray with h' | h'
    · rw [h'] at h
      exact hc.2.1 (Option.some.inj h).symm
    · rw [h'] at h
      exact hc.2.2 (Option.some.inj h).symm

theorem isPlainText_of_word (before : String) (h : IsWord name) : IsPlainText (before ++ name) := by
  obtain ⟨hne, hall⟩ := h
  have hlast := List.getLast?_eq_some_getLast hne
  refine isPlainText_of_last (c := name.toList.getLast hne) ?_ ?_
  · rw [String.toList_append, List.getLast?_append, hlast]
    rfl
  · have hword := hall _ (List.getLast_mem hne)
    intro hmem
    simp only [List.mem_cons, List.not_mem_nil, or_false] at hmem
    rcases hmem with h | h | h
    all_goals
      rw [h] at hword
      cases hword

/-- A function has no text of a map, though it ends like one. -/
theorem isPlainText_function (text : String) : IsPlainText ("Function<" ++ (text ++ ">")) := by
  have hlast : ("Function<" ++ (text ++ ">")).toList.getLast? = some '>' := by
    rw [String.toList_append, String.toList_append, ← List.append_assoc, List.getLast?_append]
    rfl
  refine ⟨fun hmap => ?_, fun harray => ?_⟩
  · obtain ⟨rest, hrest⟩ := hmap.1
    rw [String.toList_append] at hrest
    cases hrest
  · rcases getLast?_of_isArrayText harray with h | h
    · rw [hlast] at h
      cases h
    · rw [hlast] at h
      cases h

theorem isWord_primitives : primitives.All fun p => IsWord p.plain ∧ IsWord p.boxed := by
  refine Table.all_ofList ?_
  decide

theorem isWord_primitive {java : String} {boxed : Bool} (h : primitive? name boxed = some java) :
    IsWord java := by
  obtain ⟨p, hp, rfl⟩ := Option.map_eq_some_iff.1 h
  obtain ⟨hplain, hboxed⟩ := isWord_primitives name p hp
  split
  · exact hboxed
  · exact hplain

theorem isWord_types : types.All fun form => IsWord form.name ∧ IsWord (boxed form.name) := by
  refine Table.all_ofList ?_
  decide

end Java

/-! ## What a type is shown as -/

namespace Program

/-- What a name stands for. -/
def target? (p : Program) : Expr → Option Expr
  | .ident name => if isPrimitive name then none else p.typeNames.get? (title name)
  | _ => none

/-- The type that is written for a type: without pointers and parentheses, and with names followed
at most `room` times. -/
def shown (p : Program) : Nat → Expr → Expr
  | 0, type => type.stripPointer
  | room + 1, type =>
    match p.target? type.stripPointer with
    | some target => p.shown room target
    | none => type.stripPointer

variable {p : Program} {room : Nat} {type target : Expr}

theorem shown_some (h : p.target? type.stripPointer = some target) :
    p.shown (room + 1) type = p.shown room target := by
  rw [shown, h]

theorem shown_none (h : p.target? type.stripPointer = none) :
    p.shown room type = type.stripPointer := by
  cases room with
  | zero => rfl
  | succ room => rw [shown, h]

end Program

namespace Go.Expr

theorem stripPointer_ne (type : Expr) (e : Expr) :
    type.stripPointer ≠ .paren e ∧ type.stripPointer ≠ .star e := by
  fun_induction stripPointer type with
  | case1 _ ih | case2 _ ih => exact ih
  | case3 type hstar hparen => exact ⟨hparen e, hstar e⟩

/-- The texts that fit a type which is shown. -/
def Fits : Expr → String → Prop
  | .mapType _ _, text => Java.IsMapText text
  | .arrayType _ _, text => Java.IsArrayText text
  | .ellipsis _, text => Java.IsArrayText text
  | _, text => Java.IsPlainText text

/-- If the type is a name, the name is a word. -/
def ProperlyNamed : Expr → Prop
  | .ident name => IsWord name
  | .selector _ name => IsWord name
  | _ => True

end Go.Expr

/-! ## Texts of pieces -/

variable {place : Place} {desk : Desk} {x : Emit Unit} {p : Program}

theorem worded_writeTypeAt (room : Nat) (style : Style) (type : Expr) :
    Worded (writeTypeAt room style type) :=
  ⟨inline_writeTypeAt room style type,
    takes_of_scripted (free_writeTypeAt room style type)⟩

/-- The action continues the draft by the text. The indentation that is owed belongs to the draft
already, so nothing has to be written for an empty text. -/
structure Continues (place : Place) (desk : Desk) (x : Emit Unit) (text : String) : Prop where
  opened : (x.result place desk).2.program.Open place.draft
  written : (x.result place desk).2.program.drafts.text place.draft ++
      indentation place (x.result place desk).2.owed =
    desk.program.drafts.text place.draft ++ (indentation place desk.owed ++ text)

theorem AddsAt.continues {text : String} (h : AddsAt place desk x text) :
    Continues place desk x text := by
  refine ⟨h.opened, ?_⟩
  have hnone : indentation place (x.result place desk).2.owed = "" := by
    rw [h.owed]
    rfl
  rw [hnone, String.append_empty]
  exact h.written

theorem continues_seq {y : Emit Unit} {s t : String} (hx : Continues place desk x s)
    (hy : Continues place (x.result place desk).2 y t) :
    Continues place desk (x >>= fun _ => y) (s ++ t) := by
  refine ⟨hy.opened, hy.written.trans ?_⟩
  rw [← String.append_assoc, hx.written]
  simp only [String.append_assoc]

namespace TypeText

variable {name : String} {type : Expr}

/-- A piece that is put off has no text yet. -/
def Piece.text : Piece → String
  | .word text => text
  | .cls name => name
  | .need _ | .later _ _ => ""

def piecesText (pieces : List Piece) : String := String.join (pieces.map Piece.text)

theorem piecesText_cons (piece : Piece) (pieces : List Piece) :
    piecesText (piece :: pieces) = piece.text ++ piecesText pieces := by
  rw [piecesText, List.map_cons, String.join_cons]
  rfl

theorem piecesText_append (ps qs : List Piece) :
    piecesText (ps ++ qs) = piecesText ps ++ piecesText qs := by
  induction ps with
  | nil => exact String.empty_append.symm
  | cons piece ps ih =>
    rw [List.cons_append, piecesText_cons, piecesText_cons, ih, String.append_assoc]

theorem continues_piece (piece : Piece) (hopen : desk.program.Open place.draft) :
    Continues place desk piece.write piece.text := by
  cases piece with
  | word text => exact (addsAt_print text hopen).continues
  | cls name =>
    have hopened : (refer name place desk).2.program.Open place.draft :=
      ⟨hopen.known, hopen.unjoined⟩
    have hprint := (addsAt_print name hopened).continues
    exact ⟨hprint.opened, hprint.written⟩
  | need i =>
    refine ⟨⟨hopen.known, hopen.unjoined⟩, ?_⟩
    rw [Piece.text, String.append_empty]
    rfl
  | later type style =>
    exact (Forms.says_reserve false (some (.typeName type style)) (says_print "") desk (.refl _)
      hopen).1.continues

theorem continues_writePieces (pieces : List Piece) (hopen : desk.program.Open place.draft) :
    Continues place desk (writePieces pieces) (piecesText pieces) := by
  induction pieces generalizing desk with
  | nil =>
    refine ⟨hopen, ?_⟩
    show _ = _ ++ (_ ++ "")
    rw [String.append_empty]
    rfl
  | cons piece rest ih =>
    have hfirst := continues_piece piece hopen
    have hall := continues_seq hfirst (ih hfirst.opened)
    rw [piecesText_cons]
    exact hall

theorem adds_piecesAt (room : Nat) (style : Style) (type : Expr)
    (hopen : desk.program.Open place.draft) : AddsAt place desk (writeTypeAt room style type)
      (piecesText (piecesAt (desk.program.sight place) room style type)) := by
  have hpieces := continues_writePieces (piecesAt (desk.program.sight place) room style type) hopen
  have hspelt : (writeTypeAt room style type).result place desk =
      (writePieces (piecesAt (desk.program.sight place) room style type)).result place desk :=
    spelt_writeTypeAt room style type desk rfl
  obtain ⟨text, hopened, howed, -⟩ := (worded_writeTypeAt room style type).text hopen
  refine ⟨hopened, howed, ?_⟩
  -- No indentation is owed after it, so all of it is written.
  have hwritten := hpieces.written
  rw [← hspelt, howed] at hwritten
  exact String.append_empty.symm.trans hwritten

/-! ## Texts that fit -/

variable {s : Sight} {follow : Option (Expr → Style → List Piece)} {style : Style} {p : Program}

theorem piecesLater_direct (h : style.direct = true) (type : Expr) (now : List Piece) :
    piecesLater s type style now = now := by
  unfold piecesLater
  split
  · rw [h, Bool.or_true, if_pos rfl]
  · rfl

theorem piecesNow_stripPointer (h : style.direct = true) (type : Expr) :
    piecesNow s follow style type = piecesNow s follow style type.stripPointer := by
  fun_induction Expr.stripPointer type with
  | case1 e ih | case2 e ih => exact (piecesLater_direct h e _).trans ih
  | case3 => rfl

theorem isMapText_map (key value : List Piece) :
    Java.IsMapText (piecesText (piecesMap .atOnce key value)) := by
  have htext : piecesText (piecesMap .atOnce key value) =
      "Map<" ++ (piecesText key ++ (", " ++ piecesText value)) ++ ">" := by
    simp [piecesMap, Style.atOnce, piecesText, Piece.text, String.append_assoc]
  rw [htext]
  exact isMapText_enclosed _

theorem isPlainText_reference (param result : Option (List Piece)) :
    Java.IsPlainText (piecesText (piecesReference param result)) := by
  have htext : piecesText (piecesReference param result) = "Function<" ++
      (piecesText (param.getD [.word "Void"]) ++
        (", " ++ piecesText (result.getD [.word "Void"])) ++
        ">") := by
    unfold piecesReference
    simp [piecesText, Piece.text, String.append_assoc]
  rw [htext]
  exact isPlainText_function _

theorem isPlainText_signature (params : List (List Piece)) (result : Option (List Piece)) :
    Java.IsPlainText (piecesText (piecesSignature params result)) := by
  refine isPlainText_of_last (c := ')') ?_ (by decide)
  unfold piecesSignature
  rw [piecesText_append, String.toList_append, List.getLast?_append]
  rfl

theorem isPlainText_word (h : IsWord name) : Java.IsPlainText (piecesText [.word name]) := by
  have hplain := isPlainText_of_word "" h
  rwa [String.empty_append] at hplain

theorem isPlainText_qualified (package : String) (h : IsWord name) :
    Java.IsPlainText (piecesText (piecesQualified s package name style)) := by
  unfold piecesQualified
  split
  · rename_i form hform
    obtain ⟨hname, hboxed⟩ := isWord_types _ _ hform
    split
    · exact isPlainText_word hname
    · split
      · exact isPlainText_word hboxed
      · exact isPlainText_word hname
  · split
    · exact isPlainText_word h
    · exact isPlainText_of_word (package ++ ".") h

theorem fits_now (hnamed : type.ProperlyNamed) (hparen : ∀ e, type ≠ .paren e)
    (hstar : ∀ e, type ≠ .star e) (hident : ∀ name, type ≠ .ident name) :
    type.Fits (piecesText (piecesNow s follow .atOnce type)) := by
  have hlast : ∀ (pieces : List Piece) (text : String),
      piecesText (pieces ++ [.word text]) = piecesText pieces ++ text :=
    fun pieces text => piecesText_append pieces [.word text]
  have harray : ∀ (mark : String) (e : Style → List Piece),
      piecesText (piecesArray .atOnce mark e) = piecesText (e Style.atOnce.element) ++ mark :=
    fun mark e => hlast _ mark
  cases type with
  | ident name => exact absurd rfl (hident name)
  | paren e => exact absurd rfl (hparen e)
  | star e => exact absurd rfl (hstar e)
  | arrayType length e =>
    rw [piecesNow, harray]
    exact isArrayText_brackets _
  | ellipsis e =>
    rw [piecesNow, harray]
    exact isArrayText_dots _
  | mapType k v => exact isMapText_map _ _
  | selector base name =>
    have hmember : ∀ pieces : List Piece,
        Java.IsPlainText (piecesText (pieces ++ [.word ".", .word name])) := by
      intro pieces
      rw [← List.singleton_append, ← List.append_assoc, hlast]
      exact isPlainText_of_word _ hnamed
    cases base with
    | ident package => exact isPlainText_qualified package hnamed
    | _ => exact hmember _
  | funcType sig =>
    obtain ⟨params, results⟩ := sig
    rw [piecesNow, piecesOfSignature]
    split
    · exact isPlainText_reference _ _
    · exact isPlainText_signature _ _
  | _ => exact isPlainText_word (by decide)

theorem isPlainText_named (h : IsWord name)
    (hfollow : follow = none ∨ isPrimitive name = true ∨ s.types.get? (title name) = none) :
    Java.IsPlainText (piecesText (piecesNamed s follow name style)) := by
  unfold piecesNamed
  cases hjava : primitive? name style.boxed with
  | some java => exact isPlainText_word (isWord_primitive hjava)
  | none =>
    have htitle := isPlainText_word (isWord_title h)
    rcases hfollow with rfl | hprimitive | hnone
    · cases s.types.get? (title name) <;> exact htitle
    · rw [not_isPrimitive hjava] at hprimitive
      cases hprimitive
    · rw [hnone]
      exact htitle

/-- A type that is not followed has the text that fits it. -/
theorem fits_settled (hs : s.types = p.typeNames) (hnamed : type.stripPointer.ProperlyNamed)
    (hfollow : follow = none ∨ p.target? type.stripPointer = none) :
    type.stripPointer.Fits (piecesText (piecesNow s follow .atOnce type.stripPointer)) := by
  have hstrip := type.stripPointer_ne
  cases htype : type.stripPointer with
  | ident name =>
    rw [htype] at hnamed hfollow
    refine isPlainText_named hnamed (hfollow.imp_right fun hnone => ?_)
    rw [Program.target?, ite_eq_left_iff] at hnone
    rw [hs]
    exact Classical.or_iff_not_imp_left.2 hnone
  | _ =>
    rw [htype] at hnamed hstrip
    exact fits_now hnamed (fun e => (hstrip e).1) (fun e => (hstrip e).2) nofun

theorem fits_piecesAt (hs : s.types = p.typeNames) (room : Nat)
    (hnamed : (p.shown room type).ProperlyNamed) :
    (p.shown room type).Fits (piecesText (piecesAt s room .atOnce type)) := by
  induction room generalizing type with
  | zero =>
    rw [piecesAt, piecesLater_direct rfl, piecesNow_stripPointer rfl]
    exact fits_settled hs hnamed (.inl rfl)
  | succ room ih =>
    rw [piecesAt, piecesLater_direct rfl, piecesNow_stripPointer rfl]
    cases htarget : p.target? type.stripPointer with
    | none =>
      rw [Program.shown_none htarget] at hnamed ⊢
      exact fits_settled hs hnamed (.inr htarget)
    | some target =>
      rw [Program.shown_some htarget] at hnamed ⊢
      cases htype : type.stripPointer with
      | ident name =>
        rw [htype, Program.target?, Option.ite_none_left_eq_some] at htarget
        obtain ⟨hprimitive, htarget⟩ := htarget
        have hnone : primitive? name Style.atOnce.boxed = none := by
          rw [isPrimitive, Table.contains, Bool.not_eq_true, Option.isSome_eq_false_iff,
            Option.isNone_iff_eq_none] at hprimitive
          rw [primitive?, hprimitive]
          rfl
        unfold piecesNow piecesNamed
        rw [hnone, hs, htarget]
        exact ih hnamed
      | _ =>
        rw [htype] at htarget
        cases htarget

end TypeText

/-! ## Texts that inference writes -/

theorem Program.Mentions.sight {q : Program} (h : p.Mentions q) :
    q.sight place = p.sight place := by
  have himport : ∀ name, q.importName place name = p.importName place name :=
    (h.sameLore (S := everywhere)).akin.importName ⟨rfl, rfl, rfl⟩
  unfold Program.sight
  rw [congrArg (·.phase) h.same, congrArg (·.typeNames) h.same]
  simp only [himport]

/-- The text for what is found. -/
def foundText (s : Sight) (style : Style) : Option Finding → String
  | none => "Object"
  | some f => TypeText.piecesText (TypeText.piecesAt s f.room style f.type)

/-- Inference writes the type that is found, as far as there is room to follow names. -/
theorem adds_inferAt {a b : Place} (room : Nat) (style : Style) (hab : a.SameSight b) (e : Expr)
    (hsame : p.SameLore everywhere desk.program) (hopen : desk.program.Open b.draft) :
    AddsAt b desk (inferAt room style e >>= fun _ => pure ())
      (foundText (desk.program.sight b) style (p.find room a e)) := by
  induction room generalizing e desk with
  | zero => exact addsAt_print "Object" hopen
  | succ room ih =>
    obtain ⟨look, hpeeks, hrun⟩ := comesTo_inferAt room (p := p) hab style e
    obtain ⟨howed, hopened, htext⟩ := hpeeks.looks b desk hopen
    -- What is written is written by the move.
    have hmove : ∀ {x : Emit Unit} {text : String},
        (inferAt (room + 1) style e >>= fun _ => pure ()) b desk = x b (look b desk).2 →
        AddsAt b (look b desk).2 x text →
        AddsAt b desk (inferAt (room + 1) style e >>= fun _ => pure ()) text := by
      intro x text hx hadds
      refine ⟨?_, ?_, ?_⟩
      · exact (congrArg (fun r => r.2.program.Open b.draft) hx).mpr hadds.opened
      · exact (congrArg (fun r => r.2.owed) hx).trans hadds.owed
      · refine (congrArg (fun r => r.2.program.drafts.text b.draft) hx).trans ?_
        rw [← htext, ← howed]
        exact hadds.written
    have hresult : (inferAt (room + 1) style e >>= fun _ => pure ()) b desk =
        ((), ((Inference.move p a (Inference.answer? p
          (fun place e => (p.find room place e).map (·.type)) a e) e).run
            (inferAt room) (Inference.knownAt room) style b (look b desk).2).2) :=
      congrArg (fun r : Option Expr × Desk => ((), r.2)) (hrun desk hsame)
    rw [Program.find, ← (hpeeks.mentions b desk).sight]
    split
    · rename_i h
      rw [h] at hresult
      exact hmove hresult (addsAt_print "Object" hopened)
    · rename_i type h
      rw [h] at hresult
      exact hmove hresult (TypeText.adds_piecesAt room style type hopened)
    · rename_i inner h
      rw [h] at hresult
      exact hmove hresult (ih inner (hsame.trans (hpeeks.mentions b desk).sameLore) hopened)

end GoToJava
