import GoToJava.Proofs.Program.Steps
import Mathlib.Data.List.Forall2

/-!
What a type is written as, piece by piece. The pieces depend on a few tables only, none of which
changes while they are written.
-/

namespace GoToJava

open Go (Expr Field Signature title)
open Emit

/-- What of a program shows in types that are written at a place. -/
structure Sight where
  /-- No name is put off. -/
  eager : Bool
  /-- What names stand for. -/
  types : Table Expr
  /-- The names of imported packages. -/
  imports : String → Bool

def Program.sight (p : Program) (place : Place) : Sight where
  eager := p.phase != .discovery || place.scratch
  types := p.typeNames
  imports name := (p.importName place name).isSome

namespace TypeText

/-! ## Pieces -/

inductive Piece where
  | word (text : String)
  /-- A class by its name alone. -/
  | cls (name : String)
  | need (i : Java.Import)
  /-- A name that is put off. -/
  | later (type : Expr) (style : Style)

namespace Piece

/-- Writes a piece. A class that is named is remembered for the imports. -/
def write : Piece → Emit Unit
  | word text => print text
  | cls name => do
    refer name
    print name
  | need i => Emit.need i
  | later type style => leave (.typeName type style)

end Piece

def writePieces (pieces : List Piece) : Emit Unit := pieces.forM Piece.write

/-- Pieces with others between them. -/
def joined (separator : Piece) : List (List Piece) → List Piece
  | [] => []
  | [pieces] => pieces
  | pieces :: rest => pieces ++ separator :: joined separator rest

section

variable (s : Sight) (follow : Option (Expr → Style → List Piece))

def piecesLater (type : Expr) (style : Style) (now : List Piece) : List Piece :=
  match type with
  | .ident name =>
    if Java.isPrimitive name || s.eager || style.direct then now else [.later type style]
  | _ => now

def piecesNamed (name : String) (style : Style) : List Piece :=
  match Java.primitive? name style.boxed with
  | some java => [.word java]
  | none =>
    match s.types.get? (title name), follow with
    | some target, some follow => follow target style
    | _, _ => [.cls (title name)]

def piecesArray (style : Style) (mark : String) (e : Style → List Piece) : List Piece :=
  if style.elementOnly then e style.whole else e style.element ++ [.word mark]

def piecesMap (style : Style) (key value : List Piece) : List Piece :=
  let start :=
    if style.entry then [.need .map, .word "Map.Entry<"]
    else if style.implementation then [.need .hashMap, .need .map, .word "HashMap<"]
    else [.need .map, .word "Map<"]
  start ++ key ++ .word ", " :: value ++ .word ">" :: if style.entry then [.word " entry"] else []

def piecesOfMap (style : Style) (key value : Style → List Piece) : List Piece :=
  if style.elementOnly && !style.entry then value style.whole
  else piecesMap style (key style.argument) (value style.argument)

def piecesQualified (package name : String) (style : Style) : List Piece :=
  match Java.types.get? (package ++ "." ++ name) with
  | some form =>
    match form.needs with
    | some i => [.need i, .word form.name]
    | none => [.word (if style.boxed then Java.boxed form.name else form.name)]
  | none =>
    if s.imports (title package) then [.cls name] else [.word (package ++ "." ++ name)]

def piecesReference (param result : Option (List Piece)) : List Piece :=
  .need .function :: .word "Function<" :: param.getD [.word "Void"] ++ .word ", " ::
    result.getD [.word "Void"] ++ [.word ">"]

def piecesSignature (params : List (List Piece)) (result : Option (List Piece)) : List Piece :=
  result.getD [.word "void"] ++ .word " (" :: joined (.word ", ") params ++ [.word ")"]

mutual

def piecesNow (style : Style) : Expr → List Piece
  | .ident name => piecesNamed s follow name style
  | .paren e => piecesLater s e style (piecesNow style e)
  | .star e => piecesLater s e style (piecesNow style e)
  | .arrayType _ e => piecesArray style "[]" fun style => piecesLater s e style (piecesNow style e)
  | .ellipsis e => piecesArray style "..." fun style => piecesLater s e style (piecesNow style e)
  | .mapType k v =>
    piecesOfMap style (fun style => piecesLater s k style (piecesNow style k))
      fun style => piecesLater s v style (piecesNow style v)
  | .selector (.ident package) name => piecesQualified s package name style
  | .selector base name =>
    piecesLater s base style (piecesNow style base) ++ [.word ".", .word name]
  | .funcType sig => piecesOfSignature style sig
  | _ => [.word "Object"]

def piecesOfSignature (style : Style) : Signature → List Piece
  | .mk params results =>
    if style.reference then
      let style := { style.argument with reference := true }
      piecesReference ((piecesOfFields style params).head?.map (·.2))
        ((piecesOfFields style results).head?.map (·.2))
    else
      piecesSignature
        ((piecesOfFields .references params).flatMap fun (n, pieces) => List.replicate n pieces)
        ((piecesOfFields {} results).head?.map (·.2))

def piecesOfFields (style : Style) : List Field → List (Nat × List Piece)
  | [] => []
  | .mk names type :: rest =>
    (max names.length 1, piecesLater s type style (piecesNow style type)) ::
      piecesOfFields style rest

end

end

/-- The pieces of a type, with names followed at most `room` times. -/
def piecesAt (s : Sight) : Nat → Style → Expr → List Piece
  | 0, style, type => piecesLater s type style (piecesNow s none style type)
  | room + 1, style, type =>
    piecesLater s type style
      (piecesNow s (some fun target style => piecesAt s room style target) style type)

/-- The pieces of a type whose own name is not put off. -/
def piecesOf (s : Sight) (style : Style) (type : Expr) : List Piece :=
  piecesNow s (some fun target style => piecesAt s (Program.maxDepth - 1) style target) style type

end TypeText

/-! ## Fields -/

namespace TypeText

/-- Fields with the same numbers of names, whose types are related. -/
def SameFields {α β : Type} (R : α → β → Prop) : List (Nat × α) → List (Nat × β) → Prop :=
  List.Forall₂ fun f g => f.1 = g.1 ∧ R f.2 g.2

namespace SameFields

variable {α β : Type} {R : α → β → Prop} {fs : List (Nat × α)} {gs : List (Nat × β)}

theorem head (h : SameFields R fs gs) : Option.Rel R (fs.head?.map (·.2)) (gs.head?.map (·.2)) := by
  cases h with
  | nil => exact .none
  | cons h _ => exact .some h.2

theorem params (h : SameFields R fs gs) :
    List.Forall₂ R (fs.flatMap fun (n, a) => List.replicate n a)
      (gs.flatMap fun (n, b) => List.replicate n b) := by
  induction h with
  | nil => exact .nil
  | @cons f g _ _ h _ ih =>
    rw [List.flatMap_cons, List.flatMap_cons]
    refine List.rel_append ?_ ih
    dsimp only
    rw [← h.1]
    generalize f.1 = n
    induction n with
    | zero => exact .nil
    | succ n ihn => exact .cons h.2 ihn

end SameFields

end TypeText

/-! ## Sight -/

namespace Program

variable {p : Program} {place : Place}

theorem sight_modifyUnit {f : CompilationUnit → CompilationUnit} (u : Nat)
    (hf : ∀ x, (f x).packageUnit = x.packageUnit ∧ (f x).importNames = x.importNames) :
    (p.modifyUnit u f).sight place = p.sight place := by
  have hunit : ∀ v, ((p.modifyUnit u f).unit v).packageUnit = (p.unit v).packageUnit ∧
      ((p.modifyUnit u f).unit v).importNames = (p.unit v).importNames := by
    intro v
    rw [unit_modifyUnit]
    split
    · exact hf _
    · exact ⟨rfl, rfl⟩
  unfold sight importName
  simp only [hunit]
  rfl

end Program

namespace TypeText

variable {s : Sight} {place : Place} {x y : Emit Unit} {ps qs : List Piece}

theorem sight_of_jots (hx : Jots (fun _ => True) x) (desk : Desk) :
    (x place desk).2.program.sight place = desk.program.sight place := by
  obtain ⟨drafts, refused, h⟩ := hx.onlyWrites place desk
  rw [h]
  rfl

theorem sight_importClass (qualified : String) (desk : Desk) :
    (importClass qualified place desk).2.program.sight place = desk.program.sight place := by
  show (desk.program.modifyUnit place.unit _).sight place = _
  exact Program.sight_modifyUnit place.unit fun _ => ⟨rfl, rfl⟩

theorem sight_refer (name : String) (desk : Desk) :
    (refer name place desk).2.program.sight place = desk.program.sight place := by
  show (desk.program.modifyUnit place.unit _).sight place = _
  exact Program.sight_modifyUnit place.unit fun _ => ⟨rfl, rfl⟩

theorem sight_piece (piece : Piece) (desk : Desk) :
    (piece.write place desk).2.program.sight place = desk.program.sight place := by
  cases piece with
  | word text => exact sight_of_jots (.print text) desk
  | cls name =>
    exact (sight_of_jots (.print name) _).trans (sight_refer name desk)
  | need i => exact sight_importClass _ desk
  | later type style => exact sight_of_jots (jots_leave trivial) desk

theorem writePieces_append (ps qs : List Piece) :
    writePieces (ps ++ qs) = writePieces ps >>= fun _ => writePieces qs := by
  unfold writePieces
  induction ps with
  | nil => rfl
  | cons p ps ih =>
    show (p.write >>= fun _ => (ps ++ qs).forM Piece.write) = _
    rw [ih]
    rfl

theorem sight_writePieces (ps : List Piece) (desk : Desk) :
    (writePieces ps place desk).2.program.sight place = desk.program.sight place := by
  induction ps generalizing desk with
  | nil => rfl
  | cons piece ps ih => exact (ih _).trans (sight_piece piece desk)

/-! ## Writing by pieces -/

/-- At this place, in programs that look so, the action writes the pieces. -/
def Spelt (s : Sight) (place : Place) (x : Emit Unit) (ps : List Piece) : Prop :=
  ∀ desk : Desk, desk.program.sight place = s → x place desk = writePieces ps place desk

theorem spelt_piece (piece : Piece) : Spelt s place piece.write [piece] := fun _ _ => rfl

theorem spelt_print (text : String) : Spelt s place (print text) [.word text] :=
  spelt_piece (.word text)

theorem spelt_need (i : Java.Import) : Spelt s place (need i) [.need i] := spelt_piece (.need i)

theorem spelt_cls (name : String) : Spelt s place (do refer name; print name) [.cls name] :=
  spelt_piece (.cls name)

theorem spelt_seq (hx : Spelt s place x ps) (hy : Spelt s place y qs) :
    Spelt s place (x >>= fun _ => y) (ps ++ qs) := by
  intro desk hdesk
  rw [writePieces_append]
  show y place (x place desk).2 = writePieces qs place (writePieces ps place desk).2
  rw [hx desk hdesk]
  exact hy _ ((sight_writePieces ps desk).trans hdesk)

theorem spelt_nil : Spelt s place (pure ()) [] := fun _ _ => rfl

theorem spelt_program {f : Program → Emit Unit}
    (h : ∀ p : Program, p.sight place = s → Spelt s place (f p) ps) :
    Spelt s place (program >>= f) ps := fun desk hdesk => h _ hdesk desk hdesk

theorem spelt_getD {text : Option (Emit Unit)} {pieces : Option (List Piece)} {other : Emit Unit}
    (h : Option.Rel (Spelt s place) text pieces) (ho : Spelt s place other ps) :
    Spelt s place (text.getD other) (pieces.getD ps) := by
  cases h with
  | none => exact ho
  | some h => exact h

theorem spelt_separated {separator : String} {texts : List (Emit Unit)}
    {pieces : List (List Piece)} (h : List.Forall₂ (Spelt s place) texts pieces) :
    Spelt s place (separated separator texts) (joined (.word separator) pieces) := by
  induction h with
  | nil => exact spelt_nil
  | @cons x ps _ _ hx hrest ih =>
    cases hrest with
    | nil => exact hx
    | cons hy hrest => exact spelt_seq hx (spelt_seq (spelt_print separator) ih)

/-! ## Types by pieces -/

variable {follow : Follow} {pieces : Option (Expr → Style → List Piece)}

/-- What names stand for is written by pieces. -/
abbrev Pursued (s : Sight) (place : Place) :
    Follow → Option (Expr → Style → List Piece) → Prop :=
  Option.Rel fun f g => ∀ target style, Spelt s place (f target style) (g target style)

theorem spelt_orLater {type : Expr} {style : Style} (h : Spelt s place x ps) :
    Spelt s place (orLater type style x) (piecesLater s type style ps) := by
  unfold orLater piecesLater
  cases type
  case ident name =>
    by_cases hprim : Java.isPrimitive name = true
    · simp only [hprim, Bool.true_or, if_true]
      exact h
    · intro desk hdesk
      have heager : (desk.program.phase != .discovery || style.direct || place.scratch) =
          (s.eager || style.direct) := by
        rw [← hdesk]
        show _ = ((desk.program.phase != .discovery || place.scratch) || style.direct)
        rw [Bool.or_assoc, Bool.or_assoc, Bool.or_comm style.direct]
      simp only [hprim, Bool.false_or, Bool.false_eq_true, if_false]
      rw [defer_apply]
      simp only [Task.direct, heager]
      split
      · exact h desk hdesk
      · rfl
  all_goals exact h

theorem spelt_named (hf : Pursued s place follow pieces) (name : String) (style : Style) :
    Spelt s place (named follow name style) (piecesNamed s pieces name style) := by
  unfold named piecesNamed
  cases Java.primitive? name style.boxed with
  | some java => exact spelt_print _
  | none =>
    refine spelt_program fun p hp => ?_
    have htypes : p.typeNames = s.types := congrArg (·.types) hp
    rw [htypes]
    cases s.types.get? (title name) with
    | none => exact spelt_cls _
    | some target =>
      cases hf with
      | none => exact spelt_cls _
      | some hf => exact hf target style

theorem spelt_ofArray {e : Style → Emit Unit} {pieces : Style → List Piece} (style : Style)
    (mark : String) (h : ∀ style, Spelt s place (e style) (pieces style)) :
    Spelt s place (ofArray style mark e) (piecesArray style mark pieces) := by
  unfold ofArray piecesArray
  split
  · exact h _
  · exact spelt_seq (h _) (spelt_print _)

theorem spelt_map {key value : Emit Unit} (style : Style) (hk : Spelt s place key ps)
    (hv : Spelt s place value qs) :
    Spelt s place (map style key value) (piecesMap style ps qs) := by
  have hrest : ∀ {last : Emit Unit} {rs : List Piece}, Spelt s place last rs → Spelt s place (do
      key
      print ", "
      value
      print ">"
      last) (ps ++ (.word ", " :: (qs ++ .word ">" :: rs))) := fun hl =>
    spelt_seq hk (spelt_seq (spelt_print _) (spelt_seq hv (spelt_seq (spelt_print _) hl)))
  unfold map piecesMap
  cases style.entry with
  | true =>
    simp only [if_true, List.cons_append, List.nil_append, List.append_assoc]
    exact spelt_seq (spelt_need _) (spelt_seq (spelt_print _) (hrest (spelt_print _)))
  | false =>
    cases style.implementation with
    | true =>
      simp only [if_true, Bool.false_eq_true, if_false, List.cons_append, List.nil_append,
        List.append_assoc]
      exact spelt_seq (spelt_need _) (spelt_seq (spelt_need _) (spelt_seq (spelt_print _)
        (hrest spelt_nil)))
    | false =>
      simp only [Bool.false_eq_true, if_false, List.cons_append, List.nil_append, List.append_assoc]
      exact spelt_seq (spelt_need _) (spelt_seq (spelt_print _) (hrest spelt_nil))

theorem spelt_ofMap {key value : Style → Emit Unit} {pk pv : Style → List Piece} (style : Style)
    (hk : ∀ style, Spelt s place (key style) (pk style))
    (hv : ∀ style, Spelt s place (value style) (pv style)) :
    Spelt s place (ofMap style key value) (piecesOfMap style pk pv) := by
  unfold ofMap piecesOfMap
  split
  · exact hv _
  · exact spelt_map style (hk _) (hv _)

theorem spelt_qualified (package name : String) (style : Style) :
    Spelt s place (qualified package name style) (piecesQualified s package name style) := by
  unfold qualified piecesQualified
  dsimp only
  cases Java.types.get? (package ++ "." ++ name) with
  | some form =>
    dsimp only
    cases form.needs with
    | some i => exact spelt_seq (spelt_need _) (spelt_print _)
    | none => exact spelt_print _
  | none =>
    intro desk hdesk
    have himports : (desk.program.importName place (title package)).isSome =
        s.imports (title package) := by
      rw [← hdesk]
      rfl
    show (if (desk.program.importName place (title package)).isSome then
      (do refer name; print name) else print _ : Emit Unit) place desk = _
    rw [himports]
    split <;> rfl

theorem spelt_reference {param result : Option (Emit Unit)} {ps qs : Option (List Piece)}
    (hp : Option.Rel (Spelt s place) param ps) (hr : Option.Rel (Spelt s place) result qs) :
    Spelt s place (reference param result) (piecesReference ps qs) := by
  unfold piecesReference
  simp only [List.cons_append, List.append_assoc]
  refine spelt_seq (spelt_need _) (spelt_seq (spelt_print _) ?_)
  refine spelt_seq (spelt_getD hp (spelt_print _)) (spelt_seq (spelt_print _) ?_)
  exact spelt_seq (spelt_getD hr (spelt_print _)) (spelt_print _)

theorem spelt_signature {params : List (Emit Unit)} {result : Option (Emit Unit)}
    {pss : List (List Piece)} {qs : Option (List Piece)}
    (hp : List.Forall₂ (Spelt s place) params pss) (hr : Option.Rel (Spelt s place) result qs) :
    Spelt s place (signature params result) (piecesSignature pss qs) := by
  unfold piecesSignature
  simp only [List.cons_append, List.append_assoc]
  refine spelt_seq (spelt_getD hr (spelt_print _)) (spelt_seq (spelt_print _) ?_)
  exact spelt_seq (spelt_separated hp) (spelt_print _)

mutual

theorem spelt_now (hf : Pursued s place follow pieces) (style : Style) :
    (e : Expr) → Spelt s place (now follow style e) (piecesNow s pieces style e)
  | .ident name => spelt_named hf name style
  | .paren e | .star e => spelt_orLater (spelt_now hf style e)
  | .arrayType _ e | .ellipsis e =>
    spelt_ofArray style _ fun style => spelt_orLater (spelt_now hf style e)
  | .mapType k v =>
    spelt_ofMap style (fun style => spelt_orLater (spelt_now hf style k)) fun style =>
      spelt_orLater (spelt_now hf style v)
  | .selector base name => by
    have hbase : Spelt s place (orLater base style (now follow style base)) _ :=
      spelt_orLater (spelt_now hf style base)
    have hmember := spelt_seq hbase (spelt_seq (spelt_print ".") (spelt_print name))
    cases base
    case ident package => exact spelt_qualified package name style
    all_goals exact hmember
  | .funcType sig => spelt_ofSignature hf style sig
  | .lit .. | .composite .. | .funcLit .. | .index .. | .slice .. | .assert .. | .call ..
  | .unary .. | .binary .. | .keyValue .. | .structType .. | .interfaceType .. | .chanType ..
  | .unsupported .. => spelt_print _

theorem spelt_ofSignature (hf : Pursued s place follow pieces) (style : Style) :
    (sig : Signature) →
      Spelt s place (ofSignature follow style sig) (piecesOfSignature s pieces style sig)
  | .mk params results => by
    have hparams := fun style => spelt_ofFields hf style params
    have hresults := fun style => spelt_ofFields hf style results
    unfold ofSignature piecesOfSignature
    split
    · exact spelt_reference (hparams _).head (hresults _).head
    · exact spelt_signature (hparams _).params (hresults _).head

theorem spelt_ofFields (hf : Pursued s place follow pieces) (style : Style) :
    (fs : List Field) →
      SameFields (Spelt s place) (ofFields follow style fs) (piecesOfFields s pieces style fs)
  | [] => .nil
  | .mk _ type :: rest =>
    .cons ⟨rfl, spelt_orLater (spelt_now hf style type)⟩ (spelt_ofFields hf style rest)

end

theorem spelt_writeTypeAt (room : Nat) (style : Style) (type : Expr) :
    Spelt s place (writeTypeAt room style type) (piecesAt s room style type) := by
  induction room generalizing style type with
  | zero => exact spelt_orLater (spelt_now .none style type)
  | succ room ih =>
    exact spelt_orLater (spelt_now (.some fun target style => ih style target) style type)

theorem spelt_writeTypeNow (style : Style) (type : Expr) :
    Spelt s place (writeTypeNow style type) (piecesOf s style type) :=
  spelt_now (.some fun target style => spelt_writeTypeAt _ style target) style type

end TypeText

end GoToJava
