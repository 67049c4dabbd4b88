import GoToJava.Proofs.Members.TypeTexts

/-!
Members of values. The forms of maps and of arrays are chosen just where the Java type of the value
is that of a map or of an array, except that a name which stands for a pointer hides what is pointed
to. A type is written without the pointer all the same.
-/

namespace GoToJava

open Go (Expr title)
open Emit Forms Formula Program RangeKind

/-! ## Kinds of types -/

namespace Go.Expr

variable {type : Expr}

def IsMap : Expr → Prop
  | .mapType _ _ => True
  | _ => False

def IsArray : Expr → Prop
  | .arrayType _ _ => True
  | .ellipsis _ => True
  | _ => False

/-- A pointer, or parentheses. Names are not followed through them. -/
def IsPointer : Expr → Prop
  | .star _ => True
  | .paren _ => True
  | _ => False

theorem IsPointer.not_map_or_array (h : type.IsPointer) : ¬type.IsMap ∧ ¬type.IsArray := by
  cases type with
  | star e | paren e => exact ⟨id, id⟩
  | _ => exact h.elim

theorem not_isPointer_stripPointer (type : Expr) : ¬type.stripPointer.IsPointer := by
  have hstrip := type.stripPointer_ne
  intro hpointer
  cases htype : type.stripPointer with
  | star e => exact (hstrip e).2 htype
  | paren e => exact (hstrip e).1 htype
  | _ =>
    rw [htype] at hpointer
    exact hpointer

theorem Fits.isMapText_iff {text : String} (h : type.Fits text) :
    Java.IsMapText text ↔ type.IsMap := by
  cases type with
  | mapType k v => exact ⟨fun _ => trivial, fun _ => h⟩
  | arrayType n e | ellipsis e =>
    exact ⟨fun hmap => Java.not_isArrayText_of_isMapText hmap h, False.elim⟩
  | _ => exact ⟨h.1, False.elim⟩

theorem Fits.isArrayText_iff {text : String} (h : type.Fits text) :
    Java.IsArrayText text ↔ type.IsArray := by
  cases type with
  | mapType k v =>
    exact ⟨fun harray => Java.not_isArrayText_of_isMapText h harray, False.elim⟩
  | arrayType n e | ellipsis e => exact ⟨fun _ => trivial, fun _ => h⟩
  | _ => exact ⟨h.2, False.elim⟩

end Go.Expr

namespace RangeKind

def IsMap : RangeKind → Prop
  | .map _ _ => True
  | _ => False

def IsArray : RangeKind → Prop
  | .array _ => True
  | _ => False

theorem of_name (name : String) : ¬(of (some (.ident name))).IsMap ∧
    ¬(of (some (.ident name))).IsArray := by
  by_cases h : name = "string"
  · subst h
    exact ⟨id, id⟩
  · rw [of_ident h]
    split <;> exact ⟨id, id⟩

theorem isMap_of (type : Expr) : (of (some type)).IsMap ↔ type.IsMap := by
  cases type with
  | ident name => exact ⟨fun h => (of_name name).1 h, False.elim⟩
  | _ => exact Iff.rfl

theorem isArray_of (type : Expr) : (of (some type)).IsArray ↔ type.IsArray := by
  cases type with
  | ident name => exact ⟨fun h => (of_name name).2 h, False.elim⟩
  | _ => exact Iff.rfl

end RangeKind

/-! ## Following names -/

namespace Program

variable {p : Program} {room : Nat} {type : Expr}

/-- If names are no more followed, they are not followed with more room either. -/
theorem shown_of_settled {more : Nat} (h : p.target? (p.shown room type) = none)
    (hle : room ≤ more) : p.shown more type = p.shown room type := by
  induction room generalizing more type with
  | zero => exact shown_none h
  | succ room ih =>
    cases more with
    | zero => cases hle
    | succ more =>
      cases htarget : p.target? type.stripPointer with
      | none => rw [shown_none htarget, shown_none htarget]
      | some target =>
        rw [shown_some htarget] at h ⊢
        rw [shown_some htarget]
        exact ih h (Nat.le_of_succ_le_succ hle)

theorem unalias_go_succ (depth : Nat) (type : Expr) : unalias.go p (depth + 1) type =
    match p.target? type with
    | some target => unalias.go p depth target
    | none => type := by
  cases type with
  | ident name =>
    show (match p.typeNames.get? (title name) with
      | some target => if Java.isPrimitive name then .ident name else unalias.go p depth target
      | none => .ident name) = match
        if Java.isPrimitive name then none else p.typeNames.get? (title name) with
      | some target => unalias.go p depth target
      | none => .ident name
    cases p.typeNames.get? (title name) with
    | none => rw [ite_self]
    | some target => cases Java.isPrimitive name <;> rfl
  | _ => rfl

/-- A name is followed to a pointer, or to the type that is shown for it. -/
theorem isPointer_or_shown (depth : Nat) (type : Expr) :
    (unalias.go p depth type.stripPointer).IsPointer ∨
      unalias.go p depth type.stripPointer = p.shown depth type := by
  induction depth generalizing type with
  | zero => exact Or.inr rfl
  | succ depth ih =>
    rw [unalias_go_succ]
    cases htarget : p.target? type.stripPointer with
    | none => exact Or.inr (shown_none htarget).symm
    | some target =>
      have htype := ih target
      rw [shown_some htarget]
      -- What the name stands for is followed as it is, and may be a pointer.
      cases target with
      | star e | paren e => cases depth <;> exact Or.inl trivial
      | _ => exact htype

/-- The names that are followed in writing a type lead to a pointer, or to the type that is
written. -/
theorem unalias_of_settled (h : p.target? (p.shown room type) = none) (hle : room ≤ maxDepth) :
    (p.unalias type.stripPointer).IsPointer ∨ p.unalias type.stripPointer = p.shown room type := by
  rw [← shown_of_settled h hle]
  exact isPointer_or_shown maxDepth type

theorem not_isPointer_shown (p : Program) (room : Nat) (type : Expr) :
    ¬(p.shown room type).IsPointer := by
  induction room generalizing type with
  | zero => exact type.not_isPointer_stripPointer
  | succ room ih =>
    cases htarget : p.target? type.stripPointer with
    | none =>
      rw [shown_none htarget]
      exact type.not_isPointer_stripPointer
    | some target =>
      rw [shown_some htarget]
      exact ih target

theorem target?_of_map_or_array (h : type.IsMap ∨ type.IsArray) : p.target? type = none := by
  cases type with
  | ident name => exact (h.elim id id).elim
  | _ => rfl

theorem find_room {place : Place} {e : Expr} {f : Finding} (h : p.find room place e = some f) :
    f.room < room := by
  induction room generalizing e with
  | zero => cases h
  | succ room ih =>
    unfold find at h
    split at h
    · cases h
    · cases h
      exact Nat.lt_succ_self _
    · exact Nat.lt_succ_of_lt (ih h)

/-- There are more names to follow than there is room for when the type of the expression is
written. -/
def RunsOut (p : Program) (place : Place) (e : Expr) : Prop :=
  ∃ f ∈ p.find maxDepth place e, p.target? (p.shown f.room f.type) ≠ none

/-- A name of the expression's type stands for a pointer. -/
def HidesPointer (p : Program) (place : Place) (e : Expr) : Prop :=
  ∃ type ∈ p.source? place e, type.IsPointer

end Program

/-! ## Forms of members -/

/-- What stands around an index into a value of this kind. -/
def RangeKind.brackets : RangeKind → String × String
  | .map _ _ => (".get(", ")")
  | .string => (".charAt(", ")")
  | _ => ("[", "]")

/-- What stands after a value of this kind for its length. -/
def RangeKind.lengthSuffix : RangeKind → String
  | .map _ _ => ".size()"
  | .string => ".length()"
  | _ => ".length"

namespace Forms

/-- An element of a value of this kind. -/
def elementAs (base index : Emit Unit) (kind : RangeKind) : Emit Unit := do
  base
  print kind.brackets.1
  index
  print kind.brackets.2

/-- The length of a value of this kind. -/
def lengthAs (value : Emit Unit) (kind : RangeKind) : Emit Unit := do
  value
  print kind.lengthSuffix

/-- The update of an element of a value of this kind. -/
def updateAs (base index : Term) (update : ElementUpdate Term) (kind : RangeKind) : Emit Unit := do
  match kind with
  | .map _ _ => mapPut base index update
  | _ => arraySet base index update
  endStatement

/-- The type of a value counts as its kind, if maps, strings and other types are told apart. -/
theorem match_kind {α : Type} (type : Option Expr) (map string other : α) :
    (match type with
      | some (.mapType _ _) => map
      | some (.ident "string") => string
      | _ => other) = match of type with
      | .map _ _ => map
      | .string => string
      | _ => other := by
  cases type with
  | none => rfl
  | some type =>
    cases type with
    | ident name =>
      by_cases hstring : name = "string"
      · subst hstring
        rfl
      · rw [of_ident hstring]
        split
        · rename_i heq
          cases heq
        · rename_i heq
          cases heq
          exact absurd rfl hstring
        · cases Java.isInteger name <;> rfl
    | _ => rfl

theorem elementNow_eq (base index : Term) : elementNow base index =
      sourceType base.source >>= fun type => elementAs base.write index.write (.of type) := by
  refine congrArg (sourceType base.source >>= ·) (funext fun type => ?_)
  exact congrArg (fun brackets : String × String => (do
      base.write
      print brackets.1
      index.write
      print brackets.2 : Emit Unit))
    (match_kind type (".get(", ")") (".charAt(", ")") ("[", "]"))

theorem lengthNow_eq (value : Term) :
    lengthNow value = sourceType value.source >>= fun type => lengthAs value.write (.of type) := by
  refine congrArg (sourceType value.source >>= ·) (funext fun type => ?_)
  exact congrArg (fun suffix => (do value.write; print suffix : Emit Unit))
    (match_kind type ".size()" ".length()" ".length")

theorem updateAs_of_not_map (base index : Term) (update : ElementUpdate Term) {kind : RangeKind}
    (h : ¬kind.IsMap) : updateAs base index update kind = (do
      arraySet base index update
      endStatement) := by
  cases kind with
  | map key value => exact absurd trivial h
  | _ => rfl

theorem elementUpdateNow_eq (base index : Term) (update : ElementUpdate Term) :
    elementUpdateNow base index update =
      sourceType base.source >>= fun type => updateAs base index update (.of type) := by
  refine congrArg (sourceType base.source >>= ·) (funext fun type => ?_)
  cases type with
  | none => rfl
  | some type =>
    cases type with
    | ident name => exact (updateAs_of_not_map base index update (of_name name).1).symm
    | _ => rfl

end Forms

/-! ## Choices of forms -/

/-- The text of the type of an expression. Nothing is written. -/
def typeText (e : Expr) : Emit String := do
  let (_, text) ← inspect (infer .atOnce e)
  return text

section

variable {place : Place} {desk : Desk} {e : Expr}

/-- The text fits what the type that is found is shown as. -/
theorem typeText_fits (hnamed : ∀ f ∈ desk.program.find maxDepth place e,
      (desk.program.shown f.room f.type).ProperlyNamed) :
    match desk.program.find maxDepth place e with
    | none => (typeText e place desk).1 = "Object"
    | some f => (desk.program.shown f.room f.type).Fits (typeText e place desk).1 := by
  let scratch := (scratchCursor place desk.program).place
  let page : Desk := ⟨{ desk.program with drafts := desk.program.drafts.new }, false⟩
  have hopen : page.program.Open scratch.draft :=
    ⟨Nat.lt_of_lt_of_eq (Nat.lt_succ_self _) (Drafts.next_new _).symm, Drafts.isJoined_new_next _⟩
  have hpage : desk.program.SameLore everywhere page.program := desk.program.sameLore_drafts _ _
  have hadds := adds_inferAt (a := place) (b := scratch) maxDepth .atOnce
    ⟨rfl, rfl, rfl⟩ e hpage hopen
  -- The draft that is looked at was empty.
  have hempty : page.program.drafts.text scratch.draft = "" :=
    congrArg (·.text) ((Drafts.draft_new _ _).trans
      (Drafts.draft_of_next_le _ _ (Nat.le_refl _)))
  have htext : (typeText e place desk).1 = foundText (page.program.sight scratch) .atOnce
      (desk.program.find maxDepth place e) := by
    refine hadds.written.trans ?_
    rw [hempty]
    exact String.empty_append.trans String.empty_append
  rw [htext]
  cases hfind : desk.program.find maxDepth place e with
  | none => rfl
  | some f => exact TypeText.fits_piecesAt rfl f.room (hnamed f hfind)

end

/-- Elements, lengths, updates and loops are written in the form of one kind of values. As long as
there is room for all names that are to be followed, it is the form of maps just if the Java type of
the value has the text of a map and no name of the type stands for a pointer, and the same is true
of arrays. If there is not enough room, the type is written as a name. -/
theorem member_forms_follow_type_texts_but_not_through_pointers (e : Expr) (place : Place)
    (desk : Desk) (hnamed : ∀ f ∈ desk.program.find maxDepth place e,
      (desk.program.shown f.room f.type).ProperlyNamed) :
    let p := desk.program
    let text := (typeText e place desk).1
    let kind := of (sourceType e place desk).1
    let after := (sourceType e place desk).2
    (∀ write index, elementNow ⟨e, write⟩ index place desk =
        elementAs write index.write kind place after) ∧
      (∀ write, lengthNow ⟨e, write⟩ place desk = lengthAs write kind place after) ∧
      (∀ write index update, elementUpdateNow ⟨e, write⟩ index update place desk =
        updateAs ⟨e, write⟩ index update kind place after) ∧
      (∀ write key value, rangeHeaderNow ⟨key, value, e⟩ write place desk =
        headerAs ⟨key, value, e⟩ write kind place after) ∧
      (¬p.RunsOut place e →
        (kind.IsMap ↔ Java.IsMapText text ∧ ¬p.HidesPointer place e) ∧
        (kind.IsArray ↔ Java.IsArrayText text ∧ ¬p.HidesPointer place e)) ∧
      (p.RunsOut place e → ¬Java.IsMapText text ∧ ¬Java.IsArrayText text) := by
  refine ⟨fun write index => ?_, fun write => ?_, fun write index update => ?_,
    fun write key value => ?_, ?_⟩
  · rw [elementNow_eq]
    rfl
  · rw [lengthNow_eq]
    rfl
  · rw [elementUpdateNow_eq]
    rfl
  · rw [rangeHeaderNow_eq]
    rfl
  have hfits := typeText_fits hnamed
  rw [sourceType_find]
  unfold Program.RunsOut Program.HidesPointer source?
  cases hfind : desk.program.find maxDepth place e with
  | none =>
    rw [hfind] at hfits
    rw [show (typeText e place desk).1 = "Object" from hfits]
    refine ⟨fun _ => ⟨⟨False.elim, fun h => ?_⟩, ⟨False.elim, fun h => ?_⟩⟩, ?_⟩
    · exact absurd h.1 (by decide)
    · exact absurd h.1 (by decide)
    · rintro ⟨f, hf, -⟩
      cases hf
  | some f =>
    rw [hfind] at hfits
    replace hfits : (desk.program.shown f.room f.type).Fits (typeText e place desk).1 := hfits
    simp only [Option.mem_def, Option.some.injEq, exists_eq_left', Option.map_some]
    rw [isMap_of, isArray_of, hfits.isMapText_iff, hfits.isArrayText_iff]
    refine ⟨fun hsettled => ?_, fun hfollow => ?_⟩
    · have hle := Nat.le_of_lt (find_room hfind)
      rcases unalias_of_settled (not_not.1 hsettled) hle with hpointer | hshown
      · have hother := hpointer.not_map_or_array
        exact ⟨⟨fun h => absurd h hother.1, fun h => absurd hpointer h.2⟩,
          ⟨fun h => absurd h hother.2, fun h => absurd hpointer h.2⟩⟩
      · rw [hshown]
        have hpointer := desk.program.not_isPointer_shown f.room f.type
        exact ⟨⟨fun h => ⟨h, hpointer⟩, And.left⟩, ⟨fun h => ⟨h, hpointer⟩, And.left⟩⟩
    · exact ⟨fun h => hfollow (target?_of_map_or_array (Or.inl h)),
        fun h => hfollow (target?_of_map_or_array (Or.inr h))⟩

/-- A page with a map `m`, and with a pointer `p` to a map that goes by a name. -/
def pointerPage : Program :=
  { mapPage with
    typeNames := .ofList [("P", .star (.mapType (.ident "string") (.ident "int")))]
    scopes := mapPage.scopes.setVar 0 "p" (.ident "P") }

/-- What an action writes on the page. -/
def onPointerPage (x : Emit Unit) : String :=
  (x.result indentedLine.place ⟨pointerPage, false⟩).2.program.drafts.text 0

/-- What the pointer points to. -/
def pointed : Expr := .paren (.star (.ident "p"))

/-- The map and what the pointer points to have the same Java type, but only the map is written with
the members of one. -/
theorem maps_behind_named_pointers_are_indexed_like_arrays :
    let place := indentedLine.place
    let desk : Desk := ⟨pointerPage, false⟩
    let element (e : Expr) := onPointerPage
      (Conversion.run (Conversion.releaseAt 0) (.element e (.lit .string "\"a\"")))
    (pointerPage.HidesPointer place pointed ∧
      (typeText pointed place desk).1 = "Map<String, Integer>" ∧
      ¬(of (sourceType pointed place desk).1).IsMap ∧
      element pointed = "(p)[\"a\"]") ∧
    (¬pointerPage.HidesPointer place (.ident "m") ∧
      (typeText (.ident "m") place desk).1 = "Map<String, Integer>" ∧
      (of (sourceType (.ident "m") place desk).1).IsMap ∧
      element (.ident "m") = "m.get(\"a\")") := by
  have hpointed : pointerPage.find maxDepth indentedLine.place pointed =
      some ⟨.ident "P", 29⟩ := by with_unfolding_all rfl
  have hmap : pointerPage.find maxDepth indentedLine.place (.ident "m") =
      some ⟨.mapType (.ident "string") (.ident "int"), 31⟩ := by
    with_unfolding_all rfl
  have hnamed : ∀ e type room, pointerPage.find maxDepth indentedLine.place e =
      some ⟨type, room⟩ → (pointerPage.shown room type).IsMap →
      ∀ f ∈ pointerPage.find maxDepth indentedLine.place e,
        (pointerPage.shown f.room f.type).ProperlyNamed := by
    intro e type room hfind hmap f hf
    rw [hfind] at hf
    cases hf
    dsimp only
    generalize pointerPage.shown room type = shown at hmap ⊢
    cases shown with
    | mapType key value => trivial
    | _ => exact hmap.elim
  have hends : ∀ e type room, pointerPage.find maxDepth indentedLine.place e =
      some ⟨type, room⟩ → (pointerPage.shown room type).IsMap →
      ¬pointerPage.RunsOut indentedLine.place e := by
    rintro e type room hfind hmap ⟨f, hf, hfollow⟩
    rw [hfind] at hf
    cases hf
    exact hfollow (target?_of_map_or_array (Or.inl hmap))
  have htext : (typeText pointed indentedLine.place ⟨pointerPage, false⟩).1 =
      "Map<String, Integer>" := by decide +kernel
  have htext' : (typeText (.ident "m") indentedLine.place ⟨pointerPage, false⟩).1 =
      "Map<String, Integer>" := by decide +kernel
  have hhides : pointerPage.HidesPointer indentedLine.place pointed := by
    refine ⟨.star (.mapType (.ident "string") (.ident "int")), ?_, trivial⟩
    show pointerPage.source? indentedLine.place pointed = _
    with_unfolding_all rfl
  have hclear : ¬pointerPage.HidesPointer indentedLine.place (.ident "m") := by
    rintro ⟨type, htype, hpointer⟩
    rw [source?, hmap] at htype
    cases htype
    exact hpointer
  obtain ⟨-, -, -, -, hforms, -⟩ := member_forms_follow_type_texts_but_not_through_pointers pointed
    indentedLine.place ⟨pointerPage, false⟩ (hnamed _ _ _ hpointed trivial)
  obtain ⟨-, -, -, -, hforms', -⟩ := member_forms_follow_type_texts_but_not_through_pointers
    (.ident "m") indentedLine.place ⟨pointerPage, false⟩ (hnamed _ _ _ hmap trivial)
  have hiff := (hforms (hends _ _ _ hpointed trivial)).1
  have hiff' := (hforms' (hends _ _ _ hmap trivial)).1
  refine ⟨⟨hhides, htext, fun h => (hiff.1 h).2 hhides, by decide +kernel⟩,
    hclear, htext', hiff'.2 ⟨?_, hclear⟩, by decide +kernel⟩
  rw [htext']
  decide

end GoToJava
