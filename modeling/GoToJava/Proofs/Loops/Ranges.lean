import GoToJava.Proofs.Loops.Texts

/-!
Loops over values. The head of a loop and the first lines of its body declare its variables as they
should just where the names of the variables fit the type of the value. Both find the same type
unless it depends on the variables that the head binds.
-/

namespace GoToJava

open Go (Expr Stmt)
open Emit Conversion Forms Formula RangeKind

namespace Forms

/-! ## Between head and body -/

section

variable {S : Nat → String → Prop} {iterable : Emit Unit}

theorem discreet_bindName {name : Option String} (type : Expr)
    (h : ∀ scope, ∀ n ∈ name, ¬S scope n) : Discreet S (bind name type) := by
  cases name with
  | none => exact discreet_pure _
  | some name => exact discreet_setVar type fun scope => h scope name rfl

theorem discreet_counter (name : String) {limit : Emit Unit} (h : Discreet S limit) :
    Discreet S (counter name limit) :=
  discreet_bind (discreet_print _) fun _ => discreet_bind h fun _ => discreet_print _

theorem discreet_forEach {type values : Emit Unit} (name : String) (ht : Discreet S type)
    (hv : Discreet S values) : Discreet S (forEach type name values) :=
  discreet_bind (discreet_print _) fun _ => discreet_bind ht fun _ =>
    discreet_bind (discreet_print _) fun _ => discreet_bind (discreet_print _) fun _ =>
    discreet_bind (discreet_print _) fun _ => discreet_bind hv fun _ => discreet_print _

theorem discreet_countedHeader {key value : Option String} {limit type values : Emit Unit}
    (element : Expr) (hl : Discreet S limit) (ht : Discreet S type) (hv : Discreet S values)
    (hkey : ∀ scope, ∀ n ∈ key, ¬S scope n) (hvalue : ∀ scope, ∀ n ∈ value, ¬S scope n) :
    Discreet S (countedHeader key value limit type values element) := by
  have hlast : Discreet S (bind value element) := discreet_bindName element hvalue
  cases key with
  | none => exact discreet_bind (discreet_forEach _ ht hv) fun _ => hlast
  | some key =>
    have hcounter : Discreet S (setVar key (.ident "int")) :=
      discreet_setVar _ fun scope => hkey scope key rfl
    exact discreet_bind (discreet_counter _ hl) fun _ => discreet_bind hcounter fun _ => hlast

/-- The head of a loop changes what is known of its own variables only. -/
theorem discreet_rangeHeaderNow {loop : RangeLoop} (hi : Discreet S iterable)
    (hkey : ∀ scope, ∀ n ∈ loop.key, ¬S scope n) (hvalue : ∀ scope, ∀ n ∈ loop.value, ¬S scope n) :
    Discreet S (rangeHeaderNow loop iterable) := by
  have hsuffix : ∀ suffix, Discreet S (do iterable; print suffix) :=
    fun suffix => discreet_bind hi fun _ => discreet_print _
  rw [rangeHeaderNow_eq]
  refine discreet_bind (discreet_sourceType _) fun type => ?_
  cases of type with
  | map key value =>
    exact discreet_bind (discreet_print _) fun _ => discreet_bind (discreet_writeType _ _) fun _ =>
      discreet_bind (discreet_print _) fun _ => discreet_bind (hsuffix _) fun _ =>
      discreet_bind (discreet_bindName _ hkey) fun _ => discreet_bindName _ hvalue
  | array e =>
    exact discreet_countedHeader e (hsuffix _) (discreet_writeType _ _) hi hkey hvalue
  | string =>
    exact discreet_countedHeader _ (hsuffix _) (discreet_print _) (hsuffix _) hkey hvalue
  | integer =>
    exact discreet_bind (discreet_counter _ hi) fun _ => discreet_bindName _ hkey
  | unknown => exact discreet_forEach _ (discreet_print _) hi

end

end Forms

/-- All that the type of the expression depends on has other names than these. -/
def Program.Shuns (p : Program) (names : List String) (scope : Nat) (e : Expr) : Prop :=
  ∃ S : Nat → String → Prop, p.Closed S ∧ e.Spelled (S scope) ∧
    ∀ scope name, S scope name → name ∉ names

/-- The names of a loop's variables. -/
def RangeLoop.own (loop : RangeLoop) : List String := loop.key.toList ++ loop.value.toList

/-- Head and body find the same type if the value does not lead to the loop's own variables. -/
theorem sourceType_after_header (loop : RangeLoop) {release : Release} {place place' : Place}
    {desk desk' : Desk} (hplaces : place.SameSight place') (hfuncs : loop.iterable.LacksFunctions)
    (hshuns : desk.program.Shuns loop.own place.scope loop.iterable)
    (hdesk : (Conversion.run release (.rangeHeader loop) place desk).2.program.SameLore everywhere
      desk'.program) :
    (sourceType loop.iterable place' desk').1 = (sourceType loop.iterable place desk).1 := by
  obtain ⟨S, hclosed, hspelled, hnames⟩ := hshuns
  have hkey : ∀ scope, ∀ n ∈ loop.key, ¬S scope n := by
    intro scope n hn hs
    exact hnames scope n hs (List.mem_append_left _ (Option.mem_toList.2 hn))
  have hvalue : ∀ scope, ∀ n ∈ loop.value, ¬S scope n := by
    intro scope n hn hs
    exact hnames scope n hs (List.mem_append_right _ (Option.mem_toList.2 hn))
  have hheader : Discreet S (Conversion.run release (.rangeHeader loop)) :=
    discreet_rangeHeaderNow (discreet_expr release hfuncs) hkey hvalue
  have hsame := (hheader place desk).trans (hdesk.mono fun _ _ _ => trivial)
  exact (sourceType_congr hplaces hclosed hspelled hsame).symm

/-! ## Loops -/

/-- A loop is its head and its block, and the block starts with the first lines. -/
theorem stmt_range (release : Release) (chained : Bool) (key value : Option Expr) (define : Bool)
    (iterable : Expr) (body : List Stmt) {loop : RangeLoop}
    (hloop : loop = ⟨loopName key, loopName value, iterable⟩) :
    stmt release chained (.range key value define iterable body) = (do
      bind loop.key (.ident "int")
      bind loop.value (.index iterable (.intLit "0"))
      defer (.rangeHeader loop) (Conversion.run release (.rangeHeader loop))
      block do
        defer (.rangeBindings loop) (Conversion.run release (.rangeBindings loop))
        stmts release body
      println "" : Emit Unit) := by
  subst hloop
  rfl

/-- A loop over a value is written as its head and, at the top of its body, its first lines. What
they declare depends on the types that they find. If both find the same, each variable is declared
once and stands for what it should just where the names fit the type. They find the same unless the
value leads to the loop's own variables. -/
theorem loops_declare_their_variables_iff_the_names_fit (n : Nat) (key value : Option Expr)
    (define : Bool) (iterable : Expr) (body : List Stmt) :
    let release := releaseAt n
    let loop : RangeLoop := ⟨loopName key, loopName value, iterable⟩
    let written := expr release none iterable
    let header := Conversion.run release (.rangeHeader loop)
    let bindings := Conversion.run release (.rangeBindings loop)
    (∀ chained, stmt release chained (.range key value define iterable body) = (do
      bind loop.key (.ident "int")
      bind loop.value (.index iterable (.intLit "0"))
      defer (.rangeHeader loop) header
      block do
        defer (.rangeBindings loop) bindings
        stmts release body
      println "" : Emit Unit)) ∧
    ∀ (place place' : Place) (desk desk' : Desk), desk.program.Open place.draft →
      desk'.program.Open place'.draft →
      let kind := of (sourceType iterable place desk).1
      let kind' := of (sourceType iterable place' desk').1
      (place.SameSight place' → iterable.LacksFunctions →
        desk.program.Shuns loop.own place.scope iterable →
        (header place desk).2.program.SameLore everywhere desk'.program → kind' = kind) ∧
      ∃ type text keyType valueType text',
        kind.HeadType place desk.program type ∧ Wording place desk.program written text ∧
        AddsAt place desk header ((loop.head kind type).text text) ∧
        kind'.BodyTypes place' desk'.program keyType valueType ∧
        Wording place' desk'.program written text' ∧
        LinesAt place' desk' bindings
          ((loop.declarations kind' keyType valueType).map (·.text text')) ∧
        (kind' = kind → (loop.Declared kind ((loop.head kind type).names
          (loop.declarations kind' keyType valueType)) ↔ loop.Fits kind)) := by
  have hworded : Worded (expr (releaseAt n) none iterable) :=
    worded_expr n iterable
  refine ⟨fun chained => stmt_range _ chained key value define iterable body rfl,
    fun place place' desk desk' hopen hopen' => ⟨?_, ?_⟩⟩
  · intro hplaces hfuncs hshuns hdesk
    exact congrArg of (sourceType_after_header
      ⟨loopName key, loopName value, iterable⟩ hplaces hfuncs hshuns hdesk)
  · obtain ⟨_, ⟨type, text, htype, htext, rfl⟩, hhead⟩ :=
      addsAt_rangeHeaderNow ⟨loopName key, loopName value, iterable⟩ hworded hopen
    obtain ⟨_, ⟨keyType, valueType, text', htypes, htext', rfl⟩, hlines⟩ :=
      linesAt_rangeBindingsNow ⟨loopName key, loopName value, iterable⟩ hworded
        hopen'
    refine ⟨type, text, keyType, valueType, text', htype, htext, hhead, htypes, htext', hlines, ?_⟩
    intro hsame
    rw [hsame]
    exact RangeLoop.declared_iff _ _ type keyType valueType

/-- The type of a name is looked up among the variables. -/
theorem sourceType_ident {place : Place} {desk : Desk} {name : String}
    (hname : name ∉ ["true", "false", "iota", "nil"]) :
    (desk.program.scopes.var place.scope name = none →
      (sourceType (.ident name) place desk).1 = none) ∧
    ∀ key value, desk.program.scopes.var place.scope name = some (.mapType key value) →
      (sourceType (.ident name) place desk).1 = some (.mapType key value) := by
  have hsource : (sourceType (.ident name) place desk).1 =
      let scratch := (scratchCursor place desk.program).place
      let p := { desk.program with drafts := desk.program.drafts.new }
      let r := (Inference.moveIdent p scratch name).run (inferAt 31) (Inference.knownAt 31) .atOnce
        scratch ⟨p, false⟩
      r.1.map fun t => r.2.program.unalias t.stripPointer := rfl
  have hscope : (scratchCursor place desk.program).place.scope = place.scope := rfl
  simp only [List.mem_cons, List.not_mem_nil, or_false, not_or] at hname
  rw [hsource]
  unfold Inference.moveIdent
  simp only [hname, beq_iff_eq, Bool.or_eq_true, or_self, if_false, hscope]
  refine ⟨fun hvar => ?_, fun key value hvar => ?_⟩
  · rw [hvar]
    rfl
  · rw [hvar]
    rfl

theorem var_mapPage (scope : Nat) (name : String) : mapPage.scopes.var scope name =
    if scope = 0 ∧ name = "m" then some (.mapType (.ident "string") (.ident "int")) else none := by
  by_cases hm : name = "m"
  · subst hm
    unfold Scopes.var
    cases scope <;> rfl
  · rw [if_neg fun h => hm h.2]
    rw [show mapPage.scopes.var scope name = _ from Scopes.var_setVar_of_ne _ 0 _ hm _]
    unfold Scopes.var
    cases scope <;> rfl

/-- The type of a name on the page leads to the map and its types. -/
theorem shuns_mapPage {own : List String} {x : String}
    (h : ∀ name ∈ [x, "string", "int"], name ∉ own) : mapPage.Shuns own 0 (.ident x) := by
  refine ⟨fun _ name => name ∈ [x, "string", "int"], ⟨?_, ?_⟩, ?_, fun _ => h⟩
  · intro scope name e _ he
    rw [var_mapPage, Option.ite_none_right_eq_some] at he
    obtain ⟨-, he⟩ := he
    cases he
    exact ⟨by simp [Expr.Spelled], by simp [Expr.Spelled]⟩
  · intro place name unit field e _ hunit _
    cases hunit
  · simp [Expr.Spelled]

/-- A loop with a key and a value. -/
def pairsOf (key iterable : String) : RangeLoop := ⟨some key, some "v", .ident iterable⟩

/-- How the head and the first lines of a loop are written on the page, one after the other. -/
def WrittenOnMapPage (loop : RangeLoop) (kind : RangeKind) (declared : Prop) : Prop :=
  let place := indentedLine.place
  let header := Conversion.run (releaseAt 0) (.rangeHeader loop)
  let bindings := Conversion.run (releaseAt 0) (.rangeBindings loop)
  ∃ type keyType valueType text text',
    AddsAt place ⟨mapPage, false⟩ header ((loop.head kind type).text text) ∧
    LinesAt place (header place ⟨mapPage, false⟩).2 bindings
      ((loop.declarations kind keyType valueType).map (·.text text')) ∧
    (loop.Declared kind ((loop.head kind type).names (loop.declarations kind keyType valueType)) ↔
      declared)

/-- Keys and values of a map are declared, but not if one has the name of the entry; and a key is
not declared at all if nothing is known of the value. -/
theorem keys_need_another_name_and_a_known_type :
    let release := releaseAt 0
    WrittenOnMapPage (pairsOf "k" "m") (.map (.ident "string") (.ident "int")) True ∧
    (WrittenOnMapPage (pairsOf "entry" "m") (.map (.ident "string") (.ident "int")) False ∧
      onMapPage (Conversion.run release (.rangeHeader (pairsOf "entry" "m"))) =
        "for (Map.Entry<String, Integer> entry : m.entrySet())" ∧
      onMapPage (Conversion.run release (.rangeBindings (pairsOf "entry" "m"))) =
        "String entry = entry.getKey();\n\t\tint v = entry.getValue();\n") ∧
    (WrittenOnMapPage (pairsOf "k" "x") .unknown False ∧
      onMapPage (Conversion.run release (.rangeHeader (pairsOf "k" "x"))) = "for (Object v : x)" ∧
      onMapPage (Conversion.run release (.rangeBindings (pairsOf "k" "x"))) = "") := by
  have hwritten : ∀ (key iterable : String) (kind : RangeKind) (declared : Prop),
      loopName (some (.ident key)) = some key →
      (∀ name ∈ [iterable, "string", "int"], name ∉ [key, "v"]) →
      of (sourceType (.ident iterable) indentedLine.place ⟨mapPage, false⟩).1 =
        kind →
      ((pairsOf key iterable).Fits kind ↔ declared) →
      WrittenOnMapPage (pairsOf key iterable) kind declared := by
    intro key iterable kind declared hkey hnames hkind hfits
    have hopen : mapPage.Open indentedLine.place.draft := ⟨by decide, by decide⟩
    obtain ⟨-, hall⟩ := loops_declare_their_variables_iff_the_names_fit 0 (some (.ident key))
      (some (.ident "v")) true (.ident iterable) []
    rw [hkey] at hall
    obtain ⟨-, _, _, _, _, _, -, -, hadds, -⟩ := hall indentedLine.place
      indentedLine.place ⟨mapPage, false⟩ ⟨mapPage, false⟩ hopen hopen
    obtain ⟨hsame, type, text, keyType, valueType, text', -, -, hhead, -, -, hlines, hdeclared⟩ :=
      hall indentedLine.place indentedLine.place ⟨mapPage, false⟩ _ hopen
        hadds.opened
    have hkinds := hsame ⟨rfl, rfl, rfl⟩ trivial (shuns_mapPage hnames) (.refl _ _)
    have hiff := hdeclared hkinds
    rw [hkinds] at hlines hiff
    rw [hkind] at hhead hlines hiff
    exact ⟨type, keyType, valueType, text, text', hhead, hlines, hiff.trans hfits⟩
  have hmap : (sourceType (.ident "m") indentedLine.place ⟨mapPage, false⟩).1 = _ :=
    (sourceType_ident (by decide)).2 _ _ (var_mapPage 0 "m")
  have hnothing : (sourceType (.ident "x") indentedLine.place ⟨mapPage, false⟩).1 = none :=
    (sourceType_ident (by decide)).1 (var_mapPage 0 "x")
  refine ⟨hwritten _ _ _ _ rfl (by decide) (congrArg _ hmap) ?_,
    ⟨hwritten _ _ _ _ rfl (by decide) (congrArg _ hmap) ?_, ?_, ?_⟩,
    hwritten _ _ _ _ rfl (by decide) (congrArg _ hnothing) ?_, ?_, ?_⟩
  · simp [RangeLoop.Fits, pairsOf]
  · simp [RangeLoop.Fits, pairsOf]
  · decide +kernel
  · decide +kernel
  · simp [RangeLoop.Fits, pairsOf]
  · decide +kernel
  · decide +kernel

end GoToJava
