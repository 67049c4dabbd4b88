import GoToJava.Proofs.Script.Parallel

/-! The steps of writing types, and of inferring them. -/

namespace GoToJava

open Go (Expr Field Signature title)
open Emit Java TypeText

variable {W : Outlook} {tidy : Prop} {name : String} {style : Style} {type e : Expr} {K : Ken}
  {a : List Char}

/-! ## Tables -/

theorem not_isPrimitive {boxed : Bool} (h : primitive? name boxed = none) :
    isPrimitive name = false := by
  unfold isPrimitive Table.contains
  rw [Option.map_eq_none_iff.1 h]
  rfl

theorem plain_primitives (tidy : Prop) : primitives.All fun p =>
    Plain tidy p.plain ∧ Plain tidy p.boxed ∧ ∀ z ∈ p.zero, Plain tidy z := by
  have h : ∀ e ∈ primitives.entries, Unbracketed e.2.plain ∧
      Unbracketed e.2.boxed ∧
      ∀ z ∈ e.2.zero, Unbracketed z := by
    decide +kernel
  exact Table.all_ofList fun e he => ⟨plain_of_chars (h e he).1, plain_of_chars (h e he).2.1,
    fun z hz => plain_of_chars ((h e he).2.2 z hz)⟩

theorem plain_primitive {java : String} {boxed : Bool}
    (h : primitive? name boxed = some java) : Plain tidy java := by
  obtain ⟨p, hp, rfl⟩ := Option.map_eq_some_iff.1 h
  have hplain := plain_primitives tidy name p hp
  split
  · exact hplain.2.1
  · exact hplain.1

theorem types_known (tidy : Prop) : types.All fun form =>
    Plain tidy form.name ∧ ∀ i ∈ form.needs, i ∈ Java.Import.all := by
  have h : ∀ e ∈ types.entries, Unbracketed e.2.name ∧
      ∀ i ∈ e.2.needs, i ∈ Java.Import.all := by
    decide +kernel
  exact Table.all_ofList fun e he => ⟨plain_of_chars (h e he).1, (h e he).2⟩

theorem plain_boxed (h : Plain tidy name) : Plain tidy (boxed name) := by
  unfold boxed
  split
  · exact plain_of_chars (by decide)
  · exact plain_of_chars (by decide)
  · exact plain_of_chars (by decide)
  · exact h

theorem plain_qualified {package : String} (hp : Plain tidy package) (hn : Plain tidy name) :
    Plain tidy (package ++ "." ++ name) :=
  plain_append (plain_append hp (plain_of_chars (by decide))) hn

/-! ## Types -/

namespace TypeText

variable {follow : Follow} {style : Style}

/-- A type that can be written at once: no name in it is put off, or none has to be. -/
def Ready (W : Outlook) (type : Expr) : Prop :=
  ∀ name, type = .ident name → isPrimitive name = false → W.eager

/-- What is written at once whatever is declared is only written when that may be done. -/
def Fair (W : Outlook) (style : Style) : Prop := style.direct = true → W.eager

/-- Following a name to what it stands for takes the same steps. -/
def Follows (W : Outlook) (follow : Follow) : Prop :=
  ∀ f ∈ follow, ∀ target style, target.Spelled (Plain W.tidy) → Fair W style →
    Scripted W (f target style)

theorem scripted_orLater {now : Emit Unit} (hs : Fair W style) (ht : type.Spelled (Plain W.tidy))
    (hn : Ready W type → Scripted W now) : Scripted W (orLater type style now) := by
  unfold orLater
  split
  · split
    · rename_i hprim
      refine hn fun other heq hnot => ?_
      cases heq
      rw [hprim] at hnot
      cases hnot
    · refine fun K a => .defer ht False.elim fun he => hn (fun _ _ _ => ?_) K a
      exact he.elim id hs
  · rename_i hne
    exact hn fun name heq _ => absurd heq (hne name)

theorem scripted_named (hf : Follows W follow) (hs : Fair W style) (hn : Plain W.tidy name)
    (hr : Ready W (.ident name)) : Scripted W (named follow name style) := by
  unfold named
  split
  · rename_i hjava
    exact scripted_print (plain_primitive hjava)
  · rename_i hprim
    have he := hr name rfl (not_isPrimitive hprim)
    refine fun K a => .program fun p q hp _ hlike => ?_
    rw [hlike.typeNames _ (W.clear he _)]
    split
    · rename_i htarget
      exact hf _ rfl _ _ ((W.spelt p hp).typeNames _ _ htarget) hs _ a
    · exact .seq (scripted_refer _ _ _) (scripted_print (plain_title hn) _ a)

theorem scripted_ofArray {e : Style → Emit Unit} (hs : Fair W style) (hm : Scripted W (print mark))
    (he : ∀ {s}, Fair W s → Scripted W (e s)) : Scripted W (ofArray style mark e) := by
  unfold ofArray
  split
  · exact he hs
  · exact scripted_seq (he hs) hm

theorem scripted_map {key value : Emit Unit} (hk : Scripted W key) (hv : Scripted W value) :
    Scripted W (map style key value) := by
  intro K a
  have hrest : ∀ last : Emit Unit, Scripted W last → Parallel W K a a Eq
      (key >>= fun _ => print ", " >>= fun _ => value >>= fun _ => print ">" >>= fun _ => last)
      (key >>= fun _ => print ", " >>= fun _ => value >>= fun _ => print ">" >>= fun _ => last) :=
    fun last hl => .seq (hk K a) (.seq (.word rfl) (.seq (hv K a) (.seq (.word rfl) (hl K a))))
  have hmap : Scripted W (need .map) := scripted_need (by decide)
  unfold map
  split
  · exact .seq (hmap K a) (.seq (.word rfl) (hrest _ (scripted_word rfl)))
  · split
    · refine .seq (scripted_need (by decide) K a) (.seq (hmap K a) (.seq (.word rfl) ?_))
      exact hrest _ (scripted_pure _)
    · exact .seq (hmap K a) (.seq (.word rfl) (hrest _ (scripted_pure _)))

theorem scripted_ofMap {key value : Style → Emit Unit} (hs : Fair W style)
    (hk : ∀ {s}, Fair W s → Scripted W (key s)) (hv : ∀ {s}, Fair W s → Scripted W (value s)) :
    Scripted W (ofMap style key value) := by
  unfold ofMap
  split
  · exact hv hs
  · exact scripted_map (hk hs) (hv hs)

theorem scripted_qualified {package : String} (hp : Plain W.tidy package) (hn : Plain W.tidy name) :
    Scripted W (qualified package name style) := by
  unfold qualified
  dsimp only
  split
  · rename_i form hform
    obtain ⟨hname, hneeds⟩ := types_known W.tidy _ _ hform
    split
    · rename_i i hi
      exact scripted_seq (scripted_need (hneeds i hi)) (scripted_print hname)
    · split
      · exact scripted_print (plain_boxed hname)
      · exact scripted_print hname
  · refine fun K a => .program fun p q _ _ hlike => .read fun place draft _ => ?_
    rw [hlike.importName]
    split
    · exact .seq (scripted_refer _ _ _) (scripted_print hn _ a)
    · exact scripted_print (plain_qualified hp hn) _ a

theorem scripted_reference {param result : Option (Emit Unit)} (hp : ∀ x ∈ param, Scripted W x)
    (hr : ∀ x ∈ result, Scripted W x) : Scripted W (reference param result) := by
  have hvoid : Scripted W (print "Void") := scripted_word rfl
  refine fun K a => .seq (scripted_need (by decide) K a) (.seq (.word rfl) ?_)
  refine .seq (scripted_getD hp hvoid K a) (.seq (.word rfl) ?_)
  exact .seq (scripted_getD hr hvoid K a) (.word rfl)

theorem scripted_signature {params : List (Emit Unit)} {result : Option (Emit Unit)}
    (hp : ∀ x ∈ params, Scripted W x) (hr : ∀ x ∈ result, Scripted W x) :
    Scripted W (signature params result) := by
  refine fun K a => .seq (scripted_getD hr (scripted_word rfl) K a) (.seq (.word rfl) ?_)
  exact .seq (scripted_list hp K _) (.word rfl)

theorem scripted_object : Scripted W (print "Object") := scripted_word rfl

mutual

theorem scripted_now (hf : Follows W follow) {style : Style} (hs : Fair W style) :
    (e : Expr) → e.Spelled (Plain W.tidy) → Ready W e → Scripted W (now follow style e)
  | .ident _, h, hr => scripted_named hf hs h hr
  | .paren e, h, _ | .star e, h, _ => scripted_orLater hs h (scripted_now hf hs e h)
  | .arrayType _ e, h, _ | .ellipsis e, h, _ =>
    scripted_ofArray hs (scripted_word rfl) fun hs => scripted_orLater hs h (scripted_now hf hs e h)
  | .mapType k v, h, _ =>
    scripted_ofMap hs (fun hs => scripted_orLater hs h.1 (scripted_now hf hs k h.1)) fun hs =>
      scripted_orLater hs h.2 (scripted_now hf hs v h.2)
  | .selector base name, h, _ => by
    have hbase := scripted_orLater hs h.1 (scripted_now hf hs base h.1)
    have hmember : Scripted W (do
        orLater base style (now follow style base)
        print "."
        print name) :=
      scripted_seq hbase (scripted_seq (scripted_word rfl) (scripted_print h.2))
    cases base
    case ident package => exact scripted_qualified h.1 h.2
    all_goals exact hmember
  | .funcType sig, h, _ => scripted_ofSignature hf hs sig h
  | .lit .., _, _ | .composite .., _, _ | .funcLit .., _, _ | .index .., _, _ | .slice .., _, _
  | .assert .., _, _ | .call .., _, _ | .unary .., _, _ | .binary .., _, _ | .keyValue .., _, _
  | .structType .., _, _ | .interfaceType .., _, _ | .chanType .., _, _
  | .unsupported .., _, _ => scripted_object

theorem scripted_ofSignature (hf : Follows W follow) {style : Style} (hs : Fair W style) :
    (sig : Signature) → sig.Spelled (Plain W.tidy) → Scripted W (ofSignature follow style sig)
  | .mk params results, h => by
    have hparams := fun {style} (hs : Fair W style) => scripted_ofFields hf hs params h.1
    have hresults := fun {style} (hs : Fair W style) => scripted_ofFields hf hs results h.2
    have hhead : ∀ {fs : List (Nat × Emit Unit)}, (∀ x ∈ fs, Scripted W x.2) →
        ∀ x ∈ fs.head?.map (·.2), Scripted W x := by
      intro fs hfs x hx
      obtain ⟨y, hy, rfl⟩ := Option.map_eq_some_iff.1 hx
      exact hfs y (List.mem_of_head? hy)
    -- The plain styles are not direct.
    have hplain : ∀ s : Style, s.direct = false → Fair W s := by
      intro s hs h
      rw [hs] at h
      cases h
    unfold ofSignature
    split
    · have hs' : Fair W { style.argument with reference := true } := hs
      exact scripted_reference (hhead (hparams hs')) (hhead (hresults hs'))
    · refine scripted_signature ?_ (hhead (hresults (hplain _ rfl)))
      intro x hx
      obtain ⟨y, hy, hxy⟩ := List.mem_flatMap.1 hx
      rw [(List.mem_replicate.1 hxy).2]
      exact hparams (hplain _ rfl) y hy

theorem scripted_ofFields (hf : Follows W follow) {style : Style} (hs : Fair W style) :
    (fs : List Field) → Field.SpelledList (Plain W.tidy) fs →
      ∀ x ∈ ofFields follow style fs, Scripted W x.2
  | [], _, x, hx => by cases hx
  | .mk names type :: rest, h, x, hx => by
    rcases List.mem_cons.1 hx with rfl | hx
    · exact scripted_orLater hs h.1.2 (scripted_now hf hs type h.1.2)
    · exact scripted_ofFields hf hs rest h.2 x hx

end

end TypeText

open TypeText (Fair)

theorem scripted_writeTypeAt (room : Nat) (hs : Fair W style) (ht : type.Spelled (Plain W.tidy)) :
    Scripted W (writeTypeAt room style type) := by
  induction room generalizing style type with
  | zero =>
    exact scripted_orLater hs ht (scripted_now (fun f hf => by cases hf) hs type ht)
  | succ room ih =>
    refine scripted_orLater hs ht (scripted_now ?_ hs type ht)
    intro f hf target style ht hs
    cases hf
    exact ih hs ht

theorem fair_of_not_direct (h : style.direct = false) : Fair W style := by
  intro h'
  rw [h] at h'
  cases h'

theorem scripted_writeType (hd : style.direct = false) (ht : type.Spelled (Plain W.tidy)) :
    Scripted W (writeType style type) :=
  scripted_writeTypeAt _ (fair_of_not_direct hd) ht

theorem scripted_writeTypeNow (he : W.eager) (style : Style) (ht : type.Spelled (Plain W.tidy)) :
    Scripted W (writeTypeNow style type) := by
  refine scripted_now ?_ (fun _ => he) type ht fun _ _ _ => he
  intro f hf target style ht hs
  cases hf
  exact scripted_writeTypeAt _ hs ht

/-! ## Looking things up -/

theorem calls_known (tidy : Prop) : calls.All fun form =>
    Plain tidy form.method ∧ (∀ i ∈ form.needs, i ∈ Java.Import.all) ∧
      (∀ s ∈ form.separator, Plain tidy s) ∧ ∀ r ∈ form.result, Plain tidy r := by
  have h : ∀ e ∈ calls.entries, Unbracketed e.2.method ∧
      (∀ i ∈ e.2.needs, i ∈ Java.Import.all) ∧
      (∀ s ∈ e.2.separator, Unbracketed s) ∧
      ∀ r ∈ e.2.result, Unbracketed r := by
    decide +kernel
  refine Table.all_ofList fun e he => ?_
  obtain ⟨hmethod, hneeds, hseparator, hresult⟩ := h e he
  exact ⟨plain_of_chars hmethod, hneeds, fun s hs => plain_of_chars (hseparator s hs),
    fun r hr => plain_of_chars (hresult r hr)⟩

theorem eq_some_of_orElse {α : Type} {x y : Option α} {v : α} (h : (x <|> y) = some v) :
    x = some v ∨ y = some v := by
  cases x with
  | none => exact Or.inr h
  | some _ => exact Or.inl h

namespace Program.Spelt

variable {p : Program} (hp : p.Spelt tidy)
include hp

theorem localFunc {place : Place} {name : String} {result : Expr}
    (h : p.localFunc? place name = some result) : result.Spelled (Plain tidy) := by
  rcases eq_some_of_orElse h with h | h
  · exact hp.funcs _ _ _ h
  · exact hp.funcs _ _ _ h

theorem importedFunc {place : Place} {package name : String} {result : Expr}
    (h : p.importedFunc? place package name = some result) : result.Spelled (Plain tidy) := by
  obtain ⟨u, -, hget⟩ := Option.bind_eq_some_iff.1 h
  exact hp.symbolFuncs _ _ _ hget

theorem var {scope : Nat} {name : String} {type : Expr} (h : p.scopes.var scope name = some type) :
    type.Spelled (Plain tidy) := by
  fun_induction Scopes.var p.scopes scope name with
  | case1 scope here found hget =>
    cases h
    exact hp.vars scope name _ hget
  | case2 scope here hget parent hparent hlt ih => exact ih h
  | case3 => cases h
  | case4 => cases h

theorem unalias {type : Expr} (ht : type.Spelled (Plain tidy)) :
    (p.unalias type).Spelled (Plain tidy) := by
  unfold Program.unalias
  generalize Program.maxDepth = depth
  fun_induction Program.unalias.go p depth type with
  | case1 => exact ht
  | case2 depth name target htarget hprim => exact ht
  | case3 depth name target htarget hprim ih => exact ih (hp.typeNames _ _ htarget)
  | case4 => exact ht
  | case5 => exact ht

end Program.Spelt

/-! ## Inference -/

namespace Inference

variable {again known : Answer} {K : Ken} {a : List Char} {base e : Expr} {package : String}

/-- The same answer, of which all names have been spelled. -/
def Same (W : Outlook) (v u : Option Expr) : Prop := v = u ∧ ∀ t ∈ v, t.Spelled (Plain W.tidy)

abbrev Answers (W : Outlook) (K : Ken) (a : List Char) (x : Emit (Option Expr)) : Prop :=
  Parallel W K a a (Same W) x x

theorem Answers.eq {x : Emit (Option Expr)} (h : Answers W K a x) : Parallel W K a a Eq x x :=
  .mono h fun _ _ hvu => hvu.1

/-- What answers a type takes the same steps. -/
def Steady (W : Outlook) (answer : Answer) : Prop :=
  ∀ style e, e.Spelled (Plain W.tidy) → ∀ K a, Answers W K a (answer style e)

theorem answers_unknown : Answers W K a unknown :=
  .seq (.word rfl) (.pure ⟨rfl, by simp⟩)

theorem spelled_ident {s : String} (h : Unbracketed s) : (Expr.ident s).Spelled (Plain tidy) :=
  plain_of_chars h

theorem spelled_elementType {type : Option Expr} (h : ∀ t ∈ type, t.Spelled (Plain tidy)) :
    ∀ t ∈ elementType type, t.Spelled (Plain tidy) := by
  intro t ht
  unfold elementType at ht
  split at ht
  · cases ht
    exact (h _ rfl).2
  · cases ht
    have helement := h _ rfl
    exact helement
  · cases ht
    have helement := h _ rfl
    exact helement
  · cases ht
    exact spelled_ident (by decide)
  · cases ht

theorem spelled_held {p : Program} (hp : p.Spelt tidy) {type : Expr}
    (h : type.Spelled (Plain tidy)) : (held p type).Spelled (Plain tidy) := by
  have hunalias := hp.unalias (Go.Expr.spelled_stripPointer h)
  unfold held
  split
  · rename_i heq
    rw [heq] at hunalias
    exact hunalias
  · rename_i heq
    rw [heq] at hunalias
    exact hunalias
  · rename_i heq
    rw [heq] at hunalias
    exact hunalias.2
  · exact hunalias

/-! ### Names in moves -/

section

variable {p : Program} {place : Place} {answer : Option Expr} {t : Expr} (hp : p.Spelt tidy)

theorem spelled_of_known {type : Option Expr} (h : ∀ t ∈ type, t.Spelled (Plain tidy))
    (hm : Move.of type = .known t) : t.Spelled (Plain tidy) := by
  cases type with
  | none => cases hm
  | some type =>
    cases hm
    exact h _ rfl

theorem spelled_foreignType (hpackage : Plain tidy package) (ht : t.Spelled (Plain tidy)) :
    (foreignType package t).Spelled (Plain tidy) := by
  have hstrip := Go.Expr.spelled_stripPointer ht
  unfold foreignType
  split
  · rename_i name hname
    rw [hname] at hstrip
    dsimp only
    split
    · exact Go.Expr.spelled_ofTypeName (plain_qualified hpackage hstrip)
    · exact ht
  · exact ht

theorem spelled_moveTabled {name : String} (h : moveTabled name = .known t) :
    t.Spelled (Plain tidy) := by
  refine spelled_of_known (fun t ht => ?_) h
  obtain ⟨result, hresult, rfl⟩ := Option.map_eq_some_iff.1 ht
  obtain ⟨form, hform, hget⟩ := Option.bind_eq_some_iff.1 hresult
  exact Go.Expr.spelled_ofTypeName ((calls_known tidy _ _ hform).2.2.2 result hget)

theorem spelled_builtin {name : String} {args : List Expr}
    (hargs : ∀ e ∈ args, e.Spelled (Plain tidy)) (h : builtin? name args = some (.known t)) :
    t.Spelled (Plain tidy) := by
  unfold builtin? at h
  split at h
  all_goals first
    | cases h; exact spelled_ident (by decide)
    | cases h; exact hargs _ List.mem_cons_self
    | cases h

include hp

theorem spelled_source? (h : ∀ t ∈ answer, t.Spelled (Plain tidy)) :
    ∀ t ∈ source? p answer, t.Spelled (Plain tidy) := by
  intro t ht
  obtain ⟨type, htype, rfl⟩ := Option.map_eq_some_iff.1 ht
  exact hp.unalias (Go.Expr.spelled_stripPointer (h type htype))

theorem spelled_moveIdent {name : String} (h : moveIdent p place name = .known t) :
    t.Spelled (Plain tidy) := by
  unfold moveIdent at h
  split at h
  · cases h
    exact spelled_ident (by decide)
  split at h
  · cases h
    exact spelled_ident (by decide)
  split at h
  · cases h
  split at h
  · cases h
  · rename_i hbound
    have hnames := hp.var hbound
    repeat' split at h
    all_goals first
      | cases h; exact hnames
      | cases h

theorem spelled_moveSelector {field : String} (hb : base.Spelled (Plain tidy))
    (ha : ∀ t ∈ answer, t.Spelled (Plain tidy))
    (h : moveSelector p place answer base field = .known t) : t.Spelled (Plain tidy) := by
  unfold moveSelector at h
  split at h
  · split at h
    · split at h
      · rename_i type htype
        obtain ⟨unit, -, hget⟩ := Option.bind_eq_some_iff.1 htype
        cases h
        exact spelled_foreignType hb (hp.symbolVars _ _ _ hget)
      · refine spelled_of_known (fun t ht => ?_) h
        obtain ⟨type, htype, rfl⟩ := Option.map_eq_some_iff.1 ht
        exact spelled_foreignType hb (ha type htype)
    · split at h
      · split at h
        · exact spelled_of_known (fun t ht => hp.fields _ _ _ ht) h
        · cases h
      · cases h
  · cases h

theorem spelled_moveMethod {name : String} (h : moveMethod p answer name = .known t) :
    t.Spelled (Plain tidy) := by
  refine spelled_of_known (fun t ht => ?_) h
  obtain ⟨owner, -, hfound⟩ := Option.bind_eq_some_iff.1 ht
  rcases eq_some_of_orElse hfound with hmethod | hfunc
  · obtain ⟨c, -, hget⟩ := Option.bind_eq_some_iff.1 hmethod
    exact hp.methods _ _ _ hget
  · obtain ⟨u, -, hget⟩ := Option.bind_eq_some_iff.1 hfunc
    exact hp.funcs _ _ _ hget

theorem spelled_moveCall {callee : Expr} {args : List Expr} (hc : callee.Spelled (Plain tidy))
    (hargs : ∀ e ∈ args, e.Spelled (Plain tidy))
    (h : moveCall p place answer callee args = .known t) : t.Spelled (Plain tidy) := by
  unfold moveCall at h
  split at h
  · cases h
    exact hc
  split at h
  · split at h
    · cases h
    · split at h
      · rename_i hbuiltin
        subst h
        exact spelled_builtin hargs hbuiltin
      · rename_i hresult
        cases h
        exact hp.localFunc hresult
      · exact spelled_moveTabled h
  · split at h
    · exact spelled_moveMethod hp h
    · split at h
      · rename_i hresult
        cases h
        exact spelled_foreignType hc.1 (hp.importedFunc hresult)
      · exact spelled_moveTabled h
  · exact spelled_moveMethod hp h
  · cases h

/-- A type that is known at once has names that were spelled. -/
theorem spelled_move (hs : e.Spelled (Plain tidy)) (ha : ∀ t ∈ answer, t.Spelled (Plain tidy))
    (h : move p place answer e = .known t) : t.Spelled (Plain tidy) := by
  cases e with
  | lit kind text =>
    cases h
    refine spelled_ident ?_
    cases kind <;> decide
  | unary op e =>
    cases op with
    | not =>
      cases h
      exact spelled_ident (by decide)
    | _ => cases h
  | binary l op r =>
    dsimp only [move] at h
    split at h
    · cases h
      exact spelled_ident (by decide)
    · split at h <;> cases h
  | ident name => exact spelled_moveIdent hp h
  | index base index => exact spelled_of_known (spelled_elementType (spelled_source? hp ha)) h
  | call callee args spread => exact spelled_moveCall hp hs.1 (Go.Expr.spelledList_iff.1 hs.2) h
  | selector base field => exact spelled_moveSelector hp hs.1 ha h
  | composite type elements =>
    cases type with
    | some type =>
      cases h
      exact hs.1
    | none => cases h
  | assert base type =>
    cases type with
    | some type =>
      cases h
      exact hs.2
    | none => cases h
  | funcLit sig body =>
    cases h
    exact hs.1
  | arrayType | mapType | funcType | structType | interfaceType | ellipsis | chanType =>
    cases h
    exact hs
  | paren | star | slice | keyValue | unsupported => cases h

end

/-! ### Steps -/

theorem answers_source (he : W.eager) (hag : Steady W again) (hs : e.Spelled (Plain W.tidy)) :
    Answers W K a (source again e) := by
  refine .bind (.inspect he (hag .atOnce e hs K [])) ?_
  rintro ⟨type, text⟩ ⟨-, -⟩ ⟨⟨rfl, htype⟩, rfl⟩
  refine .program fun p q hp _ hlike => .pure ⟨?_, spelled_source? (W.spelt p hp) htype⟩
  exact (source?_congr (hlike.akin (S := everywhere)) (W.clear he)).symm

theorem asked_eq {settled : String → Prop} {S : Nat → String → Prop} {p q : Program}
    (h : p.Akin settled S q) : asked q again = asked p again := by
  funext asking
  cases asking with
  | none => rfl
  | some next => simp only [asked, abroad_eq h]

theorem answers_asked {p : Program} (he : W.eager) (hag : Steady W again)
    {asking : Option (Option Nat × Expr)} (hs : ∀ unit e, asking = some (unit, e) →
      e.Spelled (Plain W.tidy) ∧ ∀ u ∈ unit, (K.seen p).home u (p.unit u).scope) :
    Answers W (K.seen p) a (asked p again asking) := by
  match asking with
  | none => exact .pure ⟨rfl, by simp⟩
  | some (unit, e) =>
    obtain ⟨hspelled, hhome⟩ := hs unit e rfl
    -- The expression is only looked at, so it makes no difference that its unit is another one.
    let there (place : Place) : Place := if place.scratch then abroad p unit place else place
    have hsteers : W.Steers (K.seen p) there False := by
      refine ⟨fun place draft => ?_, fun place => ?_, fun place => ?_, fun place r => ?_,
        fun place h => ?_⟩
      all_goals
        cases hscratch : place.scratch <;> cases unit <;> simp_all [there, abroad, Outlook.Sees]
    have hlook : Parallel W (K.seen p) a a (fun v u => Same W v.1 u.1 ∧ v.2 = u.2)
        (withReader (abroad p unit) (inspect (again .atOnce e)))
        (withReader (abroad p unit) (inspect (again .atOnce e))) := by
      have hthere := Parallel.inspect (x := withReader there (again .atOnce e))
        (y := withReader there (again .atOnce e)) (a := a) he
        (.within hsteers (hag .atOnce e hspelled _ []))
      cases unit <;> exact hthere
    refine .bind hlook ?_
    rintro ⟨type, text⟩ ⟨-, -⟩ ⟨⟨rfl, htype⟩, rfl⟩
    exact .pure ⟨rfl, htype⟩

theorem answers_step (style : Style) (he : W.eager) (hag : Steady W again) (hk : Steady W known)
    (hs : e.Spelled (Plain W.tidy)) : Answers W K a (step again known style e) := by
  have hnames : ∀ scope, e.Spelled (everywhere scope) := fun _ => e.spelled_of_all fun _ => trivial
  refine .program fun p q hp _ hlike => .read fun place draft _ => ?_
  have hquestion : question q { place with draft } e = question p place e :=
    question_congr (W.clear he) hlike.akin ⟨rfl, rfl, rfl⟩ (hnames _)
  rw [hquestion, asked_eq (hlike.akin (S := everywhere))]
  refine .bind (answers_asked he hag fun unit next hnext => ?_) ?_
  · rcases question_cases hs hnext with ⟨rfl, hpart⟩ | ⟨package, field, u, -, rfl, hunit, hvalue⟩
    · exact ⟨hpart, nofun⟩
    · refine ⟨(W.spelt p hp).symbolValues _ _ _ hvalue, ?_⟩
      rintro _ ⟨⟩
      obtain ⟨i, -, hget⟩ := Option.bind_eq_some_iff.1 hunit
      exact Or.inr ⟨⟨_, hget⟩, rfl⟩
  rintro answer _ ⟨rfl, hanswer⟩
  refine .program fun p q hp _ hlike => .read fun place draft _ => ?_
  have hmoves : move q { place with draft } answer e = move p place answer e :=
    move_congr (W.clear he) p.closed_everywhere hlike.akin ⟨rfl, rfl, rfl⟩ (hnames _)
  have hspelt := W.spelt p hp
  rw [hmoves]
  cases hmove : move p place answer e with
  | unknown => exact answers_unknown
  | known type => exact hk style type (spelled_move hspelt hs hanswer hmove) _ a
  | again next => exact hag style next (spelled_of_again (fun _ _ _ => hspelt.var) hs hmove) _ a

end Inference

open Inference (Answers)

theorem steady_inferAt (he : W.eager) (room : Nat) : Inference.Steady W (inferAt room) := by
  induction room with
  | zero => exact fun _ _ _ _ _ => Inference.answers_unknown
  | succ room ih =>
    intro style e hs K a
    unfold inferAt
    refine Inference.answers_step style he ih (fun style type ht K a => ?_) hs
    refine .seq (scripted_writeTypeAt room (fun _ => he) ht K a) (.program fun p q hp _ hlike => ?_)
    have hheld : Inference.held q type = Inference.held p type := by
      simp only [Inference.held, (hlike.akin (S := everywhere)).unalias_of_all (W.clear he)]
    refine .pure ⟨by rw [hheld], ?_⟩
    rintro t ⟨⟩
    split
    · exact Inference.spelled_held (W.spelt p hp) ht
    · exact ht

theorem answers_infer (he : W.eager) (style : Style) (hs : e.Spelled (Plain W.tidy)) :
    Answers W K a (infer style e) :=
  steady_inferAt he _ style e hs K a

theorem answers_sourceType (he : W.eager) (hs : e.Spelled (Plain W.tidy)) :
    Answers W K a (sourceType e) :=
  Inference.answers_source he (steady_inferAt he _) hs

end GoToJava
