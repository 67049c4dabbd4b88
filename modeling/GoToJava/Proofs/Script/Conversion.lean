import GoToJava.Conversion
import GoToJava.Proofs.Script.Declaration

/-!
The steps of converting syntax. Whatever keeps the rules is converted in the same steps in alike
programs, by induction over the syntax.
-/

namespace GoToJava

open Go (Expr Stmt Spec GenDecl CaseClause FuncDecl Decl)
open Emit

variable {W : Outlook} {K : Ken} {a : List Char}

namespace Conversion

variable {release : Release}

/-! ## Forms with parts that may be absent -/

theorem expr_slice (implied : Option Expr) (base : Expr) (low high : Option Expr) :
    expr release implied (.slice base low high) =
      Forms.slice ⟨base, expr release none base⟩ (low.map fun e => ⟨e, expr release none e⟩)
        (high.map fun e => ⟨e, expr release none e⟩) := by
  cases low <;> cases high <;> rfl

section

variable (chained : Bool)

theorem stmt_for (init : Option Stmt) (cond : Option Expr) (post : Option Stmt)
    (body : List Stmt) : stmt release chained (.for init cond post body) =
      Forms.forLoop (init.map (stmt release false)) (cond.map (expr release none))
        (post.map (stmt release false)) (stmts release body) := by
  cases init <;> cases cond <;> cases post <;> rfl

theorem stmt_ifElse_some (s : Stmt) (cond : Expr) (body : List Stmt)
    (alternative : Option Stmt) :
    stmt release chained (.ifElse (some s) cond body alternative) = (do
      stmt release false s
      stmt release chained (.ifElse none cond body alternative)) := by
  cases alternative with
  | none => rfl
  | some t =>
    cases t with
    | ifElse init _ _ _ => cases init <;> rfl
    | _ => rfl

theorem stmt_switch_some (s : Stmt) (tag : Option Expr) (cs : List CaseClause) :
    stmt release chained (.switch (some s) tag cs) = (do
      stmt release false s
      stmt release chained (.switch none tag cs)) := by
  cases tag <;> rfl

/-- A call in a thread of its own. A function literal becomes the thread's body. -/
theorem scripted_go {call : Expr} (hc : Scripted W (expr release none call))
    (hb : ∀ sig body spread, call = .call (.funcLit sig body) [] spread →
      ScriptedIn W (stmts release body)) : ScriptedIn W (stmt release chained (.go call)) := by
  have hend : ∀ K a, Parallel W K (')' :: a) a Eq (do print ").start()"; endStatement)
      (do print ").start()"; endStatement) :=
    fun K a => .seq (.word rfl) (scripted_endStatement K a)
  have hcall : ∀ x, x = (do
      print "new Thread(() ->"
      print " "
      expr release none call
      print ").start()"
      endStatement) → ScriptedIn W x := by
    rintro x rfl K a -
    exact .seq (.word rfl) (.seq (.word rfl) (.seq (hc K _) (hend K a)))
  cases call with
  | call callee args spread =>
    cases callee with
    | funcLit sig body =>
      cases args with
      | nil =>
        intro K a hbinds
        refine .seq (.word rfl) (.seq ?_ (hend K a))
        exact Forms.scripted_block (hb sig body spread rfl) K _ hbinds
      | cons => exact hcall _ rfl
    | _ => exact hcall _ rfl
  | _ => exact hcall _ rfl

/-- What follows the body of an if statement, and the statement without what comes before. -/
theorem scripted_condition {cond : Expr} {body : List Stmt} {alternative : Option Stmt}
    (hc : Scripted W (expr release none cond))
    (hb : ScriptedIn W (stmts release body))
    (ha : ∀ s ∈ alternative, ∀ chained, ScriptedIn W (stmt release chained s))
    (hab : ∀ inner, alternative = some (.block inner) → ScriptedIn W (stmts release inner)) :
    ScriptedIn W (stmt release chained (.ifElse none cond body alternative)) := by
  intro K a hbinds
  have hblock : ∀ {x : Emit Unit}, ScriptedIn W x →
      Parallel W K a a Eq (Forms.block x) (Forms.block x) :=
    fun h => Forms.scripted_block h K a hbinds
  have hline : Parallel W K a a Eq (if chained = true then pure () else println "")
      (if chained = true then pure () else println "") := by
    split
    · exact .pure rfl
    · exact .line rfl
  have hstart : ∀ rest : Emit Unit, Parallel W K a a Eq rest rest → ∀ x, x = (do
      print "if ("
      expr release none cond
      print ")"
      Forms.block (stmts release body)
      rest) → Parallel W K a a Eq x x := by
    rintro rest hrest x rfl
    exact .seq (.word rfl) (.seq (hc K _) (.seq (.word rfl) (.seq (hblock hb) hrest)))
  cases alternative with
  | none => exact hstart _ hline _ rfl
  | some s =>
    have hs := ha s rfl
    have helse := Parallel.seq (x := print " else") (.word rfl) (.seq (hblock (hs false)) hline)
    cases s with
    | block inner =>
      refine hstart _ ?_ _ rfl
      exact .seq (.word rfl) (.seq (hblock (hab inner rfl)) hline)
    | ifElse init cond body alternative =>
      cases init with
      | none =>
        refine hstart _ ?_ _ rfl
        exact .seq (.word rfl) (.seq (hs true K a hbinds) hline)
      | some _ => exact hstart _ helse _ rfl
    | _ => exact hstart _ helse _ rfl

theorem scripted_switch {tag : Option Expr} {cs : List CaseClause}
    (ht : ∀ e ∈ tag, Scripted W (expr release none e)) (hc : ∀ c ∈ cases release cs, c.Steady W) :
    ScriptedIn W (stmt release chained (.switch none tag cs)) := by
  cases tag with
  | none => exact Forms.scripted_conditions hc
  | some e => exact Forms.scripted_switch (ht e rfl) hc

end

/-! ## Lines of declarations -/

theorem length_terms (es : List Expr) : (terms release es).length = es.length := by
  induction es with
  | nil => rfl
  | cons e es ih => exact congrArg (· + 1) ih

theorem head_terms {es : List Expr} {t : Term} (h : t ∈ (terms release es).head?) :
    t.source ∈ es.head? := by
  cases es with
  | nil => cases h
  | cons e es =>
    cases h
    rfl

theorem parallel_numbered (hd : W.declares) (index : Nat) {x y : Emit Unit}
    (hx : Parallel W K a a Eq x x) (hy : Parallel W K a a Eq y y) :
    ∀ z, z = (do
      note (.iota (some index))
      x
      note (.iota none)
      y) → Parallel W K a a Eq z z := by
  rintro z rfl
  by_cases hcounts : W.counts
  · refine .seq (.note ⟨hd, Or.inr hcounts⟩) (.seq hx ?_)
    exact .seq (.note ⟨hd, Or.inl rfl⟩) hy
  · have hnumbered := Parallel.seq (.numbered index hcounts hx) hy
    exact hnumbered

/-- A constant without values repeats the type and the values of the line before. -/
theorem scripted_valueSpecs (isConst local_ : Bool) {specs : List Spec} {group : Forms.ConstGroup}
    (hd : W.declares) (index : Nat) (hgt : ∀ t ∈ group.type, t.Spelled (Plain W.tidy))
    (hg : ∀ v ∈ group.values, v.Steady W)
    (hrules : W.rules.values isConst group.type group.values.length specs)
    (hs : ∀ s ∈ specForms release specs, s.Steady W) :
    ScriptedIn W (Forms.valueSpecs isConst local_ index group (specForms release specs)) := by
  induction specs generalizing index group with
  | nil => exact (scripted_pure _).inner
  | cons spec specs ih =>
    cases spec with
    | type name type isAlias =>
      exact ih _ hgt hg hrules fun s h => hs s (List.mem_cons_of_mem _ h)
    | value names type values =>
      intro K a hb
      have hrest : ∀ s ∈ specForms release specs, s.Steady W :=
        fun s h => hs s (List.mem_cons_of_mem _ h)
      obtain ⟨hnames, hown, hvalues⟩ : SpecForm.Steady W
        (.value names type (terms release values)) :=
        hs _ List.mem_cons_self
      obtain ⟨hhere, hnext⟩ := hrules
      have hempty : (terms release values).isEmpty = values.isEmpty := by cases values <;> rfl
      have hgiven : ∀ v ∈ (if isConst && (terms release values).isEmpty then group.values
          else terms release values), v.Steady W := by
        intro v hv
        split at hv
        · exact hg v hv
        · exact hvalues v hv
      have hlength : (if isConst && (terms release values).isEmpty then group.values
          else terms release values).length =
          if isConst && values.isEmpty then group.values.length else values.length := by
        rw [hempty]
        split
        · rfl
        · exact length_terms values
      have htype : (if isConst && (terms release values).isEmpty then type <|> group.type
          else type) = if isConst && values.isEmpty then type <|> group.type else type := by
        rw [hempty]
      have hspelled : ∀ t ∈ (if isConst && (terms release values).isEmpty then type <|> group.type
          else type), t.Spelled (Plain W.tidy) := by
        intro t ht
        split at ht
        · rcases eq_some_of_orElse ht with h | h
          · exact hown t h
          · exact hgt t h
        · exact hown t ht
      have hgroup := Forms.scripted_variableGroup isConst local_ hd hnames hspelled hgiven
        (by rw [hlength, htype]; exact fun h t ht => W.literal t (hhere h t ht)) K a hb
      unfold Forms.valueSpecs
      cases isConst with
      | true =>
        refine parallel_numbered hd index hgroup (ih _ hspelled hgiven ?_ hrest K a hb) _ rfl
        simp only [if_true, hlength, htype]
        exact hnext
      | false =>
        refine .seq hgroup (.seq (.note (n := .iota none) ⟨hd, Or.inl rfl⟩) ?_)
        exact ih _ hgt hg hnext hrest K a hb

theorem scripted_genForms (hr : Release.Steady W release) (local_ : Bool) (kind : Go.GenKind)
    {specs : List Spec} (hvar : kind = .var → W.rules.values false none 0 specs)
    (hconst : kind = .const → W.rules.values true none 0 specs)
    (hs : ∀ s ∈ specForms release specs, s.Steady W) :
    ScriptedIn W (Forms.genDecl release local_ kind (specForms release specs)) := by
  have hnil : ∀ v ∈ ([] : List Term), v.Steady W := by simp
  have hnone : ∀ t ∈ (none : Option Expr), t.Spelled (Plain W.tidy) := by simp
  cases kind with
  | type =>
    refine Scripted.inner (scripted_forM fun spec hmem => ?_)
    have hspec := hs spec hmem
    cases spec with
    | type name type isAlias => exact Forms.scripted_typeSpec hr hspec.1 hspec.2.1 hspec.2.2
    | value names type values => exact scripted_pure _
  | var => exact scripted_valueSpecs false local_ hr.declares 0 hnone hnil (hvar rfl) hs
  | const => exact scripted_valueSpecs true local_ hr.declares 0 hnone hnil (hconst rfl) hs

/-! ## All syntax -/

theorem scripted_typeExpr (type : Expr) (hs : type.Spelled (Plain W.tidy)) :
    Scripted W (writeType .references type) :=
  scripted_writeType rfl hs

mutual

/-- An expression without function literals needs nothing that is declared. -/
theorem scripted_expr {implied : Option Expr} (hi : ∀ t ∈ implied, W.Fits t) :
    (e : Expr) → Release.Steady W release ∨ e.LacksFunctions → e.Obeys W.rules →
      e.Spelled (Plain W.tidy) → Scripted W (expr release implied e)
  | .ident _, _, _, hs => Forms.scripted_ident hs
  | .lit kind _, _, _, hs => Forms.scripted_literal kind hs
  | .composite type es, hr, h, hs =>
    Forms.scripted_composite
      (fun t ht => ⟨W.literal t (h.1 t ht), Go.Expr.spelledOption_iff.1 hs.1 t ht⟩) hi
      (steady_elements es hr h.2 hs.2)
  | .funcLit sig body, hr, h, hs =>
    have hr := hr.resolve_right id
    Forms.scripted_funcLit hr.declares hs.1 (scripted_stmts hr body h hs.2)
  | .paren e, hr, h, hs => by
    have he : Scripted W (expr release none e) := scripted_expr fits_none e hr h hs
    exact fun K _ => .seq (.word rfl) (.seq (he K _) (.word rfl))
  | .selector base field, hr, h, hs => by
    have hbase : Scripted W (expr release none base) := scripted_expr fits_none base hr h hs.1
    exact scripted_seq hbase (scripted_seq (scripted_word rfl) (scripted_print hs.2))
  | .index base index, hr, h, hs =>
    Forms.scripted_element ⟨hs.1, scripted_expr fits_none base (hr.imp_right (·.1)) h.1 hs.1⟩
      ⟨hs.2, scripted_expr fits_none index (hr.imp_right (·.2)) h.2 hs.2⟩
  | .slice base low high, hr, h, hs => by
    have hlow := steady_option low (hr.imp_right (·.2.1)) h.2.1 hs.2.1
    have hhigh := steady_option high (hr.imp_right (·.2.2)) h.2.2 hs.2.2
    rw [expr_slice]
    have hbase := scripted_expr fits_none base (hr.imp_right (·.1)) h.1 hs.1
    exact Forms.scripted_slice ⟨hs.1, hbase⟩ hlow hhigh
  | .assert base (some type), hr, h, hs =>
    Forms.scripted_cast rfl hs.2 (scripted_expr fits_none base hr h hs.1)
  | .assert base none, hr, h, hs => scripted_expr fits_none base hr h hs.1
  | .call callee args _, hr, h, hs => by
    have hcallee := scripted_expr fits_none callee (hr.imp_right (·.1)) h.1 hs.1
    have hargs := steady_terms args (hr.imp_right (·.2)) h.2.1 hs.2
    refine Forms.scripted_call ⟨hs.1, hcallee⟩ hargs ?_ ?_
    · intro hlength
      rw [length_terms] at hlength
      exact W.callee _ (h.2.2.1 hlength)
    · intro hmake t ht
      exact W.literal _ (h.2.2.2 hmake _ (head_terms ht))
  | .star e, hr, h, hs => by
    have he : Scripted W (expr release none e) := scripted_expr fits_none e hr h hs
    exact he
  | .unary op e, hr, h, hs => by
    have hsigned : ∀ op, Scripted W (do
        print (Forms.unaryToken op)
        expr release none e) := fun op =>
      scripted_seq (scripted_print (Forms.plain_unaryToken op)) (scripted_expr fits_none e hr h hs)
    cases op with
    | addr => exact scripted_seq (scripted_word rfl) (scripted_expr hi e hr h hs)
    | pos => exact hsigned .pos
    | neg => exact hsigned .neg
    | not => exact hsigned .not
    | bitNot => exact hsigned .bitNot
    | recv => exact hsigned .recv
  | .binary l op r, hr, h, hs =>
    Forms.scripted_binary op (scripted_expr fits_none l (hr.imp_right (·.1)) h.1 hs.1)
      (scripted_expr fits_none r (hr.imp_right (·.2)) h.2 hs.2)
  | .keyValue _ value, hr, h, hs =>
    scripted_expr fits_none value (hr.imp_right (·.2)) h.2 hs.2
  | .unsupported _, _, _, _ => scripted_word rfl
  | .arrayType n e, _, _, hs => scripted_typeExpr (.arrayType n e) hs
  | .mapType k v, _, _, hs => scripted_typeExpr (.mapType k v) hs
  | .funcType sig, _, _, hs => scripted_typeExpr (.funcType sig) hs
  | .structType fields, _, _, hs => scripted_typeExpr (.structType fields) hs
  | .interfaceType fields, _, _, hs => scripted_typeExpr (.interfaceType fields) hs
  | .ellipsis e, _, _, hs => scripted_typeExpr (.ellipsis e) hs
  | .chanType e, _, _, hs => scripted_typeExpr (.chanType e) hs

theorem steady_option : (o : Option Expr) →
    Release.Steady W release ∨ Expr.OptionLacksFunctions o → Expr.ObeysOption W.rules o →
      Expr.SpelledOption (Plain W.tidy) o →
      ∀ t ∈ o.map (fun e => (⟨e, expr release none e⟩ : Term)), t.Steady W
  | none, _, _, _, t, ht => by cases ht
  | some e, hr, h, hs, t, ht => by
    cases ht
    exact ⟨hs, scripted_expr fits_none e hr h hs⟩

theorem steady_terms : (es : List Expr) →
    Release.Steady W release ∨ Expr.AllLackFunctions es → Expr.ObeysList W.rules es →
      Expr.SpelledList (Plain W.tidy) es → ∀ t ∈ terms release es, t.Steady W
  | [], _, _, _, t, ht => by cases ht
  | e :: es, hr, h, hs, t, ht => by
    rcases List.mem_cons.1 ht with rfl | ht
    · exact ⟨hs.1, scripted_expr fits_none e (hr.imp_right (·.1)) h.1 hs.1⟩
    · exact steady_terms es (hr.imp_right (·.2)) h.2 hs.2 t ht

theorem steady_elements : (es : List Expr) →
    Release.Steady W release ∨ Expr.AllLackFunctions es → Expr.ObeysList W.rules es →
      Expr.SpelledList (Plain W.tidy) es → ∀ x ∈ elements release es, x.Steady W
  | [], _, _, _, x, hx => by cases hx
  | e :: es, hr, h, hs, x, hx => by
    have hrest := steady_elements es (hr.imp_right (·.2)) h.2 hs.2
    have hfirst : Release.Steady W release ∨ e.LacksFunctions := hr.imp_right (·.1)
    have he : SteadyPart W fun implied => expr release implied e :=
      fun implied hi => scripted_expr hi e hfirst h.1 hs.1
    match e, hfirst, h.1, hs.1, he, hx with
    | .keyValue k v, hkv, h, hs, _, hx =>
      rcases List.mem_cons.1 hx with rfl | hx
      · exact ⟨fun implied hi => scripted_expr hi k (hkv.imp_right (·.1)) h.1 hs.1,
          fun implied hi => scripted_expr hi v (hkv.imp_right (·.2)) h.2 hs.2⟩
      · exact hrest x hx
    | .ident _, _, _, _, he, hx | .lit _ _, _, _, _, he, hx | .composite _ _, _, _, _, he, hx
    | .funcLit _ _, _, _, _, he, hx | .paren _, _, _, _, he, hx | .selector _ _, _, _, _, he, hx
    | .index _ _, _, _, _, he, hx | .slice _ _ _, _, _, _, he, hx | .assert _ _, _, _, _, he, hx
    | .call _ _ _, _, _, _, he, hx | .star _, _, _, _, he, hx | .unary _ _, _, _, _, he, hx
    | .binary _ _ _, _, _, _, he, hx | .arrayType _ _, _, _, _, he, hx
    | .mapType _ _, _, _, _, he, hx | .funcType _, _, _, _, he, hx
    | .structType _, _, _, _, he, hx | .interfaceType _, _, _, _, he, hx
    | .ellipsis _, _, _, _, he, hx | .chanType _, _, _, _, he, hx
    | .unsupported _, _, _, _, he, hx =>
      rcases List.mem_cons.1 hx with rfl | hx
      · exact he
      · exact hrest x hx

theorem scripted_stmt (hr : Release.Steady W release) (chained : Bool) :
    (s : Stmt) → s.Obeys W.rules → s.Spelled (Plain W.tidy) →
      ScriptedIn W (stmt release chained s)
  | .decl d, h, hs => scripted_genDecl hr true d h hs
  | .empty, _, _ | .unsupported _, _, _ => (scripted_pure _).inner
  | .labeled label s, h, hs => by
    have hstmt := scripted_stmt hr false s h hs.2
    exact fun K a hb => .seq (scripted_print hs.1 K a) (.seq (.word rfl) (hstmt K a hb))
  | .expr e, h, hs =>
    Scripted.inner (scripted_seq (scripted_expr fits_none e (.inl hr) h hs) scripted_endStatement)
  | .incDec e up, h, hs =>
    Scripted.inner (Forms.scripted_incDec up
      ⟨⟨hs, scripted_expr fits_none e (.inl hr) h hs⟩, steady_elementOf hr e h hs⟩)
  | .assign lhs op rhs, h, hs =>
    Forms.scripted_assign op (steady_targets hr lhs h.1 hs.1) (steady_terms rhs (.inl hr) h.2 hs.2)
  | .go call, h, hs => by
    refine scripted_go chained (scripted_expr fits_none call (.inl hr) h hs) ?_
    cases call with
    | call callee args spread =>
      cases callee with
      | funcLit sig body =>
        have hbody := scripted_stmts hr body h.1 hs.1.2
        intro _ _ _ heq
        cases heq
        exact hbody
      | _ =>
        intro _ _ _ heq
        cases heq
    | _ =>
      intro _ _ _ heq
      cases heq
  | .defer call, _, hs => Scripted.inner (Forms.scripted_deferredCall hs)
  | .return values, h, hs =>
    Scripted.inner (Forms.scripted_returns
      (fun hne => hr.conforms (h.1 fun hnil => hne (by rw [hnil]; rfl)))
      (steady_terms values (.inl hr) h.2 hs))
  | .branch kind label, _, hs => Scripted.inner (Forms.scripted_branch kind hs)
  | .block body, h, hs => by
    have hbody := scripted_stmts hr body h hs
    exact fun K a hb => .seq (.line rfl) (.seq (Forms.parallel_blockLines hb hbody) (.line rfl))
  | .ifElse init cond body alternative, h, hs => by
    have hinit := scripted_before hr init h.1 hs.1
    have halternative := scripted_before hr alternative h.2.2.2 hs.2.2.2
    -- The statement before the condition is written first, on its own.
    have hrest : ScriptedIn W (stmt release chained (.ifElse none cond body alternative)) := by
      refine scripted_condition chained (scripted_expr fits_none cond (.inl hr) h.2.1 hs.2.1)
        (scripted_stmts hr body h.2.2.1 hs.2.2.1) halternative ?_
      cases alternative with
      | none =>
        intro _ heq
        cases heq
      | some s =>
        cases s with
        | block inner =>
          have hinner := scripted_stmts hr inner h.2.2.2 hs.2.2.2
          intro _ heq
          cases heq
          exact hinner
        | _ =>
          intro _ heq
          cases heq
    cases init with
    | none => exact hrest
    | some s =>
      rw [stmt_ifElse_some]
      exact fun K a hb => .seq (hinit s rfl false K a hb) (hrest K a hb)
  | .switch init tag cs, h, hs => by
    have hinit := scripted_before hr init h.1 hs.1
    have htag := steady_option tag (.inl hr) h.2.1 hs.2.1
    have hrest : ScriptedIn W (stmt release chained (.switch none tag cs)) := by
      refine scripted_switch chained ?_ (steady_cases hr cs h.2.2 hs.2.2)
      intro e he
      exact (htag _ (Option.map_eq_some_iff.2 ⟨e, he, rfl⟩)).write
    cases init with
    | none => exact hrest
    | some s =>
      rw [stmt_switch_some]
      exact fun K a hb => .seq (hinit s rfl false K a hb) (hrest K a hb)
  | .for init cond post body, h, hs => by
    have hinit := scripted_before hr init h.1 hs.1
    have hcond := steady_option cond (.inl hr) h.2.1 hs.2.1
    have hpost := scripted_before hr post h.2.2.1 hs.2.2.1
    rw [stmt_for]
    refine Forms.scripted_forLoop ?_ ?_ ?_ (scripted_stmts hr body h.2.2.2 hs.2.2.2)
    · intro x hx
      obtain ⟨s, hs, rfl⟩ := Option.map_eq_some_iff.1 hx
      exact hinit s hs false
    · intro x hx
      obtain ⟨e, he, rfl⟩ := Option.map_eq_some_iff.1 hx
      exact (hcond _ (Option.map_eq_some_iff.2 ⟨e, he, rfl⟩)).write
    · intro x hx
      obtain ⟨s, hs, rfl⟩ := Option.map_eq_some_iff.1 hx
      exact hpost s hs false
  | .range key value _ iterable body, h, hs =>
    Forms.scripted_rangeLoop hs.1 hs.2.1
      ⟨hs.2.2.1, scripted_expr fits_none iterable (.inl hr) h.1 hs.2.2.1⟩
      (scripted_stmts hr body h.2 hs.2.2.2)

theorem scripted_before (hr : Release.Steady W release) : (o : Option Stmt) →
    Stmt.ObeysOption W.rules o → Stmt.SpelledOption (Plain W.tidy) o →
      ∀ s ∈ o, ∀ chained, ScriptedIn W (stmt release chained s)
  | none, _, _, s, hs, _ => by cases hs
  | some t, h, hs, s, hmem, chained => by
    cases hmem
    exact scripted_stmt hr chained t h hs

theorem scripted_stmts (hr : Release.Steady W release) : (ss : List Stmt) →
    Stmt.ObeysList W.rules ss → Stmt.SpelledList (Plain W.tidy) ss →
      ScriptedIn W (stmts release ss)
  | [], _, _ => (scripted_pure _).inner
  | s :: ss, h, hs => fun K a hb =>
    .seq (scripted_stmt hr false s h.1 hs.1 K a hb) (scripted_stmts hr ss h.2 hs.2 K a hb)

theorem steady_cases (hr : Release.Steady W release) : (cs : List CaseClause) →
    CaseClause.ObeysList W.rules cs → CaseClause.SpelledList (Plain W.tidy) cs →
      ∀ c ∈ cases release cs, c.Steady W
  | [], _, _, c, hc => by cases hc
  | .mk values body :: cs, h, hs, c, hc => by
    rcases List.mem_cons.1 hc with rfl | hc
    · refine ⟨?_, scripted_stmts hr body h.1.2 hs.1.2⟩
      intro v hv
      obtain ⟨t, ht, rfl⟩ := List.mem_map.1 hv
      exact (steady_terms values (.inl hr) h.1.1 hs.1.1 t ht).write
    · exact steady_cases hr cs h.2 hs.2 c hc

theorem steady_elementOf (hr : Release.Steady W release) : (e : Expr) → e.Obeys W.rules →
    e.Spelled (Plain W.tidy) → ∀ x ∈ elementOf release e, x.1.Steady W ∧ x.2.Steady W
  | .index base index, h, hs, x, hx => by
    cases hx
    exact ⟨⟨hs.1, scripted_expr fits_none base (.inl hr) h.1 hs.1⟩,
      ⟨hs.2, scripted_expr fits_none index (.inl hr) h.2 hs.2⟩⟩
  | .ident _, _, _, _, hx | .lit _ _, _, _, _, hx | .composite _ _, _, _, _, hx
  | .funcLit _ _, _, _, _, hx | .paren _, _, _, _, hx | .selector _ _, _, _, _, hx
  | .slice _ _ _, _, _, _, hx | .assert _ _, _, _, _, hx | .call _ _ _, _, _, _, hx
  | .star _, _, _, _, hx | .unary _ _, _, _, _, hx | .binary _ _ _, _, _, _, hx
  | .keyValue _ _, _, _, _, hx | .arrayType _ _, _, _, _, hx | .mapType _ _, _, _, _, hx
  | .funcType _, _, _, _, hx | .structType _, _, _, _, hx | .interfaceType _, _, _, _, hx
  | .ellipsis _, _, _, _, hx | .chanType _, _, _, _, hx | .unsupported _, _, _, _, hx => by
    cases hx

theorem steady_targets (hr : Release.Steady W release) : (es : List Expr) →
    Expr.ObeysList W.rules es → Expr.SpelledList (Plain W.tidy) es →
      ∀ t ∈ targets release es, t.Steady W
  | [], _, _, t, ht => by cases ht
  | e :: es, h, hs, t, ht => by
    rcases List.mem_cons.1 ht with rfl | ht
    · exact ⟨⟨hs.1, scripted_expr fits_none e (.inl hr) h.1 hs.1⟩, steady_elementOf hr e h.1 hs.1⟩
    · exact steady_targets hr es h.2 hs.2 t ht

theorem scripted_genDecl (hr : Release.Steady W release) (local_ : Bool) :
    (d : GenDecl) → d.Obeys W.rules → d.Spelled (Plain W.tidy) →
      ScriptedIn W (genDecl release local_ d)
  | .mk kind _ specs, h, hs =>
    scripted_genForms hr local_ kind h.1 h.2.1 (steady_specForms hr specs h.2.2 hs)

theorem steady_specForms (hr : Release.Steady W release) : (ss : List Spec) →
    Spec.ObeysList W.rules ss → Spec.SpelledList (Plain W.tidy) ss →
      ∀ s ∈ specForms release ss, s.Steady W
  | [], _, _, s, hs => by cases hs
  | .value names type values :: ss, h, hs, s, hmem => by
    rcases List.mem_cons.1 hmem with rfl | hmem
    · exact ⟨hs.1.1, Go.Expr.spelledOption_iff.1 hs.1.2.1,
        steady_terms values (.inl hr) h.1 hs.1.2.2⟩
    · exact steady_specForms hr ss h.2 hs.2 s hmem
  | .type name type isAlias :: ss, h, hs, s, hmem => by
    rcases List.mem_cons.1 hmem with rfl | hmem
    · exact ⟨h.1, hs.1⟩
    · exact steady_specForms hr ss h.2 hs.2 s hmem

end

/-! ## Functions, methods and tasks -/

theorem scripted_bodyOf {decl : FuncDecl} (hr : Release.Steady W release)
    (hd : decl.Obeys W.rules) (hs : decl.Spelled (Plain W.tidy)) :
    ScriptedIn W (bodyOf release decl) := by
  unfold bodyOf
  cases hbody : decl.body with
  | none => exact (scripted_pure _).inner
  | some body => exact scripted_stmts hr body (hd body hbody) (hs.body body hbody)

theorem steady_releaseAt (waiting : Nat) (hw : W.declares) (hc : W.rules.returns → W.Conforms)
    (hn : ∀ name, W.rules.cls name → W.registers name) (hm : W.methods ∨ waiting = 0) :
    Release.Steady W (releaseAt waiting) := by
  induction waiting with
  | zero =>
    refine ⟨hw, hc, fun h => Forms.scripted_struct hw (hn _ h) fun _ _ _ _ K a _ => ?_⟩
    exact .pure rfl
  | succ waiting ih =>
    have hmethods : W.methods := hm.resolve_right (Nat.succ_ne_zero _)
    refine ⟨hw, hc, fun h => Forms.scripted_struct hw (hn _ h) fun cls decl hd hs K a hcls => ?_⟩
    exact Forms.parallel_method hw hmethods hs hcls
      (scripted_bodyOf (ih (Or.inl hmethods)) (hd hmethods) hs)

theorem scripted_funcDecl {decl : FuncDecl} (hm : W.methods) (hr : Release.Steady W release)
    (hd : decl.Obeys W.rules) (hs : decl.Spelled (Plain W.tidy)) :
    Scripted W (funcDecl release decl) := by
  have hbody := scripted_bodyOf hr hd hs
  have hpark : ∀ cls : String, Scripted W (do
      let cursor : Cursor := ⟨← read, (← get).owed⟩
      modifyProgram fun p => { p with parked := p.parked ++ [⟨cls, decl, cursor⟩] }) :=
    fun cls _ _ => .note (n := .park cls decl) ⟨hr.declares, hm, hd, hs⟩
  unfold funcDecl
  split
  · exact Forms.scripted_function hr.declares hs (by simp) hbody
  · refine fun K a => .program fun p q _ _ hlike => ?_
    dsimp only
    rw [hlike.classIndex, hlike.phase]
    split
    · rename_i id hid
      exact Forms.parallel_method hr.declares hm hs (Or.inr ⟨_, hid⟩) hbody
    · split
      · exact hpark _ _ a
      · exact Forms.scripted_function hr.declares hs hs.receiver hbody _ a

section

variable (hw : W.declares) (hc : W.rules.returns → W.Conforms)
  (hn : ∀ name, W.rules.cls name → W.registers name) (hm : W.methods)

include hw hc hn hm

theorem parallel_releasing {f : Release → Emit Unit} (h : ∀ p release, Release.Steady W release →
      Parallel W (K.seen p) a a Eq (f release) (f release)) :
    Parallel W K a a Eq (program >>= fun p => f (releaseAt p.parked.length))
      (program >>= fun p => f (releaseAt p.parked.length)) := by
  refine .program fun p q _ _ hlike => ?_
  have hlength : q.parked.length = p.parked.length := by
    simpa using congrArg List.length hlike.parked
  rw [hlength]
  exact h p _ (steady_releaseAt _ hw hc hn (Or.inl hm))

theorem scripted_staticMethod {decl : FuncDecl} (hd : decl.Obeys W.rules)
    (hs : decl.Spelled (Plain W.tidy)) : Scripted W (staticMethod decl) :=
  fun _ a => parallel_releasing hw hc hn hm fun _ _ hr =>
    Forms.scripted_function hw hs hs.receiver (scripted_bodyOf hr hd hs) _ a

theorem scripted_func {decl : FuncDecl} (hd : decl.Obeys W.rules)
    (hs : decl.Spelled (Plain W.tidy)) : Scripted W (Conversion.decl (.func decl)) :=
  fun _ a => parallel_releasing hw hc hn hm fun _ _ hr => scripted_funcDecl hm hr hd hs _ a

theorem scripted_decl {d : Decl} (hd : d.Obeys W.rules) (hs : d.Spelled (Plain W.tidy)) :
    ScriptedIn W (decl d) := by
  intro K a hb
  cases d with
  | func d => exact scripted_func hw hc hn hm hd hs K a
  | gen d =>
    exact parallel_releasing hw hc hn hm fun _ _ hr => scripted_genDecl hr false d hd hs _ a hb

end

theorem parallel_run {task : Task} (he : W.eager) (hr : Release.Steady W release)
    (ht : task.Obeys W.rules) (hs : task.Spelled (Plain W.tidy)) (hb : task.Binds → K.binds) :
    Parallel W K a a Eq (run release task) (run release task) := by
  have hterm : ∀ {e : Expr}, e.Obeys W.rules → e.Spelled (Plain W.tidy) →
      (run.term release e).Steady W :=
    fun {e} h hs => ⟨hs, scripted_expr fits_none e (.inl hr) h hs⟩
  have hoption : ∀ {o : Option Expr}, Expr.ObeysOption W.rules o →
      Expr.SpelledOption (Plain W.tidy) o → ∀ t ∈ o.map (run.term release), t.Steady W :=
    fun {o} h hs => steady_option o (.inl hr) h hs
  cases task with
  | typeName type style => exact scripted_writeTypeNow he style hs K a
  | declared name value style =>
    exact Forms.scripted_declaredNow he style name hs.2 K a (hb trivial)
  | rangeHeader loop =>
    exact Forms.scripted_rangeHeaderNow he hs (hterm ht hs.2.2).write K a (hb trivial)
  | rangeBindings loop =>
    exact Forms.scripted_rangeBindingsNow he hs (hterm ht hs.2.2).write K a
  | elementUpdate base index update =>
    refine Forms.scripted_elementUpdateNow he (hterm ht.1 hs.1) (hterm ht.2.1 hs.2.1) ?_ K a
    have hupdate := ht.2.2
    have hspelled := hs.2.2
    cases update with
    | set value | compound op value => exact hterm hupdate hspelled
    | step up => trivial
  | element base index =>
    exact Forms.scripted_elementNow he (hterm ht.1 hs.1) (hterm ht.2 hs.2) K a
  | slice base low high =>
    exact Forms.scripted_sliceNow he (hterm ht.1 hs.1) (hoption ht.2.1 hs.2.1)
      (hoption ht.2.2 hs.2.2) K a
  | length value => exact Forms.scripted_lengthNow he (hterm ht hs) K a
  | conformance value declared =>
    exact Forms.scripted_checkConformance he (hr.conforms ht) hs.1 hs.2 K a

end Conversion

end GoToJava
