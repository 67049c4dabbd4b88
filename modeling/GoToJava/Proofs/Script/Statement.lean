import GoToJava.Proofs.Program.Moves
import GoToJava.Proofs.Script.Expression

/-! The steps of writing statements. -/

namespace GoToJava

open Go (Expr Stmt BinaryOp AssignOp BranchKind)
open Emit Inference

variable {W : Outlook} {tidy : Prop} {K : Ken} {a : List Char}

/-- A target and its parts take the same steps. -/
structure Target.Steady (W : Outlook) (t : Target) : Prop where
  term : t.term.Steady W
  element : ∀ x ∈ t.element, x.1.Steady W ∧ x.2.Steady W

structure CaseForm.Steady (W : Outlook) (c : CaseForm) : Prop where
  values : ∀ x ∈ c.values, Scripted W x
  body : ScriptedIn W c.body

def ElementUpdate.Steady (W : Outlook) : ElementUpdate Term → Prop
  | .set value => value.Steady W
  | .compound _ value => value.Steady W
  | .step _ => True

namespace Forms

variable {iterable : Emit Unit} {cases : List CaseForm} {e value type : Expr} {name : String}
  {target : Target} {extra : List Term}

/-! ## Declared variables -/

theorem scripted_declaredNow (he : W.eager) (style : Style) (name : String)
    (hv : value.Spelled (Plain W.tidy)) : ScriptedIn W (declaredNow style name value) := by
  intro K a hb
  refine .bind (answers_infer he style hv) ?_
  rintro type _ ⟨rfl, htype⟩
  cases type with
  | some type => exact .setVar hb (htype type rfl)
  | none => exact .pure rfl

theorem spelled_guessType {p : Program} {place : Place} (hp : p.Spelt tidy)
    (he : e.Spelled (Plain tidy)) : (p.guessType place e).Spelled (Plain tidy) := by
  fun_induction Program.guessType p place e with
  | case1 name =>
    cases hvar : p.scopes.var place.scope name with
    | none => exact he
    | some type => exact hp.var hvar
  | case2 type es => exact he.1
  | case3 base type => exact he.2
  | case4 e ih => exact ih he
  | case5 e ih => exact ih he
  | case6 e => exact he

theorem scripted_declare (hn : Plain W.tidy name) (hv : value.Spelled (Plain W.tidy)) :
    ScriptedIn W (declare name value) := by
  intro K a hb
  refine .program fun p q hp _ hlike => .read fun place draft _ => ?_
  rw [hlike.guessType]
  refine .seq (.setVar hb (spelled_guessType (W.spelt p hp) hv)) ?_
  exact .later ⟨hn, hv⟩ (fun _ => hb) rfl fun he => scripted_declaredNow he _ name hv _ a hb

/-! ## Assignments -/

theorem plain_assignToken (op : AssignOp) : Plain tidy (assignToken op) := by
  unfold assignToken
  split
  · exact plain_of_chars (by decide)
  · exact plain_of_chars (by decide)
  · exact plain_of_chars (by decide)
  · exact plain_append (plain_append (plain_of_chars (by decide)) (plain_token _))
      (plain_of_chars (by decide))

theorem plain_stepToken (up : Bool) : Plain tidy (stepToken up) := by
  cases up <;> exact plain_of_chars (by decide)

section Updates

variable {base index : Term} {update : ElementUpdate Term}

theorem scripted_mapGet (hb : base.Steady W) (hi : index.Steady W) :
    Scripted W (mapGet base index) :=
  fun K a => .seq (hb.write K a) (.seq (.word rfl) (.seq (hi.write K _) (.word rfl)))

theorem scripted_mapPut (hb : base.Steady W) (hi : index.Steady W) (hu : update.Steady W) :
    Scripted W (mapPut base index update) := by
  intro K a
  have hget := scripted_mapGet hb hi
  refine .seq (hb.write K a) (.seq (.word rfl) (.seq (hi.write K _) (.seq (.word rfl) ?_)))
  cases update with
  | set value => exact .seq (hu.write K _) (.word rfl)
  | compound op value =>
    refine .seq (hget K _) (.seq (scripted_print (plain_binaryToken op) K _) ?_)
    exact .seq (hu.write K _) (.word rfl)
  | step up =>
    refine .seq (hget K _) ?_
    cases up <;> exact .seq (.word rfl) (.word rfl)

theorem scripted_arraySet (hb : base.Steady W) (hi : index.Steady W) (hu : update.Steady W) :
    Scripted W (arraySet base index update) := by
  intro K a
  have hset := fun op => scripted_print (W := W) (plain_assignToken op) K a
  refine .seq (hb.write K a) (.seq (.word rfl) (.seq (hi.write K _) (.seq (.word rfl) ?_)))
  cases update with
  | set value | compound op value => exact .seq (hset _) (hu.write K a)
  | step up => exact scripted_print (plain_stepToken up) K a

theorem scripted_elementUpdateNow (he : W.eager) (hb : base.Steady W) (hi : index.Steady W)
    (hu : update.Steady W) : Scripted W (elementUpdateNow base index update) := by
  intro K a
  refine .bind (answers_sourceType he hb.source) ?_
  rintro type _ ⟨rfl, -⟩
  dsimp only
  split
  · exact .seq (scripted_mapPut hb hi hu K a) (scripted_endStatement K a)
  · exact .seq (scripted_arraySet hb hi hu K a) (scripted_endStatement K a)

theorem spelled_update (hu : update.Steady W) : (update.map (·.source)).Spelled (Plain W.tidy) := by
  cases update with
  | set value | compound op value => exact hu.source
  | step up => trivial

theorem scripted_elementUpdate (hb : base.Steady W) (hi : index.Steady W) (hu : update.Steady W) :
    Scripted W (elementUpdate base index update) :=
  fun K a => .later ⟨hb.source, hi.source, spelled_update hu⟩ False.elim rfl
    fun he => scripted_elementUpdateNow he hb hi hu K a

end Updates

theorem scripted_extras {terms : List Term} (h : ∀ t ∈ terms, t.Steady W) :
    Scripted W (extras terms) :=
  scripted_forM fun t ht K a => .seq (.word rfl) (.seq ((h t ht).write K a) (.word rfl))

theorem scripted_plainAssign {target value : Term} (op : AssignOp) (ht : target.Steady W)
    (he : ∀ t ∈ extra, t.Steady W) (hv : value.Steady W) :
    ScriptedIn W (plainAssign target extra op value) := by
  intro K a hb
  have hend := scripted_endStatement (W := W) K a
  have hrest : Parallel W K a a Eq
      (do target.write; extras extra; print (assignToken op); value.write; endStatement)
      (do target.write; extras extra; print (assignToken op); value.write; endStatement) :=
    .seq (ht.write K a) (.seq (scripted_extras he K a)
      (.seq (scripted_print (plain_assignToken op) K a) (.seq (hv.write K a) hend)))
  unfold plainAssign
  split
  · split
    · exact .seq (hv.write K a) hend
    · exact .pure rfl
  · split
    · rename_i name hname
      have hsource := ht.source
      rw [hname] at hsource
      exact .seq (scripted_declare hsource hv.source K a hb) (.seq (.word rfl) hrest)
    · exact hrest

theorem scripted_singleAssign {value : Term} (op : AssignOp) (ht : target.Steady W)
    (he : ∀ t ∈ extra, t.Steady W) (hv : value.Steady W) :
    ScriptedIn W (singleAssign target extra op value) := by
  unfold singleAssign
  split
  · exact scripted_plainAssign _ ht.term he hv
  · exact scripted_plainAssign _ ht.term he hv
  · rename_i base index helement
    obtain ⟨hb, hi⟩ := ht.element _ helement
    have hset : Scripted W (elementUpdate base index (.set value)) :=
      scripted_elementUpdate hb hi hv
    exact hset.inner
  · rename_i op base index helement
    obtain ⟨hb, hi⟩ := ht.element _ helement
    have hset : Scripted W (elementUpdate base index (.compound op value)) :=
      scripted_elementUpdate hb hi hv
    exact hset.inner

theorem scripted_pairAssigns (op : AssignOp) {pairs : List (Target × Term)}
    (h : ∀ x ∈ pairs, x.1.Steady W ∧ x.2.Steady W) : ScriptedIn W (pairAssigns op pairs) := by
  have hnone : ∀ t ∈ ([] : List Term), t.Steady W := by simp
  intro K a hb
  cases pairs with
  | nil => exact .pure rfl
  | cons first rest =>
    obtain ⟨ht, hv⟩ := h first List.mem_cons_self
    refine .seq (scripted_singleAssign op ht hnone hv K a hb) (parallel_forM fun x hx => ?_)
    obtain ⟨ht, hv⟩ := h x (List.mem_cons_of_mem _ hx)
    refine .read fun place draft _ => ?_
    dsimp only
    split
    · exact .seq (.word rfl) (scripted_singleAssign _ ht hnone hv K a hb)
    · exact scripted_singleAssign _ ht hnone hv K a hb

theorem scripted_assign {targets : List Target} {values : List Term} (op : AssignOp)
    (ht : ∀ t ∈ targets, t.Steady W) (hv : ∀ t ∈ values, t.Steady W) :
    ScriptedIn W (assign targets op values) := by
  unfold assign
  split
  · rename_i target extra value rest
    split
    · refine scripted_singleAssign op (ht _ List.mem_cons_self) ?_ (hv _ List.mem_cons_self)
      intro t hmem
      obtain ⟨x, hx, rfl⟩ := List.mem_map.1 hmem
      exact (ht x (List.mem_cons_of_mem _ hx)).term
    · refine scripted_pairAssigns op fun x hx => ?_
      exact ⟨ht _ (List.of_mem_zip hx).1, hv _ (List.of_mem_zip hx).2⟩
  · exact (scripted_pure _).inner

theorem scripted_incDec (up : Bool) (ht : target.Steady W) : Scripted W (incDec target up) := by
  unfold incDec
  split
  · rename_i base index helement
    obtain ⟨hb, hi⟩ := ht.element _ helement
    exact scripted_elementUpdate hb hi trivial
  · exact scripted_seq ht.term.write
      (scripted_seq (scripted_print (plain_stepToken up)) scripted_endStatement)

/-! ## Branches -/

theorem scripted_branch {label : Option String} (kind : BranchKind)
    (hl : ∀ l ∈ label, Plain W.tidy l) : Scripted W (branch kind label) := by
  have hjump : ∀ {keyword : String}, Plain W.tidy keyword →
      Scripted W (branch.jump label keyword) := by
    intro keyword hk
    refine scripted_seq (scripted_print hk) ?_
    cases label with
    | none => exact scripted_endStatement
    | some label =>
      refine scripted_seq (scripted_word rfl) ?_
      exact scripted_seq (scripted_print (hl label rfl)) scripted_endStatement
  unfold branch
  split
  · exact hjump (plain_of_chars (by decide))
  · exact hjump (plain_of_chars (by decide))
  · apply scripted_println
    apply plain_append (plain_of_chars (by decide))
    cases label with
    | none => exact plain_of_chars (by decide)
    | some label => exact hl label rfl
  · exact scripted_pure _

theorem plain_calleeName (h : e.Spelled (Plain tidy)) : Plain tidy (calleeName e) := by
  fun_induction calleeName e with
  | case1 name => exact h
  | case2 base field ih => exact plain_qualified (ih h.1) h.2
  | case3 e ih => exact ih h
  | case4 e ih => exact ih h
  | case5 => exact plain_of_chars (by decide)

theorem scripted_deferredCall {call : Expr} (h : call.Spelled (Plain W.tidy)) :
    Scripted W (deferredCall call) := by
  unfold deferredCall
  apply scripted_println
  apply plain_append (plain_of_chars (by decide))
  split
  · exact plain_of_chars (by decide)
  · exact plain_calleeName h.1
  · exact plain_calleeName h

/-- What is written where a class names its interfaces is not moved by the note of another one. -/
theorem implement_eq {cls : String} {id : Nat} (name : String) (text : Emit Unit) (place : Place)
    (desk : Desk) (hid : desk.program.classIndex.get? cls = some id) :
    (do
      modifyProgram (·.modifyClass id fun c => { c with interfaces := c.interfaces.insert name })
      elsewhere (implementsCursor (desk.program.classAt id)) text : Emit Unit) place desk =
    (do
      note (.conformance id name)
      inImplements cls text : Emit Unit) place desk := by
  let p := desk.program.modifyClass id fun c => { c with interfaces := c.interfaces.insert name }
  have hcursor : implementsCursor (p.classAt id) = implementsCursor (desk.program.classAt id) := by
    rw [Program.classAt_modifyClass]
    split <;> rfl
  show elsewhere (implementsCursor (desk.program.classAt id)) text place ⟨p, desk.owed⟩ =
    inImplements cls text place ⟨p, desk.owed⟩
  rw [inImplements_of_some place ⟨p, desk.owed⟩ text hid, hcursor]

theorem checkConformance_eq (value declared : Expr) : checkConformance value declared = (do
    let (_, inferred) ← inspect (infer .atOnce value)
    let (_, interface) ← inspect (writeType .atOnce declared)
    let p ← program
    if inferred == interface || !p.interfaces.contains interface then return
    match p.classIndex.get? inferred with
    | none => return
    | some id =>
      if (p.classAt id).interfaces.contains interface then return
      note (.conformance id interface)
      inImplements inferred do
        print (if (p.classAt id).interfaces.isEmpty then " implements " else ", ")
        print interface
        refer interface) := by
  refine bind_congr fun inferred => bind_congr fun interface => ?_
  refine program_congr fun place desk => ?_
  split
  · rfl
  · cases hid : desk.program.classIndex.get? inferred.2 with
    | none => rfl
    | some id =>
      dsimp only
      split
      · rfl
      · exact implement_eq _ _ place desk hid

theorem scripted_checkConformance {declared : Expr} (he : W.eager) (hc : W.Conforms)
    (hv : value.Spelled (Plain W.tidy)) (hd : declared.Spelled (Plain W.tidy)) :
    Scripted W (checkConformance value declared) := by
  intro K a
  rcases hc with hc | hatom
  swap
  · exact .atom (hatom value declared)
  rw [checkConformance_eq]
  refine .bind (.inspect he (answers_infer he .atOnce hv)) ?_
  rintro ⟨-, inferred⟩ ⟨-, -⟩ ⟨-, rfl⟩
  refine .bind (.inspect he (scripted_writeTypeAt _ (fun _ => he) hd K [])) ?_
  rintro ⟨-, interface⟩ ⟨-, -⟩ ⟨-, rfl⟩
  refine .program fun p q hp _ hlike => ?_
  have hinterfaces : ∀ c, (q.classAt c).interfaces = (p.classAt c).interfaces :=
    fun c => congrArg (·.interfaces) (hlike.cls c)
  simp only [hlike.interfaces, hlike.classIndex, hinterfaces]
  split
  · exact .pure rfl
  · rename_i hnot
    have hplain : Plain W.tidy interface := by
      simp only [NameSet.contains, Bool.or_eq_true, Bool.not_eq_true', not_or, Bool.not_eq_false,
        List.contains_iff_mem] at hnot
      exact (W.spelt p hp).interfaces interface hnot.2
    split
    · exact .pure rfl
    · split
      · exact .pure rfl
      · refine .seq (.note hc) (.inImplements hc (.seq (b := []) ?_ ?_))
        · split <;> exact .word rfl
        · exact .seq (scripted_print hplain _ _) (scripted_refer _ _ _)

theorem scripted_returns {values : List Term} (hc : values ≠ [] → W.Conforms)
    (hv : ∀ t ∈ values, t.Steady W) : Scripted W (returns values) := by
  intro K a
  have hend := scripted_endStatement (W := W) K a
  refine .seq (.word rfl) ?_
  cases values with
  | nil => exact hend
  | cons first rest =>
    have hfirst := hv first List.mem_cons_self
    refine .seq (.word rfl) (.seq (hfirst.write K a) ?_)
    refine .seq (scripted_extras (fun t ht => hv t (List.mem_cons_of_mem _ ht)) K a) ?_
    refine .read fun place draft hsees => ?_
    dsimp only
    split
    · rename_i declared hdeclared
      have hd := hsees declared hdeclared
      split
      · exact hend
      · refine .seq (.later ⟨hfirst.source, hd⟩ False.elim rfl fun he => ?_) hend
        exact scripted_checkConformance he (hc (List.cons_ne_nil _ _)) hfirst.source hd K a
    · exact hend

/-! ## Switches -/

theorem scripted_switch {tag : Emit Unit} (ht : Scripted W tag) (hc : ∀ c ∈ cases, c.Steady W) :
    ScriptedIn W (switch tag cases) := by
  intro K a hb
  refine .seq (.word rfl) (.seq (ht K _) (.seq (.line rfl) ?_))
  refine .seq (parallel_forM fun c hmem => ?_) (.line rfl)
  have hsteady := hc c hmem
  generalize '\x7d' :: a = b
  have hbody : ∀ x, x = (do
      c.values.forM fun value => do
        print "case "
        value
        println ":"
      indented do
        c.body
        unless c.leaves do println "break;") → Parallel W K b b Eq x x := by
    rintro x rfl
    refine .seq (parallel_forM fun x hx => ?_) (.indented ?_)
    · exact .seq (.word rfl) (.seq (hsteady.values x hx K b) (.line rfl))
    · exact .seq (hsteady.body K b hb) (scripted_unless (fun _ _ => .line rfl) K b)
  dsimp only
  split
  · exact .seq (.line rfl) (hbody _ rfl)
  · exact hbody _ rfl

theorem scripted_conditionCase {opening : String} {c : CaseForm} (hc : c.Steady W)
    (ho : ∀ a, scan opening.toList a = some (')' :: a)) :
    ScriptedIn W (do
      print opening
      separated " || " c.values
      print ")"
      block c.body) := by
  intro K a hb
  refine .seq (.word (ho a)) (.seq (parallel_separated (plain_of_chars (by decide)) ?_) ?_)
  · exact fun x hx => hc.values x hx K _
  · exact .seq (.word rfl) (scripted_block hc.body K a hb)

theorem scripted_lastCondition (alone : Bool) (hc : ∀ c ∈ cases, c.Steady W) : ScriptedIn W (do
      match cases.find? (·.values.isEmpty) with
      | none => pure ()
      | some d =>
        if alone then
          println "\x7b"
          blockLines d.body
        else
          print " else"
          block d.body
      unless cases.isEmpty do println "") := by
  intro K a hb
  have hline := scripted_unless (W := W) (c := cases.isEmpty) (x := println "")
    (fun _ _ => .line rfl) K a
  dsimp only
  split
  · exact hline
  · rename_i d hd
    have hbody := (hc d (List.mem_of_find?_eq_some hd)).body
    split
    · exact .seq (.line rfl) (.seq (parallel_blockLines hb hbody) hline)
    · exact .seq (.word rfl) (.seq (scripted_block hbody K a hb) hline)

theorem scripted_conditions (hc : ∀ c ∈ cases, c.Steady W) : ScriptedIn W (conditions cases) := by
  intro K a hb
  have hconditional : ∀ c ∈ cases.filter (!·.values.isEmpty), c.Steady W :=
    fun c h => hc c (List.mem_filter.1 h).1
  have hdefault := scripted_lastCondition (cases.filter (!·.values.isEmpty)).isEmpty hc K a hb
  unfold conditions
  dsimp only
  split
  · exact hdefault
  · rename_i first rest heq
    rw [heq] at hconditional
    have hfirst := hconditional _ List.mem_cons_self
    refine .seq (scripted_conditionCase hfirst (fun _ => rfl) K a hb) (.seq ?_ hdefault)
    refine parallel_forM fun c h => ?_
    exact scripted_conditionCase (hconditional c (List.mem_cons_of_mem _ h)) (fun _ => rfl) K a hb

/-! ## Loops -/

theorem scripted_forLoop {init cond post : Option (Emit Unit)} {body : Emit Unit}
    (hi : ∀ x ∈ init, ScriptedIn W x) (hc : ∀ x ∈ cond, Scripted W x)
    (hp : ∀ x ∈ post, ScriptedIn W x) (hb : ScriptedIn W body) :
    ScriptedIn W (forLoop init cond post body) := by
  intro K a hbinds
  have hpart : ∀ {o : Option (Emit Unit)}, (∀ x ∈ o, ScriptedIn W x) →
      ScriptedIn W (o.getD (pure ())) := by
    intro o h
    cases o with
    | none => exact (scripted_pure ()).inner
    | some x => exact h x rfl
  refine .seq (.word rfl) (.seq (b := a) (.bare ?_) ?_)
  · refine .seq (hpart hi K _ hbinds) (.seq (.word rfl) ?_)
    refine .seq (scripted_getD hc (scripted_pure _) K _) (.seq (.word rfl) ?_)
    exact .seq (hpart hp K _ hbinds) (.word rfl)
  · exact .seq (scripted_block hb K a hbinds) (.line rfl)

theorem scripted_bindName (name : Option String) (ht : type.Spelled (Plain W.tidy)) :
    ScriptedIn W (bind name type) := by
  intro K a hb
  unfold bind
  split
  · exact .setVar hb ht
  · exact .pure rfl

theorem scripted_counter {limit : Emit Unit} (hn : Plain W.tidy name) (h : Scripted W limit) :
    Scripted W (counter name limit) := by
  intro K a
  have hname := turns_of_plain hn
  have hstart : Turns W.tidy a (')' :: a) ("for (int " ++ name ++ " = 0; " ++ name ++ " < ") :=
    turns_append (turns_append (turns_append (turns_append (turns_of_scan rfl) (hname _))
      (turns_of_scan rfl)) (hname _)) (turns_of_scan rfl)
  have hend : Turns W.tidy (')' :: a) a ("; " ++ name ++ "++)") :=
    turns_append (turns_append (turns_of_scan rfl) (hname _)) (turns_of_scan rfl)
  exact .seq (.print hstart) (.seq (h K _) (.print hend))

theorem scripted_forEach {type values : Emit Unit} (ht : Scripted W type) (hn : Plain W.tidy name)
    (hv : Scripted W values) : Scripted W (forEach type name values) := by
  refine fun K a => .seq (.word rfl) (.seq (ht K _) (.seq (.word rfl) ?_))
  exact .seq (scripted_print hn K _) (.seq (.word rfl) (.seq (hv K _) (.word rfl)))

theorem plain_getD {name : Option String} {other : String} (h : ∀ n ∈ name, Plain tidy n)
    (ho : Plain tidy other) : Plain tidy (name.getD other) := by
  cases name with
  | none => exact ho
  | some n => exact h n rfl

/-- A loop that counts through an array or a string if its key has a name. -/
theorem scripted_counted {key value : Option String} {limit other : Emit Unit}
    (hl : Scripted W limit) (ho : Scripted W other) (ht : type.Spelled (Plain W.tidy)) :
    (∀ n ∈ key, Plain W.tidy n) → ScriptedIn W (match key with
      | some key => do
        counter key limit
        setVar key (.ident "int")
        bind value type
      | none => do
        other
        bind value type) := by
  intro hk K a hb
  cases key with
  | none => exact .seq (ho K a) (scripted_bindName value ht K a hb)
  | some key =>
    refine .seq (scripted_counter (hk key rfl) hl K a) ?_
    exact .seq (.setVar hb (spelled_ident (by decide))) (scripted_bindName value ht K a hb)

theorem scripted_rangeHeaderNow {loop : RangeLoop} (he : W.eager) (hl : loop.Spelled (Plain W.tidy))
    (hi : Scripted W iterable) : ScriptedIn W (rangeHeaderNow loop iterable) := by
  intro K a hb
  obtain ⟨hkey, hvalue, hsource⟩ := hl
  have helement : Plain W.tidy (loop.value.getD "ignored") :=
    plain_getD hvalue (plain_of_chars (by decide))
  have hvalues : ∀ suffix : String, scan suffix.toList [] = some [] →
      Scripted W (do iterable; print suffix) := fun _ h => scripted_seq hi (scripted_word h)
  have htype : ∀ {e : Expr}, e.Spelled (Plain W.tidy) → Scripted W (writeType .atOnce e) :=
    fun h => scripted_writeTypeAt _ (fun _ => he) h
  -- What is known of the type decides on the loop; this one is for unknown types.
  have hunknown : Scripted W (rangeHeaderNow.unknown loop iterable) := by
    refine scripted_forEach TypeText.scripted_object ?_ hi
    refine plain_getD ?_ (plain_of_chars (by decide))
    intro n hn
    rcases eq_some_of_orElse hn with h | h
    · exact hvalue n h
    · exact hkey n h
  refine .bind (answers_sourceType he hsource) ?_
  rintro type _ ⟨rfl, htypes⟩
  split
  · have hmap := htypes _ rfl
    refine .seq (.word rfl) (.seq (scripted_writeTypeAt _ (fun _ => he) hmap K _) ?_)
    refine .seq (.word rfl) (.seq (.seq (hi K _) (.word rfl)) ?_)
    exact .seq (scripted_bindName _ hmap.1 K a hb) (scripted_bindName _ hmap.2 K a hb)
  · rename_i e
    have hspelled : e.Spelled (Plain W.tidy) := htypes (.arrayType _ e) rfl
    exact scripted_counted (hvalues ".length" rfl)
      (scripted_forEach (htype hspelled) helement hi) hspelled hkey K a hb
  · rename_i e
    have hspelled : e.Spelled (Plain W.tidy) := htypes (.ellipsis e) rfl
    exact scripted_counted (hvalues ".length" rfl)
      (scripted_forEach (htype hspelled) helement hi) hspelled hkey K a hb
  · refine scripted_counted (hvalues ".length()" rfl) ?_
      (spelled_ident (s := "rune") (by decide)) hkey K a hb
    exact scripted_forEach (scripted_word rfl) helement (hvalues ".toCharArray()" rfl)
  · split
    · refine .seq (scripted_counter (plain_getD hkey (plain_of_chars (by decide))) hi K a) ?_
      exact scripted_bindName _ (spelled_ident (by decide)) K a hb
    · exact hunknown K a
  · exact hunknown K a

theorem scripted_entryPart {name : Option String} {part : String} (he : W.eager)
    (hn : ∀ n ∈ name, Plain W.tidy n) (ht : type.Spelled (Plain W.tidy)) (hp : Plain W.tidy part) :
    Scripted W (match name with
      | some name => do
        writeType .atOnce type
        println (" " ++ name ++ " = entry." ++ part ++ "();")
      | none => pure ()) := by
  intro K a
  cases name with
  | none => exact .pure rfl
  | some name =>
    have hstart : Plain W.tidy (" " ++ name ++ " = entry." ++ part) :=
      plain_append (plain_append (plain_append (plain_of_chars (by decide)) (hn name rfl))
        (plain_of_chars (by decide))) hp
    refine .seq (scripted_writeTypeAt _ (fun _ => he) ht K a) (.println ?_)
    exact turns_append (turns_of_plain hstart a) (turns_of_scan rfl)

/-- A variable bound to an element: its name, the whole, and the place in the whole. -/
theorem scripted_boundElement {key value start opening closing : String} {b : List Char}
    (hk : Plain W.tidy key) (hv : Plain W.tidy value) (hi : Scripted W iterable)
    (hs : Unbracketed start) (ho : scan opening.toList [] = some b)
    (hc : scan closing.toList b = some []) :
    Scripted W (do
      print (start ++ value ++ " = ")
      iterable
      println (opening ++ key ++ closing)) := by
  intro K a
  have hstart : Plain W.tidy (start ++ value ++ " = ") :=
    plain_append (plain_append (plain_of_chars hs) hv) (plain_of_chars (by decide))
  have hline : Turns W.tidy a a (opening ++ key ++ closing) :=
    turns_append (turns_append (turns_of_scan (scan_frame ho a)) (turns_of_plain hk _))
      (turns_of_scan (scan_frame hc a))
  exact .seq (scripted_print hstart K a) (.seq (hi K a) (.println hline))

/-- An element of an array, if it has a name and an index. -/
theorem scripted_arrayElement {key value : Option String} (he : W.eager)
    (hkey : ∀ n ∈ key, Plain W.tidy n) (hvalue : ∀ n ∈ value, Plain W.tidy n)
    (hi : Scripted W iterable) (hs : e.Spelled (Plain W.tidy)) :
    Scripted W (
      match key, value with
      | some key, some value => do
        writeType .atOnce e
        print (" " ++ value ++ " = ")
        iterable
        println ("[" ++ key ++ "];")
      | _, _ => pure ()) := by
  split
  · rename_i key value
    refine scripted_seq (scripted_writeTypeAt _ (fun _ => he) hs) ?_
    exact scripted_boundElement (hkey key rfl) (hvalue value rfl) hi (by decide) rfl rfl
  · exact scripted_pure _

theorem scripted_rangeBindingsNow {loop : RangeLoop} (he : W.eager)
    (hl : loop.Spelled (Plain W.tidy)) (hi : Scripted W iterable) :
    Scripted W (rangeBindingsNow loop iterable) := by
  intro K a
  obtain ⟨hkey, hvalue, hsource⟩ := hl
  refine .bind (answers_sourceType he hsource) ?_
  rintro type _ ⟨rfl, htypes⟩
  dsimp only
  split
  · have hmap := htypes _ rfl
    have hpart : ∀ part : String, Unbracketed part → Plain W.tidy part := fun _ => plain_of_chars
    refine .seq (scripted_entryPart he hkey hmap.1 (hpart "getKey" (by decide)) K a) ?_
    exact scripted_entryPart he hvalue hmap.2 (hpart "getValue" (by decide)) K a
  · rename_i e
    have hspelled : e.Spelled (Plain W.tidy) := htypes (.arrayType _ e) rfl
    exact scripted_arrayElement he hkey hvalue hi hspelled K a
  · rename_i e
    have hspelled : e.Spelled (Plain W.tidy) := htypes (.ellipsis e) rfl
    exact scripted_arrayElement he hkey hvalue hi hspelled K a
  · split
    · rename_i key value hk hv
      exact scripted_boundElement (hkey key hk) (hvalue value hv) hi (by decide) rfl rfl K a
    · exact .pure rfl
  · exact .pure rfl

theorem plain_loopName {e : Option Expr} (h : Expr.SpelledOption (Plain tidy) e) :
    ∀ n ∈ loopName e, Plain tidy n := by
  intro n hn
  obtain ⟨hident, -⟩ := Option.filter_eq_some_iff.1 hn
  obtain ⟨e', he, hname⟩ := Option.bind_eq_some_iff.1 hident
  subst he
  cases e' with
  | ident name =>
    cases hname
    exact h
  | _ => cases hname

theorem scripted_rangeLoop {key value : Option Expr} {iterable : Term} {body : Emit Unit}
    (hk : Expr.SpelledOption (Plain W.tidy) key) (hv : Expr.SpelledOption (Plain W.tidy) value)
    (hi : iterable.Steady W) (hb : ScriptedIn W body) :
    ScriptedIn W (rangeLoop key value iterable body) := by
  intro K a hbinds
  have hloop : RangeLoop.Spelled (Plain W.tidy) ⟨loopName key, loopName value, iterable.source⟩ :=
    ⟨plain_loopName hk, plain_loopName hv, hi.source⟩
  have helement : (Expr.index iterable.source (.intLit "0")).Spelled (Plain W.tidy) :=
    ⟨hi.source, plain_of_chars (by decide)⟩
  refine .seq (scripted_bindName _ (spelled_ident (by decide)) K a hbinds) ?_
  refine .seq (scripted_bindName _ helement K a hbinds)
    (.seq (b := a) ?_ (.seq (b := a) ?_ (.line rfl)))
  · refine .later ?_ (fun _ => hbinds) rfl fun he => ?_
    · exact hloop
    · exact scripted_rangeHeaderNow he hloop hi.write K a hbinds
  · refine scripted_block (fun K a hb' => .seq ?_ (hb K a hb')) K a hbinds
    refine .later ?_ False.elim rfl fun he => ?_
    · exact hloop
    · exact scripted_rangeBindingsNow he hloop hi.write K a

end Forms

end GoToJava
