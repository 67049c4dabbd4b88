import GoToJava.Proofs.Deferral.Looking
import GoToJava.Proofs.Java.Contexts

/-!
Values between other texts. Conversions, lengths and updates put no parentheses around a value, so
Java reads the whole value as their operand exactly if it binds more tightly than what stands next
to it, which no sum and no string of several lines does.
-/

namespace GoToJava

open Go (Expr BinaryOp)
open Emit Conversion Forms Formula

variable {place : Place} {desk : Desk} {value x : Emit Unit} {spread : Bool} {v : Expr}
  {release : Release} {name : String}

/-! ## Texts of values -/

/-- The action writes within a line, and changes programs by steps. -/
structure Emit.Worded (x : Emit Unit) : Prop where
  inline : Inline x
  takes : Takes (fun _ _ => True) x

theorem Emit.Worded.text (h : Worded x) (hopen : desk.program.Open place.draft) :
    ∃ text, AddsAt place desk x text :=
  exists_adds h.inline h.takes hopen

/-- The texts are what the action writes at the place at some time. -/
def Wrote (place : Place) (x : Emit Unit) (texts : List String) : Prop :=
  ∀ t ∈ texts, ∃ desk, AddsAt place desk x t

theorem wrote_pair {desk' : Desk} {t t' : String} (h : AddsAt place desk x t)
    (h' : AddsAt place desk' x t') : Wrote place x [t, t'] := by
  simp only [Wrote, List.mem_cons, List.not_mem_nil, or_false, forall_eq_or_imp, forall_eq]
  exact ⟨⟨desk, h⟩, ⟨desk', h'⟩⟩

theorem worded_expr (n : Nat) (e : Expr) : Worded (expr (releaseAt n) none e) := by
  refine ⟨inline_expr _ none e, takes_of_scripted ?_⟩
  exact scripted_expr fits_none e (.inl (free_releaseAt n))
    (Go.Expr.obeys_of_lax Go.Rules.lax_free e) (e.spelled_of_all fun _ => False.elim)

theorem worded_writeType (style : Style) (type : Expr) : Worded (writeType style type) :=
  ⟨inline_writeType style type, takes_of_scripted (free_writeTypeAt _ style type)⟩

/-- A context between two other texts. -/
structure Setting where
  outer : String := ""
  context : Java.Context
  rest : String := ""

/-- The action writes the text of the value in the setting, and nothing else. In the context the
value is read as the operand of what stands next to it exactly if it binds tightly enough. -/
def WritesIn (place : Place) (desk : Desk) (x value : Emit Unit) (s : Setting) : Prop :=
  ∃ text, Encloses place desk x value (s.outer ++ s.context.before) text
      (s.context.after ++ s.rest) ∧
    ∀ t, s.context.Clear → Java.Phrase.read text = some t →
      (Java.Phrase.read (s.context.before ++ (text ++ s.context.after)) = s.context.phrase t ↔
        s.context.Room t)

variable {s : Setting}

theorem writesIn_of_encloses {before after text : String}
    (h : Encloses place desk x value before text after) (hb : before = s.outer ++ s.context.before)
    (ha : after = s.context.after ++ s.rest) : WritesIn place desk x value s := by
  subst hb ha
  exact ⟨text, h, fun t hc ht => s.context.read_iff hc ht⟩

theorem writesIn_congr {y : Emit Unit} (h : x.result place desk = y.result place desk)
    (hy : WritesIn place desk y value s) : WritesIn place desk x value s := by
  obtain ⟨text, hall, hread⟩ := hy
  exact ⟨text, encloses_congr h hall, hread⟩

theorem writesIn_look {α : Type} {look : Emit α} {f : α → Emit Unit} (hl : Looks look)
    (hopen : desk.program.Open place.draft)
    (h : WritesIn place (look place desk).2 (f (look place desk).1) value s) :
    WritesIn place desk (look >>= f) value s := by
  obtain ⟨text, hall, hread⟩ := h
  exact ⟨text, encloses_look hl hopen hall, hread⟩

/-! ## Conversions -/

namespace Forms

/-- What stands around a value that is converted, by the Java names of its type and of the type that
it gets. `cast` is what a cast names. -/
def converted (source target cast : String) : Setting :=
  match source ++ "->" ++ target with
  | "String->byte[]" => { context := .suffix "getBytes" true }
  | "String->char[]" => { context := .suffix "toCharArray" true }
  | "byte[]->String" => { context := .made "String" }
  | "char[]->String" => { context := .made "String" }
  | "char->String" => { context := .passed "String.valueOf" }
  | "int->String" => { outer := "String.valueOf(", context := .cast "char", rest := ")" }
  | _ =>
    if source = target then { context := .nothing }
    else { outer := "(", context := .cast cast, rest := ")" }

/-- The Java names of the type of a value and of the type that it gets. -/
def conversionTexts (type v : Expr) : Emit (String × String) := do
  let (_, target) ← inspect (writeType .atOnce type)
  let (_, source) ← inspect (infer .atOnce v)
  return (source, target)

/-- The action writes the value as it is converted to the type. -/
def Converts (place : Place) (desk : Desk) (type v : Expr) (x value : Emit Unit) : Prop :=
  let looked := (conversionTexts type v).result place desk
  ∃ cast, AddsAt place ((print "((").result place looked.2).2 (writeType {} type) cast ∧
    WritesIn place desk x value (converted looked.1.1 looked.1.2 cast)

variable {value : Term}

theorem writesIn_wrap (b a : String) (hv : Worded value.write)
    (hopen : desk.program.Open place.draft) (hb : b = s.outer ++ s.context.before)
    (ha : a = s.context.after ++ s.rest) : WritesIn place desk (do
      print b
      value.write
      print a) value.write s := by
  have hbefore := addsAt_print b hopen
  obtain ⟨text, htext⟩ := hv.text hbefore.opened
  have hvalue := encloses_after (encloses_self htext) htext.owed (addsAt_print a htext.opened)
  have hall := encloses_before hbefore hvalue
  rw [String.empty_append, String.append_empty] at hall
  exact writesIn_of_encloses hall hb ha

theorem writesIn_suffix (a : String) (hv : Worded value.write)
    (hopen : desk.program.Open place.draft) (hb : "" = s.outer ++ s.context.before)
    (ha : a = s.context.after ++ s.rest) : WritesIn place desk (do
      value.write
      print a) value.write s := by
  obtain ⟨text, htext⟩ := hv.text hopen
  have hall := encloses_after (encloses_self htext) htext.owed (addsAt_print a htext.opened)
  rw [String.empty_append] at hall
  exact writesIn_of_encloses hall hb ha

theorem writesIn_cast {type : Expr} {cast : String} (hv : Worded value.write)
    (hopen : desk.program.Open place.draft)
    (htype : AddsAt place ((print "((").result place desk).2 (writeType {} type) cast) :
    WritesIn place desk (Forms.cast {} type value.write) value.write
      { outer := "(", context := .cast cast, rest := ")" } := by
  have hright := addsAt_print ") " htype.opened
  obtain ⟨text, htext⟩ := hv.text hright.opened
  have hvalue := encloses_after (encloses_self htext) htext.owed (addsAt_print ")" htext.opened)
  have hall := encloses_before (addsAt_print "((" hopen)
    (encloses_before htype (encloses_before hright hvalue))
  exact writesIn_of_encloses hall rfl rfl

/-- The value with what a conversion puts around it. -/
def formed (type : Expr) (value : Term) (source target : String) : Emit Unit := do
  match Java.conversions.get? (source ++ "->" ++ target) with
  | some (.suffix text) =>
    value.write
    print text
  | some (.wrap before after) =>
    print before
    value.write
    print after
  | none => if source == target then value.write else cast {} type value.write

theorem writesIn_formed {type : Expr} {cast : String} (source target : String)
    (hv : Worded value.write) (hopen : desk.program.Open place.draft)
    (htype : AddsAt place ((print "((").result place desk).2 (writeType {} type) cast) :
    WritesIn place desk (formed type value source target) value.write
      (converted source target cast) := by
  unfold converted
  split
  case h_7 h₁ h₂ h₃ h₄ h₅ h₆ =>
    have hnone : Java.conversions.get? (source ++ "->" ++ target) = none := by
      have hother : ∀ {key}, source ++ "->" ++ target ≠ key →
          (source ++ "->" ++ target == key) = false := beq_eq_false_iff_ne.2
      simp only [Java.conversions, Table.ofList, Table.get?, List.lookup_cons, List.lookup_nil,
        hother h₁, hother h₂, hother h₃, hother h₄, hother h₅, hother h₆]
    unfold formed
    rw [hnone]
    by_cases hsame : source = target
    · obtain ⟨text, htext⟩ := hv.text hopen
      simp only [hsame, beq_self_eq_true, if_true]
      exact writesIn_of_encloses (encloses_self htext) rfl rfl
    · simp only [beq_eq_false_iff_ne.2 hsame, Bool.false_eq_true, if_false, if_neg hsame]
      exact writesIn_cast hv hopen htype
  all_goals
    rename_i hkey
    unfold formed
    rw [hkey]
  · exact writesIn_suffix _ hv hopen rfl rfl
  · exact writesIn_suffix _ hv hopen rfl rfl
  · exact writesIn_wrap _ _ hv hopen rfl rfl
  · exact writesIn_wrap _ _ hv hopen rfl rfl
  · exact writesIn_wrap _ _ hv hopen rfl rfl
  · exact writesIn_wrap _ _ hv hopen rfl rfl

theorem converts_conversion (type : Expr) (value : Term) (hv : Worded value.write)
    (hopen : desk.program.Open place.draft) :
    Converts place desk type value.source (conversion type value) value.write := by
  have htarget : Looks (inspect (writeType .atOnce type)) :=
    looks_inspect (quiet_writeTypeAt _ .atOnce type {} [])
  have hsource : Looks (inspect (infer .atOnce value.source)) :=
    looks_inspect (quiet_infer .atOnce value.source)
  have hopen' := (htarget place desk hopen).2.1
  have hopen'' := (hsource place _ hopen').2.1
  obtain ⟨cast, hcast⟩ := (worded_writeType {} type).text (addsAt_print "((" hopen'').opened
  refine ⟨cast, hcast, writesIn_look htarget hopen (writesIn_look hsource hopen' ?_)⟩
  exact writesIn_formed _ _ hv hopen'' hcast

theorem converts_congr {y write : Emit Unit} {type : Expr}
    (h : x.result place desk = y.result place desk) (hy : Converts place desk type v y write) :
    Converts place desk type v x write := by
  obtain ⟨cast, hcast, hw⟩ := hy
  exact ⟨cast, hcast, writesIn_congr h hw⟩

/-! ## Lengths -/

/-- What stands after a value whose length is taken, by its type. -/
def measured : Option Expr → Setting
  | some (.mapType _ _) => { context := .suffix "size" true }
  | some (.ident "string") => { context := .suffix "length" true }
  | _ => { context := .suffix "length" false }

theorem writesIn_lengthNow (value : Term) (hv : Worded value.write)
    (hopen : desk.program.Open place.draft) :
    WritesIn place desk (lengthNow value) value.write
      (measured ((sourceType value.source).result place desk).1) := by
  have hopen' := (looks_sourceType value.source place desk hopen).2.1
  refine writesIn_look (looks_sourceType value.source) hopen ?_
  show WritesIn _ _ _ _ (measured (sourceType value.source place desk).1)
  generalize (sourceType value.source place desk).1 = type
  by_cases hmap : ∃ key value, type = some (.mapType key value)
  · obtain ⟨key, value, rfl⟩ := hmap
    exact writesIn_suffix _ hv hopen' rfl rfl
  by_cases hstring : type = some (.ident "string")
  · subst hstring
    exact writesIn_suffix _ hv hopen' rfl rfl
  have hmeasured : measured type = { context := .suffix "length" false } := by
    unfold measured
    split
    · exact absurd ⟨_, _, rfl⟩ hmap
    · exact absurd rfl hstring
    · rfl
  rw [hmeasured]
  split
  · exact absurd ⟨_, _, rfl⟩ hmap
  · exact absurd rfl hstring
  · exact writesIn_suffix _ hv hopen' rfl rfl

/-! ## Updates -/

/-- What stands around the value of an update of a variable or of an array's element. -/
def assigned (target : String) (op : BinaryOp) (rest : String) : Setting :=
  if op = .andNot then { outer := target ++ " &= ", context := .complement, rest }
  else { outer := target ++ assignToken (.compound op), context := .nothing, rest }

/-- What stands around the value of an update of a map's element. -/
def put (base index whole key : String) (op : BinaryOp) (rest : String) : Setting where
  outer := base ++ (".put(" ++ (index ++ ", "))
  context :=
    let left := whole ++ (".get(" ++ (key ++ ")"))
    if op = .andNot then .masked left else .operand left op.java
  rest := ")" ++ rest

/-- What stands around the value of an update of an element, by the type of the whole. -/
def updated (type : Option Expr) (base index whole key : String) (op : BinaryOp) (rest : String) :
    Setting :=
  match type with
  | some (.mapType _ _) => put base index whole key op rest
  | _ => assigned (base ++ ("[" ++ (index ++ "]"))) op rest

variable {base index : Term} (op : BinaryOp)

/-- A statement ends after what may follow its value. -/
theorem writesIn_end {before text after : String}
    (h : Encloses place desk x value.write before text after)
    (howed : (x.result place desk).2.owed = false) (hb : before = s.outer ++ s.context.before)
    (ha : after ++ statementEnd place = s.context.after ++ s.rest) :
    WritesIn place desk (x >>= fun _ => endStatement) value.write s :=
  writesIn_of_encloses (encloses_end h howed) hb ha

/-- What stands between an element of a map and the value of its update. -/
theorem before_put (b i b' i' rest : String) : (put b i b' i' op rest).context.before =
    (b' ++ (".get(" ++ (i' ++ ")"))) ++ (" " ++ binaryToken op ++ " ") := by
  cases op <;> rfl

theorem writesIn_mapPut (hb : Worded base.write) (hi : Worded index.write)
    (hv : Worded value.write) (hopen : desk.program.Open place.draft) :
    ∃ b i b' i', Wrote place base.write [b, b'] ∧ Wrote place index.write [i, i'] ∧
      WritesIn place desk (mapPut base index (.compound op value) >>= fun _ => endStatement)
        value.write (put b i b' i' op (statementEnd place)) := by
  obtain ⟨b, hbase⟩ := hb.text hopen
  have hput := addsAt_print ".put(" hbase.opened
  obtain ⟨i, hindex⟩ := hi.text hput.opened
  have hcomma := addsAt_print ", " hindex.opened
  obtain ⟨b', hbase'⟩ := hb.text hcomma.opened
  have hget := addsAt_print ".get(" hbase'.opened
  obtain ⟨i', hindex'⟩ := hi.text hget.opened
  have hclose := addsAt_print ")" hindex'.opened
  have hleft := addsAt_seq hbase' (addsAt_seq hget (addsAt_seq hindex' hclose))
  have hop := addsAt_print (" " ++ binaryToken op ++ " ") hclose.opened
  obtain ⟨text, htext⟩ := hv.text hop.opened
  have hvalue := encloses_before hleft (encloses_before hop (encloses_self htext))
  have hall := encloses_before hbase (encloses_before hput (encloses_before hindex
    (encloses_before hcomma (encloses_after hvalue htext.owed (addsAt_print ")" htext.opened)))))
  refine ⟨b, i, b', i', wrote_pair hbase hbase', wrote_pair hindex hindex',
    writesIn_end hall rfl ?_ ?_⟩
  · rw [before_put]
    simp only [put, String.append_assoc, String.append_empty]
  · cases op <;> rfl

theorem before_assigned (t rest : String) : (assigned t op rest).outer ++
    (assigned t op rest).context.before = t ++ assignToken (.compound op) := by
  unfold assigned
  split
  · rename_i hop
    rw [hop]
    exact String.append_assoc
  · exact String.append_empty

/-- The value after a target and the token between them. -/
theorem writesIn_token {target : Emit Unit} {t : String}
    (ht : AddsAt place desk target t) (hv : Worded value.write) :
    WritesIn place desk ((do
      target
      print (assignToken (.compound op))
      value.write) >>= fun _ => endStatement) value.write (assigned t op (statementEnd place)) := by
  have htoken := addsAt_print (assignToken (.compound op)) ht.opened
  obtain ⟨text, htext⟩ := hv.text htoken.opened
  have hall := encloses_before ht (encloses_before htoken (encloses_self htext))
  refine writesIn_end hall (hv.inline.rests _ _) ?_ ?_
  · rw [before_assigned, String.append_empty]
  · cases op <;> rfl

theorem writesIn_arraySet (hb : Worded base.write) (hi : Worded index.write)
    (hv : Worded value.write) (hopen : desk.program.Open place.draft) :
    ∃ b i, Wrote place base.write [b, b] ∧ Wrote place index.write [i, i] ∧
      WritesIn place desk (arraySet base index (.compound op value) >>= fun _ => endStatement)
        value.write (assigned (b ++ ("[" ++ (i ++ "]"))) op (statementEnd place)) := by
  obtain ⟨b, hbase⟩ := hb.text hopen
  have hleft := addsAt_print "[" hbase.opened
  obtain ⟨i, hindex⟩ := hi.text hleft.opened
  have hright := addsAt_print "]" hindex.opened
  have helement := addsAt_seq hbase (addsAt_seq hleft (addsAt_seq hindex hright))
  have hset : arraySet base index (.compound op value) = (do
      (do
        base.write
        print "["
        index.write
        print "]")
      print (assignToken (.compound op))
      value.write) := rfl
  rw [hset]
  exact ⟨b, i, wrote_pair hbase hbase, wrote_pair hindex hindex, writesIn_token op helement hv⟩

theorem writesIn_elementUpdateNow (base index value : Term) (hb : Worded base.write)
    (hi : Worded index.write) (hv : Worded value.write) (hopen : desk.program.Open place.draft) :
    ∃ b i b' i', Wrote place base.write [b, b'] ∧ Wrote place index.write [i, i'] ∧
      WritesIn place desk (elementUpdateNow base index (.compound op value)) value.write
        (updated ((sourceType base.source).result place desk).1 b i b' i' op
          (statementEnd place)) := by
  have hlook := looks_sourceType base.source
  have hopen' := (hlook place desk hopen).2.1
  show ∃ b i b' i', _ ∧ _ ∧ WritesIn _ _ _ _ (updated (sourceType base.source place desk).1 ..)
  by_cases hmap : ∃ key value, (sourceType base.source place desk).1 = some (.mapType key value)
  · obtain ⟨key, type, hmap⟩ := hmap
    obtain ⟨b, i, b', i', hbs, his, hput⟩ := writesIn_mapPut op hb hi hv hopen'
    refine ⟨b, i, b', i', hbs, his, writesIn_look hlook hopen ?_⟩
    rw [hmap]
    exact hput
  · obtain ⟨b, i, hbs, his, hset⟩ := writesIn_arraySet op hb hi hv hopen'
    refine ⟨b, i, b, i, hbs, his, writesIn_look hlook hopen ?_⟩
    generalize (sourceType base.source place desk).1 = type at hmap ⊢
    have hupdated : updated type b i b i op (statementEnd place) =
        assigned (b ++ ("[" ++ (i ++ "]"))) op (statementEnd place) := by
      unfold updated
      split
      · exact absurd ⟨_, _, rfl⟩ hmap
      · rfl
    rw [hupdated]
    split
    · exact absurd ⟨_, _, rfl⟩ hmap
    · exact hset

theorem plainAssign_compound {target : Term} (h : target.source ≠ .ident "_") :
    plainAssign target [] (.compound op) value = (do
      target.write
      print (assignToken (.compound op))
      value.write) >>= fun _ => endStatement := by
  have hsource : target.source.ident? ≠ some "_" := by
    intro hident
    cases hs : target.source with
    | ident name =>
      rw [hs] at hident h
      exact h (congrArg Expr.ident (Option.some.inj hident))
    | _ =>
      rw [hs] at hident
      cases hident
  unfold plainAssign
  rw [if_neg (by simpa using hsource)]
  rfl

theorem writesIn_plainAssign (target value : Term) (h : target.source ≠ .ident "_")
    (ht : Worded target.write) (hv : Worded value.write) (hopen : desk.program.Open place.draft) :
    ∃ t, AddsAt place desk target.write t ∧
      WritesIn place desk (plainAssign target [] (.compound op) value) value.write
        (assigned t op (statementEnd place)) := by
  obtain ⟨t, htarget⟩ := ht.text hopen
  rw [plainAssign_compound op h]
  exact ⟨t, htarget, writesIn_token op htarget hv⟩

end Forms

/-! ## Conversions of Go syntax -/

open Forms (Converts measured assigned updated)

theorem call_of_type {type : Expr} (h : desk.program.isTypeCallee place type = true) :
    (expr release none (.call type [v] spread)).result place desk =
      (conversion type ⟨v, expr release none v⟩).result place desk := by
  show (if _ then _ else _ : Emit Unit) place desk = _
  rw [if_pos h]
  rfl

/-- A call of a name that is neither a type nor a variable is built in or a plain call. -/
theorem call_of_name (htype : desk.program.isTypeCallee place (.ident name) = false)
    (hvar : desk.program.isVar place name = false) :
    (expr release none (.call (.ident name) [v] spread)).result place desk =
      ((builtin? name [⟨v, expr release none v⟩]).getD
        (plainCall ⟨.ident name, expr release none (.ident name)⟩
          [⟨v, expr release none v⟩])).result place desk := by
  show (if desk.program.isTypeCallee place (.ident name) then _
    else ((if desk.program.isVar place name then none else _ : Option (Emit Unit)).getD _)
    : Emit Unit) place desk = _
  rw [htype, hvar]
  rfl

theorem call_of_length (hname : name ∈ ["len", "cap"])
    (htype : desk.program.isTypeCallee place (.ident name) = false)
    (hvar : desk.program.isVar place name = false) :
    (expr release none (.call (.ident name) [v] spread)).result place desk =
      (defer (.length v) (Conversion.run release (.length v))).result place desk := by
  rw [call_of_name htype hvar]
  rcases List.mem_pair.1 hname with rfl | rfl
  · rfl
  · rfl

theorem stmt_of_update (release : Release) (chained : Bool) (base index v : Expr) (op : BinaryOp) :
    stmt release chained (.assign [.index base index] (.compound op) [v]) =
      defer (.elementUpdate base index (.compound op v))
        (Conversion.run release (.elementUpdate base index (.compound op v))) := rfl

theorem stmt_of_compound (release : Release) (chained : Bool) {x : Expr} (v : Expr) (op : BinaryOp)
    (h : elementOf release x = none) : stmt release chained (.assign [x] (.compound op) [v]) =
      plainAssign ⟨x, expr release none x⟩ [] (.compound op) ⟨v, expr release none v⟩ := by
  show singleAssign ⟨_, elementOf release x⟩ [] _ _ = _
  rw [h]
  rfl

/-- A binary expression is written as its operands with an operator between them. -/
theorem exists_operands (n : Nat) (l : Expr) (op : BinaryOp) (r : Expr)
    (hopen : desk.program.Open place.draft) :
    ∃ s u, AddsAt place desk (expr (releaseAt n) none (.binary l op r))
      (s ++ ((" " ++ binaryToken op ++ " ") ++ u)) := by
  obtain ⟨s, hs⟩ := (worded_expr n l).text hopen
  have hop := addsAt_print (" " ++ binaryToken op ++ " ") hs.opened
  obtain ⟨u, hu⟩ := (worded_expr n r).text hop.opened
  exact ⟨s, u, addsAt_seq hs (addsAt_seq hop hu)⟩

/-- What is written next to a value takes the whole of it for its operand exactly if the value binds
more tightly. Binary expressions and raw strings of several lines bind less tightly than casts,
members and complements. -/
theorem value_is_taken_whole_iff_it_binds_tightly (n : Nat) (v : Expr) (place : Place) (desk : Desk)
    (hopen : desk.program.Open place.draft) :
    let release := releaseAt n
    let value := expr release none v
    (∀ type spread, desk.program.isTypeCallee place type = true →
      Converts place desk type v (expr release none (.call type [v] spread)) value) ∧
    (WritesIn place desk (Conversion.run release (.length v)) value
        (measured ((sourceType v).result place desk).1) ∧
      ∀ name ∈ ["len", "cap"], ∀ spread,
        desk.program.isTypeCallee place (.ident name) = false →
        desk.program.isVar place name = false →
        (expr release none (.call (.ident name) [v] spread)).result place desk =
          (defer (.length v) (Conversion.run release (.length v))).result place desk) ∧
    (∀ base index op,
      (∃ b i b' i', Wrote place (expr release none base) [b, b'] ∧
        Wrote place (expr release none index) [i, i'] ∧
        WritesIn place desk (Conversion.run release (.elementUpdate base index (.compound op v)))
          value (updated ((sourceType base).result place desk).1 b i b' i' op
            (statementEnd place))) ∧
        ∀ chained, stmt release chained
            (.assign [.index base index] (.compound op) [v]) =
          defer (.elementUpdate base index (.compound op v))
            (Conversion.run release (.elementUpdate base index (.compound op v)))) ∧
    (∀ x op chained, elementOf release x = none → x ≠ .ident "_" →
      ∃ t, AddsAt place desk (expr release none x) t ∧
        WritesIn place desk (stmt release chained (.assign [x] (.compound op) [v])) value
          (assigned t op (statementEnd place))) ∧
    (∀ l op r, v = .binary l op r →
      ∃ s u, AddsAt place desk value (s ++ ((" " ++ binaryToken op ++ " ") ++ u)) ∧
        ∀ tl tr, Java.Phrase.read s = some tl → Java.Phrase.read u = some tr →
          ∃ t, Java.Phrase.read (s ++ ((" " ++ binaryToken op ++ " ") ++ u)) = some t ∧
            t.level ≤ 10) ∧
    (∀ text, v = .lit .raw text → AddsAt place desk value (rawString text) ∧
      ∃ t, Java.Phrase.read (rawString text) = some t ∧
        if '\n' ∈ text.toList then t.level ≤ 10 else t.level = 12) := by
  have hv : Worded (expr (releaseAt n) none v) := worded_expr n v
  refine ⟨?_, ⟨?_, ?_⟩, ?_, ?_, ?_, ?_⟩
  · intro type spread htype
    exact Forms.converts_congr (call_of_type htype) (converts_conversion type ⟨v, _⟩ hv hopen)
  · exact writesIn_lengthNow ⟨v, _⟩ hv hopen
  · exact fun name hname spread htype hvar => call_of_length hname htype hvar
  · intro base index op
    refine ⟨?_, fun chained => stmt_of_update _ chained base index v op⟩
    exact writesIn_elementUpdateNow op ⟨base, _⟩ ⟨index, _⟩ ⟨v, _⟩ (worded_expr n base)
      (worded_expr n index) hv hopen
  · intro x op chained helement hx
    rw [stmt_of_compound _ chained v op helement]
    exact writesIn_plainAssign op ⟨x, _⟩ ⟨v, _⟩ hx (worded_expr n x) hv hopen
  · rintro l op r rfl
    obtain ⟨s, u, hadds⟩ := exists_operands n l op r hopen
    exact ⟨s, u, hadds, fun tl tr hl hr => read_of_binary op hl hr⟩
  · rintro text rfl
    exact ⟨addsAt_print _ hopen, read_rawString text⟩

/-- A page on which everything is written at once, and a map from strings to integers. -/
def mapPage : Program :=
  { onePage with
    phase := .finalization
    scopes := (({} : Scopes).new none).setVar 0 "m" (.mapType (.ident "string") (.ident "int")) }

/-- What an action writes on the page. -/
def onMapPage (x : Emit Unit) : String :=
  (x.result indentedLine.place ⟨mapPage, false⟩).2.program.drafts.text 0

/-- The operands of `a + b` are taken apart by a cast and by a product, and only the last line of a
string is measured. -/
theorem sums_and_lines_are_taken_apart :
    let place := indentedLine.place
    let release := releaseAt 0
    let sum : Expr := .binary (.ident "a") .add (.ident "b")
    let lines : Expr := .lit .raw "\x60x\ny\x60"
    mapPage.Open place.draft ∧
    (Converts place ⟨mapPage, false⟩ (.ident "float64") sum
        (expr release none (.call (.ident "float64") [sum] false)) (expr release none sum) ∧
      onMapPage (expr release none (.call (.ident "float64") [sum] false)) =
        "((double) a + b)" ∧
      Java.Phrase.read "(double) a + b" = some (.binary
        (.cast [.word "double".toList] (.word ['a'])) .add (.word ['b']))) ∧
    ((∃ b i b' i', Wrote place (expr release none (.ident "m")) [b, b'] ∧
        Wrote place (expr release none (.ident "k")) [i, i'] ∧
        WritesIn place ⟨mapPage, false⟩
          (Conversion.run release (.elementUpdate (.ident "m") (.ident "k") (.compound .mul sum)))
          (expr release none sum)
          (updated ((sourceType (.ident "m")).result place ⟨mapPage, false⟩).1 b i b' i' .mul
            (statementEnd place))) ∧
      onMapPage
          (Conversion.run release (.elementUpdate (.ident "m") (.ident "k") (.compound .mul sum))) =
        "m.put(k, m.get(k) * a + b);\n" ∧
      ¬ (Java.Context.operand "m.get(k)" .mul).Room
        (.binary (.word ['a']) .add (.word ['b']))) ∧
    (onMapPage (Conversion.run release (.length lines)) = "\"x\\n\"+\n\"y\".length()" ∧
      Java.Phrase.read "\"x\\n\"+\n\"y\".length()" = some (.binary (.word "\"x\\n\"".toList) .add
        (.call (.member (.word "\"y\"".toList) "length".toList) []))) := by
  have hopen : mapPage.Open indentedLine.place.draft := ⟨by decide, by decide⟩
  obtain ⟨hconverted, -, hupdated, -⟩ := value_is_taken_whole_iff_it_binds_tightly 0
    (.binary (.ident "a") .add (.ident "b")) indentedLine.place ⟨mapPage, false⟩ hopen
  refine ⟨hopen, ⟨hconverted _ false (by decide +kernel), ?_, ?_⟩,
    ⟨(hupdated (.ident "m") (.ident "k") .mul).1, ?_, ?_⟩, ?_, ?_⟩
  all_goals decide +kernel

end GoToJava
