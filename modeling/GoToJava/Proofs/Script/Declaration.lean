import GoToJava.Proofs.Script.Statement

/-! The steps of writing declarations. -/

namespace GoToJava

open Go (Expr Field Signature FuncDecl GenKind isExported title)
open Emit

variable {W : Outlook} {tidy : Prop} {K : Ken} {a : List Char} {release : Release}

/-- Bodies of functions can be written in the same steps: what they return may make classes
implement interfaces, and their structs release the methods that wait for them. -/
structure Release.Steady (W : Outlook) (release : Release) : Prop where
  declares : W.declares
  conforms : W.rules.returns → W.Conforms
  struct : ∀ {name : String} {fields : List Field}, W.rules.cls name → Plain W.tidy name →
    Field.SpelledList (Plain W.tidy) fields → Scripted W (Forms.struct release name fields)

/-- Methods of a class that is there are written in the same steps. -/
def Release.Fills (W : Outlook) (release : Release) : Prop :=
  ∀ cls decl, (W.methods → decl.Obeys W.rules) → decl.Spelled (Plain W.tidy) → ∀ K a, K.cls cls →
    Parallel W K a a Eq (release cls decl) (release cls decl)

/-- The values of a line take the same steps. -/
def SpecForm.Steady (W : Outlook) : SpecForm → Prop
  | .value names declared values =>
    (∀ n ∈ names, Plain W.tidy n) ∧ (∀ t ∈ declared, t.Spelled (Plain W.tidy)) ∧
      ∀ v ∈ values, v.Steady W
  | .type name target isAlias =>
    W.rules.type name target isAlias ∧ Plain W.tidy name ∧ target.Spelled (Plain W.tidy)

namespace Forms

variable {name : String} {fields : List Field} {stmts : Emit Unit} {type : Expr} {scope cls : Nat}
  {decl : FuncDecl} {sig : Signature} {receiver : Option Field}

theorem scripted_access (name : String) : Scripted W (access name) := by
  unfold access
  split <;> exact scripted_word rfl

/-! ## Functions -/

theorem spelled_fields {ps : List (String × Expr)} (hf : ∀ f ∈ fields, f.Spelled (Plain tidy))
    (hps : ∀ v ∈ ps, Plain tidy v.1 ∧ v.2.Spelled (Plain tidy)) :
    ∀ v ∈ fields.foldl (fun ps f =>
      let names := if f.names.isEmpty then ["arg" ++ toString ps.length] else f.names
      ps ++ names.map fun n => (n, f.type)) ps, Plain tidy v.1 ∧ v.2.Spelled (Plain tidy) := by
  induction fields generalizing ps with
  | nil => exact hps
  | cons f fields ih =>
    refine ih (fun g hg => hf g (List.mem_cons_of_mem _ hg)) ?_
    obtain ⟨hnames, htype⟩ := Go.Field.spelled_iff.1 (hf f List.mem_cons_self)
    intro v hv
    rcases List.mem_append.1 hv with hv | hv
    · exact hps v hv
    · obtain ⟨n, hn, rfl⟩ := List.mem_map.1 hv
      refine ⟨?_, htype⟩
      split at hn
      · rw [List.mem_singleton.1 hn]
        exact plain_append (plain_of_chars (by decide)) (plain_nat _)
      · exact hnames n hn

theorem spelled_params (hf : ∀ f ∈ fields, f.Spelled (Plain tidy)) :
    ∀ v ∈ params fields, Plain tidy v.1 ∧ v.2.Spelled (Plain tidy) :=
  spelled_fields hf fun v hv => by cases hv

/-- The name and the parameters of a function, which are bound in its scope. -/
theorem parallel_parameters {vars : List (String × Expr)} (hs : K.opened scope)
    (hn : Plain W.tidy name) (hv : ∀ v ∈ vars, Plain W.tidy v.1 ∧ v.2.Spelled (Plain W.tidy)) :
    ∀ x, x = (do
      print " "
      print name
      print "("
      separated ", " (vars.map fun (param, type) => do
        writeType .references type
        print " "
        print param
        modifyProgram fun p => { p with scopes := p.scopes.setVar scope param type })
      if name == "main" && vars.isEmpty then
        print "String[] args"
      print ")") → Parallel W K a a Eq x x := by
  rintro x rfl
  refine .seq (.word rfl) (.seq (scripted_print hn K a)
    (.seq (.word rfl) (.seq (b := ')' :: a) ?_ ?_)))
  · refine parallel_separated (plain_of_chars (by decide)) fun x hx => ?_
    obtain ⟨⟨param, type⟩, hmem, rfl⟩ := List.mem_map.1 hx
    obtain ⟨hparam, htype⟩ := hv _ hmem
    refine .seq (scripted_writeType rfl htype K _) (.seq (.word rfl) ?_)
    exact .seq (scripted_print hparam K _) (.note (n := .var scope param type) ⟨hs, htype⟩)
  · dsimp only
    split
    · exact .seq (.word rfl) (.word rfl)
    · exact .word rfl

theorem parallel_signature (hd : W.declares) (hscope : K.opened scope) (hn : Plain W.tidy name)
    (hs : sig.Spelled (Plain W.tidy)) (hr : ∀ f ∈ receiver, f.Spelled (Plain W.tidy)) :
    Parallel W K a a Eq (signature name sig receiver scope)
      (signature name sig receiver scope) := by
  have hparams : ∀ v ∈ params (receiver.toList ++ sig.params),
      Plain W.tidy v.1 ∧ v.2.Spelled (Plain W.tidy) := by
    apply spelled_params
    intro f hf
    rcases List.mem_append.1 hf with hf | hf
    · exact hr f (Option.mem_toList.1 hf)
    · exact Go.Signature.spelled_params hs f hf
  have hresults : ∀ f ∈ sig.results, f.type.Spelled (Plain W.tidy) := fun f hf =>
    (Go.Field.spelled_iff.1 (Go.Signature.spelled_results hs f hf)).2
  have hrest := parallel_parameters (W := W) (K := K) (a := a) hscope hn hparams _ rfl
  unfold signature
  split
  · exact .seq (.word rfl) hrest
  · rename_i first rest hsplit
    rw [hsplit] at hresults
    have hfirst := hresults first List.mem_cons_self
    refine .seq (scripted_writeType rfl hfirst K a) ?_
    refine .seq (.note (n := .func name first.type) ⟨hd, hfirst⟩) (.seq ?_ hrest)
    -- Java has one result, so the others are noted in comments.
    refine parallel_forM fun extra hextra => .seq (.word rfl) (.seq ?_ (.word rfl))
    exact scripted_writeType rfl (hresults extra (List.mem_cons_of_mem _ hextra)) K a

theorem parallel_body {receiver : Option Receiver} (hscope : K.opened scope)
    (hr : ∀ r, receiver = some r → K.cls r.cls) (hs : sig.Spelled (Plain W.tidy))
    (h : ScriptedIn W stmts) :
    Parallel W K a a Eq (body scope receiver sig stmts) (body scope receiver sig stmts) := by
  have hsteers : W.Steers K ({ · with scope, receiver, result := sig.firstResult }) True :=
    ⟨fun _ _ => rfl, fun _ => rfl, fun _ => Or.inl ⟨rfl, Or.inr hscope⟩,
      fun _ r h => Or.inr (hr r h), fun _ _ => Go.Signature.spelled_firstResult hs⟩
  refine .seq (.within hsteers (scripted_block h _ a trivial)) ?_
  exact .seq (.line rfl) (.line rfl)

theorem openScope_bind {α : Type} (vars : List (String × Expr)) (f : Nat → Emit α) :
    openScope false vars >>= f = packageScope >>= fun parent => newScope parent vars >>= f :=
  bind_assoc _ _ _

theorem function_eq (decl : FuncDecl) (receiver : Option Field) (stmts : Emit Unit) :
    function decl receiver stmts = (do
      let scope ← openScope false []
      access decl.name
      print "static "
      signature decl.name decl.sig receiver scope
      body scope none decl.sig stmts) :=
  (openScope_bind _ _).symm

theorem scripted_function (hw : W.declares) (hd : decl.Spelled (Plain W.tidy))
    (hr : ∀ f ∈ receiver, f.Spelled (Plain W.tidy)) (h : ScriptedIn W stmts) :
    Scripted W (function decl receiver stmts) := by
  intro K a
  rw [function_eq]
  refine .scope hw (by simp) fun scope => .seq (scripted_access _ _ a) (.seq (.word rfl) ?_)
  refine .seq (parallel_signature hw (Or.inr rfl) hd.name hd.sig hr) ?_
  exact parallel_body (Or.inr rfl) (by simp) hd.sig h

/-- What stands in a class for a method. -/
def methodText (decl : FuncDecl) (cls : Nat) (stmts : Emit Unit) : Emit Unit := do
  let named := decl.receiver.bind fun f =>
    (f.names.head?.filter (· ≠ "_")).map fun name => (name, f.type)
  let scope ← newScope (← packageScope) named.toList
  match decl.sig.firstResult with
  | some result => note (.method cls decl.name result)
  | none => pure ()
  access decl.name
  signature decl.name decl.sig none scope
  body scope (named.map fun (name, _) => ⟨name, cls⟩) decl.sig stmts

/-- The name that the receiver of a method goes by, and its type. -/
def receiverName (decl : FuncDecl) : Option (String × Expr) :=
  decl.receiver.bind fun f => (f.names.head?.filter (· ≠ "_")).map fun name => (name, f.type)

theorem methodText_eq (decl : FuncDecl) (cls : Nat) (stmts : Emit Unit) :
    methodText decl cls stmts = (do
      let scope ← openScope false (receiverName decl).toList
      match decl.sig.firstResult with
      | some result => note (.method cls decl.name result)
      | none => pure ()
      access decl.name
      signature decl.name decl.sig none scope
      body scope ((receiverName decl).map fun (name, _) => ⟨name, cls⟩) decl.sig stmts) :=
  (openScope_bind _ _).symm

theorem parallel_methodText (hw : W.declares) (hd : decl.Spelled (Plain W.tidy)) (hc : K.cls cls)
    (h : ScriptedIn W stmts) :
    Parallel W K a a Eq (methodText decl cls stmts) (methodText decl cls stmts) := by
  rw [methodText_eq]
  refine .scope hw (fun v hv => ?_) fun scope => ?_
  · obtain ⟨f, hf, hv⟩ := Option.bind_eq_some_iff.1 (Option.mem_toList.1 hv)
    obtain ⟨name, -, rfl⟩ := Option.map_eq_some_iff.1 hv
    exact (Go.Field.spelled_iff.1 (hd.receiver f hf)).2
  -- The receiver is known by its class, which was there before the method.
  have hself : ∀ r : Receiver, (receiverName decl).map (fun (name, _) => ⟨name, cls⟩) = some r →
      K.cls r.cls := by
    intro r hr
    obtain ⟨n, -, rfl⟩ := Option.map_eq_some_iff.1 hr
    exact hc
  have hrest : Parallel W (K.opening scope) a a Eq
      (do
        access decl.name
        signature decl.name decl.sig none scope
        body scope ((receiverName decl).map fun (name, _) => ⟨name, cls⟩) decl.sig stmts)
      (do
        access decl.name
        signature decl.name decl.sig none scope
        body scope ((receiverName decl).map fun (name, _) => ⟨name, cls⟩) decl.sig stmts) := by
    refine .seq (scripted_access _ _ a) (.seq ?_ (parallel_body (Or.inr rfl) hself hd.sig h))
    exact parallel_signature hw (Or.inr rfl) hd.name hd.sig (by simp)
  split
  · rename_i result hresult
    have hspelled := Go.Signature.spelled_firstResult hd.sig result hresult
    exact .seq (.note (n := .method cls decl.name result) ⟨hw, hspelled⟩) hrest
  · exact hrest

theorem parallel_method (hw : W.declares) (hm : W.methods) (hd : decl.Spelled (Plain W.tidy))
    (hc : K.cls cls) (h : ScriptedIn W stmts) :
    Parallel W K a a Eq (method decl cls stmts) (method decl cls stmts) :=
  .inMethods hm hc (parallel_methodText hw hd hc h)

/-! ## Types -/

theorem scripted_classField (hn : Plain W.tidy name) (ht : type.Spelled (Plain W.tidy)) :
    Scripted W (classField name type) := by
  refine fun K a => .seq (scripted_access _ K a) (.seq (scripted_writeType rfl ht K a) ?_)
  refine .seq (.word rfl) (.seq (scripted_print hn K a) ?_)
  have hend := scripted_endStatement (W := W) K a
  split
  · exact .seq (.word rfl) (.seq (scripted_writeType rfl ht K a) (.seq (.word rfl) hend))
  · exact hend

theorem scripted_classWords {kind : String} (hk : Plain W.tidy kind) :
    Scripted W (classWords kind) := by
  refine fun K a => .seq (.word rfl) (.read fun place draft _ => ?_)
  dsimp only
  split
  · exact .seq (.word rfl) (scripted_print hk K a)
  · exact scripted_print hk K a

theorem parallel_classEnd : Parallel W K ('\x7d' :: a) a Eq classEnd classEnd := by
  refine .seq (.line rfl) (.read fun place draft _ => ?_)
  exact scripted_when (fun _ _ => .line rfl) K a

theorem scripted_embeddedTypes {types : List Expr}
    (ht : ∀ t ∈ types, t.Spelled (Plain W.tidy)) : Scripted W (embeddedTypes types) := by
  intro K a
  have htype : ∀ t ∈ types, Parallel W K a a Eq (writeType {} t) (writeType {} t) :=
    fun t hmem => scripted_writeType rfl (ht t hmem) K a
  unfold embeddedTypes
  split
  · exact .pure rfl
  · refine .seq (.word rfl) (.seq (htype _ (by simp)) ?_)
    split
    · exact .pure rfl
    · refine .seq (.word rfl) (.seq (htype _ (by simp)) (parallel_forM fun type hmem => ?_))
      exact .seq (.word rfl) (htype _ (by simp [hmem]))

section Fields

variable {name : String} {fields : List (String × Expr)}

theorem scripted_constructor (hn : Plain W.tidy name)
    (hf : ∀ f ∈ fields, Plain W.tidy f.1 ∧ f.2.Spelled (Plain W.tidy)) :
    Scripted W (constructor name fields) := by
  refine fun K a => .seq (b := ')' :: a) (.bare ?_) (.seq (.line rfl) ?_)
  · refine .seq (.word rfl) (.seq (scripted_print hn K a) (.seq (.word rfl) ?_))
    refine parallel_separated (plain_of_chars (by decide)) fun x hx => ?_
    obtain ⟨⟨field, type⟩, hmem, rfl⟩ := List.mem_map.1 hx
    refine .seq (scripted_writeType rfl (hf _ hmem).2 K _) (.seq (.word rfl) ?_)
    exact scripted_print (hf _ hmem).1 K _
  · refine .seq (.indented (parallel_forM fun f hmem => scripted_println ?_ K _))
      (.seq (.line rfl) (.line rfl))
    have hfield := (hf f hmem).1
    exact plain_append (plain_append (plain_append (plain_append (plain_of_chars (by decide))
      hfield) (plain_of_chars (by decide))) hfield) (plain_of_chars (by decide))

/-- What stands in the body of a class before the place for its methods. -/
theorem parallel_classBody (hd : W.declares) (hn : Plain W.tidy name)
    (hf : ∀ f ∈ fields, Plain W.tidy f.1 ∧ f.2.Spelled (Plain W.tidy)) :
    Parallel W K a a W.Cursors (classBody name fields) (classBody name fields) := by
  refine .seq (parallel_forM fun f hmem => scripted_classField (hf f hmem).1 (hf f hmem).2 K a) ?_
  refine .seq (.line rfl) (.seq (.word rfl) (.seq (scripted_print hn K a) ?_))
  refine .seq (.line rfl) (.seq (.line rfl) (.seq (.line rfl) ?_))
  dsimp only
  split
  · exact .reserve hd true
  · exact .seq (scripted_constructor hn hf K a) (.reserve hd true)

end Fields

theorem addClass_eq (release : Release) (cls : JavaClass) : addClass release cls = (do
    let p ← program
    let id ← enroll cls
    (p.parked.filter (·.cls == cls.name)).forM fun m => release id m.decl) :=
  program_congr fun _ _ => rfl

/-- The declarations of the methods that wait for a class. -/
def waitingFor (p : Program) (cls : String) : List FuncDecl :=
  (p.parked.filter (·.cls == cls)).map (·.decl)

theorem waitingFor_eq {settled : String → Prop} {p q : Program} (h : p.Like settled q)
    (cls : String) : waitingFor q cls = waitingFor p cls := by
  have hcontent : ∀ r : Program, waitingFor r cls =
      ((r.parked.map (·.content)).filter (·.1 == cls)).map (·.2) := by
    intro r
    rw [List.filter_map, List.map_map]
    rfl
  rw [hcontent, hcontent, h.parked]

theorem parallel_addClass {c d : JavaClass} (hw : W.declares) (hn : W.registers c.name)
    (h : W.Classes c d) (hr : Release.Fills W release) :
    Parallel W K a a Eq (addClass release c) (addClass release d) := by
  have hname : d.name = c.name := congrArg (·.name) h.like
  have hforM : ∀ (p : Program) (id : Nat) (name : String),
      ((p.parked.filter (·.cls == name)).forM fun m => release id m.decl) =
        (waitingFor p name).forM (release id) := by
    intro p id name
    exact List.forM_map.symm
  simp only [addClass_eq, hforM]
  refine .program fun p q hp _ hlike => ?_
  rw [hname, waitingFor_eq hlike]
  refine .enroll hw hn h fun id => parallel_forM fun decl hdecl => ?_
  obtain ⟨m, hm, rfl⟩ := List.mem_map.1 hdecl
  have hparked := (List.mem_filter.1 hm).1
  exact hr id _ (fun hmethods => W.parked hmethods p hp m hparked)
    ((W.spelt p hp).parked m hparked) _ a (Or.inr rfl)

theorem spelled_embedded {keep : Field → Bool} (hf : ∀ f ∈ fields, f.Spelled (Plain tidy)) :
    ∀ t ∈ (fields.filter keep).map (·.type), t.Spelled (Plain tidy) := by
  intro t ht
  obtain ⟨f, hmem, rfl⟩ := List.mem_map.1 ht
  exact (Go.Field.spelled_iff.1 (hf f (List.mem_of_mem_filter hmem))).2

theorem spelled_named (hf : ∀ f ∈ fields, f.Spelled (Plain tidy)) :
    ∀ v ∈ fields.flatMap (fun f => f.names.map fun n => (n, f.type)),
      Plain tidy v.1 ∧ v.2.Spelled (Plain tidy) := by
  intro v hv
  obtain ⟨f, hmem, hv⟩ := List.mem_flatMap.1 hv
  obtain ⟨n, hname, rfl⟩ := List.mem_map.1 hv
  obtain ⟨hnames, htype⟩ := Go.Field.spelled_iff.1 (hf f hmem)
  exact ⟨hnames n hname, htype⟩

theorem scripted_struct (hw : W.declares) (hn : W.registers name) (hr : Release.Fills W release)
    (hp : Plain W.tidy name) (hf : Field.SpelledList (Plain W.tidy) fields) :
    Scripted W (struct release name fields) := by
  have hfields := Go.Field.spelledList_iff.1 hf
  refine fun K a => .seq (scripted_classWords (plain_of_chars (by decide)) K a) ?_
  refine .seq (scripted_print hp K a) ?_
  refine .seq (scripted_embeddedTypes (spelled_embedded hfields) K a) ?_
  refine .bind (parallel_reserveInline hw) fun i i' hi => ?_
  refine .seq (.line rfl) (.seq .owe ?_)
  refine .bind (.deeper (parallel_classBody hw hp (spelled_named hfields))) fun f f' hf => ?_
  refine .seq .owe (.seq parallel_classEnd (.read fun place draft _ => ?_))
  exact parallel_addClass hw hn ⟨rfl, hi, hf⟩ hr

theorem scripted_interfaceMethods (hw : W.declares) (hf : ∀ f ∈ fields, f.Spelled (Plain W.tidy)) :
    Scripted W (interfaceMethods fields) := by
  refine scripted_forM fun f hmem => ?_
  obtain ⟨hnames, htype⟩ := Go.Field.spelled_iff.1 (hf f hmem)
  split
  · rename_i sig hsig
    rw [hsig] at htype
    refine scripted_forM fun name hname K a => ?_
    rw [← openScope_bind]
    refine .scope hw (by simp) fun scope => .seq ?_ (scripted_endStatement _ a)
    exact parallel_signature hw (Or.inr rfl) (hnames name hname) htype (by simp)
  · exact scripted_pure _

theorem scripted_interface (hw : W.declares) (hn : Plain W.tidy name)
    (hf : Field.SpelledList (Plain W.tidy) fields) : Scripted W (interface name fields) := by
  intro K a
  have hfields := Go.Field.spelledList_iff.1 hf
  have hmethods : Scripted W (interfaceMethods (fields.filter (!·.isEmbedded))) :=
    scripted_interfaceMethods hw fun f hmem => hfields f (List.mem_of_mem_filter hmem)
  have hrest : Scripted W (do
      println " \x7b"
      indented (interfaceMethods (fields.filter (!·.isEmbedded)))
      classEnd) :=
    fun K a => .seq (.line rfl) (.seq (.indented (hmethods K _)) parallel_classEnd)
  have htypes : ∀ t ∈ (fields.filter (·.isEmbedded)).map (·.type),
      t.Spelled (Plain W.tidy) := spelled_embedded hfields
  refine .seq (.note (n := .interface name) ⟨hw, hn⟩) ?_
  refine .seq (scripted_classWords (plain_of_chars (by decide)) K a) ?_
  refine .seq (scripted_print hn K a) ?_
  split
  · exact hrest K a
  · refine .seq (.word rfl) (.seq (scripted_list (fun x hx => ?_) K a) (hrest K a))
    obtain ⟨type, hmem, rfl⟩ := List.mem_map.1 hx
    exact scripted_writeType rfl (htypes type hmem)

theorem scripted_whereDeclared {text : Emit Unit} (hw : W.declares)
    (hn : isExported name = true → W.rules.exported (title name)) (hp : Plain W.tidy name)
    (h : Scripted W text) : Scripted W (whereDeclared name text) := by
  have heq : whereDeclared name text =
      if isExported name then inTypeUnit (title name) text else text := rfl
  rw [heq]
  split
  · rename_i hexported
    exact fun K _ => .inTypeUnit hw (hn hexported) (plain_title hp) (h _ [])
  · exact h

theorem scripted_typeSpec {isAlias : Bool} (hr : Release.Steady W release)
    (h : W.rules.type name type isAlias) (hn : Plain W.tidy name)
    (ht : type.Spelled (Plain W.tidy)) : Scripted W (typeSpec release name type isAlias) := by
  unfold Go.Rules.type at h
  unfold typeSpec
  split
  · exact scripted_whereDeclared hr.declares h.2 hn (hr.struct h.1 (plain_title hn) ht)
  · exact scripted_whereDeclared hr.declares h hn
      (scripted_interface hr.declares (plain_title hn) ht)
  · rename_i hstruct hinterface
    have hnamed : W.rules.named (title name) type := by
      split at h
      · exact absurd rfl (hstruct _ rfl)
      · exact absurd rfl (hinterface _ rfl)
      · exact h
    exact fun _ _ => .note (n := .typeName (title name) type) ⟨hr.declares, hnamed, ht⟩

/-! ## Variables and constants -/

theorem scripted_initializer (local_ : Bool) (ht : W.Fits type) :
    Scripted W (initializer local_ type) := by
  unfold initializer
  refine fun K a => .program fun p q hp _ hlike => ?_
  rw [W.unalias_eq hp hlike ht.certain, hlike.classIndex]
  have hunalias := (W.fits_unalias hp ht).spelled
  split
  · exact .seq (.word rfl) (.seq (scripted_writeType rfl ht.spelled _ a) (.word rfl))
  · exact .seq (scripted_need (by decide) _ a) (.word rfl)
  · split
    · split
      · rename_i name hname
        rw [hname] at hunalias
        split
        · rename_i zero hzero
          obtain ⟨prim, hprim, hz⟩ := Option.bind_eq_some_iff.1 hzero
          have hplain := (plain_primitives W.tidy _ _ hprim).2.2 zero hz
          exact .seq (.word rfl) (scripted_print hplain _ a)
        · split
          · exact .seq (.word rfl) (.seq (scripted_print (plain_title hunalias) _ a) (.word rfl))
          · exact .word rfl
      · exact .word rfl
      · exact .pure rfl
    · exact .pure rfl

/-- The words before a variable. -/
def variableWords (isConst local_ : Bool) (name : String) : Emit Unit := do
  unless local_ do
    access name
    print "static "
  if isConst then print "final "

/-- The type of a variable, which its package gets to know. -/
def variableType (local_ : Bool) (type : Option Expr) (name : String) (value : Option Term) :
    Emit Unit :=
  match type, value with
  | some type, _ => do
    writeType .references type
    setVar name type
    unless local_ do modifyUnit fun u => { u with symbols := u.symbols.addType name type }
  | none, some value => do
    unless local_ do modifyUnit fun u => { u with symbols := u.symbols.addValue name value.source }
    declare name value.source
  | none, none => print "Object"

/-- The name of a variable and what it starts with. -/
def variableValue (local_ : Bool) (type : Option Expr) (name : String) (value : Option Term) :
    Emit Unit := do
  print " "
  print name
  match value, type with
  | some value, _ =>
    print " = "
    value.write
  | none, some type => initializer local_ type
  | none, none => pure ()
  endStatement

theorem variable_eq (isConst local_ : Bool) (type : Option Expr) (name : String)
    (value : Option Term) : variable_ isConst local_ type name value = (do
      variableWords isConst local_ name
      variableType local_ type name value
      variableValue local_ type name value) := by
  cases isConst <;> cases local_ <;> cases type <;> cases value <;>
    simp [variable_, variableWords, variableType, variableValue]

theorem scripted_variableWords (isConst local_ : Bool) (name : String) :
    Scripted W (variableWords isConst local_ name) := by
  have hconst : Scripted W (if isConst then print "final " else pure ()) :=
    scripted_when (scripted_word rfl)
  unfold variableWords
  dsimp only
  split
  · exact hconst
  · exact scripted_seq (scripted_access name) (scripted_seq (scripted_word rfl) hconst)

section Variable

variable {type : Option Expr} {name : String} {value : Option Term}

theorem scripted_variableType (local_ : Bool) (hw : W.declares) (hn : Plain W.tidy name)
    (ht : ∀ t ∈ type, t.Spelled (Plain W.tidy)) (hv : ∀ v ∈ value, v.Steady W) :
    ScriptedIn W (variableType local_ type name value) := by
  intro K a hb
  unfold variableType
  split
  · rename_i type
    have htype := ht type rfl
    refine .seq (scripted_writeType rfl htype K a) (.seq (.setVar hb htype) ?_)
    exact scripted_unless (fun _ _ => .note (n := .varType name type) ⟨hw, htype⟩) K a
  · rename_i value
    have hvalue := (hv value rfl).source
    have hdeclare := scripted_declare hn hvalue K a hb
    split
    · exact hdeclare
    · exact .seq (.note (n := .varValue name value.source) ⟨hw, hvalue⟩) hdeclare
  · exact .word rfl

theorem scripted_variableValue (local_ : Bool) (hn : Plain W.tidy name)
    (ht : ∀ t ∈ type, t.Spelled (Plain W.tidy)) (hv : ∀ v ∈ value, v.Steady W)
    (hc : value = none → ∀ t ∈ type, t.Certain W.settled) :
    Scripted W (variableValue local_ type name value) := by
  have hend := scripted_endStatement (W := W)
  unfold variableValue
  refine scripted_seq (scripted_word rfl) (scripted_seq (scripted_print hn) ?_)
  split
  · exact scripted_seq (scripted_word rfl) (scripted_seq (hv _ rfl).write hend)
  · exact scripted_seq (scripted_initializer local_ ⟨hc rfl _ rfl, ht _ rfl⟩) hend
  · exact hend

theorem scripted_variable (isConst local_ : Bool) (hw : W.declares) (hn : Plain W.tidy name)
    (ht : ∀ t ∈ type, t.Spelled (Plain W.tidy)) (hv : ∀ v ∈ value, v.Steady W)
    (hc : value = none → ∀ t ∈ type, t.Certain W.settled) :
    ScriptedIn W (variable_ isConst local_ type name value) := by
  rw [variable_eq]
  refine fun K a hb => .seq (scripted_variableWords _ _ _ K a) ?_
  refine .seq (scripted_variableType local_ hw hn ht hv K a hb) ?_
  exact scripted_variableValue local_ hn ht hv hc K a

end Variable

theorem scripted_variableGroup (isConst local_ : Bool) {names : List String} {type : Option Expr}
    {values : List Term} (hw : W.declares) (hn : ∀ n ∈ names, Plain W.tidy n)
    (ht : ∀ t ∈ type, t.Spelled (Plain W.tidy)) (hv : ∀ v ∈ values, v.Steady W)
    (hc : values.length < names.length → ∀ t ∈ type, t.Certain W.settled) :
    ScriptedIn W (variableGroup isConst local_ names type values) := by
  refine fun K a hb => parallel_forM fun x hx => ?_
  obtain ⟨name, position⟩ := x
  have hposition : position < names.length := by
    have := List.snd_lt_of_mem_zipIdx hx
    omega
  dsimp only
  split
  · exact .pure rfl
  · refine scripted_variable isConst local_ hw (hn name (List.fst_mem_of_mem_zipIdx hx)) ht
      (fun v h => hv v (List.mem_of_getElem? h)) (fun hnone => ?_) K a hb
    exact hc (Nat.lt_of_le_of_lt (List.getElem?_eq_none_iff.1 hnone) hposition)

end Forms

end GoToJava
