import GoToJava.Proofs.Script.Types

/-! The steps of writing expressions. -/

namespace GoToJava

open Go (Expr LitKind UnaryOp BinaryOp Signature title)
open Emit

variable {W : Outlook} {tidy : Prop} {type : Expr} {α : Type} {p : Program}

/-- The names of a type are settled and spelled. -/
structure Outlook.Fits (W : Outlook) (type : Expr) : Prop where
  certain : type.Certain W.settled
  spelled : type.Spelled (Plain W.tidy)

/-- What writes a part takes the same steps, given a type that fits. -/
def SteadyPart (W : Outlook) (part : Option Expr → Emit Unit) : Prop :=
  ∀ implied, (∀ t ∈ implied, W.Fits t) → Scripted W (part implied)

def Element.Steady (W : Outlook) : Element → Prop
  | .plain value => SteadyPart W value
  | .keyed key value => SteadyPart W key ∧ SteadyPart W value

/-- A term whose names are spelled, and which takes the same steps. -/
structure Term.Steady (W : Outlook) (t : Term) : Prop where
  source : t.source.Spelled (Plain W.tidy)
  write : Scripted W t.write

theorem fits_none : ∀ t ∈ (none : Option Expr), W.Fits t := by
  intro t ht
  cases ht

theorem fits_some (h : W.Fits type) : ∀ t ∈ some type, W.Fits t := by
  rintro t ⟨⟩
  exact h

theorem Outlook.fits_unalias (hp : W.knows p) (ht : W.Fits type) : W.Fits (p.unalias type) := by
  refine ⟨?_, (W.spelt p hp).unalias ht.spelled⟩
  obtain ⟨ht, -⟩ := ht
  unfold Program.unalias
  generalize Program.maxDepth = depth
  induction depth generalizing type with
  | zero => exact ht
  | succ depth ih =>
    cases type with
    | ident name =>
      unfold Program.unalias.go
      split
      · rename_i target htarget
        split
        · exact ht
        · rename_i hprim
          exact ih (W.certain p hp _ _ (ht.resolve_left hprim) htarget)
      · exact ht
    | _ => exact ht

theorem Outlook.unalias_eq {q : Program} (hp : W.knows p) (hlike : p.Like W.settled q)
    (ht : type.Certain W.settled) : q.unalias type = p.unalias type :=
  (hlike.akin (S := everywhere)).unalias ht (W.certain p hp)

/-- Two actions that look at the program first are equal if they are so for the program they see. -/
theorem Emit.program_congr {f g : Program → Emit α}
    (h : ∀ place desk, f desk.program place desk = g desk.program place desk) :
    (program >>= f) = program >>= g :=
  funext fun place => funext fun desk => h place desk

theorem Emit.look_congr {f g : Program → Place → Emit α}
    (h : ∀ place desk, f desk.program place place desk = g desk.program place place desk) :
    (program >>= fun p => read >>= fun place => f p place) =
      program >>= fun p => read >>= fun place => g p place :=
  program_congr fun place desk => h place desk

namespace Forms

variable {args : List Term} {body : Emit Unit} {name text : String} {elements : List Element}
  {type : Expr} {sig : Signature} {callee : Term} {implied : Option Expr}

/-! ## Names and literals -/

/-- The class of a package is imported where its name is written. -/
theorem ident_eq (name : String) : ident name = (do
    let p ← program
    let place ← read
    if (place.receiver.map (·.name)) == some name then print "this"
    else if p.iota.isSome && name == "iota" then print (toString (p.iota.getD 0))
    else if (p.importName place (title name)).isSome && !p.isVar place name then
      note (.package (title name))
      print (title name)
    else print (Java.identifier name)) := by
  -- The note finds the import that the name was looked up as.
  have hplain : ∀ place desk, ident.plain name desk.program place place desk =
      (if (desk.program.importName place (title name)).isSome &&
          !desk.program.isVar place name then do
        note (.package (title name))
        print (title name)
      else print (Java.identifier name)) place desk := by
    intro place desk
    unfold ident.plain
    cases himport : desk.program.importName place (title name) with
    | none => rfl
    | some i =>
      cases hvar : desk.program.isVar place name with
      | true => rfl
      | false =>
        obtain ⟨key, qualified⟩ := i
        have hnote : (note (.package (title name))) place desk =
            ((), { desk with program := match qualified with
              | some q => desk.program.modifyUnit place.unit fun u =>
                  { u with imports := u.imports.insert q }
              | none => desk.program }) := by
          simp only [note, Note.make, himport, Option.bind_some]
          cases qualified <;> rfl
        show _ = (note (.package (title name)) >>= fun _ => print (title name)) place desk
        have hbind : (note (.package (title name)) >>= fun _ => print (title name)) place desk =
            print (title name) place ((note (.package (title name))) place desk).2 := rfl
        rw [hbind, hnote]
        cases qualified <;> rfl
  refine look_congr fun place desk => ?_
  split
  · rfl
  · cases hiota : desk.program.iota with
    | none => exact hplain place desk
    | some n =>
      cases hname : name == "iota" with
      | true => rfl
      | false => exact hplain place desk

theorem plain_identifier (h : Plain tidy name) : Plain tidy (Java.identifier name) := by
  unfold Java.identifier
  split
  · exact plain_of_chars (by decide)
  · exact h

theorem scripted_ident (h : Plain W.tidy name) : Scripted W (ident name) := by
  rw [ident_eq]
  refine fun K a => .program fun p q _ _ hlike => .read fun place draft _ => ?_
  simp only [hlike.iota, hlike.importName, hlike.isVar]
  split
  · exact .word rfl
  · split
    · exact scripted_print (plain_nat _) _ a
    · split
      · exact .seq (.note trivial) (scripted_print (plain_title h) _ a)
      · exact scripted_print (plain_identifier h) _ a

theorem isBracket_rawChar {c d : Char} (hc : isBracket c = false) (hd : d ∈ rawChar c) :
    isBracket d = false := by
  unfold rawChar at hd
  split at hd
  · exact isBracket_of_class (· == '\\') (by decide) (by simpa using hd)
  · simp only [List.mem_cons, List.not_mem_nil, or_false] at hd
    rcases hd with rfl | rfl
    · rfl
    · rfl
  · cases hd
  · simp only [List.mem_cons, List.not_mem_nil, or_false] at hd
    rcases hd with rfl | rfl | rfl | rfl | rfl | rfl
    all_goals rfl
  · rw [List.mem_singleton] at hd
    rw [hd]
    exact hc

theorem plain_rawString (h : Plain tidy text) : Plain tidy (rawString text) := by
  have hquote : Plain tidy "\"" := plain_of_chars (by decide)
  unfold rawString
  refine plain_append (plain_append hquote ?_) hquote
  intro ht d hd
  rw [String.toList_ofList, List.mem_flatMap] at hd
  obtain ⟨c, hc, hd⟩ := hd
  -- The quotes are only cut off.
  have hmem : c ∈ text.toList := by
    rw [List.mem_reverse] at hc
    have hrev := (List.dropWhile_sublist isBackquote).subset hc
    rw [List.mem_reverse] at hrev
    exact (List.dropWhile_sublist isBackquote).subset hrev
  exact isBracket_rawChar (h ht c hmem) hd

theorem plain_intLit (h : Plain tidy text) : Plain tidy (intLit text) := by
  have hcut : ∀ {c : Char} {rest : List Char}, text.toList = '0' :: c :: rest →
      Plain tidy (String.ofList ('0' :: rest)) := by
    intro c rest htext
    apply plain_ofList h
    rw [htext]
    intro d hd
    rcases List.mem_cons.1 hd with rfl | hd
    · exact List.mem_cons_self
    · exact List.mem_cons_of_mem _ (List.mem_cons_of_mem _ hd)
  unfold intLit
  split
  · exact hcut ‹_›
  · exact hcut ‹_›
  · exact h

theorem scripted_literal (kind : LitKind) (h : Plain W.tidy text) :
    Scripted W (literal kind text) := by
  unfold literal
  split
  · exact scripted_print (plain_rawString h)
  · exact scripted_print (plain_intLit h)
  · exact scripted_print h

/-! ## Operators -/

theorem plain_unaryToken (op : UnaryOp) : Plain tidy (unaryToken op) := by
  apply plain_of_chars
  cases op <;> decide

theorem plain_token (op : BinaryOp) : Plain tidy op.token := by
  apply plain_of_chars
  cases op <;> decide

theorem plain_binaryToken (op : BinaryOp) : Plain tidy (" " ++ binaryToken op ++ " ") := by
  have hblank : Plain tidy " " := plain_of_chars (by decide)
  refine plain_append (plain_append hblank ?_) hblank
  unfold binaryToken
  split
  · exact plain_of_chars (by decide)
  · exact plain_token op

theorem scripted_binary {left right : Emit Unit} (op : BinaryOp) (hl : Scripted W left)
    (hr : Scripted W right) : Scripted W (binary left op right) :=
  scripted_seq hl (scripted_seq (scripted_print (plain_binaryToken op)) hr)

theorem scripted_cast {style : Style} {value : Emit Unit} (hd : style.direct = false)
    (ht : type.Spelled (Plain W.tidy)) (hv : Scripted W value) :
    Scripted W (cast style type value) :=
  fun K _ => .seq (.word rfl) (.seq (scripted_writeType hd ht K _)
    (.seq (.word rfl) (.seq (hv K _) (.word rfl))))

/-! ## Composite literals -/

theorem scripted_values (hi : ∀ t ∈ implied, W.Fits t) (h : ∀ x ∈ elements, x.Steady W) :
    Scripted W (values implied elements) := by
  refine scripted_list fun x hx => ?_
  obtain ⟨e, he, rfl⟩ := List.mem_map.1 hx
  cases e with
  | plain value => exact h _ he implied hi
  | keyed key value => exact (h _ he).2 implied hi

theorem scripted_entries {key value : Expr} (hk : W.Fits key) (hv : W.Fits value)
    (h : ∀ x ∈ elements, x.Steady W) : Scripted W (entries key value elements) := by
  refine scripted_list fun x hx => ?_
  obtain ⟨e, he, rfl⟩ := List.mem_map.1 hx
  cases e with
  | plain e => exact h _ he none fits_none
  | keyed k v =>
    refine fun K a => .seq (.word rfl) (.seq ((h _ he).1 _ (fits_some hk) K _) ?_)
    exact .seq (.word rfl) (.seq ((h _ he).2 _ (fits_some hv) K _) (.word rfl))

theorem scripted_composite {type : Option Expr} (ht : ∀ t ∈ type, W.Fits t)
    (hi : ∀ t ∈ implied, W.Fits t) (h : ∀ x ∈ elements, x.Steady W) :
    Scripted W (composite type implied elements) := by
  intro K a
  have hvalues : Scripted W (values none elements) := scripted_values fits_none h
  unfold composite
  split
  · exact .seq (.word rfl) (.seq (hvalues K _) (.word rfl))
  · rename_i t heq
    -- A literal in a literal may leave its type out; the one around it says the type then.
    have hfits : W.Fits t := by
      rcases eq_some_of_orElse heq with h | h
      · exact ht t h
      · exact hi t h
    have hstrip : W.Fits t.stripPointer :=
      ⟨Expr.spelled_stripPointer hfits.certain, Expr.spelled_stripPointer hfits.spelled⟩
    have htype : ∀ style : Style, style.direct = false →
        Scripted W (writeType style t.stripPointer) :=
      fun style hd => scripted_writeType hd hstrip.spelled
    refine .program fun p q hp _ hlike => ?_
    rw [W.unalias_eq hp hlike hstrip.certain]
    obtain ⟨hcertain, hspelled⟩ := W.fits_unalias hp hstrip
    split
    · rename_i length e heq
      rw [heq] at hcertain hspelled
      have helement : W.Fits e := ⟨hcertain, hspelled⟩
      have helements := scripted_values (fits_some helement) h
      refine .seq (.word rfl) (.seq (htype _ rfl _ _) (.seq (.word rfl) ?_))
      exact .seq (helements _ _) (.word rfl)
    · rename_i key value heq
      rw [heq] at hcertain hspelled
      refine .seq (.word rfl) (.seq (htype _ rfl _ _) (.seq (.word rfl) ?_))
      split
      · exact .word rfl
      · refine .seq (scripted_need (by decide) _ _) (.seq (.word rfl) ?_)
        refine .seq (scripted_entries ⟨hcertain.1, hspelled.1⟩ ⟨hcertain.2, hspelled.2⟩ h _ _) ?_
        exact .seq (.word rfl) (.word rfl)
    · refine .seq (.word rfl) (.seq (htype _ rfl _ _) (.seq (.word rfl) ?_))
      exact .seq (hvalues _ _) (.word rfl)

/-! ## Blocks and functions -/

/-- The brace that a block ends with closes one that was opened before. -/
theorem parallel_blockLines {K : Ken} {a : List Char} (hb : K.binds) (h : ScriptedIn W body) :
    Parallel W K ('\x7d' :: a) a Eq (blockLines body) (blockLines body) :=
  .seq (.indented (h K _ hb)) (.word rfl)

theorem scripted_block (h : ScriptedIn W body) : ScriptedIn W (block body) :=
  fun _ _ hb => .seq (.line rfl) (parallel_blockLines hb h)

theorem spelled_paramsOf (h : sig.Spelled (Plain tidy)) :
    ∀ v ∈ paramsOf sig, Plain tidy v.1 ∧ v.2.Spelled (Plain tidy) := by
  intro v hv
  obtain ⟨f, hf, hv⟩ := List.mem_flatMap.1 hv
  obtain ⟨n, hn, rfl⟩ := List.mem_map.1 hv
  obtain ⟨hnames, htype⟩ := Go.Field.spelled_iff.1 (Go.Signature.spelled_params h f hf)
  exact ⟨hnames n hn, htype⟩

theorem funcLit_eq (sig : Signature) (body : Emit Unit) : funcLit sig body = (do
    let scope ← openScope true (paramsOf sig)
    print ("(" ++ ", ".intercalate ((paramsOf sig).map (·.1)) ++ ") ->")
    withReader ({ · with scope, result := sig.firstResult }) (block body)) := rfl

theorem scripted_funcLit (hd : W.declares) (hs : sig.Spelled (Plain W.tidy))
    (h : ScriptedIn W body) : Scripted W (funcLit sig body) := by
  intro K a
  have hparams := spelled_paramsOf hs
  have hnames : Plain W.tidy (", ".intercalate ((paramsOf sig).map (·.1))) := by
    apply plain_intercalate (plain_of_chars (by decide))
    intro n hn
    obtain ⟨v, hv, rfl⟩ := List.mem_map.1 hn
    exact (hparams v hv).1
  have hopen : Turns W.tidy a a ("(" ++ ", ".intercalate ((paramsOf sig).map (·.1)) ++ ") ->") :=
    turns_append (turns_append (turns_of_scan rfl) (turns_of_plain hnames _)) (turns_of_scan rfl)
  rw [funcLit_eq]
  refine .scope hd (fun v hv => (hparams v hv).2) fun scope => .seq (.print hopen) ?_
  have hsteers : W.Steers (K.opening scope) ({ · with scope, result := sig.firstResult }) True :=
    ⟨fun _ _ => rfl, fun _ => rfl, fun _ => Or.inl ⟨rfl, Or.inr (Or.inr rfl)⟩,
      fun _ _ hr => Or.inl hr, fun _ _ => Go.Signature.spelled_firstResult hs⟩
  exact .within hsteers (scripted_block h _ a trivial)

/-! ## Elements, parts and lengths -/

section Now

variable {base index value : Term} {low high : Option Term}

theorem scripted_elementNow (he : W.eager) (hb : base.Steady W) (hi : index.Steady W) :
    Scripted W (elementNow base index) := by
  intro K a
  have hparts : ∀ {opening closing : String} {b : List Char},
      scan opening.toList a = some b → scan closing.toList b = some a →
      Parallel W K a a Eq (do base.write; print opening; index.write; print closing)
        (do base.write; print opening; index.write; print closing) := by
    intro opening closing b hopening hclosing
    exact .seq (hb.write K a) (.seq (.word hopening) (.seq (hi.write K b) (.word hclosing)))
  refine .bind (answers_sourceType he hb.source) ?_
  rintro type _ ⟨rfl, -⟩
  dsimp only
  split <;> exact hparts rfl rfl

theorem scripted_element (hb : base.Steady W) (hi : index.Steady W) :
    Scripted W (element base index) :=
  fun K a => .later ⟨hb.source, hi.source⟩ False.elim rfl fun he => scripted_elementNow he hb hi K a

theorem scripted_sliceStart (hl : ∀ t ∈ low, t.Steady W) :
    Scripted W (match low with
      | some low => low.write
      | none => print "0") := by
  split
  · exact (hl _ rfl).write
  · exact scripted_word rfl

theorem scripted_sliceNow (he : W.eager) (hb : base.Steady W) (hl : ∀ t ∈ low, t.Steady W)
    (hh : ∀ t ∈ high, t.Steady W) : Scripted W (sliceNow base low high) := by
  intro K a
  have hfrom := scripted_sliceStart hl
  refine .bind (answers_sourceType he hb.source) ?_
  rintro type _ ⟨rfl, -⟩
  split
  · refine .seq (hb.write K a) (.seq (.word rfl) (.seq (hfrom K _) ?_))
    split
    · exact .seq (.word rfl) (.seq ((hh _ rfl).write K _) (.word rfl))
    · exact .word rfl
  · refine .seq (scripted_need (by decide) K a) (.seq (.word rfl) (.seq (hb.write K _) ?_))
    refine .seq (.word rfl) (.seq (hfrom K _) (.seq (.word rfl) ?_))
    split
    · exact .seq ((hh _ rfl).write K _) (.word rfl)
    · exact .seq (hb.write K _) (.seq (.word rfl) (.word rfl))

theorem spelledOption_source {t : Option Term} (h : ∀ x ∈ t, x.Steady W) :
    Expr.SpelledOption (Plain W.tidy) (t.map (·.source)) := by
  cases t with
  | none => trivial
  | some x => exact (h x rfl).source

theorem scripted_slice (hb : base.Steady W) (hl : ∀ t ∈ low, t.Steady W)
    (hh : ∀ t ∈ high, t.Steady W) : Scripted W (slice base low high) :=
  fun K a => .later ⟨hb.source, spelledOption_source hl, spelledOption_source hh⟩ False.elim rfl
    fun he => scripted_sliceNow he hb hl hh K a

theorem scripted_lengthNow (he : W.eager) (hv : value.Steady W) : Scripted W (lengthNow value) := by
  intro K a
  refine .bind (answers_sourceType he hv.source) ?_
  rintro type _ ⟨rfl, -⟩
  split
  all_goals exact .seq (hv.write K a) (.word rfl)

theorem scripted_length (hv : value.Steady W) : Scripted W (length value) :=
  fun K a => .later hv.source False.elim rfl fun he => scripted_lengthNow he hv K a

end Now

/-! ## Calls -/

/-- What stands before and after a converted value. -/
def around : Java.Conversion → String × String
  | .suffix text => ("", text)
  | .wrap before after => (before, after)

theorem scan_conversions : Java.conversions.All fun c =>
    (scan (around c).1.toList []).bind (scan (around c).2.toList) = some [] := by
  apply Table.all_ofList
  decide +kernel

theorem scripted_conversion {value : Term} (he : W.eager) (ht : type.Spelled (Plain W.tidy))
    (hv : value.Steady W) : Scripted W (conversion type value) := by
  intro K a
  refine .bind (.inspect he (scripted_writeTypeAt _ (fun _ => he) ht K [])) ?_
  rintro ⟨-, target⟩ ⟨-, -⟩ ⟨-, rfl⟩
  refine .bind (.inspect he (answers_infer he .atOnce hv.source)) ?_
  rintro ⟨-, source⟩ ⟨-, -⟩ ⟨-, rfl⟩
  dsimp only
  split
  · rename_i text htext
    have hscan : scan text.toList [] = some [] := scan_conversions _ _ htext
    exact .seq (hv.write K a) (.word (scan_balanced hscan a))
  · rename_i before after hwrap
    obtain ⟨b, hbefore, hafter⟩ := Option.bind_eq_some_iff.1 (scan_conversions _ _ hwrap)
    exact .seq (.word (scan_frame hbefore a)) (.seq (hv.write K _) (.word (scan_frame hafter a)))
  · split
    · exact hv.write K a
    · exact scripted_cast rfl ht hv.write K a

theorem scripted_make {size : Option Term} (ht : W.Fits type) (hs : ∀ t ∈ size, t.Steady W) :
    Scripted W (make type size) := by
  intro K a
  refine .program fun p q hp _ hlike => ?_
  rw [W.unalias_eq hp hlike ht.certain]
  have hunalias := (W.fits_unalias hp ht).spelled
  split
  · exact .seq (.word rfl) (.seq (scripted_writeType rfl ht.spelled _ _) (.word rfl))
  · rename_i e harray
    rw [harray] at hunalias
    have helement : e.Spelled (Plain W.tidy) := hunalias
    refine .seq (.word rfl) (.seq (scripted_writeType rfl helement _ _) (.seq (.word rfl) ?_))
    split
    · exact .seq ((hs _ rfl).write _ _) (.word rfl)
    · exact .seq (.word rfl) (.word rfl)
  · exact .word rfl
  · exact .seq (.word rfl) (.seq (scripted_writeType rfl ht.spelled _ _) (.word rfl))

theorem scripted_builtin {x : Emit Unit} (h : builtin? name args = some x)
    (ha : ∀ t ∈ args, t.Steady W)
    (hm : name = "make" → ∀ t ∈ args.head?, t.source.Certain W.settled) : Scripted W x := by
  intro K a
  unfold builtin? at h
  split at h
  · cases h
    exact scripted_length (ha _ (by simp)) K a
  · cases h
    exact scripted_length (ha _ (by simp)) K a
  · cases h
    rename_i type rest
    refine scripted_make ⟨hm rfl _ rfl, (ha type (by simp)).source⟩ (fun t ht => ha t ?_) K a
    exact List.mem_cons_of_mem _ (List.mem_of_head? ht)
  · cases h
    rename_i type
    refine .seq (.word rfl) (.seq ?_ (.word rfl))
    exact scripted_writeType rfl (ha type (by simp)).source K _
  · cases h
    rename_i map key
    refine .seq ((ha map (by simp)).write K a) (.seq (.word rfl) ?_)
    exact .seq ((ha key (by simp)).write K _) (.word rfl)
  · cases h
    rename_i value
    exact .seq (.word rfl) (.seq ((ha value (by simp)).write K _) (.word rfl))
  · cases h

theorem scripted_arguments {separator : String} (hs : Plain W.tidy separator)
    (ha : ∀ t ∈ args, t.Steady W) : Scripted W (arguments separator args) := by
  refine fun K a => .seq (.word rfl) (.seq (parallel_separated hs fun x hx => ?_) (.word rfl))
  obtain ⟨t, ht, rfl⟩ := List.mem_map.1 hx
  exact (ha t ht).write K _

theorem plain_packageClass {p : Program} {place : Place} {callee : Expr} {cls : String}
    (hp : p.Spelt tidy) (h : packageClass? p place callee = some cls) : Plain tidy cls := by
  unfold packageClass? at h
  split at h
  · dsimp only at h
    split at h
    · cases h
      exact hp.name _
    · cases h
  · cases h

theorem scripted_plainCall (hc : callee.Steady W) (ha : ∀ t ∈ args, t.Steady W) :
    Scripted W (plainCall callee args) := by
  have hcomma : Plain W.tidy ", " := plain_of_chars (by decide)
  refine fun K a => .program fun p q hp _ hlike => .read fun place draft _ => ?_
  rw [hlike.tableName, hlike.packageClass]
  split
  · rename_i form hform
    obtain ⟨name, -, hform⟩ := Option.bind_eq_some_iff.1 hform
    obtain ⟨hmethod, hneeds, hseparator, -⟩ := calls_known W.tidy _ _ hform
    have hrest : Scripted W (do
        print form.method
        arguments (form.separator.getD ", ") args) := by
      refine scripted_seq (scripted_print hmethod) (scripted_arguments ?_ ha)
      cases hsep : form.separator with
      | none => exact hcomma
      | some separator => exact hseparator separator hsep
    split
    · rename_i i hi
      exact .seq (scripted_need (hneeds i hi) _ _) (hrest _ _)
    · exact hrest _ _
  · have hrest : Scripted W (do
        callee.write
        arguments ", " args) := scripted_seq hc.write (scripted_arguments hcomma ha)
    split
    · rename_i cls hcls
      have hplain := plain_packageClass (W.spelt p hp) hcls
      exact .seq (scripted_print hplain _ _) (.seq (.word rfl) (hrest _ _))
    · exact hrest _ _

/-- A call with one argument may convert it, if its callee is a type. -/
theorem scripted_call (hc : callee.Steady W) (ha : ∀ t ∈ args, t.Steady W)
    (hcallee : args.length = 1 →
      W.eager ∨ ∀ place p, W.knows p → p.isTypeCallee place callee.source = false)
    (hm : callee.source = .ident "make" → ∀ t ∈ args.head?, t.source.Certain W.settled) :
    Scripted W (call callee args) := by
  have hplain : ∀ place p, Scripted W
      ((namedCall? p place callee.source args).getD (plainCall callee args)) := by
    intro place p
    refine scripted_getD (fun x hx => ?_) (scripted_plainCall hc ha)
    unfold namedCall? at hx
    split at hx
    · rename_i name hname
      split at hx
      · cases hx
      · exact scripted_builtin hx ha fun h => hm (by rw [hname, h])
    · cases hx
  have hnamed : ∀ {p q : Program}, p.Like W.settled q → ∀ place draft,
      namedCall? q { place with draft } callee.source args =
        namedCall? p place callee.source args := by
    intro p q hlike place draft
    unfold namedCall?
    simp only [hlike.isVar]
  refine fun K a => .program fun p q hp hq hlike => .read fun place draft _ => ?_
  simp only [hnamed hlike]
  split
  · rcases hcallee rfl with he | hno
    · rw [hlike.isTypeCallee _ _ (W.clear he)]
      split
      · exact scripted_conversion he hc.source (ha _ (by simp)) _ _
      · exact hplain place p _ _
    · rw [hno _ _ hp, hno _ _ hq]
      exact hplain place p _ _
  · exact hplain place p _ _

end Forms

end GoToJava
