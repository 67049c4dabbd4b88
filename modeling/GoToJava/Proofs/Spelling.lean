import GoToJava.Go.Name
import GoToJava.Go.Syntax
import GoToJava.Proofs.Brackets
import Mathlib.Data.List.TakeDrop

/-!
How things are spelled. A property of texts holds of a syntax tree if it holds of all names and
literals in it; names in upper case have no brackets that they had not before.
-/

namespace GoToJava

/-! ## Upper case -/

namespace Text

/-- Characters that upper case may bring: the letters of the first 128 characters, and any of the
others. -/
def isCapital (c : Char) : Bool :=
  (0x41 ≤ c.toNat && c.toNat ≤ 0x5A) || 0x80 ≤ c.toNat

theorem isCapital_ofNat {n : Nat} (hn : n.isValidChar) (h : (0x41 ≤ n ∧ n ≤ 0x5A) ∨ 0x80 ≤ n) :
    isCapital (Char.ofNat n) = true := by
  have hval : (Char.ofNat n).toNat = n := by
    rw [Char.ofNat, dif_pos hn]
    rfl
  unfold isCapital
  rw [hval]
  simp only [Bool.or_eq_true, Bool.and_eq_true, decide_eq_true_eq]
  exact h

theorem images_ofList (cs : List Char) :
    images (String.ofList cs) = ((words cs).filterMap image).toArray := by
  rw [images, String.toList_ofList]

theorem ranges_ofList (cs : List Char) :
    ranges (String.ofList cs) = ((words cs).map range).toArray := by
  rw [ranges, String.toList_ofList]

/-- A single character is mapped to a letter of the first 128 characters, or all are mapped to
others. -/
def ImagesCapital (images : Array (Nat × Nat × Nat × List Nat)) : Prop :=
  ∀ e ∈ images.toList, (0x80 ≤ e.2.2.1 ∨ (e.1 = e.2.1 ∧ 0x41 ≤ e.2.2.1 ∧ e.2.2.1 ≤ 0x5A)) ∧
    (e.2.2.1 + (e.2.1 - e.1) < 0xD800 ∨
      (0xDFFF < e.2.2.1 ∧ e.2.2.1 + (e.2.1 - e.1) < 0x110000)) ∧
    ∀ n ∈ e.2.2.2, n.isValidChar ∧ ((0x41 ≤ n ∧ n ≤ 0x5A) ∨ 0x80 ≤ n)

set_option maxRecDepth 20000 in
theorem upperImages_capital : ImagesCapital upperImages := by
  have htable : upperImages = _ := images_ofList _
  rw [htable]
  unfold ImagesCapital
  decide +kernel

def AlternateBounds (alternate : Array (Nat × Nat)) : Prop :=
  ∀ r ∈ alternate.toList, 0x80 < r.1 ∧ r.2 < 0xD800

set_option maxRecDepth 20000 in
theorem upperAlternate_bounds : AlternateBounds upperAlternate := by
  have htable : upperAlternate = _ := ranges_ofList _
  rw [htable]
  unfold AlternateBounds
  decide +kernel

theorem toUpper_cases (c : Char) : c.toUpper = c ∨ isCapital c.toUpper = true := by
  unfold Char.toUpper
  split
  · rename_i h
    right
    obtain ⟨hlow, hhigh⟩ := h
    rw [UInt32.le_iff_toNat_le] at hlow hhigh
    have hlow' : 97 ≤ c.val.toNat := hlow
    have hhigh' : c.val.toNat ≤ 122 := hhigh
    have hval : (c.val + ('A'.val - 'a'.val)).toNat = c.val.toNat - 32 := by
      rw [UInt32.toNat_add, show ('A'.val - 'a'.val).toNat = 4294967264 from rfl]
      omega
    unfold isCapital Char.toNat
    simp only [hval, Bool.or_eq_true, Bool.and_eq_true, decide_eq_true_eq]
    omega
  · exact Or.inl rfl

theorem mem_upperBy {images : Array (Nat × Nat × Nat × List Nat)} {alternate : Array (Nat × Nat)}
    {c d : Char} (hi : ImagesCapital images) (ha : AlternateBounds alternate)
    (h : d ∈ upperBy images alternate c) : d = c ∨ isCapital d = true := by
  unfold upperBy at h
  simp only at h
  split at h
  · rename_i first last upper rest hfind
    have hin := Array.find?_some hfind
    simp only [inSteps, Bool.and_eq_true, decide_eq_true_eq] at hin
    obtain ⟨hcap, hvalid, hrest⟩ := hi _ (Array.mem_of_find?_eq_some hfind).val
    simp only at hcap hvalid hrest
    rw [List.map_cons, List.mem_cons, List.mem_map] at h
    rcases h with rfl | ⟨n, hn, rfl⟩
    · exact Or.inr (isCapital_ofNat (by unfold Nat.isValidChar; omega) (by omega))
    · exact Or.inr (isCapital_ofNat (hrest n hn).1 (hrest n hn).2)
  · split at h
    · rename_i halternate
      rw [List.mem_singleton] at h
      obtain ⟨i, hlt, hin⟩ := Array.any_eq_true.1 halternate
      obtain ⟨hlow, hhigh⟩ := ha _ (Array.getElem_mem_toList hlt)
      simp only [inSteps, Bool.and_eq_true, decide_eq_true_eq] at hin
      rw [h]
      exact Or.inr (isCapital_ofNat (by unfold Nat.isValidChar; omega) (by omega))
    · rw [List.mem_singleton] at h
      exact Or.inl h

theorem mem_toUppercase {c d : Char} (h : d ∈ toUppercase c) : d = c ∨ isCapital d = true := by
  unfold toUppercase at h
  split at h
  · rw [List.mem_singleton] at h
    rcases toUpper_cases c with hc | hc
    · exact Or.inl (h.trans hc)
    · exact Or.inr (h ▸ hc)
  · exact mem_upperBy upperImages_capital upperAlternate_bounds h

theorem upperBy_ne_nil (images : Array (Nat × Nat × Nat × List Nat)) (alternate : Array (Nat × Nat))
    (c : Char) : upperBy images alternate c ≠ [] := by
  unfold upperBy
  simp only
  split
  · exact List.cons_ne_nil _ _
  · split <;> exact List.cons_ne_nil _ _

theorem toUppercase_ne_nil (c : Char) : toUppercase c ≠ [] := by
  unfold toUppercase
  split
  · exact List.cons_ne_nil _ _
  · exact upperBy_ne_nil _ _ c

end Text

variable {tidy : Prop}

theorem plain_title {name : String} (h : Plain tidy name) : Plain tidy (Go.title name) := by
  intro ht d hd
  unfold Go.title at hd
  split at hd
  · rename_i c rest hname
    have hall : ∀ c ∈ name.toList, isBracket c = false := h ht
    rw [hname] at hall
    rw [String.toList_ofList, List.mem_append] at hd
    rcases hd with hd | hd
    · rcases Text.mem_toUppercase hd with rfl | hcap
      · exact hall _ List.mem_cons_self
      · exact isBracket_of_class Text.isCapital (by decide) hcap
    · exact hall d (List.mem_cons_of_mem _ hd)
  · simp at hd

/-! ## Syntax trees -/

namespace Go

mutual

/-- All names and literals of an expression have a property, except for the lengths of arrays, which
are not written. -/
def Expr.Spelled (P : String → Prop) : Expr → Prop
  | .ident name => P name
  | .lit _ text => P text
  | .composite type es => Expr.SpelledOption P type ∧ Expr.SpelledList P es
  | .funcLit sig body => sig.Spelled P ∧ Stmt.SpelledList P body
  | .paren e => e.Spelled P
  | .selector base field => base.Spelled P ∧ P field
  | .index base index => base.Spelled P ∧ index.Spelled P
  | .slice base low high =>
    base.Spelled P ∧ Expr.SpelledOption P low ∧ Expr.SpelledOption P high
  | .assert base type => base.Spelled P ∧ Expr.SpelledOption P type
  | .call callee args _ => callee.Spelled P ∧ Expr.SpelledList P args
  | .star e => e.Spelled P
  | .unary _ e => e.Spelled P
  | .binary l _ r => l.Spelled P ∧ r.Spelled P
  | .keyValue key value => key.Spelled P ∧ value.Spelled P
  | .arrayType _ e => e.Spelled P
  | .mapType key value => key.Spelled P ∧ value.Spelled P
  | .funcType sig => sig.Spelled P
  | .structType fields => Field.SpelledList P fields
  | .interfaceType fields => Field.SpelledList P fields
  | .ellipsis e => e.Spelled P
  | .chanType e => e.Spelled P
  | .unsupported _ => True

def Expr.SpelledOption (P : String → Prop) : Option Expr → Prop
  | none => True
  | some e => e.Spelled P

def Expr.SpelledList (P : String → Prop) : List Expr → Prop
  | [] => True
  | e :: es => e.Spelled P ∧ Expr.SpelledList P es

def Field.Spelled (P : String → Prop) : Field → Prop
  | .mk names type => (∀ n ∈ names, P n) ∧ type.Spelled P

def Field.SpelledList (P : String → Prop) : List Field → Prop
  | [] => True
  | f :: fs => f.Spelled P ∧ Field.SpelledList P fs

def Signature.Spelled (P : String → Prop) : Signature → Prop
  | .mk params results => Field.SpelledList P params ∧ Field.SpelledList P results

def Spec.Spelled (P : String → Prop) : Spec → Prop
  | .value names type values =>
    (∀ n ∈ names, P n) ∧ Expr.SpelledOption P type ∧ Expr.SpelledList P values
  | .type name type _ => P name ∧ type.Spelled P

def Spec.SpelledList (P : String → Prop) : List Spec → Prop
  | [] => True
  | s :: ss => s.Spelled P ∧ Spec.SpelledList P ss

def GenDecl.Spelled (P : String → Prop) : GenDecl → Prop
  | .mk _ _ specs => Spec.SpelledList P specs

def CaseClause.Spelled (P : String → Prop) : CaseClause → Prop
  | .mk values body => Expr.SpelledList P values ∧ Stmt.SpelledList P body

def CaseClause.SpelledList (P : String → Prop) : List CaseClause → Prop
  | [] => True
  | c :: cs => c.Spelled P ∧ CaseClause.SpelledList P cs

def Stmt.Spelled (P : String → Prop) : Stmt → Prop
  | .decl d => d.Spelled P
  | .empty => True
  | .labeled label s => P label ∧ s.Spelled P
  | .expr e => e.Spelled P
  | .incDec e _ => e.Spelled P
  | .assign targets _ values => Expr.SpelledList P targets ∧ Expr.SpelledList P values
  | .go call => call.Spelled P
  | .defer call => call.Spelled P
  | .return values => Expr.SpelledList P values
  | .branch _ label => ∀ l ∈ label, P l
  | .block body => Stmt.SpelledList P body
  | .ifElse init cond body alternative =>
    Stmt.SpelledOption P init ∧ cond.Spelled P ∧ Stmt.SpelledList P body ∧
      Stmt.SpelledOption P alternative
  | .switch init tag cases =>
    Stmt.SpelledOption P init ∧ Expr.SpelledOption P tag ∧ CaseClause.SpelledList P cases
  | .for init cond post body =>
    Stmt.SpelledOption P init ∧ Expr.SpelledOption P cond ∧ Stmt.SpelledOption P post ∧
      Stmt.SpelledList P body
  | .range key value _ iterable body =>
    Expr.SpelledOption P key ∧ Expr.SpelledOption P value ∧ iterable.Spelled P ∧
      Stmt.SpelledList P body
  | .unsupported _ => True

def Stmt.SpelledOption (P : String → Prop) : Option Stmt → Prop
  | none => True
  | some s => s.Spelled P

def Stmt.SpelledList (P : String → Prop) : List Stmt → Prop
  | [] => True
  | s :: ss => s.Spelled P ∧ Stmt.SpelledList P ss

end

variable {P : String → Prop} {sig : Signature}

/-! A property of all texts is one of all syntax trees. -/

mutual

theorem Expr.spelled_of_all (hP : ∀ s, P s) : ∀ e : Expr, e.Spelled P
  | .ident name => hP name
  | .lit _ text => hP text
  | .composite type es => ⟨Expr.spelledOption_of_all hP type, Expr.spelledList_of_all hP es⟩
  | .funcLit sig body => ⟨Signature.spelled_of_all hP sig, Stmt.spelledList_of_all hP body⟩
  | .paren e | .star e | .unary _ e | .arrayType _ e | .ellipsis e | .chanType e =>
    Expr.spelled_of_all hP e
  | .selector base field => ⟨Expr.spelled_of_all hP base, hP field⟩
  | .index base index => ⟨Expr.spelled_of_all hP base, Expr.spelled_of_all hP index⟩
  | .slice base low high =>
    ⟨Expr.spelled_of_all hP base, Expr.spelledOption_of_all hP low,
      Expr.spelledOption_of_all hP high⟩
  | .assert base type => ⟨Expr.spelled_of_all hP base, Expr.spelledOption_of_all hP type⟩
  | .call callee args _ => ⟨Expr.spelled_of_all hP callee, Expr.spelledList_of_all hP args⟩
  | .binary l _ r => ⟨Expr.spelled_of_all hP l, Expr.spelled_of_all hP r⟩
  | .keyValue key value | .mapType key value =>
    ⟨Expr.spelled_of_all hP key, Expr.spelled_of_all hP value⟩
  | .funcType sig => Signature.spelled_of_all hP sig
  | .structType fields | .interfaceType fields => Field.spelledList_of_all hP fields
  | .unsupported _ => trivial

theorem Expr.spelledOption_of_all (hP : ∀ s, P s) : ∀ o : Option Expr, Expr.SpelledOption P o
  | none => trivial
  | some e => Expr.spelled_of_all hP e

theorem Expr.spelledList_of_all (hP : ∀ s, P s) : ∀ es : List Expr, Expr.SpelledList P es
  | [] => trivial
  | e :: es => ⟨Expr.spelled_of_all hP e, Expr.spelledList_of_all hP es⟩

theorem Field.spelled_of_all (hP : ∀ s, P s) : ∀ f : Field, f.Spelled P
  | .mk _ type => ⟨fun n _ => hP n, Expr.spelled_of_all hP type⟩

theorem Field.spelledList_of_all (hP : ∀ s, P s) : ∀ fs : List Field, Field.SpelledList P fs
  | [] => trivial
  | f :: fs => ⟨Field.spelled_of_all hP f, Field.spelledList_of_all hP fs⟩

theorem Signature.spelled_of_all (hP : ∀ s, P s) : ∀ sig : Signature, sig.Spelled P
  | .mk params results => ⟨Field.spelledList_of_all hP params, Field.spelledList_of_all hP results⟩

theorem Spec.spelled_of_all (hP : ∀ s, P s) : ∀ s : Spec, s.Spelled P
  | .value _ type values =>
    ⟨fun n _ => hP n, Expr.spelledOption_of_all hP type, Expr.spelledList_of_all hP values⟩
  | .type name type _ => ⟨hP name, Expr.spelled_of_all hP type⟩

theorem Spec.spelledList_of_all (hP : ∀ s, P s) : ∀ ss : List Spec, Spec.SpelledList P ss
  | [] => trivial
  | s :: ss => ⟨Spec.spelled_of_all hP s, Spec.spelledList_of_all hP ss⟩

theorem GenDecl.spelled_of_all (hP : ∀ s, P s) : ∀ d : GenDecl, d.Spelled P
  | .mk _ _ specs => Spec.spelledList_of_all hP specs

theorem CaseClause.spelled_of_all (hP : ∀ s, P s) : ∀ c : CaseClause, c.Spelled P
  | .mk values body => ⟨Expr.spelledList_of_all hP values, Stmt.spelledList_of_all hP body⟩

theorem CaseClause.spelledList_of_all (hP : ∀ s, P s) :
    ∀ cs : List CaseClause, CaseClause.SpelledList P cs
  | [] => trivial
  | c :: cs => ⟨CaseClause.spelled_of_all hP c, CaseClause.spelledList_of_all hP cs⟩

theorem Stmt.spelled_of_all (hP : ∀ s, P s) : ∀ s : Stmt, s.Spelled P
  | .decl d => GenDecl.spelled_of_all hP d
  | .empty => trivial
  | .labeled label s => ⟨hP label, Stmt.spelled_of_all hP s⟩
  | .expr e | .incDec e _ => Expr.spelled_of_all hP e
  | .assign targets _ values =>
    ⟨Expr.spelledList_of_all hP targets, Expr.spelledList_of_all hP values⟩
  | .go call | .defer call => Expr.spelled_of_all hP call
  | .return values => Expr.spelledList_of_all hP values
  | .branch _ _ => fun l _ => hP l
  | .block body => Stmt.spelledList_of_all hP body
  | .ifElse init cond body alternative =>
    ⟨Stmt.spelledOption_of_all hP init, Expr.spelled_of_all hP cond,
      Stmt.spelledList_of_all hP body, Stmt.spelledOption_of_all hP alternative⟩
  | .switch init tag cases =>
    ⟨Stmt.spelledOption_of_all hP init, Expr.spelledOption_of_all hP tag,
      CaseClause.spelledList_of_all hP cases⟩
  | .for init cond post body =>
    ⟨Stmt.spelledOption_of_all hP init, Expr.spelledOption_of_all hP cond,
      Stmt.spelledOption_of_all hP post, Stmt.spelledList_of_all hP body⟩
  | .range key value _ iterable body =>
    ⟨Expr.spelledOption_of_all hP key, Expr.spelledOption_of_all hP value,
      Expr.spelled_of_all hP iterable, Stmt.spelledList_of_all hP body⟩
  | .unsupported _ => trivial

theorem Stmt.spelledOption_of_all (hP : ∀ s, P s) : ∀ o : Option Stmt, Stmt.SpelledOption P o
  | none => trivial
  | some s => Stmt.spelled_of_all hP s

theorem Stmt.spelledList_of_all (hP : ∀ s, P s) : ∀ ss : List Stmt, Stmt.SpelledList P ss
  | [] => trivial
  | s :: ss => ⟨Stmt.spelled_of_all hP s, Stmt.spelledList_of_all hP ss⟩

end

theorem Expr.spelledOption_iff {o : Option Expr} :
    Expr.SpelledOption P o ↔ ∀ e ∈ o, e.Spelled P := by
  cases o with
  | none | some e => simp [Expr.SpelledOption]

theorem Expr.spelledList_iff {es : List Expr} : Expr.SpelledList P es ↔ ∀ e ∈ es, e.Spelled P := by
  induction es with
  | nil => simp [Expr.SpelledList]
  | cons e es ih => simp [Expr.SpelledList, ih]

theorem Field.spelledList_iff {fs : List Field} :
    Field.SpelledList P fs ↔ ∀ f ∈ fs, f.Spelled P := by
  induction fs with
  | nil => simp [Field.SpelledList]
  | cons f fs ih => simp [Field.SpelledList, ih]

theorem Field.spelled_iff {f : Field} : f.Spelled P ↔ (∀ n ∈ f.names, P n) ∧ f.type.Spelled P := by
  cases f with
  | mk names type => rfl

theorem Signature.spelled_params (h : sig.Spelled P) : ∀ f ∈ sig.params, f.Spelled P := by
  cases sig with
  | mk params results => exact Field.spelledList_iff.1 h.1

theorem Signature.spelled_results (h : sig.Spelled P) : ∀ f ∈ sig.results, f.Spelled P := by
  cases sig with
  | mk params results => exact Field.spelledList_iff.1 h.2

theorem Signature.spelled_firstResult (h : sig.Spelled P) :
    ∀ e, sig.firstResult = some e → e.Spelled P := by
  intro e he
  obtain ⟨f, hf, rfl⟩ := Option.map_eq_some_iff.1 he
  exact (Field.spelled_iff.1 (Signature.spelled_results h f (List.mem_of_head? hf))).2

theorem Spec.spelledList_iff {ss : List Spec} : Spec.SpelledList P ss ↔ ∀ s ∈ ss, s.Spelled P := by
  induction ss with
  | nil => simp [Spec.SpelledList]
  | cons s ss ih => simp [Spec.SpelledList, ih]

theorem GenDecl.spelled_specs {d : GenDecl} (h : d.Spelled P) : ∀ s ∈ d.specs, s.Spelled P := by
  cases d with
  | mk kind grouped specs => exact Spec.spelledList_iff.1 h

theorem Expr.spelled_stripPointer {e : Expr} (h : e.Spelled P) : e.stripPointer.Spelled P := by
  fun_induction Expr.stripPointer e with
  | case1 e ih => exact ih h
  | case2 e ih => exact ih h
  | case3 e => exact h

theorem Expr.spelled_ofTypeName {name : String} (h : Plain tidy name) :
    (Expr.ofTypeName name).Spelled (Plain tidy) := by
  unfold Expr.ofTypeName
  split
  · rename_i package type hspan
    rw [List.span_eq_takeWhile_dropWhile, Prod.mk.injEq] at hspan
    refine ⟨plain_ofList h ?_, plain_ofList h ?_⟩
    · rw [← hspan.1]
      exact (List.takeWhile_sublist _).subset
    · intro c hc
      apply (List.dropWhile_sublist (· ≠ '.')).subset
      rw [hspan.2]
      exact List.mem_cons_of_mem _ hc
  · exact h

end Go

end GoToJava
