import GoToJava.Proofs.Depth.Counter
import GoToJava.Proofs.Emit.Pieces

/-!
The counter bounds all work with types. Each question comes to an end before more names and
questions than the bound are followed one in the other, and has the answer it has without a counter.
-/

namespace GoToJava

open Program

open Go (Expr Field Signature title)

/-- Started at this level, the counted work comes to an end and does what the other action does. The
level is the same afterwards, and has not been above the bound. -/
def Counts {α : Type} (level : Nat) (x : Emit α) (y : Counted α) : Prop :=
  ∀ place desk peak, ∃ peak', peak ≤ peak' ∧ peak' ≤ max peak maxDepth ∧
    y place desk ⟨level, peak⟩ = some (x place desk, ⟨level, peak'⟩)

namespace Counted

variable {α β : Type} {n : Nat} {y : Counted α} {x : Emit α} {g : α → Counted β}

/-! ## Sequences -/

theorem counts_lift (x : Emit α) : Counts n x (lift x) :=
  fun _ _ peak => ⟨peak, Nat.le_refl _, Nat.le_max_left _ _, rfl⟩

theorem counts_pure (a : α) : Counts n (pure a : Emit α) (pure a) :=
  fun _ _ peak => ⟨peak, Nat.le_refl _, Nat.le_max_left _ _, rfl⟩

theorem bind_apply {place : Place} {desk desk' : Desk} {gauge gauge' : Gauge} {a : α}
    (h : y place desk gauge = some ((a, desk'), gauge')) :
    (y >>= g) place desk gauge = g a place desk' gauge' := by
  show (y place desk gauge).bind (fun r => g r.1.1 place r.1.2 r.2) = _
  rw [h]
  rfl

theorem counts_bind {f : α → Emit β} (h : Counts n x y) (hf : ∀ a, Counts n (f a) (g a)) :
    Counts n (x >>= f) (y >>= g) := by
  intro place desk peak
  obtain ⟨peak₁, hle₁, hmax₁, hy⟩ := h place desk peak
  obtain ⟨peak₂, hle₂, hmax₂, hg⟩ := hf (x place desk).1 place (x place desk).2 peak₁
  refine ⟨peak₂, Nat.le_trans hle₁ hle₂, ?_, ?_⟩
  · omega
  · rw [bind_apply hy, hg]
    rfl

theorem counts_seq {x' : Emit β} {y' : Counted β} (h : Counts n x y) (h' : Counts n x' y') :
    Counts n (x >>= fun _ => x') (y >>= fun _ => y') :=
  counts_bind h fun _ => h'

theorem counts_program {f : Program → Emit α} {g : Program → Counted α}
    (h : ∀ p, Counts n (f p) (g p)) : Counts n (Emit.program >>= f) (lift Emit.program >>= g) :=
  counts_bind (counts_lift _) h

theorem counts_read {f : Place → Emit α} {g : Place → Counted α}
    (h : ∀ place, Counts n (f place) (g place)) :
    Counts n ((read : Emit Place) >>= f) ((read : Counted Place) >>= g) :=
  fun place desk peak => h place place desk peak

theorem counts_within (f : Place → Place) (h : Counts n x y) :
    Counts n (withReader f x) (withReader f y) :=
  fun place desk peak => h (f place) desk peak

theorem counts_elsewhere (cursor : Cursor) (h : Counts n x y) :
    Counts n (Emit.elsewhere cursor x) (elsewhere cursor y) := by
  intro place desk peak
  obtain ⟨peak', hle, hmax, hy⟩ := h cursor.place { desk with owed := cursor.owed } peak
  refine ⟨peak', hle, hmax, ?_⟩
  unfold elsewhere
  rw [hy]
  rfl

theorem counts_inspect (h : Counts n x y) : Counts n (Emit.inspect x) (inspect y) := by
  refine counts_read fun place => counts_program fun p => ?_
  refine counts_seq (counts_lift _) (counts_bind (counts_elsewhere _ h) fun a => ?_)
  exact counts_program fun _ => counts_pure _

theorem counts_defer {now : Emit Unit} {now' : Counted Unit} (task : Task)
    (h : Counts n now now') : Counts n (Emit.defer task now) (defer task now') := by
  refine counts_bind (counts_lift _) fun eager => ?_
  cases eager with
  | true => exact h
  | false => exact counts_lift (Emit.leave task)

theorem counts_getD {text : Option (Emit Unit)} {text' : Option (Counted Unit)} (other : Emit Unit)
    (h : Option.Rel (Counts n) text text') :
    Counts n (text.getD other) (text'.getD (lift other)) := by
  cases h with
  | none => exact counts_lift other
  | some h => exact h

theorem counts_separated {texts : List (Emit Unit)} {texts' : List (Counted Unit)}
    (separator : String) (h : List.Forall₂ (Counts n) texts texts') :
    Counts n (Emit.separated separator texts) (separated separator texts') := by
  induction h with
  | nil => exact counts_pure ()
  | cons hfirst hrest ih =>
    cases hrest with
    | nil => exact hfirst
    | cons _ _ => exact counts_seq hfirst (counts_seq (counts_lift _) ih)

/-- What is done one level up leaves the level as it was. -/
theorem counts_raise (hn : n < maxDepth) (h : Counts (n + 1) x y) : Counts n x (do
      raise
      let a ← y
      lower
      return a) := by
  intro place desk peak
  obtain ⟨peak', hle, hmax, hy⟩ := h place desk (max peak (n + 1))
  refine ⟨peak', by omega, by omega, ?_⟩
  have hraise : raise place desk ⟨n, peak⟩ = some (((), desk), ⟨n + 1, max peak (n + 1)⟩) := rfl
  rw [bind_apply hraise, bind_apply hy]
  rfl

theorem level_bind {g : Nat → Counted α} (place : Place) (desk : Desk) (peak : Nat) :
    (level >>= g) place desk ⟨n, peak⟩ = g n place desk ⟨n, peak⟩ := rfl

end Counted

/-! ## Types -/

namespace Counted

variable {n : Nat} {follow : TypeText.Follow} {follow' : Expr → Style → Counted Unit}
  {result' : Option (Counted Unit)}

/-- Names are followed in both ways, as long as the level is below the bound. -/
inductive Pursues (n : Nat) (follow' : Expr → Style → Counted Unit) : TypeText.Follow → Prop
  | below {f : Expr → Style → Emit Unit} (hn : n < maxDepth)
      (h : ∀ target style, Counts (n + 1) (f target style) (follow' target style)) :
      Pursues n follow' (some f)
  | full (hn : maxDepth ≤ n) : Pursues n follow' none

theorem counts_orLater {now : Emit Unit} {now' : Counted Unit} (type : Expr) (style : Style)
    (h : Counts n now now') :
    Counts n (TypeText.orLater type style now) (orLater type style now') := by
  cases type
  case ident name =>
    unfold TypeText.orLater orLater
    dsimp only
    split
    · exact h
    · exact counts_defer _ h
  all_goals exact h

theorem counts_named (hf : Pursues n follow' follow) (name : String) (style : Style) :
    Counts n (TypeText.named follow name style) (named follow' name style) := by
  have hplain := counts_lift (n := n) (do
    Emit.refer (title name)
    Emit.print (title name))
  unfold TypeText.named named
  cases Java.primitive? name style.boxed with
  | some java => exact counts_lift _
  | none =>
    refine counts_program fun p => ?_
    cases p.typeNames.get? (title name) with
    | none => exact hplain
    | some target =>
      intro place desk peak
      dsimp only
      rw [level_bind]
      cases hf with
      | below hn h =>
        rw [if_pos hn]
        exact counts_raise hn (h target style) place desk peak
      | full hn =>
        rw [if_neg (Nat.not_lt_of_le hn)]
        exact hplain place desk peak

theorem counts_ofArray {e : Style → Emit Unit} {e' : Style → Counted Unit} (style : Style)
    (mark : String) (h : ∀ style, Counts n (e style) (e' style)) :
    Counts n (TypeText.ofArray style mark e) (ofArray style mark e') := by
  unfold TypeText.ofArray ofArray
  split
  · exact h _
  · exact counts_seq (h _) (counts_lift _)

theorem counts_map {key value : Emit Unit} {key' value' : Counted Unit} (style : Style)
    (hk : Counts n key key') (hv : Counts n value value') :
    Counts n (TypeText.map style key value) (map style key' value') := by
  have hrest : ∀ {last : Emit Unit} {last' : Counted Unit}, Counts n last last' →
      Counts n (do
        key
        Emit.print ", "
        value
        Emit.print ">"
        last) (do
        key'
        lift (Emit.print ", ")
        value'
        lift (Emit.print ">")
        last') :=
    fun hl => counts_seq hk (counts_seq (counts_lift _) (counts_seq hv
      (counts_seq (counts_lift _) hl)))
  unfold TypeText.map map
  split
  · exact counts_seq (counts_lift _) (counts_seq (counts_lift _) (hrest (counts_lift _)))
  · split
    · refine counts_seq (counts_lift _) (counts_seq (counts_lift _) ?_)
      exact counts_seq (counts_lift _) (hrest (counts_pure _))
    · exact counts_seq (counts_lift _) (counts_seq (counts_lift _) (hrest (counts_pure _)))

theorem counts_ofMap {key value : Style → Emit Unit} {key' value' : Style → Counted Unit}
    (style : Style) (hk : ∀ style, Counts n (key style) (key' style))
    (hv : ∀ style, Counts n (value style) (value' style)) :
    Counts n (TypeText.ofMap style key value) (ofMap style key' value') := by
  unfold TypeText.ofMap ofMap
  split
  · exact hv _
  · exact counts_map style (hk _) (hv _)

theorem counts_reference {param result : Option (Emit Unit)} {param' : Option (Counted Unit)}
    (hp : Option.Rel (Counts n) param param') (hr : Option.Rel (Counts n) result result') :
    Counts n (TypeText.reference param result) (reference param' result') := by
  refine counts_seq (counts_lift _) (counts_seq (counts_lift _) ?_)
  refine counts_seq (counts_getD _ hp) (counts_seq (counts_lift _) ?_)
  exact counts_seq (counts_getD _ hr) (counts_lift _)

theorem counts_signature {params : List (Emit Unit)} {params' : List (Counted Unit)}
    {result : Option (Emit Unit)} (hp : List.Forall₂ (Counts n) params params')
    (hr : Option.Rel (Counts n) result result') :
    Counts n (TypeText.signature params result) (signature params' result') := by
  refine counts_seq (counts_getD _ hr) (counts_seq (counts_lift _) ?_)
  exact counts_seq (counts_separated _ hp) (counts_lift _)

mutual

theorem counts_now (hf : Pursues n follow' follow) (style : Style) :
    (e : Expr) → Counts n (TypeText.now follow style e) (now follow' style e)
  | .ident name => counts_named hf name style
  | .paren e | .star e => counts_orLater e style (counts_now hf style e)
  | .arrayType _ e | .ellipsis e =>
    counts_ofArray style _ fun style => counts_orLater e style (counts_now hf style e)
  | .mapType k v =>
    counts_ofMap style (fun style => counts_orLater k style (counts_now hf style k)) fun style =>
      counts_orLater v style (counts_now hf style v)
  | .selector base name => by
    have hmember := counts_seq (counts_orLater base style (counts_now hf style base))
      (counts_seq (counts_lift (n := n) (Emit.print ".")) (counts_lift (Emit.print name)))
    cases base
    case ident package => exact counts_lift (TypeText.qualified package name style)
    all_goals exact hmember
  | .funcType sig => counts_ofSignature hf style sig
  | .lit .. | .composite .. | .funcLit .. | .index .. | .slice .. | .assert .. | .call ..
  | .unary .. | .binary .. | .keyValue .. | .structType .. | .interfaceType .. | .chanType ..
  | .unsupported .. => counts_lift (Emit.print "Object")

theorem counts_ofSignature (hf : Pursues n follow' follow) (style : Style) :
    (sig : Signature) → Counts n (TypeText.ofSignature follow style sig)
      (ofSignature follow' style sig)
  | .mk params results => by
    have hparams := fun style => counts_ofFields hf style params
    have hresults := fun style => counts_ofFields hf style results
    unfold TypeText.ofSignature ofSignature
    split
    · exact counts_reference (hparams _).head (hresults _).head
    · exact counts_signature (hparams _).params (hresults _).head

theorem counts_ofFields (hf : Pursues n follow' follow) (style : Style) :
    (fs : List Field) → TypeText.SameFields (Counts n) (TypeText.ofFields follow style fs)
      (ofFields follow' style fs)
  | [] => .nil
  | .mk _ type :: rest =>
    .cons ⟨rfl, counts_orLater type style (counts_now hf style type)⟩
      (counts_ofFields hf style rest)

end

/-- Types end, since a name is followed only below the bound. -/
theorem counts_writeTypeAt (room nesting level : Nat) (hlevel : level + room = maxDepth)
    (hroom : room < nesting) (style : Style) (type : Expr) :
    Counts level (writeTypeAt room style type) (writeType nesting style type) := by
  induction room generalizing nesting level style type with
  | zero =>
    obtain ⟨nesting, rfl⟩ := Nat.exists_eq_succ_of_ne_zero (Nat.ne_of_gt hroom)
    exact counts_orLater type style (counts_now (.full (Nat.le_of_eq hlevel.symm)) style type)
  | succ room ih =>
    obtain ⟨nesting, rfl⟩ := Nat.exists_eq_succ_of_ne_zero (Nat.ne_of_gt (Nat.zero_lt_of_lt hroom))
    refine counts_orLater type style (counts_now
      (.below (by omega) fun target style => ?_) style type)
    exact ih nesting (level + 1) (by omega) (by omega) style target

/-! ## Inference -/

/-- The same question, with and without a counter. -/
def Agrees (n : Nat) (answer : Inference.Answer) (answer' : Answer) : Prop :=
  ∀ style e, Counts n (answer style e) (answer' style e)

section

variable {again known : Inference.Answer} {again' known' : Answer} (ha : Agrees n again again')
  (hk : Agrees n known known')

theorem counts_unknown : Counts n Inference.unknown unknown := counts_lift _

include ha in
theorem counts_source (e : Expr) : Counts n (Inference.source again e) (source again' e) := by
  refine counts_bind (counts_inspect (ha .atOnce e)) fun a => ?_
  exact counts_program fun p => counts_pure _

include ha in
theorem counts_asked (p : Program) (asking : Option (Option Nat × Expr)) :
    Counts n (Inference.asked p again asking) (asked p again' asking) := by
  match asking with
  | none => exact counts_pure _
  | some (unit, e) =>
    exact counts_bind (counts_within _ (counts_inspect (ha _ _))) fun _ => counts_pure _

include ha hk in
theorem counts_step (style : Style) (e : Expr) :
    Counts n (Inference.step again known style e) (step again' known' style e) := by
  refine counts_program fun p => counts_read fun place => ?_
  refine counts_bind (counts_asked ha p _) fun answer => ?_
  refine counts_program fun p => counts_read fun place => ?_
  cases Inference.move p place answer e with
  | unknown => exact counts_unknown
  | known type => exact hk style type
  | again e => exact ha style e

end

/-- Inference ends, since a question is asked only below the bound. -/
theorem counts_inferAt (room nesting level : Nat) (hlevel : level + room = maxDepth)
    (hroom : room < nesting) : Agrees level (inferAt room) (infer nesting) := by
  induction room generalizing nesting level with
  | zero =>
    obtain ⟨nesting, rfl⟩ := Nat.exists_eq_succ_of_ne_zero (Nat.ne_of_gt hroom)
    intro style e place desk peak
    unfold infer
    rw [level_bind, if_neg (by omega)]
    exact counts_unknown place desk peak
  | succ room ih =>
    obtain ⟨nesting, rfl⟩ := Nat.exists_eq_succ_of_ne_zero (Nat.ne_of_gt (Nat.zero_lt_of_lt hroom))
    have hn : level < maxDepth := by omega
    have hknown : Agrees (level + 1) (Inference.knownAt room) (known nesting) := fun style type =>
      counts_seq (counts_writeTypeAt room nesting _ (by omega) (by omega) style type)
        (counts_program fun _ => counts_pure _)
    intro style e place desk peak
    unfold infer
    rw [level_bind, if_pos hn]
    exact counts_raise hn (counts_step (ih nesting _ (by omega) (by omega)) hknown style e) place
      desk peak

end Counted

end GoToJava
