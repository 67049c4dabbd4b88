import GoToJava.Emit
import GoToJava.Proofs.Program.Moves

/-!
A logic of writing. An action keeps programs sound, and its own text takes the brackets that are
still to be closed from one stack to another; what it writes elsewhere is closed there. What an
action needs is stated of an earlier program `w`.
-/

namespace GoToJava

open Program

namespace Emit

variable {tidy : Prop} {α β : Type} {w : Program} {a b c : List Char} {x : Emit α}
  {Q : α → Program → Prop} {R : β → Program → Prop} {f : β → Emit Unit} {l : List β} {y : Emit β}
  {vars : List (String × Go.Expr)}

/-- The answer of an action and the desk it leaves. -/
def result (x : Emit α) (place : Place) (desk : Desk) : α × Desk := x place desk

/-- Run at any place of a sound program that comes from `w`, the action takes the place's draft from
`a` to `b`, and its answer and the program it leaves satisfy `Q`. -/
def Keeps (tidy : Prop) (w : Program) (a b : List Char) (x : Emit α) (Q : α → Program → Prop) :
    Prop :=
  ∀ place desk, w.Extends desk.program → desk.program.Sound tidy →
    place.Sits tidy desk.program.extent →
    desk.program.Moves tidy place.draft a b (x.result place desk).2.program ∧
      Q (x.result place desk).1 (x.result place desk).2.program

/-- The action closes all brackets it opens. -/
def Balanced (tidy : Prop) (x : Emit α) : Prop :=
  ∀ w a, Keeps tidy w a a x fun _ _ => True

/-! ## Sequences -/

theorem keeps_pure {r : α} (h : ∀ p, w.Extends p → p.Sound tidy → Q r p) :
    Keeps tidy w a a (pure r : Emit α) Q :=
  fun _ desk hw hs _ => ⟨.refl hs, h desk.program hw hs⟩

/-- What follows may use the answer and what is known of the program at that time. -/
theorem keeps_bind {f : α → Emit β} (hx : Keeps tidy w a b x Q)
    (hf : ∀ r p, w.Extends p → p.Sound tidy → Q r p → Keeps tidy p b c (f r) R) :
    Keeps tidy w a c (x >>= f) R := by
  intro place desk hw hs hp
  obtain ⟨hm, hq⟩ := hx place desk hw hs hp
  obtain ⟨hm', hr⟩ := hf _ _ (hw.trans hm.ext) hm.sound hq place (x.result place desk).2 (.refl _)
    hm.sound (hp.mono hm.ext.extent)
  exact ⟨hm.trans hm', hr⟩

theorem keeps_seq (hx : Keeps tidy w a b x Q) (hy : Keeps tidy w b c y R) :
    Keeps tidy w a c (x >>= fun _ => y) R := by
  intro place desk hw hs hp
  obtain ⟨hm, -⟩ := hx place desk hw hs hp
  obtain ⟨hm', hr⟩ := hy place (x.result place desk).2 (hw.trans hm.ext) hm.sound
    (hp.mono hm.ext.extent)
  exact ⟨hm.trans hm', hr⟩

theorem keeps_later {w' : Program} (hx : Keeps tidy w a b x Q) (h : w.Extends w') :
    Keeps tidy w' a b x Q :=
  fun place desk hw hs hp => hx place desk (h.trans hw) hs hp

theorem balanced_pure (r : α) : Balanced tidy (pure r : Emit α) :=
  fun _ _ => keeps_pure fun _ _ _ => trivial

theorem balanced_seq (hx : Balanced tidy x) (hy : Balanced tidy y) :
    Balanced tidy (x >>= fun _ => y) :=
  fun w a => keeps_seq (hx w a) (hy w a)

theorem keeps_discard (hx : Keeps tidy w a b x Q) : Keeps tidy w a b (discard x) fun _ _ => True :=
  fun place desk hw hs hp => ⟨(hx place desk hw hs hp).1, trivial⟩

theorem keeps_forM (h : ∀ y ∈ l, Keeps tidy w a a (f y) fun _ _ => True) :
    Keeps tidy w a a (l.forM f) fun _ _ => True := by
  induction l with
  | nil => exact keeps_pure fun _ _ _ => trivial
  | cons y l ih =>
    exact keeps_seq (h y List.mem_cons_self) (ih fun z hz => h z (List.mem_cons_of_mem _ hz))

theorem balanced_forM (h : ∀ y ∈ l, Balanced tidy (f y)) : Balanced tidy (l.forM f) :=
  fun w a => keeps_forM fun y hy => h y hy w a

/-! ## Looking around -/

theorem keeps_program : Keeps tidy w a a program fun r p => r = p :=
  fun _ _ _ hs _ => ⟨.refl hs, rfl⟩

theorem keeps_read : Keeps tidy w a a (read : Emit Place) fun place p => place.Sits tidy p.extent :=
  fun _ _ _ hs hp => ⟨.refl hs, hp⟩

theorem keeps_isEager (direct : Bool) :
    Keeps tidy w a a (isEager direct) fun r p => r = false → p.phase = .discovery := by
  intro place desk hw hs hp
  refine ⟨.refl hs, fun h => ?_⟩
  have h' : (desk.program.phase != .discovery || direct || place.scratch) = false := h
  simp only [Bool.or_eq_false_iff, bne_eq_false_iff_eq] at h'
  exact h'.1.1

/-! ## Changing the program -/

theorem keeps_modifyProgram {f : Program → Program} {Q : Unit → Program → Prop}
    (h : ∀ p, w.Extends p → p.Sound tidy → (∀ d a, p.Moves tidy d a a (f p)) ∧ Q () (f p)) :
    Keeps tidy w a a (modifyProgram f) Q :=
  fun _ desk hw hs _ => ⟨(h desk.program hw hs).1 _ _, (h desk.program hw hs).2⟩

theorem keeps_modifyUnit {f : CompilationUnit → CompilationUnit}
    (hlater : ∀ u : CompilationUnit, u.Later (f u))
    (hknown : ∀ n, ∀ u : CompilationUnit, u.Known tidy n → (f u).Known tidy n) :
    Keeps tidy w a a (modifyUnit f) fun _ _ => True :=
  fun place _ _ hs _ =>
    ⟨moves_modifyUnit place.unit hs hlater fun u hu => hknown _ u hu, trivial⟩

theorem balanced_importClass {qualified : String} (h : Plain tidy qualified) :
    Balanced tidy (importClass qualified) := by
  intro w a
  apply keeps_modifyUnit
  · intro u
    exact { CompilationUnit.Later.refl u with }
  · intro n u hu
    refine { hu with imports := ?_ }
    intro q hq
    rcases NameSet.mem_place.1 hq with hq | hq
    · rw [hq]
      exact h
    · exact hu.imports q hq

theorem balanced_need {i : Java.Import} (h : Plain tidy i.qualified) : Balanced tidy (need i) :=
  balanced_importClass h

theorem balanced_refer (name : String) : Balanced tidy (refer name) := by
  intro w a
  apply keeps_modifyUnit
  · intro u
    exact { CompilationUnit.Later.refl u with }
  · intro n u hu
    exact { hu with }

theorem balanced_setVar {type : Go.Expr} (name : String) (ht : type.Spelled (Plain tidy)) :
    Balanced tidy (setVar name type) := by
  intro w a place desk _ hs _
  refine ⟨moves_scopes hs ?_ ?_, trivial⟩
  · exact Nat.le_of_eq (next_setVar _ _ _ _).symm
  · exact known_setVar _ _ hs.holds.scopes ht

theorem known_foldl {s : Scopes} (scope : Nat) (hs : s.Known tidy)
    (hv : ∀ v ∈ vars, v.2.Spelled (Plain tidy)) :
    let s' := vars.foldl (fun s (name, type) => s.setVar scope name type) s
    s'.next = s.next ∧ s'.Known tidy := by
  induction vars generalizing s with
  | nil => exact ⟨rfl, hs⟩
  | cons v vars ih =>
    have hset := known_setVar scope v.1 hs (hv v List.mem_cons_self)
    obtain ⟨hnext, hall⟩ := ih hset fun u hu => hv u (List.mem_cons_of_mem _ hu)
    exact ⟨hnext.trans (next_setVar _ _ _ _), hall⟩

theorem keeps_newScope {parent : Nat} (hparent : parent < w.scopes.next)
    (hv : ∀ v ∈ vars, v.2.Spelled (Plain tidy)) :
    Keeps tidy w a a (newScope parent vars) fun scope p => scope < p.scopes.next := by
  intro place desk hw hs _
  have hknown : (desk.program.scopes.new (some parent)).Known tidy := by
    refine known_newScope hs.holds.scopes fun i hi => ?_
    cases hi
    exact Nat.lt_of_lt_of_le hparent hw.extent.scopes
  obtain ⟨hnext, hall⟩ := known_foldl desk.program.scopes.next hknown hv
  rw [next_newScope] at hnext
  refine ⟨moves_scopes hs ?_ hall, ?_⟩
  · rw [hnext]
    exact Nat.le_succ _
  · exact Nat.lt_of_lt_of_eq (Nat.lt_succ_self _) hnext.symm

end Emit

end GoToJava
