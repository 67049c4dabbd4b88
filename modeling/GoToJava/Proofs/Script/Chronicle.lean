import GoToJava.Proofs.Script.Parallel

/-!
What becomes of a program while text is written. An action that takes steps does a few things to the
program, at the place of the text or elsewhere. What is told of each of these things is told of all
that is written.
-/

namespace GoToJava

open Go (Expr)
open Emit

namespace Outlook

variable (W : Outlook)

/-- What one step does to a program. -/
inductive Does (K : Ken) (place : Place) (p : Program) : Program → Prop
  | write (text : String) : Does K place p (p.write place.draft text)
  | note {n : Note} (h : W.Allows K n) (owed : Bool) : Does K place p (n.make ⟨place, owed⟩ p)
  | var (h : K.binds) (name : String) (type : Expr) (owed : Bool) :
      Does K place p ((Note.var place.scope name type).make ⟨place, owed⟩ p)
  | scope (h : W.declares) (inner : Bool) (vars : List (String × Expr)) (owed : Bool) :
      Does K place p ((Note.newScope (scopeAround inner p place) vars).make ⟨place, owed⟩ p)
  | hole (h : W.declares) :
      Does K place p { p with drafts := p.drafts.reserve place.draft none }
  | task {task : Task} (hb : task.Binds → K.binds) (hphase : p.phase = .discovery)
      (hscratch : place.scratch = false) (owed : Bool) :
      Does K place p { p with
        drafts := p.drafts.reserve place.draft
          (some ⟨⟨{ place with draft := p.drafts.next }, owed⟩, task⟩) }
  | register {cls : JavaClass} (hd : W.declares) (hn : W.registers cls.name) :
      Does K place p { p with
        classes := p.classes.push cls
        classIndex := p.classIndex.set cls.name p.classes.size
        parked := p.parked.filter (·.cls != cls.name) }

/-- Where text goes on elsewhere, and with which program. -/
inductive Goes (K : Ken) (place : Place) (p : Program) : Ken → Cursor → Program → Prop
  | look : Goes K place p K (scratchCursor place p) { p with drafts := p.drafts.new }
  | methods {cls : Nat} (hm : W.methods) (hc : K.cls cls) :
      Goes K place p K.away (p.classAt cls).functionsAt p
  | implementing {cls : String} {id : Nat} (hc : W.conforms)
      (hid : p.classIndex.get? cls = some id) :
      Goes K place p K.away (implementsCursor (p.classAt id)) p
  | typeUnit {name : String} (hd : W.declares) (hn : W.rules.exported name) :
      Goes K place p K.away (p.typeUnit place name).1 (p.typeUnit place name).2

end Outlook

/-- What is told of programs while text is written: where it may be written, and what becomes of the
program. -/
structure Chronicle (W : Outlook) where
  fits : Ken → Place → Program → Prop
  tells : Place → Program → Program → Prop
  refl : ∀ {K place p}, fits K place p → tells place p p
  trans : ∀ {K place p q r}, fits K place p → tells place p q → tells place q r → tells place p r
  stays : ∀ {K place p q}, fits K place p → tells place p q → fits K place q
  knows : ∀ {K place p}, fits K place p → W.knows p ∧ W.Sees place ∧ fits (K.seen p) place p
  steer : ∀ {K place p} {f : Place → Place} {binds : Prop}, W.Steers K f binds → fits K place p →
    fits { K with binds } (f place) p ∧ ∀ q, tells (f place) p q → tells place p q
  does : ∀ {K place p q}, fits K place p → W.Does K place p q → tells place p q
  opening : ∀ {K place p q}, W.declares → fits K place p → fits K place q →
    fits (K.opening p.scopes.next) place q
  enrolled : ∀ {K place p q}, fits K place p → fits K place q →
    fits (K.enrolled p.classes.size) place q
  goes : ∀ {K K' place p p'} {c : Cursor}, fits K place p → W.Goes K place p K' c p' →
    fits K' c.place p' ∧ ∀ q, tells c.place p' q → tells place p q
  eager : W.eager := by exact trivial
  twin : ∀ place, W.twin place place := by exact fun _ => rfl
  struct : ∀ {K place p release}, W.whole release → fits K place p → ∀ name fields owed,
    tells place p (Forms.struct release name fields place ⟨p, owed⟩).2.program := by
    exact fun h => h.elim
  atom : ∀ {K place p} {α : Type} {x : Emit α}, W.atom x → fits K place p → ∀ owed,
    tells place p (x place ⟨p, owed⟩).2.program := by exact fun h => h.elim
  numbered : ∀ {K place p q} {index : Nat}, ¬W.counts → fits K place p →
    (fits K place { p with iota := some index } → tells place { p with iota := some index } q) →
    tells place p { q with iota := none } := by exact fun h => absurd trivial h

namespace Chronicle

variable {W : Outlook} (C : Chronicle W) {K : Ken} {place : Place} {p : Program}

theorem tells_leave {task : Task} (h : C.fits K place p) (hb : task.Binds → K.binds)
    (hphase : p.phase = .discovery) (hscratch : place.scratch = false) (owed : Bool) :
    C.tells place p (leave task place ⟨p, owed⟩).2.program := by
  have hinline : C.tells place p
      (discard (reserveInline (some task)) place ⟨p, owed⟩).2.program := by
    have hprint : C.tells place p (print "" place ⟨p, owed⟩).2.program := C.does h (.write _)
    refine C.trans h hprint (C.does (C.stays h hprint) (.task hb ?_ hscratch false))
    show (p.write _ _).phase = .discovery
    unfold Program.write
    split <;> exact hphase
  unfold leave
  cases task.placement with
  | inline => exact hinline
  | statement =>
    show C.tells place p ((if place.bare = true then pure () else owe : Emit Unit)
      place _).2.program
    split <;> exact hinline
  | block => exact C.does h (.task hb hphase hscratch true)

theorem tells_of_parallel {a b : List Char} {α : Type} {R : α → α → Prop} {x y : Emit α}
    (h : Parallel W K a b R x y) (hp : C.fits K place p) (owed : Bool) :
    C.tells place p (x place ⟨p, owed⟩).2.program ∧ ∃ u, R (x place ⟨p, owed⟩).1 u := by
  induction h generalizing place p owed with
  | pure h => exact ⟨C.refl hp, _, h⟩
  | bind _ _ ihx ihf =>
    obtain ⟨hfirst, u, hu⟩ := ihx hp owed
    obtain ⟨hrest, hanswer⟩ := ihf _ u hu (C.stays hp hfirst) _
    exact ⟨C.trans hp hfirst hrest, hanswer⟩
  | program _ ih =>
    obtain ⟨hknows, -, hseen⟩ := C.knows hp
    exact ih _ _ hknows hknows (.refl _ _) hseen owed
  | read _ ih => exact ih place place.draft (C.knows hp).2.1 hp owed
  | within hf _ ih =>
    obtain ⟨hthere, hback⟩ := C.steer hf hp
    exact ⟨hback _ (ih hthere owed).1, (ih hthere owed).2⟩
  | print _ | newline _ => exact ⟨C.does hp (.write _), _, rfl⟩
  | owe => exact ⟨C.refl hp, _, rfl⟩
  | note h => exact ⟨C.does hp (.note h owed), _, rfl⟩
  | setVar hb _ => exact ⟨C.does hp (.var hb _ _ owed), _, rfl⟩
  | @scope _ _ _ _ _ inner vars _ _ hd _ _ ih =>
    have hnew := C.does hp (.scope hd inner vars owed)
    obtain ⟨hrest, hanswer⟩ := ih p.scopes.next (C.opening hd hp (C.stays hp hnew)) owed
    rw [openScope_then]
    exact ⟨C.trans hp hnew hrest, hanswer⟩
  | inspect _ _ ih =>
    obtain ⟨hthere, hback⟩ := C.goes hp .look
    obtain ⟨hlook, u, hu⟩ := ih hthere false
    exact ⟨hback _ hlook, (u, _), hu, rfl⟩
  | defer _ hb _ ih =>
    rw [defer_apply]
    split
    · exact ih (Or.inl C.eager) hp owed
    · rename_i hlater
      simp only [Bool.or_eq_true, bne_iff_ne, not_or, Bool.not_eq_true, not_not] at hlater
      exact ⟨C.tells_leave hp hb hlater.1.1 hlater.2 owed, _, rfl⟩
  | reserve hd owed' =>
    exact ⟨C.does hp (.hole hd), (reserve owed' none place ⟨p, owed⟩).1, rfl, C.twin _⟩
  | inMethods hm hc _ ih =>
    obtain ⟨hthere, hback⟩ := C.goes hp (.methods hm hc)
    rw [inMethods_apply, elsewhere_apply]
    exact ⟨hback _ (ih hthere _).1, _, rfl⟩
  | @inImplements _ _ cls x _ hc _ ih =>
    cases hid : p.classIndex.get? cls with
    | none =>
      rw [inImplements_of_none place ⟨p, owed⟩ x hid]
      exact ⟨C.refl hp, _, rfl⟩
    | some id =>
      obtain ⟨hthere, hback⟩ := C.goes hp (.implementing hc hid)
      rw [inImplements_of_some place ⟨p, owed⟩ x hid, elsewhere_apply]
      exact ⟨hback _ (ih hthere _).1, _, rfl⟩
  | inTypeUnit hd hn _ _ ih =>
    obtain ⟨hthere, hback⟩ := C.goes hp (.typeUnit hd hn)
    rw [inTypeUnit_apply, elsewhere_apply]
    exact ⟨hback _ (ih hthere _).1, _, rfl⟩
  | enroll hd hn _ _ ih =>
    have hnew := C.does hp (.register hd hn)
    obtain ⟨hrest, hanswer⟩ := ih p.classes.size (C.enrolled hp (C.stays hp hnew)) owed
    rw [enroll_then]
    exact ⟨C.trans hp hnew hrest, hanswer⟩
  | struct h _ _ => exact ⟨C.struct h hp _ _ owed, _, rfl⟩
  | atom h => exact ⟨C.atom h hp owed, _, rfl⟩
  | numbered _ hc _ ih => exact ⟨C.numbered hc hp fun hthere => (ih hthere owed).1, _, rfl⟩

end Chronicle

end GoToJava
