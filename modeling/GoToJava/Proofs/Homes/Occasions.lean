import GoToJava.Proofs.Methods.Once

/-!
Occasions. All that is written for some files, until only imports are missing: their declarations,
the methods that waited for a class, the tasks that were put off, and the parts of all these. Each
is written at a place where text may be, and the program abides by it from then on.
-/

namespace GoToJava

open Go (Decl Field File FuncDecl title)
open Emit Conversion Forms Session

namespace Program

variable {calls : List Call} {p : Program} {place : Place} {desk : Desk} {n : Nat} {α : Type}
  {x : Emit α}

/-- A declaration is written on the desk, in the file of one of the calls. -/
inductive Declares (calls : List Call) : Decl → Place → Desk → Prop
  | intro {before after : List Call} {c : Call} {file : File} {ds rest : List Decl} {d : Decl}
      {u : Nat} {r q : Program} (hcalls : calls = before ++ c :: after) (hread : c.read = .ok file)
      (hunit : (discovered before).packageUnit c.dir (title file.package) false = (u, r))
      (himports : (file.imports.forM (addImport c.libraries u)).run.run r = (.ok (), q))
      (hdecls : file.decls = ds ++ d :: rest) :
      Declares calls d (q.inside u) (ds.forM decl (q.inside u) ⟨q, true⟩).2

/-- The action is run on the desk while at most `n` methods wait. It is a declaration, a method or a
task, or a part of what is run so; the other parts take their course. A struct has parts before its
class becomes known, and releases methods then. -/
inductive Occasion (calls : List Call) : Nat → {α : Type} → Emit α → Place → Desk → Prop
  | decl {d : Decl} {place : Place} {desk : Desk} (h : Declares calls d place desk) :
      Occasion calls desk.program.parked.length (decl d) place desk
  | static {before after : List ParkedMethod} {m : ParkedMethod}
      (h : (discovered calls).parked = before ++ m :: after) :
      Occasion calls 0 (staticMethod m.decl) m.cursor.place
        ⟨before.foldl (fun q m => (q.emit m.cursor (staticMethod m.decl)).2)
          { discovered calls with parked := [] }, m.cursor.owed⟩
  | task {run : Run} (h : run ∈ (discovered calls).finalized.runs) :
      Occasion calls 0 (Conversion.run fill.release run.pending.task) run.pending.cursor.place
        ⟨run.program, run.pending.cursor.owed⟩
  | first {n : Nat} {α β : Type} {x : Emit α} {f : α → Emit β} {place : Place} {desk : Desk}
      (h : Occasion calls n (x >>= f) place desk) (hx : Courses n x) (hf : ∀ v, Courses n (f v)) :
      Occasion calls n x place desk
  | next {n : Nat} {α β : Type} {x : Emit α} {f : α → Emit β} {place : Place} {desk : Desk}
      (h : Occasion calls n (x >>= f) place desk) (hx : Courses n x) :
      Occasion calls n (f (x place desk).1) place (x place desk).2
  | within {n : Nat} {α : Type} {x : Emit α} {f : Place → Place} {place : Place} {desk : Desk}
      (h : Occasion calls n (withReader f x) place desk) (hdraft : (f place).draft = place.draft)
      (hscratch : (f place).scratch = place.scratch) (hunit : (f place).unit = place.unit) :
      Occasion calls n x (f place) desk
  | method {n id : Nat} {d : FuncDecl} {x : Emit Unit} {place : Place} {p : Program} {owed : Bool}
      (h : Occasion calls n (method d id x) place ⟨p, owed⟩) (hid : id < p.classes.size) :
      Occasion calls n (methodText d id x) (p.classAt id).functionsAt.place
        ⟨p, (p.classAt id).functionsAt.owed⟩
  | typeUnit {n : Nat} {name : String} {x : Emit Unit} {place : Place} {desk : Desk} {c : Cursor}
      {p : Program} (h : Occasion calls n (inTypeUnit name x) place desk)
      (hunit : desk.program.typeUnit place name = (c, p)) : Occasion calls n x c.place ⟨p, c.owed⟩
  | numbered {n index : Nat} {x : Emit Unit} {place : Place} {p : Program} {owed : Bool}
      (h : Occasion calls n (note (.iota (some index)) >>= fun _ => x >>= fun _ =>
        note (.iota none))
        place ⟨p, owed⟩) (hx : Courses n x) :
      Occasion calls n x place ⟨{ p with iota := some index }, owed⟩
  | structStart {n : Nat} {name : String} {fields : List Field} {place : Place} {desk : Desk}
      (h : Occasion calls n (struct (releaseAt n) name fields) place desk) :
      Occasion calls n (structStart name (embeddedFields fields)) place desk
  | structLines {n : Nat} {name : String} {fields : List Field} {place : Place} {desk : Desk}
      (h : Occasion calls n (struct (releaseAt n) name fields) place desk) :
      Occasion calls n (structLines name (namedFields fields)) place
        (structParts name fields place desk).opened
  | released {n id : Nat} {name : String} {fields : List Field} {place : Place} {desk : Desk}
      {s : StructParts} {before after : List FuncDecl} {d : FuncDecl} {q : Program}
      (h : Occasion calls (n + 1) (struct (releaseAt (n + 1)) name fields) place desk)
      (hs : structParts name fields place desk = s) (hid : s.last.program.classes.size = id)
      (hready : waitingFor s.last.program s.cls.name = before ++ d :: after)
      (hq : (before.forM (releaseAt (n + 1) id) place
        ⟨s.last.program.registered s.cls, s.last.owed⟩).2.program = q) :
      Occasion calls n (methodText d id (bodyOf (releaseAt n) d)) (q.classAt id).functionsAt.place
        ⟨q, (q.classAt id).functionsAt.owed⟩

/-! ## Declarations -/

theorem forM_split {β : Type} (f : β → Emit Unit) (before after : List β) (b : β) (place : Place)
    (desk : Desk) : (before ++ b :: after).forM f place desk =
      after.forM f place (f b place (before.forM f place desk).2).2 := by
  induction before generalizing desk with
  | nil => rfl
  | cons c before ih => exact ih (f c place desk).2

theorem discovered_append (before : List Call) (c : Call) (after : List Call) :
    discovered (before ++ c :: after) = after.foldl (fun p c => (c.session.run.run p).2)
      (c.session.run.run (discovered before)).2 := by
  unfold discovered
  rw [List.foldl_append]
  rfl

theorem releaseAll_split {before after : List ParkedMethod} {m : ParkedMethod}
    (h : p.parked = before ++ m :: after) :
    let release (q : Program) (m : ParkedMethod) := (q.emit m.cursor (staticMethod m.decl)).2
    p.releaseAll = after.foldl release
      (release (before.foldl release { p with parked := [] }) m) := by
  unfold releaseAll
  rw [h, List.foldl_append]
  rfl

/-- A declaration is written when the account is kept, and the program abides by it. -/
theorem Declares.sound {d : Decl} (h : Declares calls d place desk) :
    desk.program.Filed ∧ desk.program.Seats place ∧
      (decl d place desk).2.program.Abides (discovered calls) := by
  cases h with
  | @intro before after c file ds rest _ u r q hcalls hread hunit himports hdecls =>
  obtain ⟨hbefore, hphase, -⟩ := accounted_discovered before
  have hkeeping := keeping_read c file hbefore hphase
  rw [hunit] at hkeeping
  dsimp only at hkeeping
  rw [himports] at hkeeping
  obtain ⟨habides, hphase₁, hall⟩ := accounted_decls ds true hkeeping.accounted hkeeping.known rfl
    hkeeping.phase
  have hu := habides.leads.units hkeeping.known
  have hplace := (habides.leads.inside hkeeping.known).symm
  obtain ⟨habides₂, hphase₂, hall₂⟩ := accounted_decl hall hu hplace hphase₁ d
    (ds.forM decl (q.inside u) ⟨q, true⟩).2.owed
  obtain ⟨habides₃, -, -⟩ := accounted_decls rest
    (decl d (q.inside u) (ds.forM decl (q.inside u) ⟨q, true⟩).2).2.owed hall₂
    (habides₂.leads.units hu) (hplace.trans (habides₂.leads.inside hu).symm) hphase₂
  -- The rest of the file, and the files after it.
  have hcall : (c.session.run.run (discovered before)).2 =
      (file.decls.forM decl (q.inside u) ⟨q, true⟩).2.program := by
    rw [run_call, hphase, hread]
    dsimp only
    rw [hunit, fillPackage, run_bind_ok himports]
    rfl
  rw [hdecls, forM_split] at hcall
  obtain ⟨hfile, hphase₄, -, -⟩ := accounted_call c hbefore hphase
  obtain ⟨-, -, habides₅, -⟩ := accounted_calls after hfile hphase₄
  rw [hcall] at habides₅
  rw [hcalls, discovered_append, hcall]
  exact ⟨hall.filed, hall.filed.seats_inside hu hplace, habides₃.trans habides₅⟩

/-! ## Structs -/

theorem courses_methodText (n : Nat) (d : FuncDecl) (cls : Nat) :
    Courses n (methodText d cls (bodyOf (releaseAt n) d)) :=
  courses_of_entire (parallel_entire n d cls)

section

variable {name : String} {fields : List Field} {s : StructParts} {owed : Bool}
  (hs : structParts name fields place ⟨p, owed⟩ = s) (hp : p.Filed) (hplace : p.Seats place)
include hs hp hplace

/-- The program abides by the parts of a struct. -/
theorem abides_struct (hn : p.parked.length ≤ n) :
    let q := (struct (releaseAt n) name fields place ⟨p, owed⟩).2.program
    s.opened.program.Filed ∧ s.opened.program.Seats place ∧ s.opened.program.parked.length ≤ n ∧
      s.start.program.Abides q ∧ s.lines.program.Abides q := by
  subst hs
  obtain ⟨hstart, hopened, hlines, hlast, hcls, -⟩ :=
    course_structParts name fields owed hp hplace hn
  have hboth := hstart.trans hopened hplace.known
  have hcourse := (hboth.trans hlines hplace.known).trans hlast hplace.known
  obtain ⟨hrest, -⟩ := course_released place _ (fun k _ d cls => courses_methodText k d cls)
    hcourse.filed hcls (Nat.le_trans hcourse.length_parked hn)
  have hend := hlast.abides.trans ((tidy_registered hlast.filed.tidy hcls).1.trans hrest.abides)
  rw [struct_apply]
  exact ⟨hboth.filed, hboth.seats hplace, Nat.le_trans hboth.length_parked hn,
    hopened.abides.trans (hlines.abides.trans hend), hend⟩

/-- A method that is released is written in its class, and the program abides by it. -/
theorem abides_released {before after : List FuncDecl} {d : FuncDecl} {id : Nat} {q : Program}
    (hn : p.parked.length ≤ n + 1) (hid : s.last.program.classes.size = id)
    (hready : waitingFor s.last.program s.cls.name = before ++ d :: after)
    (hq : (before.forM (releaseAt (n + 1) id) place
      ⟨s.last.program.registered s.cls, s.last.owed⟩).2.program = q) :
    let at_ := (q.classAt id).functionsAt
    q.Filed ∧ q.Seats at_.place ∧ q.parked.length ≤ n ∧
      (methodText d id (bodyOf (releaseAt n) d) at_.place ⟨q, at_.owed⟩).2.program.Abides
        (struct (releaseAt (n + 1)) name fields place ⟨p, owed⟩).2.program := by
  subst hs hid hq
  obtain ⟨hstart, hopened, hlines, hlast, hcls, -⟩ :=
    course_structParts name fields owed hp hplace hn
  have hcourse := ((hstart.trans hopened hplace.known).trans hlines hplace.known).trans hlast
    hplace.known
  obtain ⟨hfiled, hclass, -, hempty, hcount⟩ := registered_prepared hcourse.filed hcls
    (Nat.le_trans hcourse.length_parked hn)
  rw [hready, List.length_append, List.length_cons] at hcount
  rw [struct_apply, hready, forM_split]
  intro at_
  obtain ⟨hbefore, hsection⟩ := course_methods before place
    (structParts name fields place ⟨p, owed⟩).last.owed (fun d => courses_methodText n d _) hfiled
    hclass (by omega) hempty
  have hclass' := Nat.lt_of_lt_of_le hclass hbefore.leads.keeps.size
  have hwait := Nat.le_trans hbefore.length_parked (show _ ≤ n by omega)
  obtain ⟨hmethod, hsection'⟩ := course_method place _ (courses_methodText n d _) hbefore.filed
    hclass' hwait hsection
  obtain ⟨hafter, -⟩ := course_methods after place _ (fun d => courses_methodText n d _)
    hmethod.filed (Nat.lt_of_lt_of_le hclass' hmethod.leads.keeps.size)
    (Nat.le_trans hmethod.length_parked hwait) hsection'
  exact ⟨hbefore.filed, hbefore.filed.tidy.methods _ hclass', hwait, hafter.abides⟩

end

/-! ## All occasions -/

/-- Whatever is written is written at a place where text may be, and the program abides by it. -/
theorem Occasion.sound (h : Occasion calls n x place desk) :
    desk.program.Filed ∧ desk.program.Seats place ∧ desk.program.parked.length ≤ n ∧
      (x place desk).2.program.Abides (discovered calls).filled := by
  obtain ⟨haccounted, hphase, -⟩ := accounted_discovered calls
  have hfilled := settled_filled haccounted
  induction h with
  | decl h =>
    obtain ⟨hfiled, hplace, habides⟩ := h.sound
    exact ⟨hfiled, hplace, Nat.le_refl _, habides.trans hfilled.abides⟩
  | @static before after m h =>
    have hmem : ∀ x ∈ before ++ m :: after, x ∈ (discovered calls).parked := fun x hx => by rwa [h]
    have hbefore := settled_static haccounted
      (fun x hx => hmem x (List.mem_append_left _ hx)) .refl (settled_unparked haccounted)
    obtain ⟨hplace, hbusy⟩ := seats_parked haccounted
      (hmem m (List.mem_append_right _ List.mem_cons_self)) hbefore.abides.leads hbefore.filed
    have hown := hbefore.emit hplace (courses_staticMethod 0 m.decl) hbusy
    have hafter := settled_static haccounted
      (fun x hx => hmem x (List.mem_append_right _ (List.mem_cons_of_mem _ hx))) hown.abides.leads
      hown.rebase
    rw [← releaseAll_split h] at hafter
    exact ⟨hbefore.filed, hplace, Nat.le_of_eq (congrArg List.length hbefore.parked),
      hafter.filled.abides⟩
  | @task run h =>
    rw [runs_finalized hphase] at h
    obtain ⟨hfiled, hparked, hplace, habides⟩ := (settled_releaseAll haccounted).allRuns.runs run h
    rw [program_allRuns] at habides
    exact ⟨hfiled, hplace, Nat.le_of_eq (congrArg List.length hparked), habides⟩
  | @first n α β x f place desk _ hx hf ih =>
    obtain ⟨hfiled, hplace, hn, habides⟩ := ih
    have hfirst := hx _ _ desk.owed hfiled hplace hn
    have hrest := hf (x place desk).1 _ _ (x place desk).2.owed hfirst.filed (hfirst.seats hplace)
      (Nat.le_trans hfirst.length_parked hn)
    exact ⟨hfiled, hplace, hn, hrest.abides.trans habides⟩
  | @next n α β x f place desk _ hx ih =>
    obtain ⟨hfiled, hplace, hn, habides⟩ := ih
    have hfirst := hx _ _ desk.owed hfiled hplace hn
    exact ⟨hfirst.filed, hfirst.seats hplace, Nat.le_trans hfirst.length_parked hn, habides⟩
  | within _ hdraft hscratch hunit ih =>
    obtain ⟨hfiled, hplace, hn, habides⟩ := ih
    exact ⟨hfiled, hplace.congr hdraft hscratch fun _ => hunit, hn, habides⟩
  | method _ hid ih =>
    obtain ⟨hfiled, -, hn, habides⟩ := ih
    exact ⟨hfiled, hfiled.tidy.methods _ hid, hn, habides⟩
  | @typeUnit n name x place desk c p _ hunit ih =>
    obtain ⟨hfiled, hplace, hn, habides⟩ := ih
    obtain ⟨hcourse, -, hseat⟩ := course_typeUnit hfiled hplace.known place name
    rw [inTypeUnit_apply, hunit] at habides
    rw [hunit] at hcourse hseat
    exact ⟨hcourse.filed, hseat, Nat.le_trans hcourse.length_parked hn, habides⟩
  | @numbered n index x place p owed _ hx ih =>
    obtain ⟨hfiled, hplace, hn, habides⟩ := ih
    obtain ⟨hframe, -, habides', hfiled'⟩ := hfiled.numbered (some index)
    have hplace' := hplace.stays habides' hframe.setAside
    obtain ⟨-, -, hend, -⟩ := (hx place _ owed hfiled' hplace' hn).filed.numbered none
    exact ⟨hfiled', hplace', hn, hend.trans habides⟩
  | structStart _ ih =>
    obtain ⟨hfiled, hplace, hn, habides⟩ := ih
    obtain ⟨-, -, -, hstart, -⟩ := abides_struct rfl hfiled hplace hn
    exact ⟨hfiled, hplace, hn, hstart.trans habides⟩
  | structLines _ ih =>
    obtain ⟨hfiled, hplace, hn, habides⟩ := ih
    obtain ⟨hfiled', hplace', hn', -, hlines⟩ := abides_struct rfl hfiled hplace hn
    exact ⟨hfiled', hplace', hn', hlines.trans habides⟩
  | released _ hs hid hready hq ih =>
    obtain ⟨hfiled, hplace, hn, habides⟩ := ih
    obtain ⟨hfiled', hplace', hn', hmethod⟩ := abides_released hs hfiled hplace hn hid hready hq
    exact ⟨hfiled', hplace', hn', hmethod.trans habides⟩

end Program

end GoToJava
