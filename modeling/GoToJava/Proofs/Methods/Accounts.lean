import GoToJava.Proofs.Methods.Release
import GoToJava.Proofs.Program.Calls

/-!
An account of methods. Each method that is met is written into the class that was made known last
under its name, or else into the first one that is made known later; as long as there is none, it
waits.
-/

namespace GoToJava

open Go (Decl File FuncDecl ImportSpec title)
open Emit Conversion Forms

/-- A method as it was met: what it is, where it stands, and how many classes were known. -/
structure Meeting extends ParkedMethod where
  classes : Nat

namespace Program

variable {p q : Program} {name : String} {c n : Nat}

/-! ## The class of a method -/

/-- The last of the first `n` classes with a name. -/
def lastClass? (p : Program) (name : String) : (n : Nat) → Option Nat
  | 0 => none
  | n + 1 => if (p.classAt n).name = name then some n else p.lastClass? name n

theorem lastClass?_eq_some_iff : p.lastClass? name n = some c ↔
    c < n ∧ (p.classAt c).name = name ∧ ∀ b < n, c < b → (p.classAt b).name ≠ name := by
  induction n with
  | zero => exact ⟨nofun, fun h => absurd h.1 (Nat.not_lt_zero c)⟩
  | succ n ih =>
    rw [lastClass?]
    split
    · rename_i hn
      refine ⟨?_, ?_⟩
      · rintro ⟨⟩
        exact ⟨Nat.lt_succ_self _, hn, fun b hb hlt => by omega⟩
      · rintro ⟨hc, -, hlast⟩
        by_cases hlt : c < n
        · exact absurd hn (hlast n (Nat.lt_succ_self _) hlt)
        · rw [show c = n by omega]
    · rename_i hn
      rw [ih]
      refine ⟨?_, ?_⟩
      · rintro ⟨hc, hname, hlast⟩
        refine ⟨Nat.lt_succ_of_lt hc, hname, fun b hb hlt => ?_⟩
        by_cases hbn : b = n
        · rw [hbn]
          exact hn
        · exact hlast b (by omega) hlt
      · rintro ⟨hc, hname, hlast⟩
        have hne : c ≠ n := by
          rintro rfl
          exact hn hname
        exact ⟨by omega, hname, fun b hb => hlast b (Nat.lt_succ_of_lt hb)⟩

theorem lastClass?_eq_none_iff :
    p.lastClass? name n = none ↔ ∀ c < n, (p.classAt c).name ≠ name := by
  induction n with
  | zero => exact ⟨fun _ c hc => absurd hc (Nat.not_lt_zero c), fun _ => rfl⟩
  | succ n ih =>
    rw [lastClass?]
    split
    · rename_i hn
      exact ⟨nofun, fun h => absurd hn (h n (Nat.lt_succ_self _))⟩
    · rename_i hn
      rw [ih]
      refine ⟨fun h c hc => ?_, fun h c hc => h c (Nat.lt_succ_of_lt hc)⟩
      by_cases hcn : c = n
      · rw [hcn]
        exact hn
      · exact h c (by omega)

theorem KeepsClasses.lastClass?_eq (h : p.KeepsClasses q) (hn : n ≤ p.classes.size) :
    q.lastClass? name n = p.lastClass? name n := by
  induction n with
  | zero => rfl
  | succ n ih => rw [lastClass?, lastClass?, (h.cls n hn).name, ih (Nat.le_of_succ_le hn)]

theorem ClassIndexed.get?_eq (hp : p.ClassIndexed) (name : String) :
    p.classIndex.get? name = p.lastClass? name p.classes.size := by
  refine Option.ext fun c => ?_
  rw [hp name c, lastClass?_eq_some_iff]
  exact and_congr_right fun _ => and_congr_right fun _ =>
    ⟨fun h b hb hlt => h b hlt hb, fun h b hlt hb => h b hb hlt⟩

theorem firstClass?_eq_none_of_last (h : p.lastClass? name p.classes.size = none) :
    p.firstClass? name = none :=
  firstClass?_eq_none_iff.2 (lastClass?_eq_none_iff.1 h)

end Program

namespace Meeting

open Program

/-- The class of a method: the last one with its name when the method was met, or else the first
one. -/
def home (m : Meeting) (p : Program) : Option Nat :=
  p.lastClass? m.cls m.classes <|> p.firstClass? m.cls

variable {p q : Program} {m : Meeting} {c : Nat}

theorem home_of_last (h : p.lastClass? m.cls m.classes = some c) : m.home p = some c := by
  unfold home
  rw [h]
  rfl

theorem home_of_first (h : p.lastClass? m.cls m.classes = none) :
    m.home p = p.firstClass? m.cls := by
  unfold home
  rw [h]
  rfl

/-- A method that has no class yet has none of its name. -/
theorem home_eq_none (hm : m.classes ≤ p.classes.size) :
    m.home p = none ↔ p.firstClass? m.cls = none := by
  refine ⟨fun h => ?_, fun h => ?_⟩
  · cases hlast : p.lastClass? m.cls m.classes with
    | none => rw [← home_of_first hlast, h]
    | some b =>
      rw [home_of_last hlast] at h
      cases h
  · have hlast : p.lastClass? m.cls m.classes = none :=
      lastClass?_eq_none_iff.2 fun b hb =>
        firstClass?_eq_none_iff.1 h b (Nat.lt_of_lt_of_le hb hm)
    rw [home_of_first hlast, h]

theorem name_of_home (hm : m.classes ≤ p.classes.size) (h : m.home p = some c) :
    c < p.classes.size ∧ (p.classAt c).name = m.cls := by
  cases hlast : p.lastClass? m.cls m.classes with
  | none =>
    rw [home_of_first hlast] at h
    obtain ⟨hc, hname, -⟩ := firstClass?_eq_some_iff.1 h
    exact ⟨hc, hname⟩
  | some b =>
    rw [home_of_last hlast] at h
    cases h
    obtain ⟨hc, hname, -⟩ := lastClass?_eq_some_iff.1 hlast
    exact ⟨Nat.lt_of_lt_of_le hc hm, hname⟩

section

variable (h : p.KeepsClasses q) (hm : m.classes ≤ p.classes.size)
include h hm

theorem home_stays (hc : m.home p = some c) : m.home q = some c := by
  have hlast : q.lastClass? m.cls m.classes = p.lastClass? m.cls m.classes := h.lastClass?_eq hm
  cases hp : p.lastClass? m.cls m.classes with
  | none =>
    rw [home_of_first hp] at hc
    rw [home_of_first (hlast.trans hp), h.first hc]
  | some b =>
    rw [home_of_last hp] at hc
    rw [home_of_last (hlast.trans hp), hc]

/-- A method without a class takes the first one that comes. -/
theorem home_of_none (hnone : m.home p = none) : m.home q = q.firstClass? m.cls := by
  have hlast : p.lastClass? m.cls m.classes = none := by
    cases hp : p.lastClass? m.cls m.classes with
    | none => rfl
    | some b =>
      rw [home_of_last hp] at hnone
      cases hnone
  exact home_of_first ((h.lastClass?_eq hm).trans hlast)

theorem isNone_home : (m.home q).isNone = ((q.firstClass? m.cls).isNone && (m.home p).isNone) := by
  cases hp : m.home p with
  | none => rw [home_of_none h hm hp, Option.isNone_none, Bool.and_true]
  | some c => rw [home_stays h hm hp, Option.isNone_some, Bool.and_false]

theorem home_beq_of_lt (hc : c < p.classes.size) : (m.home q == some c) = (m.home p == some c) := by
  cases hp : m.home p with
  | none => rw [home_of_none h hm hp, h.beq_of_lt hc, (home_eq_none hm).1 hp]
  | some b => rw [home_stays h hm hp]

theorem home_beq_of_le (hc : p.classes.size ≤ c) :
    (m.home q == some c) = (q.firstClass? m.cls == some c && (m.home p).isNone) := by
  cases hp : m.home p with
  | none => rw [home_of_none h hm hp, Option.isNone_none, Bool.and_true]
  | some b =>
    have hb := (name_of_home hm hp).1
    rw [home_stays h hm hp, Option.isNone_some, Bool.and_false, beq_eq_false_iff_ne]
    exact fun he => Nat.ne_of_lt (Nat.lt_of_lt_of_le hb hc) (Option.some.inj he)

end

end Meeting

/-! ## Accounts -/

namespace Program

variable {p q : Program} {met : List Meeting} {draft u : Nat}

/-- Where the declarations of a package are written. -/
def inside (p : Program) (u : Nat) : Place := { (p.unit u).start u with tabs := 1 }

theorem Leads.inside (h : p.Leads q) (hu : u < p.units.size) : q.inside u = p.inside u := by
  obtain ⟨-, hsame⟩ := h.namesake hu
  unfold Program.inside CompilationUnit.start
  rw [hsame.root, hsame.scope]

end Program

/-- The method was met in a unit that is known, and not before its classes were. -/
structure Meeting.Fits (m : Meeting) (p : Program) : Prop where
  early : m.classes ≤ p.classes.size
  known : m.cursor.place.unit < p.units.size
  place : m.cursor.place = p.inside m.cursor.place.unit
  receiver : ∃ receiver, m.decl.receiver = some receiver ∧ m.cls = receiverClass receiver.type

theorem Meeting.Fits.stays {m : Meeting} {p q : Program} (hm : m.Fits p) (h : p.Leads q) :
    m.Fits q where
  early := Nat.le_trans hm.early h.keeps.size
  known := h.units hm.known
  place := hm.place.trans (h.inside hm.known).symm
  receiver := hm.receiver

namespace Program

variable {p q : Program} {met : List Meeting} {draft u : Nat}

/-- A program between two declarations: no constant has a number. -/
structure Resting (p : Program) : Prop where
  filed : p.Filed
  iota : p.iota = none

theorem Resting.course (h : p.Resting) (hcourse : Course draft p q) : q.Resting :=
  ⟨hcourse.filed, hcourse.iota h.iota⟩

theorem Resting.frame (h : p.Resting) (hframe : p.Frame q) (hleads : p.Leads q)
    (hdrafts : q.drafts = p.drafts) (hiota : q.iota = p.iota)
    (hwaiting : ∀ m ∈ q.parked, p.firstClass? m.cls = none) : p.Abides q ∧ q.Resting :=
  ⟨hframe.abides_tables h.filed hleads hdrafts, hframe.filed h.filed hleads hdrafts hwaiting,
    hiota.trans h.iota⟩

/-- Of the methods that were met, those of each class stand where its methods stand, once each and
in their order, and the others wait. -/
structure Accounted (met : List Meeting) (p : Program) : Prop extends p.Resting where
  fits : ∀ m ∈ met, m.Fits p
  parked : p.parked = (met.filter fun m => (m.home p).isNone).map (·.toParkedMethod)
  written : ∀ c < p.classes.size,
    Section c p ((met.filter fun m => m.home p == some c).map (·.decl))

theorem accounted_empty : Accounted [] {} where
  filed :=
    { reached := .refl
      tidy := .empty
      apart := fun c hc => absurd hc (Nat.not_lt_zero c)
      own := fun b hb => absurd hb (Nat.not_lt_zero b)
      waiting := nofun }
  iota := rfl
  fits := nofun
  parked := rfl
  written := fun c hc => absurd hc (Nat.not_lt_zero c)

section

variable (h : Accounted met p) (hcourse : Course draft p q)
include h hcourse

theorem Accounted.parked_of_course :
    q.parked = (met.filter fun m => (m.home q).isNone).map (·.toParkedMethod) := by
  have hkeeps := hcourse.leads.keeps
  rw [hcourse.parked, h.parked, List.filter_map, List.filter_filter]
  refine congrArg _ (List.filter_congr fun m hm => ?_)
  exact (Meeting.isNone_home hkeeps (h.fits m hm).early).symm

/-- Methods of classes stay, and those of new classes are written. -/
theorem Accounted.written_of_course {c : Nat} (hc : c < q.classes.size)
    (hne : c < p.classes.size → p.methodsAt c ≠ draft) :
    Section c q ((met.filter fun m => m.home q == some c).map (·.decl)) := by
  have hkeeps := hcourse.leads.keeps
  by_cases hold : c < p.classes.size
  · rw [List.filter_congr fun m hm => Meeting.home_beq_of_lt hkeeps (h.fits m hm).early hold]
    refine (h.written c hold).stays hcourse.leads ?_
    rw [hcourse.leads.methodsAt hold, hcourse.methods h.filed hold (hne hold)]
  · have hle := Nat.le_of_not_lt hold
    have hnew := hcourse.written c hle hc
    rw [h.parked, List.filter_map, List.filter_filter, List.map_map] at hnew
    rw [List.filter_congr fun m hm => Meeting.home_beq_of_le hkeeps (h.fits m hm).early hle]
    exact hnew

theorem Accounted.course (hne : ∀ c < p.classes.size, p.methodsAt c ≠ draft) :
    Accounted met q where
  toResting := h.toResting.course hcourse
  fits := fun m hm => (h.fits m hm).stays hcourse.leads
  parked := h.parked_of_course hcourse
  written := fun c hc => h.written_of_course hcourse hc (hne c)

end

/-! ## One more method -/

section

variable {m : Meeting} (h : Accounted met p) (hm : m.Fits p)
include h hm

theorem Accounted.fits_append (hleads : p.Leads q) : ∀ x ∈ met ++ [m], x.Fits q := by
  intro x hx
  rcases List.mem_append.1 hx with hx | hx
  · exact (h.fits x hx).stays hleads
  · rw [List.mem_singleton.1 hx]
    exact hm.stays hleads

theorem Accounted.method {id : Nat} (place : Place) (owed : Bool)
    (hnow : m.classes = p.classes.size) (hid : p.classIndex.get? m.cls = some id) :
    let q := (method m.decl id (bodyOf (releaseAt p.parked.length)
      m.decl) place ⟨p, owed⟩).2.program
    p.Abides q ∧ q.phase = p.phase ∧ Accounted (met ++ [m]) q := by
  intro q
  have hindexed := classIndexed_of_leads h.filed.reached
  have hlt := ((hindexed _ id).1 hid).1
  have hbody := courses_of_entire (parallel_entire p.parked.length m.decl id)
  obtain ⟨hcourse, hsection⟩ := course_method place owed hbody h.filed hlt (Nat.le_refl _)
    (h.written id hlt)
  -- The index knows the last class of the name, and no class is known that came later.
  have hhome : m.home q = some id := by
    refine Meeting.home_of_last ?_
    rw [hcourse.leads.keeps.lastClass?_eq hm.early, hnow, ← hindexed.get?_eq]
    exact hid
  have hnone : ([m].filter fun m => (m.home q).isNone) = [] := by
    rw [List.filter_singleton, hhome]
    rfl
  refine ⟨hcourse.abides, hcourse.phase, h.toResting.course hcourse,
    h.fits_append hm hcourse.leads, ?_, ?_⟩
  · rw [List.filter_append, hnone, List.append_nil]
    exact h.parked_of_course hcourse
  · intro c hc
    rw [List.filter_append, List.filter_singleton, hhome]
    by_cases heq : c = id
    · rw [heq, beq_self_eq_true, cond_true, List.map_append, List.filter_congr fun x hx =>
          Meeting.home_beq_of_lt hcourse.leads.keeps (h.fits x hx).early hlt]
      exact hsection
    · -- Another class has its methods elsewhere, and the method is none of them.
      have hne : (some id == some c) = false :=
        beq_eq_false_iff_ne.2 fun he => heq (Option.some.inj he).symm
      rw [hne, cond_false, List.append_nil]
      refine h.written_of_course hcourse hc fun hold hsame => heq ?_
      exact h.filed.own c hold id hlt hsame

theorem Accounted.park (hid : p.classIndex.get? m.cls = none) :
    let q := { p with parked := p.parked ++ [m.toParkedMethod] }
    p.Abides q ∧ Accounted (met ++ [m]) q := by
  intro q
  have hleads : p.Leads q := .single (.note p m.cursor (n := .park m.cls m.decl) trivial)
  have hlast : p.lastClass? m.cls p.classes.size = none := by
    rw [← (classIndexed_of_leads h.filed.reached).get?_eq]
    exact hid
  have hfirst : p.firstClass? m.cls = none := firstClass?_eq_none_of_last hlast
  -- No class is added, so every other method has the class it had.
  have hsame : ∀ x : Meeting, x.classes ≤ p.classes.size → x.home q = x.home p := by
    intro x hx
    unfold Meeting.home
    rw [hleads.keeps.lastClass?_eq hx]
    rfl
  have hhome : m.home q = none := by
    rw [hsame m hm.early]
    exact (Meeting.home_eq_none hm.early).2 hfirst
  obtain ⟨habides, hresting⟩ : p.Abides q ∧ q.Resting := by
    refine h.toResting.frame (frame_note p m.cursor (.park m.cls m.decl)) hleads rfl rfl ?_
    intro x hx
    rcases List.mem_append.1 hx with hx | hx
    · exact h.filed.waiting x hx
    · rw [List.mem_singleton.1 hx]
      exact hfirst
  refine ⟨habides, hresting, h.fits_append hm hleads, ?_, ?_⟩
  · rw [List.filter_append, List.filter_singleton, hhome, Option.isNone_none, cond_true,
      List.map_append, List.filter_congr fun x hx => by rw [hsame x (h.fits x hx).early],
      ← h.parked]
    rfl
  · intro c hc
    have hother : ((none : Option Nat) == some c) = false := rfl
    rw [List.filter_append, List.filter_singleton, hhome, hother, cond_false,
      List.append_nil, List.filter_congr fun x hx => by rw [hsame x (h.fits x hx).early]]
    exact (h.written c hc).stays hleads rfl

end

end Program

/-! ## Declarations -/

/-- The method that a declaration is, if it is one, as it is met. -/
def Meeting.of? (place : Place) (desk : Desk) : Decl → Option Meeting
  | .func decl => decl.receiver.map fun receiver =>
    { cls := receiverClass receiver.type, decl, cursor := ⟨place, desk.owed⟩
      classes := desk.program.classes.size }
  | .gen _ => none

section

variable {d : FuncDecl} {receiver : Go.Field} {place : Place} {p : Program} {owed : Bool}

theorem Meeting.of?_function (hd : d.receiver = none) (desk : Desk) :
    of? place desk (.func d) = none :=
  Option.map_eq_none_iff.2 hd

theorem Meeting.of?_method (hd : d.receiver = some receiver) (desk : Desk) :
    of? place desk (.func d) = some ⟨⟨receiverClass receiver.type, d, ⟨place, desk.owed⟩⟩,
        desk.program.classes.size⟩ :=
  Option.map_eq_some_iff.2 ⟨receiver, hd, rfl⟩

namespace Conversion

/-! What is done with a function, and with a method while files are discovered. -/

theorem decl_function (hd : d.receiver = none) : decl (.func d) place ⟨p, owed⟩ =
      function d none (bodyOf (releaseAt p.parked.length) d) place ⟨p, owed⟩ := by
  show funcDecl _ d place ⟨p, owed⟩ = _
  unfold funcDecl
  rw [hd]

theorem decl_method (hd : d.receiver = some receiver) (hphase : p.phase = .discovery) :
    decl (.func d) place ⟨p, owed⟩ =
      match p.classIndex.get? (receiverClass receiver.type) with
      | some id => method d id (bodyOf (releaseAt p.parked.length) d) place ⟨p, owed⟩
      | none => ((), ⟨{ p with
        parked := p.parked ++ [⟨receiverClass receiver.type, d, ⟨place, owed⟩⟩] }, owed⟩) := by
  have hprogram : ∀ f : Program → Emit Unit,
      (program >>= f) place ⟨p, owed⟩ = f p place ⟨p, owed⟩ := fun _ => rfl
  show funcDecl _ d place ⟨p, owed⟩ = _
  unfold funcDecl
  rw [hd]
  dsimp only
  rw [hprogram]
  cases p.classIndex.get? (receiverClass receiver.type) with
  | some id => rfl
  | none =>
    rw [if_pos hphase]
    rfl

end Conversion

end

/-- The methods among some declarations, as they are met. -/
def meetings (place : Place) : List Decl → Desk → List Meeting
  | [], _ => []
  | d :: ds, desk =>
    (Meeting.of? place desk d).toList ++ meetings place ds (decl d place desk).2

namespace Program

variable {p q : Program} {met : List Meeting} {u : Nat} {place : Place}

theorem Filed.seats_inside (hp : p.Filed) (hu : u < p.units.size) (hplace : place = p.inside u) :
    p.Seats place := by
  rw [hplace]
  exact (hp.tidy.roots u hu).congr rfl rfl fun _ => rfl

theorem Filed.methodsAt_ne {c : Nat} (hp : p.Filed) (hu : u < p.units.size)
    (hplace : place = p.inside u) (hc : c < p.classes.size) : p.methodsAt c ≠ place.draft := by
  intro h
  refine hp.apart c hc ?_
  rw [h, hplace]
  exact .root hu

theorem courses_gen (n : Nat) (d : Go.GenDecl) : Courses n (genDecl (releaseAt n) false d) :=
  courses_of_entire (scripted_genDecl (steady_entire _) false d
    (Go.GenDecl.obeys_of_lax Go.Rules.lax_free d)
    (Go.GenDecl.spelled_of_all (fun _ => False.elim) d) .all [] trivial)

theorem courses_function (n : Nat) (d : FuncDecl) (receiver : Option Go.Field) :
    Courses n (function d receiver (bodyOf (releaseAt n) d)) := by
  have hspelled : d.Spelled (Plain False) := Go.FuncDecl.spelled_of_all (fun _ => False.elim) d
  have hreceiver : ∀ f ∈ receiver, f.Spelled (Plain False) :=
    fun f _ => Go.Field.spelled_of_all (fun _ => False.elim) f
  exact courses_of_entire (scripted_function trivial hspelled hreceiver
    (scripted_bodyOf (steady_entire _) (Go.FuncDecl.obeys_of_lax Go.Rules.lax_free d)
      hspelled) .all [])

section

variable (h : Accounted met p) (hu : u < p.units.size) (hplace : place = p.inside u)
  (hphase : p.phase = .discovery)
include h hu hplace hphase

/-- A declaration that is a method is one more that was met. -/
theorem accounted_decl (d : Decl) (owed : Bool) :
    let q := (decl d place ⟨p, owed⟩).2.program
    p.Abides q ∧ q.phase = .discovery ∧
      Accounted (met ++ (Meeting.of? place ⟨p, owed⟩ d).toList) q := by
  have hcourse : ∀ x : Emit Unit, Courses p.parked.length x →
      p.Abides (x place ⟨p, owed⟩).2.program ∧ (x place ⟨p, owed⟩).2.program.phase = .discovery ∧
        Accounted (met ++ []) (x place ⟨p, owed⟩).2.program := by
    intro x hx
    have hthere := hx place p owed h.filed (h.filed.seats_inside hu hplace) (Nat.le_refl _)
    rw [List.append_nil]
    exact ⟨hthere.abides, hthere.phase.trans hphase,
      h.course hthere fun c hc => h.filed.methodsAt_ne hu hplace hc⟩
  cases d with
  | gen d => exact hcourse (genDecl _ false d) (courses_gen _ d)
  | func d =>
    cases hreceiver : d.receiver with
    | none =>
      rw [decl_function hreceiver, Meeting.of?_function hreceiver]
      exact hcourse _ (courses_function _ d none)
    | some receiver =>
      have hm : (Meeting.mk ⟨receiverClass receiver.type, d, ⟨place, owed⟩⟩
          p.classes.size).Fits p := by
        refine ⟨Nat.le_refl _, ?_, ?_, receiver, hreceiver, rfl⟩
        · rw [hplace]
          exact hu
        · rw [hplace]
          rfl
      rw [Meeting.of?_method hreceiver, decl_method hreceiver hphase]
      cases hid : p.classIndex.get? (receiverClass receiver.type) with
      | some id =>
        obtain ⟨habides, hsame, hall⟩ := h.method hm place owed rfl hid
        exact ⟨habides, hsame.trans hphase, hall⟩
      | none =>
        obtain ⟨habides, hall⟩ := h.park hm hid
        exact ⟨habides, hphase, hall⟩

end

/-- Declarations one after the other: whichever are methods were met. -/
theorem accounted_decls (ds : List Decl) (owed : Bool) (h : Accounted met p)
    (hu : u < p.units.size) (hplace : place = p.inside u) (hphase : p.phase = .discovery) :
    let q := (ds.forM decl place ⟨p, owed⟩).2.program
    p.Abides q ∧ q.phase = .discovery ∧ Accounted (met ++ meetings place ds ⟨p, owed⟩) q := by
  induction ds generalizing met p owed with
  | nil =>
    rw [meetings, List.append_nil]
    exact ⟨.refl h.filed.tidy.whole, hphase, h⟩
  | cons d ds ih =>
    obtain ⟨habides, hphase', hfirst⟩ := accounted_decl h hu hplace hphase d owed
    obtain ⟨habides', hrest⟩ := ih (decl d place ⟨p, owed⟩).2.owed hfirst
      (habides.leads.units hu) (hplace.trans (habides.leads.inside hu).symm) hphase'
    rw [List.append_assoc] at hrest
    exact ⟨habides.trans habides', hrest⟩

end Program

end GoToJava
