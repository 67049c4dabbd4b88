import GoToJava.Proofs.Deferral.Lines
import GoToJava.Proofs.Deferral.Mirror
import GoToJava.Proofs.Program.Commands

/-!
Transparency. Text that is put off reads as if it had been written at once: what a task writes into
its hole later is what it would have written in place of the hole.
-/

namespace GoToJava

open Emit Conversion Program

/-! ## A hole that is being filled -/

/-- It makes no difference which task a hole had once it is taken. -/
theorem Drafts.emptied_reserve {τ : Type} (d : Drafts τ) (parent : Nat) (task : Option τ) :
    (d.reserve parent task).alterHole d.holes.size emptied =
      (d.reserve parent none).alterHole d.holes.size emptied := by
  have hpush : ∀ x : Hole τ, (d.holes.push x).modify d.holes.size emptied =
      d.holes.push (emptied x) := by
    intro x
    apply Array.ext_getElem?
    intro k
    grind
  unfold reserve alterHole
  rw [hpush, hpush]
  rfl

namespace Program

variable {p : Program} {draft : Nat}

theorem write_empty (h : p.drafts.isJoined draft = false) : p.write draft "" = p := by
  have hdrafts : p.drafts.drafts.modify draft (fun x => { x with text := x.text ++ "" }) =
      p.drafts.drafts := by
    apply Array.ext_getElem?
    intro k
    simp [Array.getElem?_modify]
  have hput : p.drafts.put draft "" = p.drafts := congrArg (Drafts.mk · p.drafts.holes) hdrafts
  rw [write_of_open "" h, hput]

/-- A hole at the end of a draft, from which the task is already taken. -/
def hollow (p : Program) (draft : Nat) : Program :=
  { p with drafts := (p.drafts.reserve draft none).alterHole p.drafts.holes.size Drafts.emptied }

theorem sound_hollow {tidy : Prop} (hp : p.Sound tidy) (h : draft < p.drafts.next) :
    (p.hollow draft).Sound tidy := by
  have hreserve : p.Moves tidy draft [] [] { p with drafts := p.drafts.reserve draft none } :=
    moves_reserve hp h (fun t ht => by cases ht) fun _ => rfl
  exact Ledger.sound_emptied p.drafts.holes.size hreserve.sound

theorem next_hollow (p : Program) (draft : Nat) :
    (p.hollow draft).drafts.next = p.drafts.next + 1 := Drafts.next_reserve p.drafts draft none

/-- A unit whose text is the draft is not the unit of the type, in whichever directory. -/
def Apart (p : Program) (draft : Nat) (type : String) : Prop :=
  ∀ u < p.units.size, (p.unit u).root = draft → ∀ dir, (p.unit u).key ≠ unitKey dir type

/-- What keeps these rules does not write to the draft from elsewhere: it declares no type whose
unit's text is the draft, and it returns values only if no class lists its interfaces in the
draft. -/
def around (p : Program) (draft : Nat) : Go.Rules :=
  { Go.Rules.free with
    exported := p.Apart draft
    returns := ∀ c < p.classes.size, (p.classAt c).implementsAt.place.draft ≠ draft }

end Program

/-! ## The hole of a task -/

namespace Task

/-- A program right before a task or its hole: indentation that is owed is written, unless it is for
the task to write whole lines. -/
def before (task : Task) (place : Place) (p : Program) (owed : Bool) : Program :=
  match task.placement with
  | .block => p
  | _ => (print "" place ⟨p, owed⟩).2.program

/-- Where a task writes that is put off. -/
def cursor (task : Task) (place : Place) (p : Program) : Cursor :=
  ⟨{ place with draft := p.drafts.next }, task.placement == .block⟩

variable {task : Task} {place : Place} {p : Program} {owed : Bool}

theorem before_eq (task : Task) (owed : Bool) (hp : p.drafts.isJoined place.draft = false) :
    ∃ text, task.before place p owed = p.write place.draft text := by
  unfold before
  split
  · exact ⟨"", (write_empty hp).symm⟩
  · exact ⟨_, rfl⟩

theorem left_eq (task : Task) (place : Place) (p : Program) (owed : Bool) :
    (leave task place ⟨p, owed⟩).2.program =
      let q := task.before place p owed
      { q with drafts := q.drafts.reserve place.draft (some ⟨task.cursor place q, task⟩) } := by
  unfold leave before cursor
  cases task.placement with
  | inline => rfl
  | statement =>
    show ((if place.bare = true then pure () else owe : Emit Unit) place _).2.program = _
    cases place.bare <;> rfl
  | block => rfl

theorem answer_left (hp : p.drafts.isJoined place.draft = false) :
    (leave task place ⟨p, owed⟩).2.program.answer p.drafts.holes.size =
      (((task.before place p owed).hollow place.draft).emit
        (task.cursor place (task.before place p owed)) (Conversion.run fill.release task)).2 := by
  have hsize : (task.before place p owed).drafts.holes.size = p.drafts.holes.size := by
    obtain ⟨text, hq⟩ := before_eq task owed hp
    rw [hq, write_of_open text hp]
    rfl
  rw [left_eq, ← hsize]
  generalize task.before place p owed = q
  have hhole := Drafts.hole_reserve_new q.drafts place.draft
    (some (⟨task.cursor place q, task⟩ : Pending))
  unfold answer
  rw [Drafts.resolve_of_open (by rw [hhole])]
  rw [hhole, Drafts.emptied_reserve]
  rfl

/-- Writing at once starts with the indentation that is owed. -/
theorem run_before (release : Release) (hc : ∀ value declared, task ≠ .conformance value declared)
    (hb : task.placement = .block → owed = true) (hp : p.drafts.isJoined place.draft = false)
    (hd : place.draft < p.drafts.next) : Conversion.run release task place ⟨p, owed⟩ =
      Conversion.run release task place ⟨task.before place p owed, task.placement == .block⟩ := by
  by_cases hblock : task.placement = .block
  · unfold before
    rw [hblock, hb hblock]
    rfl
  · have hwrite : task.before place p owed =
        p.write place.draft (if owed then Emit.margin place ++ "" else "") := by
      unfold before
      split
      · contradiction
      · rfl
    rw [hwrite, beq_false_of_ne hblock]
    cases owed with
    | true =>
      rw [if_pos rfl, String.append_empty]
      exact pays_run release hc hblock place p hd
    | false =>
      rw [if_neg Bool.false_ne_true, write_empty hp]

end Task

/-! ## Writing into the hole -/

namespace Program

variable {p : Program} {place : Place} {task : Task} {owed : Bool}

theorem sits_of_inRange (h : place.InRange p) : place.Sits False p.extent :=
  ⟨h.draft, h.unit, h.scope, fun r hr => h.receiver r hr,
    fun t _ => Go.Expr.spelled_of_all (fun _ hf => hf.elim) t⟩

theorem sound_run (owed : Bool) (hp : p.Sound False) (hplace : place.Sits False p.extent) :
    (Conversion.run fill.release task place ⟨p, owed⟩).2.program.Sound False :=
  (moves_emit ⟨place, owed⟩ hp hplace (balanced_run (safe_releaseAt 0)
    (Task.spelled_of_all (fun _ hf => hf.elim) task) p [])).1.sound

theorem detoured_hollow {draft : Nat} (hp : p.Sound False) (hi : p.Indexed)
    (hphase : p.phase = .finalization) (hd : draft < p.drafts.next) :
    (Detour.start p.drafts draft).Detoured (p.around draft) p (p.hollow draft) := by
  refine ⟨Detour.traced_start none hp.planted.whole hd, p.like_drafts _ _, hphase, ?_, ?_⟩
  · intro type htype dir id hid
    obtain ⟨hlt, hkey⟩ := (hi _ _).1 hid
    exact ⟨hlt, fun hroot => htype id hlt hroot dir hkey,
      (skip_of_lt (hp.holds.units id hlt).root).symm⟩
  · intro name id hid
    have hlt := hp.holds.classIndex name id hid
    exact ⟨hlt, fun hcls => ⟨rfl, hcls id hlt,
      (skip_of_lt (hp.holds.classes id hlt).implementsAt.draft).symm⟩⟩

/-- What a task writes into a hole at the end of a draft reads as if it stood in the draft. -/
theorem run_hollow (hp : p.Sound False) (hi : p.Indexed) (hphase : p.phase = .finalization)
    (hplace : place.InRange p) (ht : task.Obeys (p.around place.draft)) :
    let now := (Conversion.run fill.release task place ⟨p, owed⟩).2.program
    let later := (Conversion.run fill.release task { place with draft := p.drafts.next }
      ⟨p.hollow place.draft, owed⟩).2.program
    now.Like (fun _ => True) later ∧ ∃ text joined joined',
      now.drafts.join place.draft = .ok (text, joined) ∧
        later.drafts.join place.draft = .ok (text, joined') := by
  intro now later
  have hscript : ScriptedIn ((Detour.start p.drafts place.draft).outlook (p.around place.draft))
      (Conversion.run fill.release task) := fun _ _ hb =>
    parallel_run trivial
      (steady_releaseAt 0 trivial Or.inl (fun _ h => h) (.inr rfl)) ht
      (Task.spelled_of_all (fun _ => False.elim) task) fun _ => hb
  obtain ⟨-, hdone, -⟩ := Detour.mirrors_of_parallel (hscript .all [] trivial) place p.drafts.next p
    (p.hollow place.draft) owed (.inl ⟨rfl, rfl⟩)
    (detoured_hollow hp hi hphase hplace.draft)
  have hnow : now.Sound False := sound_run owed hp (sits_of_inRange hplace)
  have hlater : later.Sound False := by
    refine sound_run owed (sound_hollow hp hplace.draft) (sits_of_inRange ?_)
    refine ⟨?_, hplace.unit, hplace.scope, hplace.receiver⟩
    rw [next_hollow]
    exact Nat.lt_succ_self _
  have hold : place.draft < now.drafts.next :=
    Nat.lt_of_lt_of_le hplace.draft hdone.drafts.child_le
  obtain ⟨joined, hjoin⟩ := Drafts.join_eq_render hnow.planted.whole hold
  obtain ⟨joined', hjoin'⟩ := Drafts.join_eq_render hlater.planted.whole
    (Nat.lt_trans hold (Nat.lt_of_lt_of_eq (Nat.lt_succ_self _) hdone.drafts.next.symm))
  have hread : now.drafts.render now.drafts.next place.draft =
      later.drafts.render later.drafts.next place.draft :=
    hdone.drafts.render_parent hnow.planted.whole.forest
  rw [← hread] at hjoin'
  exact ⟨hdone.like, _, joined, joined', hjoin, hjoin'⟩

/-- Text that is put off reads the same. In a final program, take a task that fits on the cursor: a
task for whole lines starts a line, and a task does not write to its draft from elsewhere. Whether
the task is written at once, or leaves a hole and is run in it later, the same is owed afterwards,
all tables are the same, and the draft reads the same. -/
theorem put_off_texts_read_the_same (hp : p.Sound False) (hi : p.Indexed)
    (hphase : p.phase = .finalization) (hplace : place.InRange p)
    (hc : ∀ value declared, task ≠ .conformance value declared)
    (hb : task.placement = .block → owed = true) (ht : task.Obeys (p.around place.draft)) :
    let now := Conversion.run fill.release task place ⟨p, owed⟩
    let left := leave task place ⟨p, owed⟩
    let later := left.2.program.answer p.drafts.holes.size
    left.2.owed = now.2.owed ∧ now.2.program.Like (fun _ => True) later ∧
      ∃ text joined joined', now.2.program.drafts.join place.draft = .ok (text, joined) ∧
        later.drafts.join place.draft = .ok (text, joined') := by
  intro now left later
  have hopen := hp.planted.whole.unjoined place.draft
  have howed : now.2.owed = left.2.owed := owed_run fill.release hc place ⟨p, owed⟩ hb
  have hnow : now = _ := Task.run_before fill.release hc hb hopen hplace.draft
  have hlater : later = _ := Task.answer_left hopen
  obtain ⟨text, hq⟩ := task.before_eq owed hopen
  have hsound : (p.write place.draft text).Sound False :=
    (moves_write (a := []) (b := []) hp hplace.draft fun h => h.elim).sound
  have hinside : place.InRange (p.write place.draft text) := by
    rw [write_of_open text hopen]
    exact { hplace with draft := Nat.lt_of_lt_of_eq hplace.draft (Drafts.next_put _ _ _).symm }
  refine ⟨howed.symm, ?_⟩
  rw [hnow, hlater, hq]
  rw [write_of_open text hopen] at hsound hinside ⊢
  exact run_hollow hsound hi hphase hinside ht

/-- A final program of one package that declares nothing. -/
def shop : Program := reached [.file (.tree (fun _ => []) "shop.go" ⟨"shop", [], []⟩), .finalize]

/-- The place in the class of the package. -/
def shelf : Place := { draft := (shop.unit 0).root, unit := 0, scope := (shop.unit 0).scope }

/-- An element whose index is called, with a type in the function. -/
def pick (name : String) (typ : Go.Expr) : Task :=
  .element (.ident "stock") (.call (.funcLit (.mk [] [])
    [.decl (.mk .type false [.type name typ false])]) [] false)

theorem shop_ready : shop.Final ∧ shelf.InRange shop ∧ shop.classes.size = 0 ∧
    shop.units.size = 1 ∧ (shop.unit 0).key = "/Shop" :=
  ⟨final_of_stage (stage_reached _) (by decide +kernel),
    ⟨by decide +kernel, by decide +kernel, by decide +kernel, nofun⟩, by decide +kernel,
    by decide +kernel, by decide +kernel⟩

theorem apart_item : shop.Apart shelf.draft "Item" := by
  obtain ⟨_, _, _, hunits, hkey⟩ := shop_ready
  intro u hu _ dir he
  rw [hunits] at hu
  rw [Nat.lt_one_iff.1 hu, hkey] at he
  -- The keys end with other letters.
  have hlast := congrArg (·.toList.getLast?) he
  have hm : "Item".toList.getLast? = some 'm' := by decide
  have hp : "/Shop".toList.getLast? = some 'p' := by decide
  simp only [unitKey, String.toList_append, List.getLast?_append, hm, hp, Option.some_or] at hlast
  exact absurd hlast (by decide)

/-- A struct with a unit of its own is no obstacle. -/
theorem item_is_picked :
    shop.Sound False ∧ shop.Indexed ∧ shop.phase = .finalization ∧ shelf.InRange shop ∧
      (pick "Item" (.structType [])).Obeys (shop.around shelf.draft) ∧
      let now := Conversion.run fill.release (pick "Item" (.structType [])) shelf ⟨shop, true⟩
      let left := leave (pick "Item" (.structType [])) shelf ⟨shop, true⟩
      let later := left.2.program.answer shop.drafts.holes.size
      left.2.owed = now.2.owed ∧ now.2.program.Like (fun _ => True) later ∧
        ∃ text joined joined', now.2.program.drafts.join shelf.draft = .ok (text, joined) ∧
          later.drafts.join shelf.draft = .ok (text, joined') := by
  have hobeys : (pick "Item" (.structType [])).Obeys (shop.around shelf.draft) := by
    have hstruct : Go.Rules.type (shop.around shelf.draft) "Item" (.structType []) false :=
      ⟨trivial, fun _ => apart_item⟩
    exact ⟨trivial, ⟨⟨nofun, nofun, hstruct, trivial⟩, trivial⟩, trivial, fun _ => trivial, nofun⟩
  obtain ⟨hfinal, hshelf, _⟩ := shop_ready
  exact ⟨hfinal.sound, hfinal.regular.indexed, hfinal.phase, hshelf, hobeys,
    put_off_texts_read_the_same hfinal.sound hfinal.regular.indexed hfinal.phase hshelf nofun
      (fun _ => rfl) hobeys⟩

/-- A final program of one package, with an interface and a class. -/
def pier : Program :=
  reached [.file (.tree (fun _ => []) "pier.go" ⟨"pier", [], [.gen (.mk .type false
    [.type "Ware" (.interfaceType []) false, .type "Fish" (.structType []) false])]⟩), .finalize]

/-- The place where the class lists its interfaces. -/
def crate : Place := (pier.classAt 0).implementsAt.place

/-- An element whose index is called, with a function that makes the class implement the
interface. -/
def offer : Task :=
  .element (.ident "stock") (.call (.funcLit (.mk [] [.mk [] (.ident "Ware")])
    [.return [.composite (some (.ident "Fish")) []]]) [] false)

theorem pier_ready : pier.Final ∧ crate.InRange pier := by
  refine ⟨final_of_stage (stage_reached _) (by decide +kernel),
    by decide +kernel, by decide +kernel, by decide +kernel, ?_⟩
  have hreceiver : crate.receiver.isNone = true := by decide +kernel
  intro r hr
  rw [hr] at hreceiver
  cases hreceiver

/-- Both kinds of texts from elsewhere are displaced: a type that is named like the unit around
the element, and an interface that is listed around it. They come before the end of the function, or
after the hole. -/
theorem texts_from_elsewhere_are_displaced :
    (shop.Sound False ∧ shop.Indexed ∧ shop.phase = .finalization ∧ shelf.InRange shop ∧
      shop.classes.size = 0 ∧
      let now := Conversion.run fill.release (pick "Shop" (.interfaceType [])) shelf ⟨shop, true⟩
      let left := leave (pick "Shop" (.interfaceType [])) shelf ⟨shop, true⟩
      let later := left.2.program.answer shop.drafts.holes.size
      let text := "\tpublic static interface Shop \x7b\n\t\x7d\n\n"
      (now.2.program.drafts.join shelf.draft).toOption.map (·.1) =
          some ("public class Shop \x7b\nstock[() -> \x7b\n" ++ text ++ "\x7d()]") ∧
        (later.drafts.join shelf.draft).toOption.map (·.1) =
          some ("public class Shop \x7b\nstock[() -> \x7b\n\x7d()]" ++ text)) ∧
    (pier.Sound False ∧ pier.Indexed ∧ pier.phase = .finalization ∧ crate.InRange pier ∧
      let now := Conversion.run fill.release offer crate ⟨pier, true⟩
      let left := leave offer crate ⟨pier, true⟩
      let later := left.2.program.answer pier.drafts.holes.size
      (now.2.program.drafts.join crate.draft).toOption.map (·.1) =
          some "stock[() -> \x7b\n\treturn new Fish() implements Ware;\n\x7d()]" ∧
        (later.drafts.join crate.draft).toOption.map (·.1) =
          some "stock[() -> \x7b\n\treturn new Fish();\n\x7d()] implements Ware") := by
  obtain ⟨hshop, hshelf, hclasses, _⟩ := shop_ready
  obtain ⟨hpier, hcrate⟩ := pier_ready
  exact ⟨⟨hshop.sound, hshop.regular.indexed, hshop.phase, hshelf, hclasses,
    by decide +kernel, by decide +kernel⟩, hpier.sound, hpier.regular.indexed, hpier.phase,
    hcrate, by decide +kernel, by decide +kernel⟩

end Program

end GoToJava
