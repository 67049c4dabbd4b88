import GoToJava.Proofs.Deferral.Silence

/-!
Glances. While types are named and looked for, the tables of the program stay, but for the classes
that units mention. What is only looked at leaves no holes, and only its own draft grows.
-/

namespace GoToJava

open Emit

variable {K : Ken} {q p : Program}

/-! ## Units mention classes -/

/-- The unit mentions at least the same classes, and is the same otherwise. -/
structure CompilationUnit.Mentions (u v : CompilationUnit) : Prop where
  same : v = { u with referenced := v.referenced, imports := v.imports }
  referenced : u.referenced.names ⊆ v.referenced.names
  imports : u.imports.names ⊆ v.imports.names

/-- The units of the program mention at least the same classes, and all other tables are the
same. -/
structure Program.Mentions (p q : Program) : Prop where
  same : q = { p with drafts := q.drafts, refused := q.refused, units := q.units }
  size : q.units.size = p.units.size
  unit : ∀ u, (p.unit u).Mentions (q.unit u)

theorem NameSet.subset_insert (s : NameSet) (name : String) : s.names ⊆ (s.insert name).names :=
  fun _ h => mem_place.2 (Or.inr h)

namespace CompilationUnit.Mentions

variable {u v w : CompilationUnit}

theorem refl (u : CompilationUnit) : u.Mentions u := ⟨rfl, fun _ h => h, fun _ h => h⟩

theorem trans (h : u.Mentions v) (h' : v.Mentions w) : u.Mentions w where
  same := by
    rw [h'.same, h.same]
  referenced _ hname := h'.referenced (h.referenced hname)
  imports _ hname := h'.imports (h.imports hname)

end CompilationUnit.Mentions

namespace Program

variable {p q r : Program}

theorem Mentions.refl (p : Program) : p.Mentions p := ⟨rfl, rfl, fun _ => .refl _⟩

theorem Mentions.trans (h : p.Mentions q) (h' : q.Mentions r) : p.Mentions r where
  same := by
    rw [h'.same, h.same]
  size := h'.size.trans h.size
  unit u := (h.unit u).trans (h'.unit u)

theorem mentions_drafts (p : Program) (drafts : Drafts Pending) (refused : Option DraftError) :
    p.Mentions { p with drafts, refused } := ⟨rfl, rfl, fun _ => .refl _⟩

theorem mentions_write (p : Program) (draft : Nat) (text : String) :
    p.Mentions (p.write draft text) := by
  rw [write_eq]
  exact p.mentions_drafts _ _

theorem mentions_modifyUnit {f : CompilationUnit → CompilationUnit} (p : Program) (id : Nat)
    (hf : ∀ u : CompilationUnit, u.Mentions (f u)) : p.Mentions (p.modifyUnit id f) := by
  refine ⟨rfl, size_units_modifyUnit p id f, fun u => ?_⟩
  rw [unit_modifyUnit]
  split
  · exact hf _
  · exact .refl _

theorem mentions_import (p : Program) (id : Nat) (name : String) :
    p.Mentions (p.modifyUnit id fun u => { u with imports := u.imports.insert name }) :=
  p.mentions_modifyUnit id fun _ => ⟨rfl, fun _ h => h, NameSet.subset_insert _ _⟩

theorem mentions_refer (p : Program) (id : Nat) (name : String) :
    p.Mentions (p.modifyUnit id fun u => { u with referenced := u.referenced.insert name }) :=
  p.mentions_modifyUnit id fun _ => ⟨rfl, NameSet.subset_insert _ _, fun _ h => h⟩

end Program

/-! ## Drafts grow -/

/-- Text was added to some drafts, and no holes were left, neither there nor in drafts that are
new. -/
structure Drafts.Appends {τ : Type} (target : Nat → Prop) (d e : Drafts τ) : Prop where
  next : d.next ≤ e.next
  holes : e.holes = d.holes
  grows : ∀ id < d.next,
    ∃ text, e.draft id = { d.draft id with text := (d.draft id).text ++ text }
  others : ∀ id < d.next, ¬target id → e.draft id = d.draft id
  fresh : ∀ id, d.next ≤ id → (e.draft id).holes = #[] ∧ (e.draft id).joined = false

/-- Text was added to some drafts, and none was refused. -/
structure Program.Sketches (target : Nat → Prop) (p q : Program) : Prop where
  drafts : p.drafts.Appends target q.drafts
  refused : q.refused = p.refused

namespace Drafts

variable {τ : Type} {target : Nat → Prop} {d e f : Drafts τ}

theorem Appends.refl (target : Nat → Prop) (d : Drafts τ) : d.Appends target d where
  next := Nat.le_refl _
  holes := rfl
  grows _ _ := ⟨"", by rw [String.append_empty]⟩
  others _ _ _ := rfl
  fresh id h := by
    rw [d.draft_of_next_le id h]
    exact ⟨rfl, rfl⟩

theorem Appends.trans (h : d.Appends target e) (h' : e.Appends target f) : d.Appends target f where
  next := Nat.le_trans h.next h'.next
  holes := h'.holes.trans h.holes
  grows id hid := by
    obtain ⟨s, hs⟩ := h.grows id hid
    obtain ⟨t, ht⟩ := h'.grows id (Nat.lt_of_lt_of_le hid h.next)
    refine ⟨s ++ t, ?_⟩
    rw [ht, hs]
    simp only [String.append_assoc]
  others id hid htarget :=
    (h'.others id (Nat.lt_of_lt_of_le hid h.next) htarget).trans (h.others id hid htarget)
  fresh id hid := by
    rcases Nat.lt_or_ge id e.next with hlt | hge
    · obtain ⟨text, htext⟩ := h'.grows id hlt
      rw [htext]
      exact h.fresh id hid
    · exact h'.fresh id hge

theorem Appends.isJoined (h : d.Appends target e) {id : Nat} (hid : d.isJoined id = false) :
    e.isJoined id = false := by
  rcases Nat.lt_or_ge id d.next with hlt | hge
  · obtain ⟨text, htext⟩ := h.grows id hlt
    rw [Drafts.isJoined, htext]
    exact hid
  · exact (h.fresh id hge).2

theorem appends_put (d : Drafts τ) (id : Nat) (text : String) :
    d.Appends (· = id) (d.put id text) where
  next := Nat.le_of_eq (next_put _ _ _).symm
  holes := rfl
  grows other hother := by
    by_cases h : other = id
    · rw [← h]
      exact ⟨text, draft_alter_self _ _ _ hother⟩
    · exact ⟨"", by rw [put, draft_alter_ne _ _ h, String.append_empty]⟩
  others _ _ hne := draft_alter_ne _ _ hne
  fresh other hother := by
    rw [put, draft_alter, if_neg fun h => Nat.not_lt_of_le hother h.2,
      d.draft_of_next_le other hother]
    exact ⟨rfl, rfl⟩

/-- What is written to a new draft leaves all others as they are. -/
theorem Appends.of_new (h : d.new.Appends (· = d.next) e) : d.Appends target e := by
  have hnext : d.new.next = d.next + 1 := next_new d
  have hsame : ∀ id < d.next, e.draft id = d.draft id := fun id hid =>
    (h.others id (by omega) (by omega)).trans (draft_new d id)
  refine ⟨Nat.le_trans (by omega) h.next, h.holes, fun id hid => ⟨"", ?_⟩,
    fun id hid _ => hsame id hid, fun id hid => ?_⟩
  · rw [hsame id hid, String.append_empty]
  · rcases Nat.lt_or_ge d.next id with hlt | hge
    · exact h.fresh id (by omega)
    · obtain ⟨text, htext⟩ := h.grows id (by omega)
      rw [htext, draft_new, d.draft_of_next_le id hid]
      exact ⟨rfl, rfl⟩

theorem isJoined_new_next (d : Drafts τ) : d.new.isJoined d.next = false := by
  rw [isJoined_new, isJoined, d.draft_of_next_le _ (Nat.le_refl _)]

end Drafts

namespace Program

variable {target : Nat → Prop} {p q r : Program}

theorem Sketches.refl (target : Nat → Prop) (p : Program) : p.Sketches target p := ⟨.refl _ _, rfl⟩

theorem Sketches.trans (h : p.Sketches target q) (h' : q.Sketches target r) : p.Sketches target r :=
  ⟨h.drafts.trans h'.drafts, h'.refused.trans h.refused⟩

theorem Sketches.of_new
    (h : ({ p with drafts := p.drafts.new } : Program).Sketches (· = p.drafts.next) q) :
    p.Sketches target q :=
  ⟨h.drafts.of_new, h.refused⟩

theorem sketches_write (p : Program) {id : Nat} (text : String)
    (h : p.drafts.isJoined id = false) : p.Sketches (· = id) (p.write id text) := by
  rw [write_eq, h]
  exact ⟨p.drafts.appends_put id text, rfl⟩

end Program

/-! ## Nothing is declared -/

/-- No variables are bound. -/
structure Ken.Idle (K : Ken) : Prop where
  binds : ¬K.binds
  opened : ∀ scope, ¬K.opened scope

theorem Ken.idle_none : Ken.Idle {} := ⟨id, fun _ => id⟩

theorem Ken.Idle.within {W : Outlook} {f : Place → Place} {binds : Prop} (hK : K.Idle)
    (hf : W.Steers K f binds) : Ken.Idle { K with binds } := by
  refine ⟨fun hb => ?_, hK.opened⟩
  rcases hf.home default with ⟨-, ⟨-, hsame⟩ | hopened⟩ | ⟨-, -, hnot⟩
  · exact hK.binds (hsame hb)
  · exact hK.opened _ hopened
  · exact hnot hb

theorem mentions_note {n : Note} (hK : K.Idle) (h : Outlook.quiet.Allows K n) (cursor : Cursor)
    (p : Program) : p.Mentions (n.make cursor p) ∧ p.drafts = (n.make cursor p).drafts ∧
      p.refused = (n.make cursor p).refused := by
  cases n with
  | need i => exact ⟨p.mentions_import _ _, rfl, rfl⟩
  | package name =>
    simp only [Note.make]
    split
    · exact ⟨p.mentions_import _ _, rfl, rfl⟩
    · exact ⟨.refl p, rfl, rfl⟩
  | refer name => exact ⟨p.mentions_refer _ _, rfl, rfl⟩
  | var scope name type => exact absurd h.1 (hK.opened scope)
  | newScope parent vars => exact h.elim
  | conformance cls name => exact h.elim
  | iota index | interface name | typeName name type | method cls name type | func name type
  | varType name type | varValue name type | park cls decl => exact h.1.elim

/-- Nothing is put off at the place. -/
def Program.AtOnce (p : Program) (place : Place) : Prop :=
  place.scratch = true ∨ p.phase ≠ .discovery

theorem Program.Mentions.atOnce {place : Place} (h : p.Mentions q) (hp : p.AtOnce place) :
    q.AtOnce place :=
  hp.imp_right fun hphase hq => hphase ((congrArg (·.phase) h.same).symm.trans hq)

/-- All tables stay. Where nothing is put off, text is only added to one draft. -/
structure Program.Glances (place : Place) (p q : Program) : Prop where
  mentions : p.Mentions q
  sketches : p.AtOnce place → p.drafts.isJoined place.draft = false →
    p.Sketches (· = place.draft) q

theorem Program.Glances.trans {place : Place} {r : Program} (h : p.Glances place q)
    (h' : q.Glances place r) : p.Glances place r := by
  refine ⟨h.mentions.trans h'.mentions, fun honce hopen => ?_⟩
  have hmid := h.sketches honce hopen
  exact hmid.trans (h'.sketches (h.mentions.atOnce honce) (hmid.drafts.isJoined hopen))

/-- What declares nothing keeps all tables. -/
def Outlook.glances : Chronicle .quiet where
  fits K _ _ := K.Idle
  tells := Program.Glances
  refl _ := ⟨.refl _, fun _ _ => .refl _ _⟩
  trans _ := .trans
  stays hK _ := hK
  knows hK := ⟨trivial, sees_of_loose _ False.elim _, hK.binds, hK.opened⟩
  steer {K place p f binds} hf hK := by
    refine ⟨hK.within hf, fun q hq => ⟨hq.mentions, fun honce => ?_⟩⟩
    have hsketch := hq.sketches (honce.imp_left (hf.scratch place).trans)
    rwa [hf.same] at hsketch
  does {K place p q} hK h := by
    cases h with
    | write text => exact ⟨p.mentions_write _ _, fun _ hopen => p.sketches_write _ hopen⟩
    | @note n hn owed =>
      obtain ⟨hmention, hdrafts, hrefused⟩ := mentions_note hK hn ⟨place, owed⟩ p
      refine ⟨hmention, fun _ _ => ⟨?_, hrefused.symm⟩⟩
      rw [← hdrafts]
      exact .refl _ _
    | var hb => exact absurd hb hK.binds
    | task _ hphase hscratch owed =>
      refine ⟨p.mentions_drafts _ _, fun honce => ?_⟩
      rcases honce with hnow | hlate
      · rw [hscratch] at hnow
        cases hnow
      · exact absurd hphase hlate
    | scope hd | hole hd | register hd => exact hd.elim
  opening hd := hd.elim
  enrolled _ hK := ⟨hK.binds, hK.opened⟩
  goes {K K' place p p' c} hK h := by
    cases h with
    | look => exact ⟨hK, fun q hq => ⟨(p.mentions_drafts _ _).trans hq.mentions,
        fun _ _ => (hq.sketches (.inl rfl) p.drafts.isJoined_new_next).of_new⟩⟩
    | methods hm => exact hm.elim
    | implementing hc => exact hc.elim
    | typeUnit hd => exact hd.elim

section

variable {α : Type} {a b : List Char} {R : α → α → Prop} {x : Emit α}

theorem glances_of_quiet (h : Parallel .quiet {} a b R x x) (place : Place) (desk : Desk) :
    desk.program.Glances place (x place desk).2.program :=
  (Outlook.glances.tells_of_parallel h Ken.idle_none desk.owed).1

theorem sketches_inspect (h : Parallel .quiet {} [] [] R x x) (target : Nat → Prop) (place : Place)
    (desk : Desk) : desk.program.Mentions (inspect x place desk).2.program ∧
      desk.program.Sketches target (inspect x place desk).2.program ∧
      (inspect x place desk).2.owed = desk.owed := by
  obtain ⟨p, owed⟩ := desk
  obtain ⟨hmention, hsketch⟩ := glances_of_quiet h (scratchCursor place p).place
    ⟨{ p with drafts := p.drafts.new }, false⟩
  rw [inspect_apply]
  refine ⟨(p.mentions_drafts _ _).trans hmention, ?_, rfl⟩
  exact (hsketch (.inl rfl) p.drafts.isJoined_new_next).of_new

end

/-! ## Looking around -/

namespace Emit

variable {α β : Type} {x : Emit α}

/-- The action only looks around. It writes to new drafts alone, and that may be done before or
after a text. -/
structure Peeks (x : Emit α) : Prop where
  silent : Silent x
  mentions : ∀ place (desk : Desk), desk.program.Mentions (x place desk).2.program
  sketches : ∀ place (desk : Desk),
    desk.program.Sketches (fun _ => False) (x place desk).2.program
  owed : ∀ place desk, (x place desk).2.owed = desk.owed

theorem peeks_pure (v : α) : Peeks (pure v : Emit α) where
  silent := silent_pure v
  mentions _ _ := .refl _
  sketches _ _ := .refl _ _
  owed _ _ := rfl

theorem peeks_bind {f : α → Emit β} (hx : Peeks x) (hf : ∀ a, Peeks (f a)) :
    Peeks (x >>= f) where
  silent := silent_bind hx.silent fun a => (hf a).silent
  mentions place desk := (hx.mentions place desk).trans ((hf _).mentions place _)
  sketches place desk := (hx.sketches place desk).trans ((hf _).sketches place _)
  owed place desk := ((hf _).owed place _).trans (hx.owed place desk)

theorem peeks_within {f : Place → Place} (hf : ∀ place, (f place).draft = place.draft)
    (hx : Peeks x) : Peeks (withReader f x) where
  silent := silent_within hf hx.silent
  mentions place desk := hx.mentions (f place) desk
  sketches place desk := hx.sketches (f place) desk
  owed place desk := hx.owed (f place) desk

theorem peeks_inspect (h : Parallel .quiet {} [] [] Eq x x) : Peeks (inspect x) where
  silent := silent_inspect h
  mentions place desk := (sketches_inspect h (fun _ => False) place desk).1
  sketches place desk := (sketches_inspect h (fun _ => False) place desk).2.1
  owed place desk := (sketches_inspect h (fun _ => False) place desk).2.2

end Emit

end GoToJava
