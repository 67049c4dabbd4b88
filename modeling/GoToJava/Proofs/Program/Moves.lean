import GoToJava.Proofs.Program.Sound

/-!
What single changes do to a sound program: it stays sound, it grows, and text is added at one draft
only.
-/

namespace GoToJava

open Scopes

open Go (Expr)

namespace Program

/-- A sound program comes from another one, and the draft `d` goes from `a` to `b`. -/
structure Moves (tidy : Prop) (d : Nat) (a b : List Char) (p q : Program) : Prop where
  sound : q.Sound tidy
  ext : p.Extends q
  writes : Writes tidy d a b p q

variable {tidy : Prop} {d id : Nat} {a b c : List Char} {p q r : Program} {s : Scopes}
  {f : CompilationUnit → CompilationUnit}

theorem Moves.refl (hp : p.Sound tidy) : Moves tidy d a a p p :=
  ⟨hp, .refl p, .of_text fun _ => rfl⟩

theorem Moves.trans (h : Moves tidy d a b p q) (h' : Moves tidy d b c q r) : Moves tidy d a c p r :=
  ⟨h'.sound, h.ext.trans h'.ext, h.writes.trans h'.writes⟩

theorem Moves.anywhere {e : Nat} (h : Moves tidy d [] [] p q) (a : List Char) :
    Moves tidy e a a p q :=
  ⟨h.sound, h.ext, h.writes.anywhere a⟩

/-! ## Tables and scopes -/

theorem moves_of_holds (hp : p.Sound tidy) (hphase : q.phase = p.phase)
    (hdrafts : q.drafts = p.drafts) (hunits : q.units = p.units) (hclasses : q.classes = p.classes)
    (hscopes : p.scopes.next ≤ q.scopes.next) (hq : q.Holds tidy q.extent) :
    Moves tidy d a a p q := by
  have hgrows : p.drafts.Grows (p.phase ≠ .discovery) q.drafts := by
    rw [hdrafts]
    exact Drafts.grows_refl _
  have hunit : ∀ u, q.unit u = p.unit u := by
    intro u
    unfold unit
    rw [hunits]
  refine ⟨⟨⟨?_, ?_, ?_⟩, hq⟩, .of_drafts hphase hgrows hscopes hunits hclasses, .of_text ?_⟩
  · rw [hdrafts]
    exact hp.planted.whole
  · rw [hdrafts, hunits]
    intro u hu h hh
    rw [hunit]
    exact hp.planted.rootFree u hu h hh
  · rw [hunits]
    intro u hu v hv
    rw [hunit, hunit]
    exact hp.planted.rootOwn u hu v hv
  · intro id
    rw [hdrafts]

theorem known_setVar {type : Expr} (scope : Nat) (name : String) (hs : s.Known tidy)
    (ht : type.Spelled (Plain tidy)) : (s.setVar scope name type).Known tidy := by
  refine ⟨fun i => ?_, fun i => ?_⟩
  · unfold setVar
    rw [getD_modify]
    split
    · exact Table.all_set (hs.vars i) ht
    · exact hs.vars i
  · unfold setVar
    rw [getD_modify]
    split <;> exact hs.parents i

theorem next_setVar (s : Scopes) (scope : Nat) (name : String) (type : Expr) :
    (s.setVar scope name type).next = s.next := by
  simp [setVar, next]

theorem known_newScope {parent : Option Nat} (hs : s.Known tidy)
    (hparent : ∀ i ∈ parent, i < s.next) : (s.new parent).Known tidy := by
  refine ⟨fun i => ?_, fun i => ?_⟩
  · unfold new
    rw [getD_push]
    split
    · exact Table.all_empty
    · exact hs.vars i
  · unfold new
    rw [getD_push]
    split
    · rename_i hi
      rw [hi]
      exact hparent
    · exact hs.parents i

theorem next_newScope (s : Scopes) (parent : Option Nat) : (s.new parent).next = s.next + 1 := by
  simp [new, next]

theorem moves_scopes (hp : p.Sound tidy) (hnext : p.scopes.next ≤ s.next) (hs : s.Known tidy) :
    Moves tidy d a a p { p with scopes := s } := by
  have hle : Extent.Le p.extent { p with scopes := s }.extent :=
    ⟨Nat.le_refl _, Nat.le_refl _, hnext, Nat.le_refl _⟩
  exact moves_of_holds hp rfl rfl rfl rfl hnext { hp.holds.mono hle with scopes := hs }

/-! ## Drafts -/

/-- Drafts may grow. No new hole is filled by the text of a unit, which is older. -/
theorem sound_drafts {d' : Drafts Pending} (hp : p.Sound tidy) (hwhole : d'.Whole)
    (hgrows : p.drafts.Grows (p.phase ≠ .discovery) d')
    (htask : ∀ h < d'.holes.size, p.drafts.holes.size ≤ h → ∀ t, (d'.hole h).task = some t →
      t.Known tidy { p with drafts := d' }.extent) :
    Sound tidy { p with drafts := d' } ∧ p.Extends { p with drafts := d' } := by
  have hle : Extent.Le p.extent { p with drafts := d' }.extent :=
    ⟨hgrows.next, Nat.le_refl _, Nat.le_refl _, Nat.le_refl _⟩
  refine ⟨⟨⟨hwhole, ?_, hp.planted.rootOwn⟩, { hp.holds.mono hle with pending := ?_ }⟩,
    .of_drafts rfl hgrows (Nat.le_refl _) rfl rfl⟩
  · intro u hu h hh
    by_cases hold : h < p.drafts.holes.size
    · have hkeep := hp.planted.rootFree u hu h hold
      rw [← hgrows.hole h hold] at hkeep
      exact hkeep
    · have hroot := (hp.holds.units u hu).root
      have hnew := hgrows.child h hh (Nat.le_of_not_lt hold)
      exact Nat.ne_of_gt (Nat.lt_of_lt_of_le hroot hnew)
  · intro h hh t ht
    by_cases hold : h < p.drafts.holes.size
    · rw [hgrows.hole h hold] at ht
      exact (hp.holds.pending h hold t ht).mono hle
    · exact htask h hh (Nat.le_of_not_lt hold) t ht

theorem write_of_open {draft : Nat} (text : String) (h : p.drafts.isJoined draft = false) :
    p.write draft text = { p with drafts := p.drafts.put draft text } := by
  unfold write
  rw [Drafts.write_of_open _ _ h]

theorem moves_write {text : String} (hp : p.Sound tidy) (hd : d < p.drafts.next)
    (ht : Turns tidy a b text) : Moves tidy d a b p (p.write d text) := by
  rw [write_of_open text (hp.planted.whole.unjoined d)]
  obtain ⟨hsound, hext⟩ := sound_drafts hp (Drafts.whole_put d text hp.planted.whole)
    (Drafts.grows_put _ _ _) (fun h hh hle => absurd hle (Nat.not_le_of_lt hh))
  refine ⟨hsound, hext, ⟨text, Drafts.text_put_self _ _ hd, ht⟩, ?_⟩
  intro id hid
  exact ⟨"", by rw [String.append_empty]; exact Drafts.text_put_ne _ _ hid, fun _ => rfl⟩

theorem moves_new (hp : p.Sound tidy) :
    Moves tidy d a a p { p with drafts := p.drafts.new } := by
  obtain ⟨hsound, hext⟩ := sound_drafts hp (Drafts.whole_new hp.planted.whole)
    (Drafts.grows_new _) (fun h hh hle => absurd hle (Nat.not_le_of_lt hh))
  exact ⟨hsound, hext, .of_text (Drafts.text_new _)⟩

theorem moves_reserve {parent : Nat} {task : Option Pending} (hp : p.Sound tidy)
    (hparent : parent < p.drafts.next)
    (htask : ∀ t, task = some t → t.Known tidy (p.extent.grown 1 0))
    (hquiet : p.phase ≠ .discovery → task = none) :
    Moves tidy d a a p { p with drafts := p.drafts.reserve parent task } := by
  have hnew : ∀ h < (p.drafts.reserve parent task).holes.size, p.drafts.holes.size ≤ h →
      h = p.drafts.holes.size := by
    intro h hh hle
    rw [Drafts.size_holes_reserve] at hh
    omega
  have hextent : { p with drafts := p.drafts.reserve parent task }.extent =
      p.extent.grown 1 0 := by
    simp [extent, Extent.grown]
  obtain ⟨hsound, hext⟩ := sound_drafts hp (Drafts.whole_reserve task hp.planted.whole hparent)
    (Drafts.grows_reserve _ hparent hquiet)
    (by
      intro h hh hle t ht
      rw [hnew h hh hle, Drafts.hole_reserve_new] at ht
      rw [hextent]
      exact htask t ht)
  exact ⟨hsound, hext, .of_text fun id => Drafts.text_reserve _ _ id hparent⟩

/-! ## Units and classes -/

theorem unit_modifyUnit (p : Program) (id u : Nat) (f : CompilationUnit → CompilationUnit) :
    (p.modifyUnit id f).unit u = if u = id ∧ u < p.units.size then f (p.unit u) else p.unit u :=
  getD_modify _ _ _ _ _

theorem size_units_modifyUnit (p : Program) (id : Nat) (f : CompilationUnit → CompilationUnit) :
    (p.modifyUnit id f).units.size = p.units.size := by
  simp [modifyUnit]

/-- A property that `f` keeps holds of a changed unit too. -/
theorem unit_modifyUnit_of {P : CompilationUnit → Prop} {u : Nat} (hu : P (p.unit u))
    (hf : ∀ x, P x → P (f x)) : P ((p.modifyUnit id f).unit u) := by
  rw [unit_modifyUnit]
  split
  · exact hf _ hu
  · exact hu

theorem moves_modifyUnit (id : Nat) (hp : p.Sound tidy)
    (hlater : ∀ u : CompilationUnit, u.Later (f u))
    (hknown : ∀ u, u.Known tidy p.extent → (f u).Known tidy p.extent) :
    Moves tidy d a a p (p.modifyUnit id f) := by
  have hsize := size_units_modifyUnit p id f
  have hextent : (p.modifyUnit id f).extent = p.extent := by
    simp [extent, modifyUnit]
  have hstep : ∀ u, (p.unit u).Later ((p.modifyUnit id f).unit u) := fun u =>
    unit_modifyUnit_of (.refl _) fun x hx => hx.trans (hlater x)
  refine ⟨⟨⟨hp.planted.whole, ?_, ?_⟩, ?_⟩, ?_, .of_text fun _ => rfl⟩
  · intro u hu h hh
    rw [hsize] at hu
    rw [(hstep u).root]
    exact hp.planted.rootFree u hu h hh
  · intro u hu v hv
    rw [hsize] at hu hv
    rw [(hstep u).root, (hstep v).root]
    exact hp.planted.rootOwn u hu v hv
  · rw [hextent]
    refine { hp.holds with units := ?_ }
    intro u hu
    rw [hsize] at hu
    exact unit_modifyUnit_of (hp.holds.units u hu) hknown
  · refine ⟨rfl, by rw [hextent]; exact .refl _, Drafts.grows_refl _, fun u _ => hstep u,
      fun _ _ => .refl _, ?_⟩
    intro u hle hlt
    rw [hsize] at hlt
    exact absurd hle (Nat.not_le_of_lt hlt)

theorem classAt_modifyClass (p : Program) (id c : Nat) (f : JavaClass → JavaClass) :
    (p.modifyClass id f).classAt c =
      if c = id ∧ c < p.classes.size then f (p.classAt c) else p.classAt c :=
  getD_modify _ _ _ _ _

theorem classAt_modifyClass_of {P : JavaClass → Prop} {c : Nat} {f : JavaClass → JavaClass}
    (hc : P (p.classAt c)) (hf : ∀ x, P x → P (f x)) : P ((p.modifyClass id f).classAt c) := by
  rw [classAt_modifyClass]
  split
  · exact hf _ hc
  · exact hc

theorem moves_modifyClass {f : JavaClass → JavaClass} (id : Nat) (hp : p.Sound tidy)
    (hlater : ∀ c : JavaClass, c.Later (f c))
    (hknown : ∀ c, c.Known tidy p.extent → (f c).Known tidy p.extent) :
    Moves tidy d a a p (p.modifyClass id f) := by
  have hsize : (p.modifyClass id f).classes.size = p.classes.size := by
    simp [modifyClass]
  have hextent : (p.modifyClass id f).extent = p.extent := by
    simp [extent, modifyClass]
  refine ⟨⟨⟨hp.planted.whole, hp.planted.rootFree, hp.planted.rootOwn⟩, ?_⟩, ?_,
    .of_text fun _ => rfl⟩
  · rw [hextent]
    refine { hp.holds with classes := ?_ }
    intro c hc
    rw [hsize] at hc
    exact classAt_modifyClass_of (hp.holds.classes c hc) hknown
  · refine ⟨rfl, by rw [hextent]; exact .refl _, Drafts.grows_refl _, fun _ _ => .refl _, ?_, ?_⟩
    · intro c _
      exact classAt_modifyClass_of (.refl _) fun x hx => hx.trans (hlater x)
    · intro u hle hlt
      exact absurd hle (Nat.not_le_of_lt hlt)

/-- A class is added under its name, and the methods that waited for it wait no longer. -/
theorem moves_addClass {cls : JavaClass} (hp : p.Sound tidy) (hcls : cls.Known tidy p.extent)
    (hid : id ≤ p.classes.size) (keep : ParkedMethod → Bool) :
    Moves tidy d a a p
      { p with
        classes := p.classes.push cls
        classIndex := p.classIndex.set cls.name id
        parked := p.parked.filter keep } := by
  -- There is one more class, and all that was known of fewer classes is known still.
  have hle := p.extent.le_grown 0 1
  have hextent : extent { p with
      classes := p.classes.push cls
      classIndex := p.classIndex.set cls.name id
      parked := p.parked.filter keep } = p.extent.grown 0 1 := by
    simp [extent, Extent.grown]
  have hclass : ∀ c, (p.classes.push cls).getD c default =
      if c = p.classes.size then cls else p.classAt c := fun c => getD_push _ _ _ _
  refine ⟨⟨⟨hp.planted.whole, hp.planted.rootFree, hp.planted.rootOwn⟩, ?_⟩, ?_,
    .of_text fun _ => rfl⟩
  · rw [hextent]
    refine { hp.holds.mono hle with classes := ?classes, classIndex := ?index, parked := ?parked }
    case classes =>
      intro c hc
      rw [Array.size_push] at hc
      unfold classAt
      rw [hclass]
      split
      · exact hcls.mono hle
      · exact (hp.holds.classes c (by omega)).mono hle
    case index =>
      exact Table.all_set (hp.holds.mono hle).classIndex (Nat.lt_succ_of_le hid)
    case parked =>
      intro m hm
      exact (hp.holds.mono hle).parked m (List.mem_of_mem_filter hm)
  · refine ⟨rfl, by rw [hextent]; exact hle, Drafts.grows_refl _, fun _ _ => .refl _, ?_, ?_⟩
    · intro c hc
      unfold classAt
      rw [hclass, if_neg (Nat.ne_of_lt hc)]
      exact .refl _
    · intro u hle hlt
      exact absurd hle (Nat.not_le_of_lt hlt)

end Program

end GoToJava
