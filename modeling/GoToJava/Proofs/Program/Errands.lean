import GoToJava.Program.Discovery

/-!
What is done for a file. A session is followed from a program to its answer, or to the error where
it stops; each part of discovery has one rule for that.
-/

namespace GoToJava

open Go (File ImportSpec title)

/-! ## Sessions -/

namespace Session

variable {ε σ α β γ : Type} {x : ExceptT ε (StateM σ) α} {f : α → ExceptT ε (StateM σ) β} {s t : σ}
  {I P : σ → Prop} {E : ε → σ → Prop} {Q : α → σ → Prop} {R : β → σ → Prop} {v : α} {e : ε}
  {xs : List γ}

theorem run_bind_ok (h : x.run.run s = (.ok v, t)) : (x >>= f).run.run s = (f v).run.run t := by
  show ExceptT.bindCont f (x.run.run s).1 (x.run.run s).2 = _
  rw [h]
  rfl

theorem run_bind_error (h : x.run.run s = (.error e, t)) : (x >>= f).run.run s = (.error e, t) := by
  show ExceptT.bindCont f (x.run.run s).1 (x.run.run s).2 = _
  rw [h]
  rfl

/-- From `P`, the session comes to an answer with `Q`, or stops with an error and `E`. -/
def Gives (P : σ → Prop) (x : ExceptT ε (StateM σ) α) (Q : α → σ → Prop)
    (E : ε → σ → Prop) : Prop :=
  ∀ s, P s →
    match x.run.run s with
    | (.ok v, t) => Q v t
    | (.error e, t) => E e t

theorem Gives.ok (h : Gives P x Q E) (hs : P s) (hrun : x.run.run s = (.ok v, t)) : Q v t := by
  have hx := h s hs
  rwa [hrun] at hx

theorem Gives.error (h : Gives P x Q E) (hs : P s)
    (hrun : x.run.run s = (.error e, t)) : E e t := by
  have hx := h s hs
  rwa [hrun] at hx

theorem gives_pure (h : ∀ p, P p → Q v p) : Gives P (pure v) Q E := h

theorem gives_modify {f : σ → σ} {Q : σ → Prop} (h : ∀ s, P s → Q (f s)) :
    Gives P (modify f : ExceptT ε (StateM σ) PUnit) (fun _ => Q) E := h

theorem gives_imp {P' : σ → Prop} (hP : ∀ p, P p → P' p) (h : Gives P' x Q E) :
    Gives P x Q E :=
  fun p hp => h p (hP p hp)

theorem Gives.mono {Q' : α → σ → Prop} {E' : ε → σ → Prop}
    (h : Gives P x Q E) (hQ : ∀ v p, Q v p → Q' v p) (hE : ∀ e p, E e p → E' e p) :
    Gives P x Q' E' := by
  intro p hp
  have hx := h p hp
  revert hx
  split
  · exact hQ _ _
  · exact hE _ _

theorem gives_bind (hx : Gives P x Q E) (hf : ∀ v, Gives (Q v) (f v) R E) :
    Gives P (x >>= f) R E := by
  intro p hp
  rcases hrun : x.run.run p with ⟨e | v, q⟩
  · rw [run_bind_error hrun]
    exact hx.error hp hrun
  · rw [run_bind_ok hrun]
    exact hf v q (hx.ok hp hrun)

theorem gives_get {f : σ → ExceptT ε (StateM σ) α} (h : ∀ p, P p → Gives (· = p) (f p) Q E) :
    Gives P (get >>= f) Q E :=
  fun p hp => h p hp p rfl

theorem gives_readFile {P : Program → Prop} {Q : α → Program → Prop}
    {E : ProgramError → Program → Prop} {path source : String} {f : File → Session α}
    (hE : ∀ cause, Go.read source = .error cause → ∀ p, P p → E (.unreadable path cause) p)
    (h : ∀ file, Go.read source = .ok file → Gives P (f file) Q E) :
    Gives P (Program.readFile path source >>= f) Q E := by
  unfold Program.readFile
  split
  · exact h _ ‹_›
  · exact fun p hp => hE _ ‹_› p hp

/-- A loop that goes on to its end keeps what holds of its state, and all that its steps find out is
true in the end. -/
theorem gives_forIn {C : γ → Prop} {f : γ → α → ExceptT ε (StateM σ) (ForInStep α)}
    (h : ∀ x ∈ xs, ∀ v, Gives (Q v) (f x v) (fun step p => ∃ w, step = .yield w ∧ Q w p ∧ C x) E)
    (v : α) : Gives (Q v) (forIn xs v f) (fun w p => Q w p ∧ ∀ x ∈ xs, C x) E := by
  induction xs generalizing v with
  | nil => exact gives_pure fun _ hp => ⟨hp, nofun⟩
  | cons x xs ih =>
    rw [List.forIn_cons]
    refine gives_bind (h x List.mem_cons_self v) fun step => ?_
    rintro p ⟨w, rfl, hw, hx⟩
    have hrest := ih (fun y hy => h y (List.mem_cons_of_mem _ hy)) w
    exact hrest.mono (fun _ _ hq => ⟨hq.1, List.forall_mem_cons.2 ⟨hx, hq.2⟩⟩) (fun _ _ => id) p hw

theorem gives_forM {f : γ → ExceptT ε (StateM σ) PUnit}
    (h : ∀ x ∈ xs, Gives I (f x) (fun _ => I) E) :
    Gives I (xs.forM f) (fun _ => I) E := by
  induction xs with
  | nil => exact gives_pure fun _ => id
  | cons x xs ih =>
    exact gives_bind (h x List.mem_cons_self) fun _ => ih fun y hy =>
      h y (List.mem_cons_of_mem _ hy)

theorem gives_forM_each {C : γ → Prop} {f : γ → ExceptT ε (StateM σ) PUnit}
    (h : ∀ x ∈ xs, Gives I (f x) (fun _ p => I p ∧ C x) E) :
    Gives I (xs.forM f) (fun _ p => I p ∧ ∀ x ∈ xs, C x) E := by
  induction xs with
  | nil => exact gives_pure fun _ hp => ⟨hp, nofun⟩
  | cons x xs ih =>
    refine gives_bind (h x List.mem_cons_self) fun _ p hp => ?_
    have hrest := ih fun y hy => h y (List.mem_cons_of_mem _ hy)
    exact hrest.mono (fun _ _ hq => ⟨hq.1, List.forall_mem_cons.2 ⟨hp.2, hq.2⟩⟩) (fun _ _ => id)
      p hp.1

/-- A session keeps a property, also where it stops with an error. -/
def Keeps (I : σ → Prop) (x : ExceptT ε (StateM σ) α) : Prop := Gives I x (fun _ => I) fun _ => I

theorem Keeps.run (h : Keeps I x) (hs : I s) : I (x.run.run s).2 := by
  rcases hrun : x.run.run s with ⟨e | v, t⟩
  · exact h.error hs hrun
  · exact h.ok hs hrun

theorem gives_and {P' : σ → Prop} {Q' : α → σ → Prop}
    {E' : ε → σ → Prop} (h : Gives P x Q E) (h' : Gives P' x Q' E') :
    Gives (fun p => P p ∧ P' p) x (fun v p => Q v p ∧ Q' v p) fun e p => E e p ∧ E' e p := by
  intro p hp
  have hx := h p hp.1
  have hx' := h' p hp.2
  revert hx hx'
  split <;> exact And.intro

end Session

/-! ## Calls -/

namespace Program

/-- A file is given as a tree or as a text, and each time with the libraries at hand. -/
inductive Call where
  | tree (libraries : Libraries) (path : String) (file : File)
  | text (libraries : Libraries) (path source : String)

namespace Call

def session : Call → Session Unit
  | tree libraries path file => discoverFile libraries path file
  | text libraries path source => discover libraries path source

def libraries : Call → Libraries
  | tree libraries _ _ => libraries
  | text libraries _ _ => libraries

def path : Call → String
  | tree _ path _ => path
  | text _ path _ => path

/-- The file of a call, as far as its text can be read. -/
def read : Call → Except Go.ReadError File
  | tree _ _ file => .ok file
  | text _ _ source => Go.read source

/-- The directory of the file. -/
def dir (c : Call) : String := parentDir (slashed c.path)

end Call

/-! ## Imports -/

open Session

variable {libraries : Libraries} {I J : Program → Prop} {E : ProgramError → Program → Prop}

theorem gives_loadLibrary {path : String} {Q : Option Nat → Program → Prop}
    (hknown : ∀ p, I p → (p.libraries.get? path).isSome = true → J p) (hnone : ∀ p, I p → Q none p)
    (hunread : ∀ source ∈ libraries path, ∀ cause, Go.read source.text = .error cause →
      ∀ loaded p, Q loaded p → E (.unreadable source.path cause) p)
    (hlearn : ∀ source ∈ libraries path, ∀ file, Go.read source.text = .ok file →
      isImportable file.package = true → ∀ loaded p, Q loaded p →
      let r := p.packageUnit path (title file.package) true
      Q (some r.1) (r.2.modifyUnit r.1 fun u => file.decls.foldl CompilationUnit.addSymbols u))
    (hlibrary : (∀ source ∈ libraries path, ∃ file, Go.read source.text = .ok file) →
      ∀ loaded p, Q loaded p → J { p with libraries := p.libraries.set path loaded }) :
    Gives I (loadLibrary libraries path) (fun _ => J) E := by
  refine gives_get fun p hp => ?_
  split
  · rename_i loaded hloaded
    rintro _ rfl
    exact hknown _ hp (by rw [hloaded]; rfl)
  · refine gives_imp (fun q hq => hnone q (hq ▸ hp)) (gives_bind (gives_forIn
      (C := fun source => ∃ file, Go.read source.text = .ok file) (fun source hsource loaded => ?_)
      none) fun loaded => ?_)
    · refine gives_readFile (fun cause hcause => hunread source hsource cause hcause loaded)
        fun file hfile => ?_
      split
      · rename_i himportable
        exact gives_get fun q hq => fun r hr =>
          ⟨_, rfl, hr ▸ hlearn source hsource file hfile himportable loaded q hq, file, hfile⟩
      · exact gives_pure fun q hq => ⟨loaded, rfl, hq, file, hfile⟩
    · exact fun q hq => hlibrary hq.2 loaded q hq.1

/-- The import does not lead to a package of the program. -/
def Foreign (i : ImportSpec) (dir : String) : Prop :=
  (i.name ≠ some "_" ∧ i.name ≠ some ".") ∧ (dir = "" ∨ firstSegment i.path ≠ firstSegment dir)

/-- A package of the program is imported by the name of its class, and a library is loaded. -/
theorem gives_addImport {unit : Nat} {i : ImportSpec}
    (hnear : ∀ p, I p → ¬Foreign i (p.unit unit).dir → J p)
    (hload : ∀ p, I p → Foreign i (p.unit unit).dir →
      Gives I (loadLibrary libraries i.path) (fun _ => J) E)
    (hset : ∀ name (target : ImportName), (∀ qualified, target.qualified = some qualified →
      qualified = dotted i.path ++ "." ++ title (lastSegment i.path)) → ∀ p, J p →
      J (p.modifyUnit unit fun u => { u with importNames := u.importNames.set name target })) :
    Gives I (addImport libraries unit i) (fun _ => J) E := by
  unfold addImport
  dsimp only
  split
  · rename_i hname
    refine gives_pure fun p hp => hnear p hp fun hforeign => ?_
    simp [hforeign.1] at hname
  · rename_i hname
    refine gives_get fun p hp => ?_
    split
    · rename_i hown
      rintro _ rfl
      refine hset _ ⟨_, _⟩ (fun qualified h => (Option.some.inj h).symm) _ (hnear _ hp ?_)
      simp only [Bool.and_eq_true, Bool.not_eq_true', beq_iff_eq] at hown
      rintro ⟨-, hdir | hdir⟩
      · simp [hdir] at hown
      · exact hdir hown.2
    · rename_i hforeign
      have hforeign : Foreign i (p.unit unit).dir := by
        refine ⟨by simpa using hname, ?_⟩
        by_cases hempty : (p.unit unit).dir = ""
        · exact .inl hempty
        · exact .inr fun he => hforeign (by simp [hempty, he])
      refine gives_imp (fun _ hq => hq ▸ hp) (gives_bind (hload p hp hforeign) fun loaded => ?_)
      split
      · refine gives_get fun q hq => ?_
        rintro _ rfl
        exact hset _ ⟨_, none⟩ (fun _ h => by cases h) _ hq
      · exact gives_modify (hset _ ⟨_, none⟩ fun _ h => by cases h)

/-! ## Files -/

/-- What is done with a file once its unit is there. -/
def fillPackage (libraries : Libraries) (file : File) (unit : Nat) : Session Unit := do
  file.imports.forM (addImport libraries unit)
  modify fun p =>
    let u := p.unit unit
    (p.emit ⟨{ u.start unit with tabs := 1 }, true⟩ (file.decls.forM Conversion.decl)).2

variable {p : Program}

theorem run_checkDiscovery (p : Program) :
    checkDiscovery.run.run p =
      match p.phase with
      | .discovery => (.ok (), p)
      | .finalization => (.error .final, p)
      | .flattened => (.error .alreadyFlattened, p) := by
  show (match p.phase with
    | .discovery => pure ()
    | .finalization => throw .final
    | .flattened => throw .alreadyFlattened : Session Unit).run.run p = _
  cases p.phase <;> rfl

/-- A file is discovered by finding or starting its unit and filling it. -/
theorem run_discoverFile {path : String} {file : File} (hphase : p.phase = .discovery) :
    (discoverFile libraries path file).run.run p =
      let r := p.packageUnit (parentDir (slashed path)) (title file.package) false
      (fillPackage libraries file r.1).run.run r.2 := by
  have hcheck : checkDiscovery.run.run p = (.ok (), p) := by
    rw [run_checkDiscovery, hphase]
  unfold discoverFile
  rw [run_bind_ok hcheck]
  rfl

theorem run_call (c : Call) (p : Program) :
    c.session.run.run p =
      match p.phase, c.read with
      | .discovery, .ok file =>
        let r := p.packageUnit c.dir (title file.package) false
        (fillPackage c.libraries file r.1).run.run r.2
      | .discovery, .error cause => (.error (.unreadable c.path cause), p)
      | .finalization, _ => (.error .final, p)
      | .flattened, _ => (.error .alreadyFlattened, p) := by
  have hcheck := run_checkDiscovery p
  cases hphase : p.phase with
  | discovery =>
    rw [hphase] at hcheck
    cases c with
    | tree libraries path file => exact run_discoverFile hphase
    | text libraries path source =>
      show (discover libraries path source).run.run p = _
      unfold discover readFile
      rw [run_bind_ok hcheck]
      show _ = match Phase.discovery, Go.read source with
        | .discovery, .ok file => _
        | .discovery, .error cause => _
        | .finalization, _ => _
        | .flattened, _ => _
      cases hread : Go.read source with
      | ok file => exact run_discoverFile hphase
      | error cause => rfl
  | finalization | flattened =>
    rw [hphase] at hcheck
    cases c <;> exact run_bind_error hcheck

theorem run_call_of_phase (call : Call) (h : p.phase ≠ .discovery) :
    (call.session.run.run p).2 = p := by
  rw [run_call]
  cases hphase : p.phase with
  | discovery => exact absurd hphase h
  | finalization | flattened => rfl

/-- What is kept while the unit of a file is filled is kept by giving the file. -/
theorem run_call_keeps {c : Call} (hp : I p)
    (h : ∀ file, c.read = .ok file → p.phase = .discovery →
      let r := p.packageUnit c.dir (title file.package) false
      I ((fillPackage c.libraries file r.1).run.run r.2).2) :
    I (c.session.run.run p).2 := by
  rw [run_call]
  cases hphase : p.phase with
  | discovery =>
    cases hread : c.read with
    | ok file => exact h file hread hphase
    | error cause => exact hp
  | finalization | flattened => exact hp

/-- The program after some files, those refused included. -/
def discovered (calls : List Call) : Program :=
  calls.foldl (fun p call => (call.session.run.run p).2) {}

end Program

end GoToJava
