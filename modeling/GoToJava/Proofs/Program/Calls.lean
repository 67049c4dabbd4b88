import GoToJava.Proofs.Program.Commands

/-!
Calls that give a program a file. A file that can be read is discovered the same way whether it is
given as a tree or as a text, and in two steps: its unit is found or started, and then filled.
-/

namespace GoToJava.Program

open Go (File title)
open Emit

variable {p q : Program}

/-- What comes first has an answer if the whole has one. -/
theorem ok_of_bind {α β : Type} {x : Session α} {f : α → Session β} {w : β}
    (h : (x >>= f).run.run p = (.ok w, q)) :
    ∃ v r, x.run.run p = (.ok v, r) ∧ (f v).run.run r = (.ok w, q) := by
  change ExceptT.bindCont f (x.run.run p).1 (x.run.run p).2 = _ at h
  rcases hrun : x.run.run p with ⟨e | v, r⟩
  · rw [hrun] at h
    cases h
  · rw [hrun] at h
    exact ⟨v, r, rfl, h⟩

theorem packageUnit_of_key {dir name : String} {u : Nat} (hindexed : p.Indexed)
    (hu : u < p.units.size) (hkey : (p.unit u).key = unitKey dir name) (library : Bool) :
    p.packageUnit dir name library = (u, p) := by
  unfold packageUnit
  rw [(hindexed _ u).2 ⟨hu, hkey⟩]

/-- The Java texts of the files that some calls give. -/
def translated (calls : List Call) : Except ProgramError (List JavaSource) :=
  let run : Session (List JavaSource) := do
    calls.forM Call.session
    flatten
  (run.run.run {}).1

theorem toJava_eq_translated (libraries : Libraries) (files : List SourceFile) :
    toJava libraries files = translated (files.map fun f => .text libraries f.path f.text) := by
  have hfiles : (files.map fun f => Call.text libraries f.path f.text).forM Call.session =
      files.forM fun f => discover libraries f.path f.text := by
    induction files with
    | nil => rfl
    | cons f files ih => exact congrArg (discover libraries f.path f.text >>= fun _ => ·) ih
  unfold toJava translated
  rw [hfiles]

theorem run_calls {calls : List Call} (h : (calls.forM Call.session).run.run p = (.ok (), q)) :
    q = calls.foldl (fun p call => (call.session.run.run p).2) p := by
  induction calls generalizing p with
  | nil =>
    cases h
    rfl
  | cons c calls ih =>
    obtain ⟨v, r, hrun, hrest⟩ := ok_of_bind h
    rw [ih hrest, List.foldl_cons, hrun]

/-- If there are Java texts, they are those of the discovered program. -/
theorem flatten_of_translated {calls : List Call} {sources : List JavaSource}
    (h : translated calls = .ok sources) :
    ∃ q, flatten.run.run (discovered calls) = (.ok sources, q) := by
  unfold translated at h
  dsimp only at h
  generalize hrun : (calls.forM Call.session >>= fun _ => flatten).run.run {} = r at h
  obtain ⟨v, q⟩ := r
  cases h
  obtain ⟨v, p, hcalls, hflat⟩ := ok_of_bind hrun
  refine ⟨q, ?_⟩
  rw [run_calls hcalls] at hflat
  exact hflat

end GoToJava.Program
