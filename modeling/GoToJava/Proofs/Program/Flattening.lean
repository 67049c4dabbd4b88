import GoToJava.Program.Flattening
import GoToJava.Proofs.Draft.Rendering
import GoToJava.Proofs.Program.Finalization

/-!
Flattening. The texts that fill the holes of a text are closed, so joining them keeps the text
closed, wherever the holes stand. With the last brace of a package's class, all texts are nested.
-/

namespace GoToJava

open Emit Drafts

variable {tidy : Prop}

/-! ## Texts put together -/

theorem turns_insertAt {text added : String} {b : List Char} (offset : Nat)
    (ht : Turns tidy [] b text) (ha : Turns tidy [] [] added) :
    Turns tidy [] b (insertAt text offset added) := by
  intro h
  have hscan := ht h
  rw [← splitBytes_parts offset text.toList, scan_append] at hscan
  -- The text is read up to where it is cut, and then from there.
  obtain ⟨stack, hbefore, hafter⟩ := Option.bind_eq_some_iff.1 hscan
  unfold insertAt
  rw [String.toList_append, String.toList_append, String.toList_ofList, String.toList_ofList]
  exact scan_trans (scan_trans hbefore (scan_balanced (ha h) stack)) hafter

namespace Drafts

variable {τ : Type} {d : Drafts τ} {stack : Nat → List Char}

/-- What is still to be closed at the end of each text, where what fills a hole is closed. -/
structure Stacked (tidy : Prop) (stack : Nat → List Char) (d : Drafts τ) : Prop where
  texts : ∀ x, Turns tidy [] (stack x) (d.text x)
  holes : ∀ x, ∀ h ∈ (d.draft x).holes.toList, stack (d.hole h).child = []

theorem stacked_alter {id : Nat} {f : Draft → Draft} (hd : Stacked tidy stack d)
    (htext : Turns tidy [] (stack id) (f (d.draft id)).text)
    (hholes : ∀ h ∈ (f (d.draft id)).holes.toList, h ∈ (d.draft id).holes.toList) :
    Stacked tidy stack (d.alter id f) := by
  refine ⟨?_, ?_⟩
  · intro x
    unfold text
    rw [draft_alter]
    split
    · rename_i hx
      rw [hx.1]
      exact htext
    · exact hd.texts x
  · intro x h hm
    rw [draft_alter] at hm
    rw [hole_alter]
    split at hm
    · rename_i hx
      rw [hx.1] at hm
      exact hd.holes id h (hholes h hm)
    · exact hd.holes x h hm

theorem stacked_close (depth : Nat) : ∀ (d : Drafts τ) (id : Nat), Stacked tidy stack d →
    (close depth d id).holes = d.holes ∧ Stacked tidy stack (close depth d id) := by
  induction depth with
  | zero => exact fun d id hd => ⟨rfl, hd⟩
  | succ depth ih =>
    intro d id hd
    -- The invariant of the fold: the drafts are as they should be, and the text built so far
    -- leaves open what the draft leaves open.
    have hfold : ∀ hs : List Nat, (∀ h ∈ hs, h ∈ (d.draft id).holes.toList) →
        let s := hs.foldr (fillHole depth) (d, d.text id)
        s.1.holes = d.holes ∧ Stacked tidy stack s.1 ∧ Turns tidy [] (stack id) s.2 := by
      intro hs
      induction hs with
      | nil => exact fun _ => ⟨rfl, hd, hd.texts id⟩
      | cons h hs ihs =>
        intro hmem
        obtain ⟨hholes, hstacked, hturns⟩ := ihs fun k hk => hmem k (List.mem_cons_of_mem _ hk)
        have hchild := hd.holes id h (hmem h List.mem_cons_self)
        rw [List.foldr_cons]
        generalize hs.foldr (fillHole depth) (d, d.text id) = s at hholes hstacked hturns ⊢
        have hhole := hole_congr hholes h
        obtain ⟨hsame, hclosed⟩ := ih s.1 (s.1.hole h).child hstacked
        have htext := hclosed.texts (s.1.hole h).child
        rw [hhole, hchild] at htext
        refine ⟨hsame.trans hholes, ?_, ?_⟩
        · refine stacked_alter hclosed ?_ fun k hk => hk
          rw [hhole, hchild]
          exact turns_of_scan rfl
        · show Turns tidy [] (stack id) (insertAt s.2 (s.1.hole h).offset _)
          rw [hhole]
          exact turns_insertAt _ hturns htext
    obtain ⟨hholes, hstacked, hturns⟩ := hfold (d.draft id).holes.toList fun h hm => hm
    rw [close_succ]
    refine ⟨hholes, stacked_alter hstacked hturns fun h hm => ?_⟩
    cases hm

theorem stacked_put {id : Nat} {t : String} (hd : Stacked tidy stack d) (hid : id < d.next)
    (ht : Turns tidy (stack id) [] t) :
    Stacked tidy (Function.update stack id []) (d.put id t) := by
  refine ⟨?_, ?_⟩
  · intro x
    by_cases hx : x = id
    · rw [hx, Function.update_self, text_put_self d t hid]
      exact turns_append (hd.texts id) ht
    · rw [Function.update_of_ne hx, text_put_ne d t hx]
      exact hd.texts x
  · intro x h hm
    rw [holes_draft_put] at hm
    rw [hole_put]
    by_cases hx : (d.hole h).child = id
    · rw [hx, Function.update_self]
    · rw [Function.update_of_ne hx]
      exact hd.holes x h hm

end Drafts

/-! ## One unit after the other -/

namespace Program

/-- What holds before the units `ids` are flattened: their texts are roots that nothing has joined,
and all but the last brace of a package's class is closed. -/
structure Flattens (tidy : Prop) (stack : Nat → List Char) (ids : List Nat) (p : Program) :
    Prop where
  forest : p.drafts.Forest
  stacked : p.drafts.Stacked tidy stack
  known : ∀ u ∈ ids, (p.unit u).root < p.drafts.next
  free : ∀ u ∈ ids, ∀ h < p.drafts.holes.size, (p.drafts.hole h).child ≠ (p.unit u).root
  own : ∀ u ∈ ids, ∀ v ∈ ids, (p.unit u).root = (p.unit v).root → u = v
  unjoined : ∀ u ∈ ids, p.drafts.isJoined (p.unit u).root = false
  opened : ∀ u ∈ ids, stack (p.unit u).root = if (p.unit u).isPackage then ['\x7d'] else []

variable {p q : Program} {stack : Nat → List Char} {u : Nat} {ids : List Nat}

theorem flattens_end (hp : p.Flattens tidy stack (u :: ids)) :
    ∃ d, (if (p.unit u).isPackage then p.write (p.unit u).root "\x7d\n" else p) =
        { p with drafts := d } ∧
      d.Forest ∧ d.Stacked tidy (Function.update stack (p.unit u).root []) ∧
      d.holes = p.drafts.holes ∧ d.next = p.drafts.next ∧
      ∀ x, d.isJoined x = p.drafts.isJoined x := by
  have hopened := hp.opened u List.mem_cons_self
  split
  · rename_i hpackage
    rw [if_pos hpackage] at hopened
    refine ⟨_, write_of_open _ (hp.unjoined u List.mem_cons_self),
      forest_put _ _ hp.forest, ?_, rfl,
      next_put _ _ _, fun x => isJoined_put p.drafts _ x _⟩
    refine stacked_put hp.stacked (hp.known u List.mem_cons_self) ?_
    rw [hopened]
    exact turns_of_scan rfl
  · rename_i hpackage
    rw [if_neg hpackage] at hopened
    refine ⟨p.drafts, rfl, hp.forest, ?_, rfl, rfl, fun _ => rfl⟩
    rw [← hopened, Function.update_eq_self]
    exact hp.stacked

/-- The Java source of a unit with a text. -/
def sourceOf (p : Program) (u : Nat) (text : String) : JavaSource where
  path := (p.unit u).path
  package := (p.unit u).javaPackage
  cls := (p.unit u).name
  qualifiedName := (p.unit u).qualifiedName
  text := text

theorem flattenUnit_eq
    (hend : (if (p.unit u).isPackage then p.write (p.unit u).root "\x7d\n" else p) = q) :
    (flattenUnit u).run.run p =
      (match q.drafts.join (p.unit u).root with
        | .error _ => throw .alreadyFlattened
        | .ok (text, drafts) => do
          set { q with drafts }
          return p.sourceOf u text : Session JavaSource).run.run p := by
  rw [← hend]
  rfl

theorem run_flattenUnit {d : Drafts Pending} {text : String}
    (hend : (if (p.unit u).isPackage then p.write (p.unit u).root "\x7d\n" else p) = q)
    (hjoin : q.drafts.join (p.unit u).root = .ok (text, d)) :
    (flattenUnit u).run.run p = (.ok (p.sourceOf u text), { q with drafts := d }) := by
  rw [flattenUnit_eq hend, hjoin]
  rfl

/-- Only drafts are joined: no draft and no hole is added, and all else stays. -/
structure Joins (p q : Program) : Prop where
  rest : q = { p with drafts := q.drafts }
  next : q.drafts.next = p.drafts.next
  holes : q.drafts.holes = p.drafts.holes

theorem Joins.refl (p : Program) : p.Joins p := ⟨rfl, rfl, rfl⟩

theorem Joins.trans {r : Program} (h : p.Joins q) (h' : q.Joins r) : p.Joins r :=
  ⟨h'.rest.trans (by rw [h.rest]), h'.next.trans h.next, h'.holes.trans h.holes⟩

/-- A unit is flattened to a closed text, and the others are as before. -/
theorem flattens_unit (hp : p.Flattens tidy stack (u :: ids)) (hu : u ∉ ids) :
    ∃ source q stack', (flattenUnit u).run.run p = (.ok source, q) ∧ Turns tidy [] [] source.text ∧
      q.Flattens tidy stack' ids ∧ p.Joins q := by
  obtain ⟨d, hend, hforest, hstacked, hholes, hnext, hjoined⟩ := flattens_end hp
  have hroot := hp.known u List.mem_cons_self
  have hopen : d.isJoined (p.unit u).root = false := by
    rw [hjoined]
    exact hp.unjoined u List.mem_cons_self
  have hclosed : Drafts.Closed d d (d.close d.drafts.size (p.unit u).root) (p.unit u).root :=
    closed_close hforest _ _ d (.self (hnext ▸ hroot))
  obtain ⟨hsame, hafter⟩ := stacked_close d.drafts.size d (p.unit u).root hstacked
  have htext := hafter.texts (p.unit u).root
  rw [Function.update_self] at htext
  generalize hd' : d.close d.drafts.size (p.unit u).root = d' at hclosed hsame hafter htext
  have hjoin : d.join (p.unit u).root = .ok (d'.text (p.unit u).root, d') := by
    unfold join
    rw [hopen, if_neg Bool.false_ne_true]
    rw [hd']
  have hne : ∀ v ∈ ids, (p.unit v).root ≠ (p.unit u).root := by
    intro v hv he
    have := hp.own v (List.mem_cons_of_mem _ hv) u List.mem_cons_self he
    exact hu (this ▸ hv)
  refine ⟨_, _, Function.update stack (p.unit u).root [], run_flattenUnit hend hjoin, htext, ?_,
    rfl, hclosed.next.trans hnext, hclosed.holes.trans hholes⟩
  have hkeep : ∀ v ∈ ids, d'.draft (p.unit v).root = d.draft (p.unit v).root := by
    intro v hv
    refine hclosed.others _ fun hwithin => ?_
    -- The text of another unit does not fill a hole.
    rcases under_cases (under_of_within hforest hwithin) with he | ⟨h, hh, he, _⟩
    · exact hne v hv he
    · rw [hholes] at hh
      rw [hole_congr hholes] at he
      exact hp.free v (List.mem_cons_of_mem _ hv) h hh he.symm
  refine ⟨forest_closed hforest hclosed, hafter, ?_, ?_, ?_, ?_, ?_⟩
  · intro v hv
    rw [hclosed.next, hnext]
    exact hp.known v (List.mem_cons_of_mem _ hv)
  · intro v hv h hh
    rw [hclosed.holes, hholes] at hh
    rw [hole_congr (hclosed.holes.trans hholes)]
    exact hp.free v (List.mem_cons_of_mem _ hv) h hh
  · intro v hv w hw
    exact hp.own v (List.mem_cons_of_mem _ hv) w (List.mem_cons_of_mem _ hw)
  · intro v hv
    show (d'.draft (p.unit v).root).joined = false
    rw [hkeep v hv]
    exact (hjoined _).trans (hp.unjoined v (List.mem_cons_of_mem _ hv))
  · intro v hv
    show Function.update stack (p.unit u).root [] (p.unit v).root = _
    rw [Function.update_of_ne (hne v hv)]
    exact hp.opened v (List.mem_cons_of_mem _ hv)

theorem flattens_units (hp : p.Flattens tidy stack ids) (hids : ids.Nodup) :
    ∃ sources q, (ids.mapM flattenUnit).run.run p = (.ok sources, q) ∧
      (∀ s ∈ sources, Turns tidy [] [] s.text) ∧ p.Joins q ∧ q.drafts.Forest := by
  induction ids generalizing p stack with
  | nil => exact ⟨[], p, rfl, fun s hs => (by cases hs), .refl p, hp.forest⟩
  | cons u ids ih =>
    obtain ⟨hu, hids⟩ := List.nodup_cons.1 hids
    obtain ⟨source, q, stack', hrun, htext, hq, hjoins⟩ := flattens_unit hp hu
    obtain ⟨sources, q', hrest, htexts, hjoins', hforest⟩ := ih hq hids
    refine ⟨source :: sources, q', ?_, ?_, hjoins.trans hjoins', hforest⟩
    · rw [List.mapM_cons, Session.run_bind_ok hrun, Session.run_bind_ok hrest]
      rfl
    · intro s hs
      rcases List.mem_cons.1 hs with rfl | hs
      · exact htext
      · exact htexts s hs

/-! ## The whole of flattening -/

/-- What is still to be closed at the end of a text. -/
def unclosed (p : Program) (x : Nat) : List Char :=
  if (List.range p.units.size).any fun u =>
    (p.unit u).isPackage && !(p.unit u).library && (p.unit u).root == x then ['\x7d'] else []

theorem unclosed_of_isOpen (h : p.IsOpen u) : p.unclosed (p.unit u).root = ['\x7d'] := by
  unfold unclosed
  rw [if_pos]
  rw [List.any_eq_true]
  exact ⟨u, List.mem_range.2 h.1, by simp [h.2.1, h.2.2]⟩

theorem unclosed_of_closed {x : Nat} (h : ∀ u, p.IsOpen u → (p.unit u).root ≠ x) :
    p.unclosed x = [] := by
  unfold unclosed
  rw [if_neg]
  rw [List.any_eq_true]
  rintro ⟨u, hu, hopen⟩
  simp only [Bool.and_eq_true, Bool.not_eq_true', beq_iff_eq] at hopen
  exact h u ⟨List.mem_range.1 hu, hopen.1.1, hopen.1.2⟩ hopen.2

theorem flattens_of_level (hp : p.Sound tidy) (hl : p.Level tidy) : p.Flattens tidy p.unclosed
      ((List.range p.units.size).filter fun id => !(p.unit id).library) := by
  have hids : ∀ u ∈ (List.range p.units.size).filter fun id => !(p.unit id).library,
      u < p.units.size ∧ (p.unit u).library = false := by
    intro u hu
    obtain ⟨hlt, hlibrary⟩ := List.mem_filter.1 hu
    exact ⟨List.mem_range.1 hlt, by simpa using hlibrary⟩
  refine ⟨hp.planted.whole.forest, ⟨?_, ?_⟩, ?_, ?_, ?_, fun u _ => hp.planted.whole.unjoined _, ?_⟩
  · intro x
    -- Only the texts of package classes still wait for their last brace.
    by_cases hopen : ∃ u, p.IsOpen u ∧ (p.unit u).root = x
    · obtain ⟨u, hu, rfl⟩ := hopen
      rw [unclosed_of_isOpen hu]
      exact hl.opened u hu
    · have hclosed : ∀ u, p.IsOpen u → (p.unit u).root ≠ x := fun u hu he => hopen ⟨u, hu, he⟩
      rw [unclosed_of_closed hclosed]
      exact hl.closed x hclosed
  · intro x h hm
    have hlt := (hp.planted.whole.forest.listed x h hm).1
    exact unclosed_of_closed fun u hu => (hp.planted.rootFree u hu.1 h hlt).symm
  · intro u hu
    exact (hp.holds.units u (hids u hu).1).root
  · intro u hu
    exact hp.planted.rootFree u (hids u hu).1
  · intro u hu v hv
    exact hp.planted.rootOwn u (hids u hu).1 v (hids v hv).1
  · intro u hu
    obtain ⟨hlt, hlibrary⟩ := hids u hu
    cases hpackage : (p.unit u).isPackage with
    | true => exact unclosed_of_isOpen ⟨hlt, hpackage, hlibrary⟩
    | false =>
      refine unclosed_of_closed fun v hv he => ?_
      rw [hp.planted.rootOwn v hv.1 u hlt he] at hv
      rw [hv.2.1] at hpackage
      cases hpackage

/-- A program that can be made final can be flattened then, and its texts are closed. -/
theorem flattens_final (hfinal : finalize.run.run p = (.ok (), q)) (hsound : q.Sound tidy)
    (hlevel : q.Level tidy) :
    ∃ sources r, flatten.run.run p = (.ok sources, r) ∧
      (∀ s ∈ sources, Turns tidy [] [] s.text) ∧ Joins { q with phase := .flattened } r ∧
      r.drafts.Forest := by
  have hflat : Flattens tidy { q with phase := .flattened }.unclosed
      ((List.range q.units.size).filter fun id => !(q.unit id).library)
      { q with phase := .flattened } :=
    flattens_of_level
      ⟨⟨hsound.planted.whole, hsound.planted.rootFree, hsound.planted.rootOwn⟩,
        { hsound.holds with }⟩
      ⟨hlevel.opened, hlevel.closed⟩
  obtain ⟨sources, r, hrun, hrest⟩ := flattens_units hflat (List.nodup_range.filter _)
  refine ⟨sources, r, ?_, hrest⟩
  unfold flatten
  rw [Session.run_bind_ok hfinal]
  exact hrun

/-- A discovered program can be flattened, and its texts are closed. -/
theorem turns_flatten {n : Nat} (hp : p.Growing tidy n) :
    ∃ sources q, flatten.run.run p = (.ok sources, q) ∧ ∀ s ∈ sources, Turns tidy [] [] s.text := by
  have hserves := (serves_finalized hp).1
  have hfinal : finalize.run.run p = (.ok (), p.finalized.program) := by
    rw [run_finalize, hp.phase, settle_eq hp.phase]
  obtain ⟨sources, q, hrun, htexts, -⟩ := flattens_final hfinal hserves.sound hserves.level
  exact ⟨sources, q, hrun, htexts⟩

/-- Whatever files were discovered, if no name, literal or path in them and in their libraries has a
bracket, then the program can be flattened, and in the text of each unit the brackets of the three
kinds are nested and closed. -/
theorem flattened_texts_are_nested (calls : List Call) (h : ∀ c ∈ calls, c.Spelled Unbracketed) :
    ∃ sources q, flatten.run.run (discovered calls) = (.ok sources, q) ∧
      ∀ s ∈ sources, Nested s.text.toList := by
  rw [← plain_true] at h
  obtain ⟨sources, q, hrun, htexts⟩ := turns_flatten (growing_discovered h)
  exact ⟨sources, q, hrun, fun s hs => nested_of_scan (htexts s hs trivial)⟩

/-- A method that comes before its struct, with a switch in a loop, and a function literal. -/
def stall : Go.File where
  package := "stall"
  imports := [⟨none, "fmt"⟩, ⟨some "g", "market/goods"⟩]
  decls := [
    .func {
      receiver := some (.mk ["s"] (.star (.ident "Stall")))
      name := "Sum"
      sig := .mk [] [.mk [] (.ident "int")]
      body := some [
        .assign [.ident "sum"] .define [.lit .int "0"],
        .range (some (.ident "_")) (some (.ident "price")) true (.selector (.ident "s") "prices") [
          .switch none (some (.ident "price")) [
            .mk [.lit .int "0"] [.branch .continue none],
            .mk [] [.assign [.ident "sum"] (.compound .add) [.ident "price"]]]],
        .return [.ident "sum"]] },
    .gen (.mk .type false [
      .type "Stall" (.structType [.mk ["prices"] (.arrayType none (.ident "int"))]) false]),
    .func {
      receiver := none
      name := "open"
      sig := .mk [.mk ["n"] (.ident "int")] []
      body := some [
        .ifElse none (.binary (.ident "n") .gt (.lit .int "3")) [
          .expr (.call (.selector (.ident "fmt") "Println") [.lit .string "\"open\""] false)] none,
        .assign [.ident "close"] .define [
          .funcLit (.mk [] [.mk [] (.ident "int")]) [
            .return [.call (.selector (.ident "g") "Count")
              [.composite (some (.ident "Stall")) []] false]]]] }]

theorem stall_is_nested :
    (∀ c ∈ [Call.tree (fun _ => []) "market/stall.go" stall], c.Spelled Unbracketed) ∧ ∃ sources q,
        flatten.run.run (discovered [Call.tree (fun _ => []) "market/stall.go" stall]) =
          (.ok sources, q) ∧ ∀ s ∈ sources, Nested s.text.toList := by
  have hdecls : ∀ d ∈ stall.decls, d.Spelled Unbracketed := by
    intro d hd
    simp only [stall, List.mem_cons, List.not_mem_nil, or_false] at hd
    rcases hd with rfl | rfl | rfl
    · refine ⟨?_, by decide, ?_, ?_⟩
      all_goals
        simp [Go.Expr.Spelled, Go.Expr.SpelledList, Go.Expr.SpelledOption, Go.Field.Spelled,
          Go.Field.SpelledList, Go.Signature.Spelled, Go.Stmt.Spelled, Go.Stmt.SpelledList,
          Go.CaseClause.Spelled, Go.CaseClause.SpelledList, Go.Stmt.SpelledOption]
        decide
    · simp [Go.Decl.Spelled, Go.GenDecl.Spelled, Go.Spec.SpelledList, Go.Spec.Spelled,
        Go.Expr.Spelled, Go.Field.SpelledList, Go.Field.Spelled]
      decide
    · refine ⟨fun f hf => absurd hf (by simp), by decide, ?_, ?_⟩
      all_goals
        simp [Go.Expr.Spelled, Go.Expr.SpelledList, Go.Expr.SpelledOption, Go.Field.Spelled,
          Go.Field.SpelledList, Go.Signature.Spelled, Go.Stmt.Spelled, Go.Stmt.SpelledList,
          Go.Stmt.SpelledOption]
        decide
  have h : ∀ c ∈ [Call.tree (fun _ => []) "market/stall.go" stall], c.Spelled Unbracketed := by
    intro c hc
    rw [List.mem_singleton.1 hc]
    exact ⟨fun _ _ hsource => absurd hsource List.not_mem_nil, by decide, by decide, by decide,
      hdecls⟩
  exact ⟨h, flattened_texts_are_nested _ h⟩

end Program

end GoToJava
