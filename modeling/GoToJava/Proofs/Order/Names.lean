import GoToJava.Proofs.Order.Sessions

/-!
Files of names. A file that only names types writes no text, so it may come before or after another
file of its package, as long as no text of that file has to be written before all names are known.
-/

namespace GoToJava

open Go (Decl Expr File Rules Spec title)
open Emit Session

/-! ## Files that only name types -/

/-- The named type, if it is neither a struct nor an interface, and what it stands for. -/
def Go.Spec.named? : Spec → Option (String × Expr)
  | .type _ (.structType _) false | .type _ (.interfaceType _) false | .value .. => none
  | .type name target _ => some (title name, target)

/-- The types that a declaration names, if it does nothing else. -/
def Go.Decl.named? : Decl → Option (List (String × Expr))
  | .gen (.mk .type _ specs) => specs.mapM Spec.named?
  | _ => none

/-- The types that a file names, if it does nothing else. -/
def Go.File.named? (file : File) : Option (List (String × Expr)) :=
  if file.imports.isEmpty then (file.decls.mapM Decl.named?).map List.flatten else none

/-- The table with more names. -/
def Table.setAll {α : Type} (t : Table α) (entries : List (String × α)) : Table α :=
  entries.foldl (fun t (name, value) => t.set name value) t

theorem Table.setAll_append {α : Type} (t : Table α) (entries more : List (String × α)) :
    t.setAll (entries ++ more) = (t.setAll entries).setAll more := List.foldl_append

theorem Table.get?_setAll {α : Type} (t : Table α) (entries : List (String × α)) (name : String) :
    (t.setAll entries).get? name = ((({} : Table α).setAll entries).get? name <|> t.get? name) := by
  induction entries generalizing t with
  | nil => rfl
  | cons e entries ih =>
    show ((t.set e.1 e.2).setAll entries).get? name =
      (((({} : Table α).set e.1 e.2).setAll entries).get? name <|> t.get? name)
    rw [ih (t.set e.1 e.2), ih (({} : Table α).set e.1 e.2), get?_set, get?_set]
    cases (({} : Table α).setAll entries).get? name with
    | some value => rfl
    | none =>
      split <;> rfl

namespace Conversion

theorem typeSpec_of_named {release : Release} {name : String} {type : Expr} {isAlias : Bool}
    {entry : String × Expr} (h : (Spec.type name type isAlias).named? = some entry) (place : Place)
    (desk : Desk) : Forms.typeSpec release name type isAlias place desk =
      ((), ⟨desk.program.withNames (desk.program.typeNames.set entry.1 entry.2), desk.owed⟩) := by
  unfold Go.Spec.named? at h
  split at h
  · cases h
  · cases h
  · cases h
  · rename_i hs hi hspec
    cases hspec
    cases h
    unfold Forms.typeSpec
    split
    · exact (hs _ rfl rfl).elim
    · exact (hi _ rfl rfl).elim
    · rfl

theorem genDecl_of_named {release : Release} {specs : List Spec} {entries : List (String × Expr)}
    (h : specs.mapM Spec.named? = some entries) (place : Place) (desk : Desk) :
    Forms.genDecl release false .type (specForms release specs) place desk =
      ((), ⟨desk.program.withNames (desk.program.typeNames.setAll entries), desk.owed⟩) := by
  induction specs generalizing entries desk with
  | nil =>
    cases h
    rfl
  | cons s specs ih =>
    rw [List.mapM_cons] at h
    obtain ⟨e, he, h⟩ := Option.bind_eq_some_iff.1 h
    obtain ⟨rest, hrest, h⟩ := Option.bind_eq_some_iff.1 h
    cases h
    cases s with
    | value names type values => cases he
    | type name type isAlias =>
      show Forms.genDecl release false .type (specForms release specs) place
        (Forms.typeSpec release name type isAlias place desk).2 = _
      rw [typeSpec_of_named he, ih hrest]
      rfl

theorem decls_of_named {decls : List Decl} {entries : List (List (String × Expr))}
    (h : decls.mapM Decl.named? = some entries) (place : Place) (desk : Desk) :
    decls.forM decl place desk =
      ((), ⟨desk.program.withNames (desk.program.typeNames.setAll entries.flatten),
        desk.owed⟩) := by
  induction decls generalizing entries desk with
  | nil =>
    cases h
    rfl
  | cons d decls ih =>
    rw [List.mapM_cons] at h
    obtain ⟨own, hown, h⟩ := Option.bind_eq_some_iff.1 h
    obtain ⟨rest, hrest, h⟩ := Option.bind_eq_some_iff.1 h
    cases h
    have hfirst : decl d place desk =
        ((), ⟨desk.program.withNames (desk.program.typeNames.setAll own), desk.owed⟩) := by
      unfold Go.Decl.named? at hown
      split at hown
      · exact genDecl_of_named hown place desk
      · cases hown
    show decls.forM decl place (decl d place desk).2 = _
    rw [hfirst, ih hrest, List.flatten_cons, Table.setAll_append]
    rfl

end Conversion

namespace Program

variable {p : Program}

theorem run_fillPackage_of_named {libraries : Libraries} {file : File}
    {entries : List (String × Expr)} (h : file.named? = some entries) (unit : Nat) :
    (fillPackage libraries file unit).run.run p =
      (.ok (), p.withNames (p.typeNames.setAll entries)) := by
  unfold Go.File.named? at h
  split at h
  · rename_i himports
    obtain ⟨lists, hlists, rfl⟩ := Option.map_eq_some_iff.1 h
    have hemit := Conversion.decls_of_named hlists { (p.unit unit).start unit with tabs := 1 }
      ⟨p, true⟩
    unfold fillPackage
    rw [List.isEmpty_iff.1 himports]
    show (Except.ok (), (p.emit ⟨{ (p.unit unit).start unit with tabs := 1 }, true⟩
      (file.decls.forM Conversion.decl)).2) = _
    unfold emit
    rw [hemit]
  · cases h

end Program

/-! ## Files that do not depend on names -/

/-- What a file may rely on while it does not know what some names stand for. -/
structure Reliance (given : Table Expr) where
  /-- The titles that the file or the names may declare as types. -/
  types : String → Prop
  /-- Names that are not given, and that stand for types without given names. -/
  settled : String → Prop
  apart : ∀ name, settled name → given.get? name = none
  known : ∀ name, given.contains name = true → types name

namespace Reliance

variable {given : Table Expr} (r : Reliance given)

/-- Types that have to be told at once are settled, what is called with one argument is no type, and
no given name is declared again. -/
def rules : Rules where
  literal t := t.Certain r.settled
  callee e := e.NoType r.types
  named name t := given.get? name = none ∧ r.types name ∧ (r.settled name → t.Certain r.settled)
  cls := r.types
  exported _ := True
  returns := True

/-- While the file is discovered, the names may be known or not. -/
def naming : Naming where
  rules := r.rules
  given := given
  types := r.types
  settled := r.settled
  eager := False
  lax := fun h => h.elim
  clear := fun h => h.elim
  apart := r.apart
  literal _ h := h
  callee _ h := .inr h
  named _ _ h := ⟨h.1, .inr h.2⟩
  cls _ h := .inr h

theorem agrees_start {p : Program} (hp : ({} : Program).SameNames p) : r.naming.Agrees p given := by
  have hknows : ∀ names : Table Expr,
      (∀ name t, names.get? name = some t →
        r.types name ∧ (r.settled name → t.Certain r.settled)) →
      r.naming.outlook.knows (({} : Program).withNames names) := fun names hnames =>
    .inr ⟨hnames, fun _ h => (by cases h), fun _ h => (by cases h), fun _ => rfl, fun _ => rfl⟩
  have hempty : r.naming.Agrees {} given := by
    refine ⟨fun name h => h, fun _ _ h => h, .inr rfl, hknows {} fun _ _ h => (by cases h),
      hknows given fun name t ht => ⟨r.known name ?_, fun hs => ?_⟩⟩
    · exact Option.isSome_iff_exists.2 ⟨t, ht⟩
    · rw [r.apart name hs] at ht
      cases ht
  exact Naming.agrees_of_same hempty hp

end Reliance

/-- No text of the file that is written at once depends on the given names. -/
def Go.File.Independent (given : Table Expr) (file : File) : Prop :=
  ∃ r : Reliance given, ∀ d ∈ file.decls, d.Obeys r.rules

/-! ## Both orders -/

/-- Once all names are known, only what they stand for matters. -/
def Naming.settledAll : Naming where
  rules := .free
  given := {}
  types _ := True
  settled _ := True
  eager := True
  lax _ := Rules.lax_free
  clear := Outlook.free.clear
  apart _ _ := rfl
  literal := Outlook.free.literal
  callee _ _ := .inl trivial
  named _ _ _ := ⟨rfl, .inl trivial⟩
  cls _ _ := .inl trivial

namespace Program

variable {p : Program}

/-- Flattening does not see in which order names were declared. -/
theorem flatten_withNames {names names' : Table Expr}
    (h : ∀ name, names'.get? name = names.get? name) :
    (flatten.run.run (p.withNames names')).1 = (flatten.run.run (p.withNames names)).1 := by
  have hagrees : Naming.settledAll.Agrees (p.withNames names) names' :=
    ⟨fun name _ => h name, fun _ _ ht => (by cases ht), .inl trivial, .inl trivial, .inl trivial⟩
  obtain ⟨_, hrun, -⟩ := Naming.follows_flatten (N := .settledAll) trivial _ _ hagrees
  show (flatten.run.run ((p.withNames names).withNames names')).1 = _
  rw [hrun]

theorem translated_pair (c d : Call) : translated [c, d] =
      ((c.session >>= fun _ => d.session >>= fun _ => flatten).run.run {}).1 := by
  show (((c.session >>= fun _ => d.session >>= fun _ => pure ()) >>= fun _ => flatten).run.run {}).1
    = _
  simp only [bind_assoc, pure_bind]

/-- A file of names may be given before or after another file of its package that does not depend on
the names: the answer is the same, be it the Java texts or an error. -/
theorem names_may_come_first_or_last {c d : Call} {file names : File}
    {entries : List (String × Expr)} (hc : c.read = .ok file) (hd : d.read = .ok names)
    (hdir : d.dir = c.dir) (hpackage : names.package = file.package)
    (hnames : names.named? = some entries)
    (hfile : file.Independent (({} : Table Expr).setAll entries)) :
    translated [c, d] = translated [d, c] := by
  obtain ⟨r, hobeys⟩ := hfile
  -- Both orders start the same unit.
  have hsame := sameNames_packageUnit {} c.dir (title file.package) false
  have hempty : ({} : Program).Regular fun _ _ => True := regular_empty
  have hkey := key_packageUnit c.dir (title file.package) false hempty.indexed
  have hindexed := (regular_of_steps (steps_packageUnit {} c.dir (title file.package) false)
    hempty).indexed
  generalize hstart : ({} : Program).packageUnit c.dir (title file.package) false = start
    at hsame hkey hindexed
  obtain ⟨u, p⟩ := start
  have hfirst : ∀ {q q' : Program}, q.phase = .discovery →
      q.packageUnit c.dir (title file.package) false = (u, q') →
      c.session.run.run q = (fillPackage c.libraries file u).run.run q' := by
    intro q q' hphase hunit
    rw [run_call, hphase, hc]
    dsimp only
    rw [hunit]
  have hlast : ∀ {q q' : Program}, q.phase = .discovery →
      q.packageUnit c.dir (title file.package) false = (u, q') →
      d.session.run.run q = (.ok (), q'.withNames (q'.typeNames.setAll entries)) := by
    intro q q' hphase hunit
    rw [run_call, hphase, hd]
    dsimp only
    rw [hdir, hpackage, hunit]
    exact run_fillPackage_of_named hnames u
  have hagain : ∀ names, (p.withNames names).packageUnit c.dir (title file.package) false =
      (u, p.withNames names) :=
    fun names => packageUnit_of_key (p := p.withNames names) hindexed hkey.1 hkey.2 false
  -- The file does the same whether or not the names are known.
  have hfollows : r.naming.Follows (fillPackage c.libraries file u) :=
    Naming.follows_fillPackage u hobeys
  obtain ⟨names', hrun, hagrees⟩ := hfollows p _ (r.agrees_start hsame)
  have hkept : ((fillPackage c.libraries file u).run.run p).2.Sited u
      (unitKey c.dir (title file.package)) :=
    stable_fillPackage stable_sited (fun _ _ _ => trivial)
      ⟨hindexed, hkey.1, hkey.2⟩ ⟨hindexed, hkey.1, hkey.2⟩
  have hother := hlast (q := {}) rfl hstart
  have hfilled := hfirst (q := {}) rfl hstart
  have hfilled' := hfirst (q := p.withNames (p.typeNames.setAll entries)) hsame.phase (hagain _)
  rw [show p.typeNames = {} from hsame.typeNames] at hother hfilled'
  rw [hrun] at hfilled'
  rw [translated_pair, translated_pair, run_bind_ok hother]
  generalize (fillPackage c.libraries file u).run.run p = s at hfilled hfilled' hkept hagrees
  obtain ⟨v | v, q⟩ := s
  · rw [run_bind_error hfilled, run_bind_error hfilled']
  · have hphase : q.phase = .discovery := hagrees.phase.resolve_left id
    have hunit := packageUnit_of_key hkept.indexed hkept.known hkept.key false
    rw [run_bind_ok hfilled, run_bind_ok (hlast hphase hunit), run_bind_ok hfilled']
    refine (flatten_withNames fun name => ?_).symm
    rw [Table.get?_setAll]
    cases hgiven : (({} : Table Expr).setAll entries).get? name with
    | some t => exact hagrees.given name t hgiven
    | none => exact hagrees.same name hgiven

/-- A file that writes the name of a type it does not declare, and literals of a struct of its
own. -/
def table : File where
  package := "app"
  imports := []
  decls := [
    .gen (.mk .type false [.type "table" (.structType [.mk ["rows"] (.ident "Row")]) false]),
    .func {
      receiver := none
      name := "width"
      sig := .mk [.mk ["row"] (.ident "Row")] [.mk [] (.ident "int")]
      body := some [
        .assign [.ident "t"] .define [.composite (some (.ident "table")) [.ident "row"]],
        .return [.call (.ident "len") [.selector (.ident "t") "rows"] false]] }]

/-- A file that says what the name stands for. -/
def row : File where
  package := "app"
  imports := []
  decls := [.gen (.mk .type false [.type "Row" (.arrayType none (.ident "int")) false])]

theorem row_may_come_first_or_last :
    translated [.tree (fun _ => []) "app/table.go" table, .tree (fun _ => []) "app/row.go" row] =
      translated [.tree (fun _ => []) "app/row.go" row,
        .tree (fun _ => []) "app/table.go" table] := by
  have hrow : title "Row" = "Row" := by decide +kernel
  have htable : title "table" = "Table" := by decide +kernel
  have hlen : title "len" = "Len" := by decide +kernel
  have hentries : row.named? = some [("Row", .arrayType none (.ident "int"))] := by
    show some [(title "Row", Expr.arrayType none (.ident "int"))] = _
    rw [hrow]
  -- The file relies on its own struct only.
  have hindependent : table.Independent
      (({} : Table Expr).setAll [("Row", .arrayType none (.ident "int"))]) := by
    refine ⟨⟨fun name => name = "Row" ∨ name = "Table", fun name => name = "Table", ?_, ?_⟩, ?_⟩
    · rintro _ rfl
      rfl
    · intro name h
      change (((({} : Table Expr).set "Row" (.arrayType none (.ident "int"))).get? name).isSome) =
        true at h
      rw [Table.get?_set] at h
      split at h
      · rename_i hname
        exact .inl hname
      · cases h
    · intro d hd
      simp only [table, List.mem_cons, List.not_mem_nil, or_false] at hd
      rcases hd with rfl | rfl
      · exact ⟨fun h => (by cases h), fun h => (by cases h), ⟨.inr htable, fun _ => trivial⟩,
          trivial⟩
      · intro body hbody
        cases hbody
        refine ⟨⟨⟨trivial, trivial⟩, ⟨?_, trivial, trivial⟩, trivial⟩,
          ⟨fun _ => trivial, ⟨trivial, ⟨trivial, trivial⟩, ?_, ?_⟩, trivial⟩, trivial⟩
        · rintro _ ⟨⟩
          exact .inr htable
        · intro _
          refine ⟨by decide, ?_⟩
          rw [hlen]
          show ¬("Len" = "Row" ∨ "Len" = "Table")
          decide
        · intro h
          exact absurd (Expr.ident.inj h) (by decide)
  refine names_may_come_first_or_last rfl rfl ?_ rfl hentries hindependent
  simp [Call.dir, Call.path, slashed, parentDir, trimStart]

end Program

end GoToJava
