import GoToJava.Project.Path
import Mathlib.Data.List.TakeWhile

/-!
Paths below a source root. The components of a path are read back from a path that is written with
them, so the path of a file as seen from the source root leads back to the file.
-/

namespace GoToJava.Path

variable {path name : String} {cs : List Component}

/-- What may stand at any place of a path: a name, or a step up. -/
def IsStep (c : Component) : Prop := component? c.text = some c ∧ '/' ∉ c.text.toList
  deriving Decidable

/-! ## Pieces -/

theorem not_mem_of_mem_splitOn (cs : List Char) : ∀ piece ∈ cs.splitOn '/', '/' ∉ piece := by
  induction cs with
  | nil => simp
  | cons c cs ih =>
    rw [List.splitOn_cons_eq_if_modifyHead]
    split
    · exact List.forall_mem_cons.2 ⟨List.not_mem_nil, ih⟩
    · rename_i hc
      cases hcs : cs.splitOn '/' with
      | nil => exact absurd hcs (List.splitOn_ne_nil _ _)
      | cons first rest =>
        rw [hcs, List.forall_mem_cons] at ih
        refine List.forall_mem_cons.2 ⟨fun hm => ?_, ih.2⟩
        rcases List.mem_cons.1 hm with rfl | hm
        · exact hc (beq_self_eq_true _)
        · exact ih.1 hm

theorem pieces_ne_nil (path : String) : pieces path ≠ [] :=
  fun h => List.splitOn_ne_nil _ _ (List.map_eq_nil_iff.1 h)

theorem pieces_append (before after : String) :
    pieces (before ++ "/" ++ after) = pieces before ++ pieces after := by
  have hlist : (before ++ "/" ++ after).toList = before.toList ++ '/' :: after.toList := by simp
  unfold pieces
  rw [hlist, List.splitOn_append_cons_self, List.map_append]

theorem pieces_intercalate (texts : List String) (h : ∀ t ∈ texts, '/' ∉ t.toList)
    (hne : texts ≠ []) : pieces ("/".intercalate texts) = texts := by
  have hlist : ("/".intercalate texts).toList = ['/'].intercalate (texts.map String.toList) := by
    simp
  have hmap : (texts.map String.toList).map String.ofList = texts := by simp
  unfold pieces
  rw [hlist, List.splitOn_intercalate _ (by simpa using h) (by simpa using hne), hmap]

theorem pieces_of_not_mem (h : '/' ∉ name.toList) : pieces name = [name] := by
  have hone := pieces_intercalate [name] (by simpa using h) (List.cons_ne_nil _ _)
  rwa [String.intercalate_singleton] at hone

theorem isAbsolute_of_head? (h : (pieces path).head? ≠ some "") : isAbsolute path = false := by
  refine Bool.eq_false_iff.2 fun habsolute => h ?_
  unfold isAbsolute at habsolute
  unfold pieces
  cases hcs : path.toList with
  | nil => simp [hcs] at habsolute
  | cons c cs =>
    have hc : c = '/' := by simpa [hcs] using habsolute
    rw [hc, List.splitOn_cons_eq_if_modifyHead, if_pos (beq_self_eq_true _)]
    rfl

/-! ## Components -/

/-- What a path starts with before its steps. -/
def startOf (path : String) : List Component :=
  if isAbsolute path then [.root] else if (pieces path).head? == some "." then [.here] else []

theorem components_eq (path : String) :
    components path = startOf path ++ (pieces path).filterMap component? := by
  unfold components startOf
  split
  · rfl
  · split <;> rfl

theorem isStep_of_mem {c : Component} (h : c ∈ (pieces path).filterMap component?) : IsStep c := by
  obtain ⟨piece, hpiece, hc⟩ := List.mem_filterMap.1 h
  obtain ⟨cs, hcs, rfl⟩ := List.mem_map.1 hpiece
  have htext : c.text = String.ofList cs := by
    unfold component? at hc
    split at hc <;> cases hc
    · exact Eq.symm ‹_›
    · rfl
  unfold IsStep
  rw [htext, String.toList_ofList]
  exact ⟨hc, not_mem_of_mem_splitOn _ cs hcs⟩

theorem filterMap_text (h : ∀ c ∈ cs, IsStep c) : (cs.map (·.text)).filterMap component? = cs := by
  induction cs with
  | nil => rfl
  | cons c cs ih =>
    rw [List.forall_mem_cons] at h
    rw [List.map_cons, List.filterMap_cons_some h.1.1, ih h.2]

theorem text_ne {c : Component} (h : IsStep c) : c.text ≠ "" ∧ c.text ≠ "." := by
  refine ⟨fun he => ?_, fun he => ?_⟩ <;> rw [IsStep, he] at h <;> cases h.1

theorem filterMap_intercalate (h : ∀ c ∈ cs, IsStep c) :
    (pieces ("/".intercalate (cs.map (·.text)))).filterMap component? = cs := by
  cases cs with
  | nil => decide
  | cons c cs =>
    rw [pieces_intercalate _ (List.forall_mem_map.2 fun c hc => (h c hc).2) (List.cons_ne_nil _ _),
      filterMap_text h]

theorem components_intercalate (h : ∀ c ∈ cs, IsStep c) :
    components ("/".intercalate (cs.map (·.text))) = cs := by
  have hstart : startOf ("/".intercalate (cs.map (·.text))) = [] := by
    cases cs with
    | nil => decide
    | cons c cs =>
      have hpieces := pieces_intercalate ((c :: cs).map (·.text))
        (List.forall_mem_map.2 fun c hc => (h c hc).2) (List.cons_ne_nil _ _)
      obtain ⟨hempty, hdot⟩ := text_ne (h c List.mem_cons_self)
      rw [startOf, isAbsolute_of_head? (by rw [hpieces]; simpa using hempty), hpieces]
      simpa using hdot
  rw [components_eq, hstart, filterMap_intercalate h, List.nil_append]

/-- A path that is written with components of a path has these components. -/
theorem components_ofComponents (path : String) (h : ∀ c ∈ cs, IsStep c) :
    components (ofComponents (startOf path ++ cs)) = startOf path ++ cs := by
  unfold startOf
  split
  · have hroot : ofComponents ([.root] ++ cs) = "" ++ "/" ++ "/".intercalate (cs.map (·.text)) :=
      rfl
    have hempty : pieces "" = [""] := by decide
    rw [hroot, components_eq, pieces_append, hempty, List.filterMap_append, filterMap_intercalate h,
      startOf, if_pos (by simp [isAbsolute])]
    rfl
  · split
    · cases cs with
      | nil => decide
      | cons c cs =>
        have hhere : ofComponents ([.here] ++ (c :: cs)) =
            "." ++ "/" ++ "/".intercalate ((c :: cs).map (·.text)) := by
          simp [ofComponents, Component.text]
        have hdot : pieces "." = ["."] := by decide
        rw [hhere, components_eq, pieces_append, hdot, List.filterMap_append,
          filterMap_intercalate h, startOf, pieces_append, hdot, if_neg (by simp [isAbsolute])]
        rfl
    · cases cs with
      | nil => decide
      | cons c cs =>
        cases c with
        | root => cases (h _ List.mem_cons_self).1
        | _ => exact components_intercalate h

/-! ## Files below a directory -/

theorem components_slash (front rest : String) : components (front ++ "/" ++ rest) =
    (if front = "" then [.root] else components front) ++ (pieces rest).filterMap component? := by
  rw [components_eq, pieces_append, List.filterMap_append, ← List.append_assoc]
  congr 1
  split
  · rename_i hempty
    have hroot : (pieces "").filterMap component? = [] := by decide
    rw [hempty, hroot, startOf, if_pos (by simp [isAbsolute])]
    rfl
  · rename_i hne
    obtain ⟨c, cs, hcs⟩ := List.exists_cons_of_ne_nil (fun h => hne (String.toList_eq_nil_iff.1 h))
    obtain ⟨piece, ps, hps⟩ := List.exists_cons_of_ne_nil (pieces_ne_nil front)
    rw [components_eq, startOf, startOf, pieces_append]
    simp [isAbsolute, hcs, hps]

theorem components_join (path : String) (h : IsStep (.name name)) :
    components (join path name) = components path ++ [.name name] := by
  have hpieces : pieces name = [name] := pieces_of_not_mem h.2
  have hname : (pieces name).filterMap component? = [.name name] := by
    rw [hpieces]
    exact List.filterMap_cons_some h.1
  have hrelative : isAbsolute name = false :=
    isAbsolute_of_head? fun he => (text_ne h).1 (by rwa [hpieces, List.head?_singleton,
      Option.some_inj] at he)
  unfold join
  rw [hrelative, Bool.false_or]
  split
  · rename_i hempty
    have halone : ∀ c ∈ [Component.name name], IsStep c := List.forall_mem_singleton.2 h
    have hread := components_intercalate halone
    rw [List.map_singleton, String.intercalate_singleton] at hread
    have hroot : components "" = [] := by decide
    rw [String.isEmpty_iff.1 hempty, hroot, List.nil_append]
    exact hread
  · rename_i hne
    split
    · rename_i hlast
      obtain ⟨cs, hcs⟩ := List.getLast?_eq_some_iff.1 (beq_iff_eq.1 hlast)
      obtain ⟨front, rfl⟩ : ∃ front, path = front ++ "/" ++ "" := ⟨String.ofList cs, by
        rw [← String.toList_inj, hcs]
        simp⟩
      have hroot : (pieces "").filterMap component? = [] := by decide
      rw [components_slash, hroot, String.append_empty, components_slash, hname, List.append_nil]
    · rw [components_slash, if_neg (by simpa using hne), hname]

theorem components_below (path : String) {names : List String}
    (h : ∀ n ∈ names, IsStep (.name n)) :
    components (names.foldl join path) = components path ++ names.map .name := by
  induction names generalizing path with
  | nil => exact (List.append_nil _).symm
  | cons name names ih =>
    rw [List.forall_mem_cons] at h
    rw [List.foldl_cons, ih _ h.2, components_join path h.1, List.append_assoc]
    rfl

/-! ## Source roots -/

theorem dropStart?_append (front back : List Component) :
    dropStart? front (front ++ back) = some back := by
  induction front with
  | nil => rfl
  | cons c front ih => rw [List.cons_append, dropStart?, if_pos rfl, ih]

theorem sourceRoot?_of_not_mem (h : .name "src" ∉ components path) : sourceRoot? path = none := by
  have hdrop : (components path).reverse.dropWhile (· ≠ .name "src") = [] := by
    refine List.dropWhile_eq_nil_iff.2 fun c hc => decide_eq_true ?_
    exact ne_of_mem_of_not_mem (List.mem_reverse.1 hc) h
  unfold sourceRoot?
  rw [hdrop]

/-- The source root is written with the components up to the last directory `src`. -/
theorem sourceRoot?_of_mem (h : .name "src" ∈ components path) : ∃ root below,
    sourceRoot? path = some root ∧ components path = components root ++ below ∧
      (components root).getLast? = some (.name "src") ∧ .name "src" ∉ below ∧
      ∀ c ∈ below, IsStep c := by
  obtain ⟨after, before, he, hafter⟩ := List.eq_append_cons_of_mem (List.mem_reverse.2 h)
  have hpath : components path = (before.reverse ++ [.name "src"]) ++ after.reverse := by
    rw [← List.reverse_reverse (components path), he]
    simp
  have hdrop : (components path).reverse.dropWhile (· ≠ .name "src") = .name "src" :: before := by
    rw [he, List.dropWhile_append_of_pos fun c hc => by
      simpa using ne_of_mem_of_not_mem hc hafter]
    simp
  have hroot : sourceRoot? path = some (ofComponents (before.reverse ++ [.name "src"])) := by
    unfold sourceRoot?
    rw [hdrop, ← List.reverse_cons]
  -- The start of a path is no name, so it lies before the source root.
  have hstart : .name "src" ∉ startOf path := by
    unfold startOf
    split
    · simp
    · split <;> simp
  have hsplit := hpath.symm.trans (components_eq path)
  rcases List.append_eq_append_iff.1 hsplit with ⟨rest, hrest, -⟩ | ⟨rest, hrest, hbelow⟩
  · exact absurd (hrest ▸ by simp) hstart
  · have hsteps : ∀ c ∈ rest ++ after.reverse, IsStep c := fun c hc => isStep_of_mem (hbelow ▸ hc)
    rw [List.forall_mem_append] at hsteps
    have hread := components_ofComponents path hsteps.1
    rw [← hrest] at hread
    refine ⟨_, after.reverse, hroot, by rw [hread, hpath], ?_, by simpa using hafter, hsteps.2⟩
    rw [hread, List.getLast?_concat]

section

variable {source root : String} {below : List Component} {names others : List String}

/-- A file is seen from a directory around it by the components that come after it. -/
theorem relative_below (h : components source = components root ++ below)
    (hnames : ∀ n ∈ names, IsStep (.name n)) :
    let rest := below ++ names.map Component.name
    components (names.foldl join source) = components root ++ rest ∧
      relative (names.foldl join source) root = "/".intercalate (rest.map (·.text)) := by
  have hfile : components (names.foldl join source) =
      components root ++ (below ++ names.map Component.name) := by
    rw [components_below source hnames, h, List.append_assoc]
  refine ⟨hfile, ?_⟩
  rw [relative, hfile, dropStart?_append]
  rfl

theorem names_of_relative (h : components source = components root ++ below)
    (hbelow : ∀ c ∈ below, IsStep c) (hnames : ∀ n ∈ names, IsStep (.name n))
    (hothers : ∀ n ∈ others, IsStep (.name n))
    (halike : relative (others.foldl join source) root = relative (names.foldl join source) root) :
    others = names := by
  have hseen : ∀ {names : List String}, (∀ n ∈ names, IsStep (.name n)) →
      components (relative (names.foldl join source) root) = below ++ names.map .name := by
    intro names hnames
    rw [(relative_below h hnames).2, components_intercalate]
    exact List.forall_mem_append.2 ⟨hbelow, List.forall_mem_map.2 hnames⟩
  have hsame := (hseen hothers).symm.trans ((congrArg _ halike).trans (hseen hnames))
  exact (List.map_inj_right fun _ _ => Component.name.inj).1 (List.append_cancel_left hsame)

end

/-- A path has a source root if and only if it has a directory `src`, and the root ends with the
last of them. A file below the path is seen from there by all that comes after it, so that the
root's components and these are the file's, and no two files are seen alike. -/
theorem source_paths_lead_back (source : String) (names : List String)
    (hnames : ∀ n ∈ names, IsStep (.name n)) :
    let file := names.foldl join source
    (sourceRoot? source = none ↔ .name "src" ∉ components source) ∧
      ∀ root, sourceRoot? source = some root → ∃ below,
        components source = components root ++ below ∧
        (components root).getLast? = some (.name "src") ∧ .name "src" ∉ below ∧
        components file = components root ++ (below ++ names.map .name) ∧
        relative file root = "/".intercalate ((below ++ names.map Component.name).map (·.text)) ∧
        ∀ others, (∀ n ∈ others, IsStep (.name n)) →
          relative (others.foldl join source) root = relative file root → others = names := by
  intro file
  by_cases hsrc : .name "src" ∈ components source
  · obtain ⟨root, below, hroot, hsource, hlast, hbelow, hsteps⟩ := sourceRoot?_of_mem hsrc
    refine ⟨by simp [hroot, hsrc], fun root' hroot' => ?_⟩
    obtain rfl : root = root' := Option.some_inj.1 (hroot.symm.trans hroot')
    obtain ⟨hfile, hseen⟩ := relative_below hsource hnames
    exact ⟨below, hsource, hlast, hbelow, hfile, hseen,
      fun others hothers => names_of_relative hsource hsteps hnames hothers⟩
  · refine ⟨iff_of_true (sourceRoot?_of_not_mem hsrc) hsrc, fun root hroot => ?_⟩
    rw [sourceRoot?_of_not_mem hsrc] at hroot
    cases hroot

/-- The last of two directories `src` counts, after slashes and a dot that say nothing. -/
theorem app_is_seen_from_src :
    let source := "./go/src//../src/app/"
    sourceRoot? source = some "./go/src/../src" ∧
      relative (["cmd", "main.go"].foldl join source) "./go/src/../src" = "app/cmd/main.go" := by
  intro source
  have hnames : ∀ n ∈ ["cmd", "main.go"], IsStep (.name n) := by decide
  have hroot : sourceRoot? source = some "./go/src/../src" := by decide
  obtain ⟨below, hsource, -, -, -, hseen, -⟩ := (source_paths_lead_back source _ hnames).2 _ hroot
  obtain rfl : below = [.name "app"] := List.append_cancel_left (hsource.symm.trans (by decide))
  exact ⟨hroot, hseen⟩

end GoToJava.Path
