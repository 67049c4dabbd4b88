import GoToJava.Proofs.Draft.Rendering

/-!
The log of a draft: what was written into it and where its holes were left, in order. Joining a
draft gives its log as text, with each hole replaced by the text of the log of the draft that fills
it.
-/

namespace GoToJava.Drafts

/-! ## Logs -/

/-- One step of a draft's history. -/
inductive Entry where
  | text (text : String)
  /-- A hole, filled by the draft of this number. -/
  | hole (child : Nat)
  deriving DecidableEq, Repr

variable {es : List Entry} {log : Nat → List Entry} {t : String}

/-- A log as text. The log of each draft is known by its number. -/
inductive Renders (log : Nat → List Entry) : List Entry → String → Prop
  | nil : Renders log [] ""
  | text {es : List Entry} {t : String} (s : String) :
      Renders log es t → Renders log (.text s :: es) (s ++ t)
  | hole {es : List Entry} {t u : String} (c : Nat) :
      Renders log (log c) u → Renders log es t → Renders log (.hole c :: es) (u ++ t)

theorem renders_text (log : Nat → List Entry) (s : String) : Renders log [.text s] s := by
  have h : Renders log [.text s] (s ++ "") := .text s .nil
  rwa [String.append_empty] at h

theorem renders_hole {c : Nat} {u : String} (hu : Renders log (log c) u) :
    Renders log [.hole c] u := by
  have h : Renders log [.hole c] (u ++ "") := .hole c hu .nil
  rwa [String.append_empty] at h

theorem renders_append {es' : List Entry} {t' : String} (h : Renders log es t)
    (h' : Renders log es' t') : Renders log (es ++ es') (t ++ t') := by
  induction h with
  | nil => simpa using h'
  | text s _ ih =>
    rw [String.append_assoc]
    exact .text s ih
  | hole c hc _ _ ih =>
    rw [String.append_assoc]
    exact .hole c hc ih

theorem renders_unique {t' : String} (h : Renders log es t) (h' : Renders log es t') : t = t' := by
  induction h generalizing t' with
  | nil =>
    cases h'
    rfl
  | text s _ ih =>
    cases h' with
    | text _ h' => rw [ih h']
  | hole c _ _ ihc ih =>
    cases h' with
    | hole _ hc' h' => rw [ihc hc', ih h']

/-- Logs outside some drafts do not count, as long as these drafts hold no hole for another one. -/
theorem renders_of_agree {log' : Nat → List Entry} {known : Nat → Prop}
    (hlog : ∀ c, known c → log' c = log c)
    (hdeep : ∀ c, known c → ∀ c', Entry.hole c' ∈ log c → known c')
    (hes : ∀ c, Entry.hole c ∈ es → known c) (h : Renders log es t) : Renders log' es t := by
  induction h with
  | nil => exact .nil
  | text s _ ih => exact .text s (ih fun c hc => hes c (List.mem_cons_of_mem _ hc))
  | hole c _ _ ihc ih =>
    have hc := hes c List.mem_cons_self
    refine .hole c ?_ (ih fun c' hc' => hes c' (List.mem_cons_of_mem _ hc'))
    rw [hlog c hc]
    exact ihc (hdeep c hc)

/-- Two steps that say the same when drafts have other numbers. -/
inductive Entry.Alike (same : Nat → Nat → Prop) : Entry → Entry → Prop
  | text (s : String) : Alike same (.text s) (.text s)
  | hole {a b : Nat} : same a b → Alike same (.hole a) (.hole b)

theorem renders_of_alike {log' : Nat → List Entry} {same : Nat → Nat → Prop} {es' : List Entry}
    (hlog : ∀ a b, same a b → List.Forall₂ (Entry.Alike same) (log a) (log' b))
    (hes : List.Forall₂ (Entry.Alike same) es es') (h : Renders log es t) : Renders log' es' t := by
  induction h generalizing es' with
  | nil =>
    cases hes
    exact .nil
  | text s _ ih =>
    cases hes with
    | cons he hes =>
      cases he
      exact .text s (ih hes)
  | hole c _ _ ihc ih =>
    cases hes with
    | cons he hes =>
      cases he with
      | hole hab => exact .hole _ (ihc (hlog _ _ hab)) (ih hes)

/-! ## Logs and offsets -/

variable {τ : Type} {d : Drafts τ} {hs : List Nat}

/-- A log as it is kept: the text without the holes, and the holes with the numbers of bytes before
them. -/
inductive Laid (d : Drafts τ) : List Entry → String → List Nat → Prop
  | nil : Laid d [] "" []
  | text {es : List Entry} {t : String} {hs : List Nat} (s : String) :
      Laid d es t hs → Laid d (es ++ [.text s]) (t ++ s) hs
  | hole {es : List Entry} {t : String} {hs : List Nat} {h : Nat} :
      Laid d es t hs → h < d.holes.size → (d.hole h).offset = t.utf8ByteSize →
      Laid d (es ++ [.hole (d.hole h).child]) t (hs ++ [h])

/-- A log stays laid out when holes come to have other tasks, and when new holes are left. -/
theorem laid_of_holes {d' : Drafts τ} (hsize : d.holes.size ≤ d'.holes.size)
    (hhole : ∀ h < d.holes.size, (d'.hole h).offset = (d.hole h).offset ∧
      (d'.hole h).child = (d.hole h).child) (h : Laid d es t hs) : Laid d' es t hs := by
  induction h with
  | nil => exact .nil
  | text s _ ih => exact .text s ih
  | @hole es t hs h _ hlt ho ih =>
    obtain ⟨hoff, hchild⟩ := hhole h hlt
    rw [← hchild]
    exact .hole ih (Nat.lt_of_lt_of_le hlt hsize) (by rw [hoff, ho])

theorem laid_congr {d' : Drafts τ} (hh : d'.holes = d.holes) (h : Laid d es t hs) :
    Laid d' es t hs := by
  refine laid_of_holes (Nat.le_of_eq (by rw [hh])) (fun k _ => ?_) h
  rw [hole_congr hh]
  exact ⟨rfl, rfl⟩

theorem exists_of_laid {c : Nat} (h : Laid d es t hs) (hc : Entry.hole c ∈ es) :
    ∃ k ∈ hs, c = (d.hole k).child := by
  induction h with
  | nil => simp at hc
  | text s _ ih =>
    simp only [List.mem_append, List.mem_singleton, reduceCtorEq, or_false] at hc
    exact ih hc
  | @hole es t hs k _ _ _ ih =>
    simp only [List.mem_append, List.mem_singleton, Entry.hole.injEq] at hc ⊢
    rcases hc with hc | hc
    · obtain ⟨j, hj, he⟩ := ih hc
      exact ⟨j, Or.inl hj, he⟩
    · exact ⟨k, Or.inr rfl, hc⟩

/-- Drafts keep their logs: one that is not joined by its text and its holes, and one that was
joined before the draft around it by its text alone. -/
structure Faithful (log : Nat → List Entry) (d : Drafts τ) : Prop where
  forest : Forest d
  sealed : Sealed d
  laid : ∀ id, d.isJoined id = false → Laid d (log id) (d.text id) (d.draft id).holes.toList
  whole : ∀ h < d.holes.size, d.isJoined (d.hole h).parent = false →
    d.isJoined (d.hole h).child = true →
    Renders log (log (d.hole h).child) (d.text (d.hole h).child)
  deep : ∀ id, d.isJoined id = true → ∀ c, Entry.hole c ∈ log id → d.isJoined c = true

/-! ## Joining renders -/

/-- Filling the holes of a draft from the last one to the first replaces each by its text: the text
behind a hole does not move what stands before it. -/
theorem renders_laid (read : Nat → String) (hl : Laid d es t hs)
    (hread : ∀ h ∈ hs, Renders log (log (d.hole h).child) (read (d.hole h).child)) (rest : String) :
    ∃ r, Renders log es r ∧ hs.foldr (fun h text =>
      insertAt text (d.hole h).offset (read (d.hole h).child)) (t ++ rest) = r ++ rest := by
  induction hl generalizing rest with
  | nil => exact ⟨"", .nil, rfl⟩
  | text s _ ih =>
    -- Text after the last hole so far is never moved: it goes to what stands behind.
    obtain ⟨r, hr, he⟩ := ih hread (s ++ rest)
    refine ⟨r ++ s, renders_append hr (renders_text log s), ?_⟩
    rw [String.append_assoc, he, String.append_assoc]
  | @hole es t hs h _ hlt ho ih =>
    obtain ⟨r, hr, he⟩ := ih (fun k hk => hread k (List.mem_append_left _ hk))
      (read (d.hole h).child ++ rest)
    have hchild := hread h (List.mem_append_right _ List.mem_cons_self)
    refine ⟨r ++ read (d.hole h).child, renders_append hr (renders_hole hchild), ?_⟩
    rw [List.foldr_append, List.foldr_cons, List.foldr_nil, ho, insertAt_append,
      String.append_assoc, he, String.append_assoc]

theorem renders_render (hd : Faithful log d) (depth id : Nat) (hid : id < d.next)
    (hdepth : d.next ≤ depth + id)
    (hjoined : d.isJoined id = true → Renders log (log id) (d.text id)) :
    Renders log (log id) (d.render depth id) := by
  induction depth generalizing id with
  | zero => omega
  | succ depth ih =>
    cases hj : d.isJoined id with
    | true =>
      -- What was joined before has no holes, and its text stays as it is.
      rw [render, hd.sealed.empty id hj]
      exact hjoined hj
    | false =>
      -- The holes of a draft are younger than it, so the depth that is left is enough for them.
      have hread : ∀ h ∈ (d.draft id).holes.toList,
          Renders log (log (d.hole h).child) (d.render depth (d.hole h).child) := by
        intro h hm
        obtain ⟨hlt, hp⟩ := hd.forest.listed id h hm
        have hold := hd.forest.older h hlt
        exact ih _ (hd.forest.known h hlt) (by omega) (hd.whole h hlt (by rw [hp]; exact hj))
      obtain ⟨r, hr, he⟩ := renders_laid (d.render depth) (hd.laid id hj) hread ""
      rw [String.append_empty, String.append_empty] at he
      rw [render, he]
      exact hr

theorem renders_close {base : Drafts τ} (hb : Faithful log base) (depth id : Nat) (d : Drafts τ)
    (hr : Ready base d depth id)
    (hjoined : base.isJoined id = true → Renders log (log id) (base.text id)) :
    Renders log (log id) ((close depth d id).text id) := by
  rw [text_close hb.forest depth id d hr]
  exact renders_render hb depth id hr.known hr.deep hjoined

end GoToJava.Drafts
