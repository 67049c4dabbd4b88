import GoToJava.Proofs.Java.Lexing
import Mathlib.Data.List.Induction
import Mathlib.Data.List.Nodup

/-!
Assignments of Java, made one after the other. A machine says where a place is and what a value is.
Each place has in the end the value that was meant for it at the start exactly if each value is the
same at its turn, and that is so on every machine exactly if no assignment reads a name that an
earlier one assigns to.
-/

namespace GoToJava.Java

variable {l : List Token × Prop} {ts : List Token}

/-! ## Reading -/

/-- The tokens on both sides of an assignment. -/
structure Assignment where
  place : List Token
  value : List Token
  deriving DecidableEq, Repr

def Assignment.tokens (a : Assignment) : List Token :=
  a.place ++ .operator ['='] :: a.value ++ [.separator ';']

/-- The assignment that some tokens make. -/
def assignment? (ts : List Token) : Option Assignment :=
  match ts.dropWhile (· != .operator ['=']) with
  | _ :: value => some ⟨ts.takeWhile (· != .operator ['=']), value⟩
  | [] => none

/-- The assignments that are made by statements. `before` was read of the first of them. -/
def assignmentsFrom (before : List Token) : List Token → Option (List Assignment)
  | [] => if before = [] then some [] else none
  | t :: ts =>
    if t = .separator ';' then
      (assignment? before).bind fun a => (assignmentsFrom [] ts).map (a :: ·)
    else assignmentsFrom (before ++ [t]) ts

/-- The assignments of a text. -/
def assignments? (text : String) : Option (List Assignment) :=
  (scan text).bind (assignmentsFrom [])

/-- The tokens of a text that can be read. -/
def tokensOf (text : String) : List Token := (scan text).getD []

/-- Tokens that may stand on a side of an assignment. -/
def Token.IsInner (t : Token) : Prop := t ≠ .operator ['='] ∧ t ≠ .separator ';'

theorem assignment?_eq {place : List Token} (value : List Token) (h : ∀ t ∈ place, t.IsInner) :
    assignment? (place ++ .operator ['='] :: value) = some ⟨place, value⟩ := by
  have hplace : ∀ t ∈ place, (t != .operator ['=']) = true := fun t ht => bne_iff_ne.2 (h t ht).1
  unfold assignment?
  rw [List.dropWhile_append_of_pos hplace, List.takeWhile_append_of_pos hplace]
  simp

theorem assignmentsFrom_append (before rest : List Token) (h : ∀ t ∈ ts, t ≠ .separator ';') :
    assignmentsFrom before (ts ++ .separator ';' :: rest) =
      (assignment? (before ++ ts)).bind fun a => (assignmentsFrom [] rest).map (a :: ·) := by
  induction ts generalizing before with
  | nil => simp [assignmentsFrom]
  | cons t ts ih =>
    have ht := h t List.mem_cons_self
    have hrest := ih (before ++ [t]) fun u hu => h u (List.mem_cons_of_mem _ hu)
    rw [List.append_assoc, List.singleton_append] at hrest
    rw [List.cons_append, assignmentsFrom, if_neg ht, hrest]

theorem assignmentsFrom_tokens (h : ∀ a ∈ as, ∀ t ∈ a.place ++ a.value, t.IsInner) :
    assignmentsFrom [] (as.flatMap Assignment.tokens) = some as := by
  induction as with
  | nil => rfl
  | cons a as ih =>
    have hinner := h a List.mem_cons_self
    have hsides : ∀ t ∈ a.place ++ .operator ['='] :: a.value, t ≠ .separator ';' := by
      intro t ht
      rcases List.mem_append.1 ht with ht | ht
      · exact (hinner t (List.mem_append_left _ ht)).2
      · rcases List.mem_cons.1 ht with rfl | ht
        · exact Token.noConfusion
        · exact (hinner t (List.mem_append_right _ ht)).2
    have hplace := assignment?_eq a.value fun t ht => hinner t (List.mem_append_left _ ht)
    rw [List.flatMap_cons, Assignment.tokens, List.append_assoc, List.singleton_append,
      assignmentsFrom_append [] _ hsides, List.nil_append, hplace,
      ih fun b hb => h b (List.mem_cons_of_mem _ hb)]
    rfl

/-! ## Running -/

/-- What assignments mean: where a place is, what a value is, and a store that keeps what was put
into it last. -/
structure Machine (Store Loc Value : Type) where
  locate : Store → List Token → Loc
  value : Store → List Token → Value
  get : Store → Loc → Value
  put : Store → Loc → Value → Store
  get_put_self : ∀ s l v, get (put s l v) l = v
  get_put_ne : ∀ s v {l l'}, l' ≠ l → get (put s l v) l' = get s l'

namespace Machine

variable {Store Loc Value : Type} (M : Machine Store Loc Value) (s : Store)

/-- One assignment. -/
def step (s : Store) (a : Assignment) : Store := M.put s (M.locate s a.place) (M.value s a.value)

def run (as : List Assignment) : Store := as.foldl M.step s

/-- At the start the places are apart, and each place is still where it was when its turn comes. -/
structure Steady (as : List Assignment) : Prop where
  apart : (as.map fun a => M.locate s a.place).Nodup
  still : ∀ i (h : i < as.length),
    M.locate (M.run s (as.take i)) as[i].place = M.locate s as[i].place

variable {M s} {as : List Assignment}

theorem run_append_singleton (a : Assignment) : M.run s (as ++ [a]) = M.step (M.run s as) a :=
  List.foldl_append

theorem Steady.init {a : Assignment} (h : M.Steady s (as ++ [a])) :
    M.Steady s as ∧ M.locate (M.run s as) a.place = M.locate s a.place ∧
      ∀ b ∈ as, M.locate s b.place ≠ M.locate s a.place := by
  obtain ⟨hapart, hstill⟩ := h
  rw [List.map_append, List.nodup_append] at hapart
  refine ⟨⟨hapart.1, ?_⟩, ?_, ?_⟩
  · intro i hi
    have hlt : i < (as ++ [a]).length := by
      rw [List.length_append]
      exact Nat.lt_add_right _ hi
    have hturn := hstill i hlt
    rw [List.getElem_append_left hi, List.take_append_of_le_length (Nat.le_of_lt hi)] at hturn
    exact hturn
  · simpa using hstill as.length (by simp)
  · intro b hb
    exact hapart.2.2 _ (List.mem_map.2 ⟨b, hb, rfl⟩) _ List.mem_cons_self

/-- Each place has in the end what its value was at its turn. -/
theorem get_run (h : M.Steady s as) {i : Nat} (hi : i < as.length) :
    M.get (M.run s as) (M.locate s as[i].place) = M.value (M.run s (as.take i)) as[i].value := by
  induction as using List.reverseRecOn with
  | nil => simp at hi
  | append_singleton as a ih =>
    obtain ⟨hsteady, hstill, hapart⟩ := h.init
    rw [run_append_singleton, step, hstill]
    by_cases hlast : i < as.length
    · rw [List.getElem_append_left hlast, List.take_append_of_le_length (Nat.le_of_lt hlast),
        M.get_put_ne _ _ (hapart _ (List.getElem_mem hlast))]
      exact ih hsteady hlast
    · have hlen : i = as.length := by
        rw [List.length_append, List.length_singleton] at hi
        omega
      subst hlen
      rw [List.getElem_concat_length rfl, List.take_left, M.get_put_self]

/-- Each place has in the end the value that was meant for it at the start exactly if each value is
the same at its turn. -/
theorem forall_get_run_iff (h : M.Steady s as) : (∀ i (hi : i < as.length),
        M.get (M.run s as) (M.locate s as[i].place) = M.value s as[i].value) ↔
      ∀ i (hi : i < as.length),
        M.value (M.run s (as.take i)) as[i].value = M.value s as[i].value := by
  refine forall₂_congr fun i hi => ?_
  rw [get_run h hi]

/-! ## Assignments that keep out of each other's way -/

/-- Every location is under a name, that of the variable or the array it belongs to. What is put
there changes no value and moves no place that is said without the name. -/
structure Named (M : Machine Store Loc Value) (owner : Loc → Option Token) : Prop where
  owner_locate : ∀ s place, owner (M.locate s place) = place.head?
  value_put : ∀ s l v {ts}, (∀ t ∈ owner l, t ∉ ts) → M.value (M.put s l v) ts = M.value s ts
  locate_put : ∀ s l v {ts}, (∀ t ∈ owner l, t ∉ ts.tail) →
    M.locate (M.put s l v) ts = M.locate s ts

variable {owner : Loc → Option Token} {ts : List Token}

/-- What no assignment changes is the same after all of them. -/
theorem run_unchanged {α : Type} (f : Store → α) (h : ∀ a ∈ as, ∀ s, f (M.step s a) = f s) :
    f (M.run s as) = f s := by
  induction as generalizing s with
  | nil => rfl
  | cons a as ih =>
    calc f (M.run (M.step s a) as)
      _ = f (M.step s a) := ih fun b hb => h b (List.mem_cons_of_mem _ hb)
      _ = f s := h a List.mem_cons_self s

theorem Named.value_run (hM : M.Named owner) (h : ∀ a ∈ as, ∀ t ∈ a.place.head?, t ∉ ts) :
    M.value (M.run s as) ts = M.value s ts := by
  refine run_unchanged (M.value · ts) fun a ha s => hM.value_put _ _ _ ?_
  rw [hM.owner_locate]
  exact h a ha

theorem Named.locate_run (hM : M.Named owner) (h : ∀ a ∈ as, ∀ t ∈ a.place.head?, t ∉ ts.tail) :
    M.locate (M.run s as) ts = M.locate s ts := by
  refine run_unchanged (M.locate · ts) fun a ha s => hM.locate_put _ _ _ ?_
  rw [hM.owner_locate]
  exact h a ha

end Machine

/-- What is read for the assignment: its value, and of its place all but the name. -/
def Assignment.read (a : Assignment) : List Token := a.place.tail ++ a.value

/-- No assignment reads a name that an earlier one assigns to. -/
def Independent (as : List Assignment) : Prop :=
  as.Pairwise fun a b => ∀ t ∈ a.place.head?, t ∉ b.read

instance (as : List Assignment) : Decidable (Independent as) :=
  inferInstanceAs (Decidable (as.Pairwise _))

/-- On every machine of names, and from every store in which the places are apart, each place gets
the value that was meant for it at the start. -/
def Simultaneous (as : List Assignment) : Prop :=
  ∀ {Store Loc Value : Type} (M : Machine Store Loc Value) (owner : Loc → Option Token),
    M.Named owner → ∀ s, (as.map fun a => M.locate s a.place).Nodup →
      ∀ i (hi : i < as.length),
        M.get (M.run s as) (M.locate s as[i].place) = M.value s as[i].value

variable {as : List Assignment}

theorem Independent.of_mem_take (h : Independent as) {i : Nat} (hi : i < as.length) :
    ∀ a ∈ as.take i, ∀ t ∈ a.place.head?, t ∉ as[i].place.tail ∧ t ∉ as[i].value := by
  intro a ha t ht
  obtain ⟨j, hj, rfl⟩ := List.mem_take_iff_getElem.1 ha
  have hlt : j < i := by omega
  have hread := List.pairwise_iff_getElem.1 h j i (by omega) hi hlt t ht
  rw [Assignment.read, List.mem_append] at hread
  exact not_or.1 hread

theorem Independent.simultaneous (h : Independent as) : Simultaneous as := by
  intro Store Loc Value M owner hM s hapart
  have hsteady : M.Steady s as := by
    refine ⟨hapart, fun i hi => ?_⟩
    exact hM.locate_run fun a ha t ht => (h.of_mem_take hi a ha t ht).1
  refine (Machine.forall_get_run_iff hsteady).2 fun i hi => ?_
  exact hM.value_run fun a ha t ht => (h.of_mem_take hi a ha t ht).2

/-! The other way round, a machine that only notes what has been assigned to finds out what is read
too late. -/

/-- No location under a name among the tokens is marked. -/
def Fresh (marked : List Token × Prop → Prop) (ts : List Token) : Prop :=
  ∀ l, marked l → ∀ t ∈ l.1.head?, t ∉ ts

/-- The machine that marks a location if its value was fresh. A place whose index is not fresh is
another location. -/
def marker : Machine (List Token × Prop → Prop) (List Token × Prop) Prop where
  locate s place := (place, Fresh s place.tail)
  value s value := Fresh s value
  get s l := s l
  put s l v := fun l' => (l' = l ∧ v) ∨ (l' ≠ l ∧ s l')
  get_put_self _ _ _ := by simp
  get_put_ne _ _ _ _ h := by simp [h]

theorem fresh_put (s : List Token × Prop → Prop) (v : Prop) (h : ∀ t ∈ l.1.head?, t ∉ ts) :
    Fresh (marker.put s l v) ts = Fresh s ts := by
  refine propext ⟨fun hfresh l' hl' => ?_, fun hfresh l' hl' => ?_⟩
  · by_cases hsame : l' = l
    · rw [hsame]
      exact h
    · exact hfresh l' (Or.inr ⟨hsame, hl'⟩)
  · rcases hl' with ⟨rfl, -⟩ | ⟨-, hl'⟩
    · exact h
    · exact hfresh l' hl'

theorem marker_named : marker.Named fun l => l.1.head? where
  owner_locate _ _ := rfl
  value_put s _ v _ h := fresh_put s v h
  locate_put s _ v _ h := Prod.ext rfl (fresh_put s v h)

/-- The store in which nothing is marked. -/
def unmarked (_ : List Token × Prop) : Prop := False

theorem fresh_unmarked (ts : List Token) : Fresh unmarked ts := fun _ h => h.elim

theorem place_mem_of_marked (h : marker.run unmarked as l) : l.1 ∈ as.map Assignment.place := by
  induction as using List.reverseRecOn with
  | nil => exact h.elim
  | append_singleton as a ih =>
    rw [Machine.run_append_singleton] at h
    rw [List.map_append, List.mem_append]
    rcases h with ⟨rfl, -⟩ | ⟨-, h⟩
    · exact Or.inr List.mem_cons_self
    · exact Or.inl (ih h)

/-- Where all locations get marked, nothing was read too late. The induction takes away the last
assignment, which marks no location of the others. -/
theorem independent_of_marked (hapart : (as.map Assignment.place).Nodup)
    (h : ∀ a ∈ as, marker.run unmarked as (a.place, True)) : Independent as := by
  induction as using List.reverseRecOn with
  | nil => exact List.Pairwise.nil
  | append_singleton as a ih =>
    rw [List.map_append, List.map_singleton, List.nodup_append] at hapart
    obtain ⟨hapart, -, hlast⟩ := hapart
    rw [Machine.run_append_singleton] at h
    have hmarked : ∀ b ∈ as, marker.run unmarked as (b.place, True) := by
      intro b hb
      rcases h b (List.mem_append_left _ hb) with ⟨heq, -⟩ | ⟨-, hb⟩
      · have hplace : b.place = a.place := congrArg Prod.fst heq
        exact absurd hplace (hlast _ (List.mem_map_of_mem hb) _ List.mem_cons_self)
      · exact hb
    have hfresh : Fresh (marker.run unmarked as) a.place.tail ∧
        Fresh (marker.run unmarked as) a.value := by
      rcases h a (List.mem_append_right _ List.mem_cons_self) with ⟨heq, hvalue⟩ | ⟨-, ha⟩
      · exact ⟨of_eq_true (congrArg Prod.snd heq).symm, hvalue⟩
      · exact absurd rfl (hlast _ (place_mem_of_marked ha) _ List.mem_cons_self)
    refine List.pairwise_append.2 ⟨ih hapart hmarked, List.pairwise_singleton _ _, ?_⟩
    intro b hb c hc t ht
    rw [List.mem_singleton.1 hc, Assignment.read, List.mem_append]
    exact not_or.2 ⟨hfresh.1 _ (hmarked b hb) t ht, hfresh.2 _ (hmarked b hb) t ht⟩

/-- Assignments to different places are as good as simultaneous ones exactly if none of them reads
a name that an earlier one assigns to. -/
theorem simultaneous_iff (hapart : (as.map Assignment.place).Nodup) :
    Simultaneous as ↔ Independent as := by
  refine ⟨fun h => independent_of_marked hapart fun a ha => ?_, Independent.simultaneous⟩
  have hlocate : ∀ b : Assignment, marker.locate unmarked b.place = (b.place, True) := fun b =>
    Prod.ext rfl (eq_true (fresh_unmarked _))
  have hnodup : (as.map fun b => marker.locate unmarked b.place).Nodup := by
    refine List.Nodup.of_map Prod.fst ?_
    rw [List.map_map]
    exact hapart
  obtain ⟨i, hi, rfl⟩ := List.getElem_of_mem ha
  have hmarked := h marker _ marker_named unmarked hnodup i hi
  rw [hlocate] at hmarked
  exact hmarked.mpr (fresh_unmarked _)

end GoToJava.Java
