import GoToJava.Scope
import GoToJava.Proofs.Draft.Forest

/-!
Names and the scopes that bind them. A parent is older than its children, so the way from a scope
through its parents ends, and a name is what it was last set to in the first scope on the way that
ever had it set.
-/

namespace GoToJava.Scopes

open Go (Expr)

/-! ## Operations -/

inductive Op where
  | new (parent : Option Nat)
  | setVar (scope : Nat) (name : String) (type : Expr)

def step (s : Scopes) : Op → Scopes
  | .new parent => s.new parent
  | .setVar scope name type => s.setVar scope name type

def run (ops : List Op) : Scopes := ops.foldl step {}

/-- The operation names a scope that is there. -/
def Names (s : Scopes) : Op → Prop
  | .new parent => ∀ i ∈ parent, i < s.next
  | .setVar scope _ _ => scope < s.next

/-- Each operation of a run names what is there when it comes. -/
def Named : Scopes → List Op → Prop
  | _, [] => True
  | s, op :: ops => s.Names op ∧ Named (s.step op) ops

/-- What the operation sets a name to in a scope. -/
def Op.sets (op : Op) (i : Nat) (name : String) : Option Expr :=
  match op with
  | .new _ => none
  | .setVar scope other type => if i = scope ∧ name = other then some type else none

/-- What a name is last set to in a scope. -/
def lastSet : List Op → Nat → String → Option Expr
  | [], _, _ => none
  | op :: ops, i, name => (lastSet ops i name).or (op.sets i name)

def scope (s : Scopes) (i : Nat) : Scope := s.scopes.getD i {}

/-- The way from a scope through its parents, up to one that has none. -/
inductive Chain (s : Scopes) : Nat → List Nat → Prop
  | last {i : Nat} : (s.scope i).parent = none → Chain s i [i]
  | next {i j : Nat} {chain : List Nat} : (s.scope i).parent = some j → Chain s j chain →
      Chain s i (i :: chain)

variable {s : Scopes} {op : Op} {ops : List Op} {i : Nat} {chain : List Nat}

/-! ## What an operation does -/

theorem scope_new (s : Scopes) (parent : Option Nat) (i : Nat) :
    (s.new parent).scope i = if i = s.next then { parent } else s.scope i :=
  getD_push _ _ _ _

theorem scope_setVar (s : Scopes) (t i : Nat) (name : String) (type : Expr) :
    (s.setVar t name type).scope i = if i = t ∧ i < s.next then
      { s.scope i with vars := (s.scope i).vars.set name type } else s.scope i :=
  getD_modify _ _ _ _ _

theorem get?_step (hop : s.Names op) (i : Nat) (name : String) :
    ((s.step op).scope i).vars.get? name =
      (op.sets i name).or ((s.scope i).vars.get? name) := by
  cases op with
  | new parent =>
    rw [step, scope_new]
    split
    · rename_i hi
      have hnone : s.scope i = {} := getD_of_size_le _ _ _ (Nat.le_of_eq hi.symm)
      rw [hnone]
      rfl
    · rfl
  | setVar t other type =>
    have ht : t < s.next := hop
    rw [step, scope_setVar]
    by_cases hi : i = t
    · subst hi
      rw [if_pos ⟨rfl, ht⟩, Op.sets, Table.get?_set]
      by_cases hname : name = other <;> simp [hname]
    · simp [Op.sets, hi]

theorem get?_run (hops : Named s ops) (i : Nat) (name : String) :
    ((ops.foldl step s).scope i).vars.get? name =
      (lastSet ops i name).or ((s.scope i).vars.get? name) := by
  induction ops generalizing s with
  | nil => rfl
  | cons op ops ih => rw [List.foldl_cons, ih hops.2, get?_step hops.1, lastSet, Option.or_assoc]

theorem parent_setVar (s : Scopes) (t i : Nat) (name : String) (type : Expr) :
    ((s.setVar t name type).scope i).parent = (s.scope i).parent := by
  rw [scope_setVar]
  split <;> rfl

/-! ## Parents are older -/

def Older (s : Scopes) : Prop := ∀ i j, (s.scope i).parent = some j → j < i

theorem older_step (hs : s.Older) (hop : s.Names op) : (s.step op).Older := by
  intro i j hj
  cases op with
  | new parent =>
    rw [step, scope_new] at hj
    split at hj
    · rename_i hi
      exact hi ▸ hop j hj
    · exact hs i j hj
  | setVar t name type =>
    rw [step, parent_setVar] at hj
    exact hs i j hj

theorem older_run (hs : s.Older) (hops : Named s ops) : (ops.foldl step s).Older := by
  induction ops generalizing s with
  | nil => exact hs
  | cons op ops ih => exact ih (older_step hs hops.1) hops.2

/-! ## Chains -/

theorem exists_chain (hs : s.Older) (i : Nat) : ∃ chain, s.Chain i chain ∧
    chain.Pairwise (· > ·) ∧ ∀ j ∈ chain, j ≤ i := by
  induction i using Nat.strongRecOn with
  | ind i ih =>
    cases hparent : (s.scope i).parent with
    | none => exact ⟨[i], .last hparent, List.pairwise_singleton _ _, by simp⟩
    | some j =>
      have hj := hs i j hparent
      obtain ⟨chain, hchain, hdown, hle⟩ := ih j hj
      have hlt : ∀ k ∈ chain, k < i := fun k hk => Nat.lt_of_le_of_lt (hle k hk) hj
      refine ⟨i :: chain, .next hparent hchain, List.pairwise_cons.2 ⟨hlt, hdown⟩, ?_⟩
      exact List.forall_mem_cons.2 ⟨Nat.le_refl i, fun k hk => Nat.le_of_lt (hlt k hk)⟩

theorem chain_unique {other : List Nat} (h : s.Chain i chain) (h' : s.Chain i other) :
    other = chain := by
  induction h generalizing other with
  | last hnone =>
    cases h' with
    | last => rfl
    | next hsome => simp [hnone] at hsome
  | next hsome _ ih =>
    cases h' with
    | last hnone => simp [hnone] at hsome
    | next hsome' h' =>
      obtain rfl := Option.some_inj.1 (hsome.symm.trans hsome')
      rw [ih h']

theorem chain_setVar (t : Nat) (name : String) (type : Expr) (h : s.Chain i chain) :
    (s.setVar t name type).Chain i chain := by
  induction h with
  | last hnone => exact .last ((parent_setVar ..).trans hnone)
  | next hsome _ ih => exact .next ((parent_setVar ..).trans hsome) ih

/-- A name is looked for along the chain, and the look ends with it. -/
theorem var_eq (hs : s.Older) (h : s.Chain i chain) (name : String) :
    s.var i name = chain.findSome? fun j => (s.scope j).vars.get? name := by
  induction h with
  | @last i hnone =>
    have hhere : s.scopes.getD i {} = s.scope i := rfl
    rw [var, hhere, hnone, List.findSome?_singleton]
    cases (s.scope i).vars.get? name <;> rfl
  | @next i j chain hsome _ ih =>
    have hhere : s.scopes.getD i {} = s.scope i := rfl
    rw [var, hhere, hsome, List.findSome?_cons]
    cases (s.scope i).vars.get? name with
    | some type => rfl
    | none => exact (if_pos (hs i j hsome)).trans ih

/-- Tables that differ for one scope show it only where no scope before it has the name. -/
theorem exists_of_findSome?_ne {f g : Nat → Option Expr} {t : Nat} (hsame : ∀ j ≠ t, f j = g j)
    (hne : chain.findSome? f ≠ chain.findSome? g) :
    ∃ before after, chain = before ++ t :: after ∧ ∀ j ∈ before, g j = none := by
  induction chain with
  | nil => exact absurd rfl hne
  | cons j chain ih =>
    by_cases hj : j = t
    · exact ⟨[], chain, by rw [hj]; rfl, by simp⟩
    · rw [List.findSome?_cons, List.findSome?_cons, hsame j hj] at hne
      cases hg : g j with
      | some type => simp [hg] at hne
      | none =>
        rw [hg] at hne
        obtain ⟨before, after, rfl, hbefore⟩ := ih hne
        exact ⟨j :: before, after, rfl, List.forall_mem_cons.2 ⟨hg, hbefore⟩⟩

/-- The way from each scope through its parents is one chain, which goes down and ends. A name is
what it was last set to in the first scope of the chain that ever had it set. Setting a name changes
what it is only from scopes with the set one in their chains, and none before it that binds the
name. -/
theorem names_have_the_nearest_binding (ops : List Op) (hops : Named {} ops) (i : Nat) :
    let s := run ops
    ∃ chain, s.Chain i chain ∧ (∀ other, s.Chain i other → other = chain) ∧
      chain.Pairwise (· > ·) ∧
      (∀ name, s.var i name = chain.findSome? fun j => lastSet ops j name) ∧
      ∀ t name type other, (s.setVar t name type).var i other ≠ s.var i other →
        other = name ∧ ∃ before after, chain = before ++ t :: after ∧
          ∀ j ∈ before, lastSet ops j name = none := by
  intro s
  have hnone : ∀ i, ({} : Scopes).scope i = {} := fun _ => rfl
  have hs : s.Older := older_run (fun i j hj => by rw [hnone] at hj; cases hj) hops
  have htable : ∀ j name, (s.scope j).vars.get? name = lastSet ops j name := by
    intro j name
    refine (get?_run hops j name).trans ?_
    rw [hnone, Table.get?_empty, Option.or_none]
  obtain ⟨chain, hchain, hdown, -⟩ := exists_chain hs i
  refine ⟨chain, hchain, fun _ => chain_unique hchain, hdown, fun name => ?_, ?_⟩
  · rw [var_eq hs hchain]
    simp only [htable]
  · intro t name type other hne
    have hset : (s.setVar t name type).Older := fun i j hj => hs i j (parent_setVar .. ▸ hj)
    rw [var_eq hset (chain_setVar t name type hchain), var_eq hs hchain] at hne
    have hsame : ∀ j, j ≠ t ∨ other ≠ name →
        ((s.setVar t name type).scope j).vars.get? other = (s.scope j).vars.get? other := by
      intro j hj
      rw [scope_setVar]
      split
      · rename_i hjt
        rw [Table.get?_set, if_neg (hj.resolve_left (not_not.2 hjt.1))]
      · rfl
    have hname : other = name := by
      by_contra hother
      exact hne (congrArg (chain.findSome? ·) (funext fun j => hsame j (.inr hother)))
    subst hname
    obtain ⟨before, after, hsplit, hbefore⟩ :=
      exists_of_findSome?_ne (fun j hj => hsame j (.inl hj)) hne
    exact ⟨rfl, before, after, hsplit, fun j hj => (htable j other).symm.trans (hbefore j hj)⟩

/-- A name that is set anew in the inner of two scopes, and one that only the outer one has. -/
theorem inner_names_hide_outer_ones :
    let ops : List Op := [.new none, .setVar 0 "a" (.ident "int"), .setVar 0 "b" (.ident "int"),
      .new (some 0), .setVar 1 "a" (.ident "bool"), .setVar 1 "a" (.ident "string")]
    Named {} ops ∧ (run ops).var 1 "a" = some (.ident "string") ∧
      (run ops).var 1 "b" = some (.ident "int") := by
  intro ops
  have hops : Named {} ops := by
    simp only [ops, Named, Names]
    decide
  obtain ⟨chain, -, hone, -, hvar, -⟩ := names_have_the_nearest_binding ops hops 1
  obtain rfl : [1, 0] = chain := hone _ (.next (j := 0) rfl (.last rfl))
  exact ⟨hops, hvar "a", hvar "b"⟩

end GoToJava.Scopes
