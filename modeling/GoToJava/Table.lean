/-!
Tables from names to values. Setting a name replaces its value, and adding one keeps the value that
is there.
-/

namespace GoToJava

/-- A table from names to values. The first entry of a name counts. -/
structure Table (α : Type) where
  entries : List (String × α) := []
  deriving Inhabited

namespace Table

variable {α : Type}

def get? (t : Table α) (name : String) : Option α := t.entries.lookup name

def contains (t : Table α) (name : String) : Bool := (t.get? name).isSome

/-- The value of a name from now on. -/
def set (t : Table α) (name : String) (value : α) : Table α := ⟨(name, value) :: t.entries⟩

/-- The value of a name that has none yet. -/
def add (t : Table α) (name : String) (value : α) : Table α :=
  if t.contains name then t else t.set name value

def ofList (entries : List (String × α)) : Table α := ⟨entries⟩

@[simp]
theorem get?_empty (name : String) : ({} : Table α).get? name = none := rfl

theorem get?_set (t : Table α) (name other : String) (value : α) :
    (t.set name value).get? other = if other = name then some value else t.get? other := by
  unfold get? set
  by_cases h : other = name
  · simp [h]
  · simp [List.lookup_cons, beq_eq_false_iff_ne.2 h, h]

/-- Adding never changes a value that is there. -/
theorem get?_add_of_get? (t : Table α) (name other : String) (value old : α)
    (h : t.get? other = some old) : (t.add name value).get? other = some old := by
  unfold add
  split
  · exact h
  · rename_i hn
    rw [get?_set]
    split
    · rename_i e
      subst e
      simp [contains, h] at hn
    · exact h

end Table

end GoToJava
