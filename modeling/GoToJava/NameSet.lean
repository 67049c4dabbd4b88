/-! Sets of names in ascending order. -/

namespace GoToJava

/-- A set of names, each once and in ascending order. -/
structure NameSet where
  names : List String := []
  deriving DecidableEq, Repr, Inhabited

namespace NameSet

/-- Puts a name at its place in an ascending list that may hold it already. -/
def place (name : String) : List String → List String
  | [] => [name]
  | n :: ns =>
    if name < n then name :: n :: ns else if name = n then n :: ns else n :: place name ns

def insert (s : NameSet) (name : String) : NameSet := ⟨place name s.names⟩

def contains (s : NameSet) (name : String) : Bool := s.names.contains name

def isEmpty (s : NameSet) : Bool := s.names.isEmpty

theorem mem_place {name x : String} {ns : List String} :
    x ∈ place name ns ↔ x = name ∨ x ∈ ns := by
  induction ns with
  | nil => simp [place]
  | cons n ns ih =>
    unfold place
    split
    · simp
    · split
      · rename_i h
        simp [h]
      · simp [ih, or_left_comm]

end NameSet

end GoToJava
