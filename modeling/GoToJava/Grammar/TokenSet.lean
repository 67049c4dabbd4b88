/-!
Finite sets of terminal numbers, as bits of two words.
-/

namespace GoToJava.Grammar

/-- A set of numbers below 120. -/
structure TokenSet where
  low : Nat := 0
  high : Nat := 0
  deriving DecidableEq, Hashable, Inhabited

namespace TokenSet

def empty : TokenSet := {}

def isEmpty (s : TokenSet) : Bool := s.low == 0 && s.high == 0

def single (i : Nat) : TokenSet :=
  if i < 60 then { low := 1 <<< i } else { high := 1 <<< (i - 60) }

def union (s t : TokenSet) : TokenSet := ⟨s.low ||| t.low, s.high ||| t.high⟩

def inter (s t : TokenSet) : TokenSet := ⟨s.low &&& t.low, s.high &&& t.high⟩

/-- The numbers that are in one of the two sets only. -/
def symmDiff (s t : TokenSet) : TokenSet := ⟨s.low ^^^ t.low, s.high ^^^ t.high⟩

def contains (s : TokenSet) (i : Nat) : Bool :=
  if i < 60 then s.low.testBit i else s.high.testBit (i - 60)

def insert (s : TokenSet) (i : Nat) : TokenSet := s.union (single i)

def erase (s : TokenSet) (i : Nat) : TokenSet := s.symmDiff (s.inter (single i))

/-- Whether the sets have a number in common. -/
def meets (s t : TokenSet) : Bool := !(s.inter t).isEmpty

/-- The numbers of the set, in ascending order. -/
def toList (s : TokenSet) : List Nat :=
  if s.isEmpty then [] else (List.range 120).filter s.contains

end TokenSet

end GoToJava.Grammar
