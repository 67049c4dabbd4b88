import GoToJava.Go.Reader

/-! Why a program cannot be brought to Java. -/

namespace GoToJava

inductive ProgramError where
  /-- A source file that cannot be read. -/
  | unreadable (path : String) (cause : Go.ReadError)
  /-- A file that comes when the program is final. -/
  | final
  | alreadyFlattened
  deriving DecidableEq, Repr, Inhabited

def ProgramError.message : ProgramError → String
  | unreadable path cause => path ++ ": " ++ cause.message
  | final => "discover is not allowed after finalization"
  | alreadyFlattened => "program output has already been flattened"

end GoToJava
