/-!
Files. A run reads and writes through a `Disk`, which may be the machine's or a tree in memory.
-/

namespace GoToJava

/-- What a run asks of a file system. -/
structure Disk (m : Type → Type) where
  /-- The text of a file, unless there is none or it is not UTF-8. -/
  readText : String → m (Option String)
  /-- All files in a directory and below, each as the names that lead to it. A file is found in
  itself. -/
  walk : String → m (List (List String))
  /-- Makes a directory and the directories above it; answers whether it is there. -/
  makeDirs : String → m Bool
  /-- Writes a file; answers whether it could be done. -/
  writeText : String → String → m Bool

end GoToJava
