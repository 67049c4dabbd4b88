import GoToJava.CommandLine
import GoToJava.Project.Run

/-! The command line. -/

namespace GoToJava

/-- The files in a directory entry, each as the names that lead to it. Links are not followed. -/
partial def filesIn (entry : IO.FS.DirEntry) : IO (List (List String)) := do
  match (← entry.path.symlinkMetadata).type with
  | .file => return [[entry.fileName]]
  | .dir =>
    let found ← (← entry.path.readDir).toList.mapM filesIn
    return found.flatten.map (entry.fileName :: ·)
  | _ => return []

/-- Whether an action ends without an error. -/
def succeeds (action : IO Unit) : IO Bool := do
  return (← action.toBaseIO).toBool

/-- The disk of the machine. -/
def machineDisk : Disk IO where
  readText path := do
    return (← (IO.FS.readFile path).toBaseIO).toOption
  walk path := do
    let start ← IO.FS.realPath path
    if ← start.isDir then
      return (← (← start.readDir).toList.mapM filesIn).flatten
    else
      return if ← start.pathExists then [[]] else []
  makeDirs path := do
    if path.isEmpty then return true
    else succeeds (IO.FS.createDirAll path)
  writeText path text := succeeds (IO.FS.writeFile path text)

def fail (message : String) : IO UInt32 := do
  IO.eprintln ("Error: " ++ message)
  return 1

/-- Runs what the arguments ask for. -/
def execute (c : CommandLine) : IO UInt32 := do
  let file ← match c.values.lookup .configFile with
    | some path => Config.read machineDisk path
    | none => .ok <$> Config.load machineDisk "."
  match file with
  | .error e => fail e.message
  | .ok file =>
    let config := (file.withEnvironment (← IO.getEnv "GOROOT")).merge c.config
    let report := if c.switches.contains .json then Report.json else config.report
    match ← run machineDisk config with
    | .error e => fail e.message
    | .ok summary =>
      IO.print (report.text summary)
      if summary.failed.isEmpty then return 0
      else fail (toString summary.failed.length ++ " files could not be written")

end GoToJava

open GoToJava in
def main (args : List String) : IO UInt32 := do
  match CommandLine.read {} args with
  | .error e =>
    IO.eprintln ("error: " ++ e.message)
    return 2
  | .ok c =>
    if c.switches.contains .help then
      IO.print CommandLine.helpText
      return 0
    else if c.switches.contains .version then
      IO.print CommandLine.versionText
      return 0
    else execute c
