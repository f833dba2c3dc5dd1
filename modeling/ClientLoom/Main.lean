import ClientLoom.BuildInfo
import ClientLoom.CommandLine.Run

/-! # The program

Reads the files that a run looks at, runs it and writes the files that changed. -/

namespace ClientLoom

/-- Whether a path leads to a directory. -/
def isDirectory (path : String) : IO Bool := do
  try
    (← IO.FS.realPath path).isDir
  catch _ => return false

/-- Adds a file, or all files of a directory, to a tree; what cannot be read is left out. -/
partial def gather (t : FileTree) (path : String) : IO FileTree := do
  try
    if ← isDirectory path then
      let t := { t with dirs := t.dirs ++ [FileTree.placeOf path] }
      let entries ← (← IO.FS.realPath path).readDir
      entries.foldlM (fun t e => gather t (path ++ "/" ++ e.fileName)) t
    else return t.put (FileTree.placeOf path) (← IO.FS.readFile path)
  catch _ => return t

/-- Adds what is at a path and the files in its way to a tree. -/
def gatherWay (t : FileTree) (path : String) : IO FileTree := do
  let way ← (FileTree.stages path).dropLast.filterM fun s => return !(← isDirectory s)
  (way ++ [path]).foldlM gather t

/-- The variables of the environment that a run looks at. -/
def gatherVariables : IO (List (String × String)) := do
  let found ← Config.variableKeys.mapM fun key => do
    let name := Config.Key.variableOf key
    return (← IO.getEnv name).map fun v => (name, v)
  return found.filterMap id

/-- Writes the files that a run changed. -/
def writeChanges (before after : FileTree) : IO Unit :=
  (after.changesSince before).forM fun (place, text) => do
    IO.FS.createDirAll (SlashPath.dir (FileTree.pathOf place))
    IO.FS.writeFile (FileTree.pathOf place) text

end ClientLoom

open ClientLoom

/-- Runs the program on its arguments. -/
def main (args : List String) : IO UInt32 := do
  let around : CommandLine.Surroundings :=
    { version := BuildInfo.version ⟨"", []⟩
      environment := ← gatherVariables
      terminal := ← (← IO.getStdout).isTty }
  let known ← ((CommandLine.reads around {} args).take 1).foldlM gatherWay {}
  let before ← (CommandLine.reads around known args).foldlM gatherWay known
  let out := CommandLine.run around before args
  for r in out.records do IO.eprintln (r.line out.json)
  writeChanges before out.files
  IO.print out.printed
  match out.result with
  | .ok () => return 0
  | .error f =>
      IO.eprintln (CommandLine.Command.main.name ++ ": " ++ f.message)
      return 1
