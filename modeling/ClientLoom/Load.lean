import ClientLoom.Archive
import ClientLoom.Dump.Decode
import ClientLoom.FileTree
import ClientLoom.Log

/-! # Loading dumps

Dumps lie in a directory or in an archive, below a directory for each group of inputs.  The
loader decodes those of the accepted groups, in the order of a walk through the directory or in
the order of their names in the archive. -/

namespace ClientLoom
namespace Load

/-- A decoded partial module with its group. -/
structure Part where
  group : String
  module : Module

/-- What the loader is asked for. -/
structure Options where
  /-- the accepted groups -/
  groups : List String
  /-- whether the run was cancelled -/
  cancelled : Bool := false

/-- A dump that waits to be decoded. -/
structure Source where
  group : String
  name : String
  content : Except Failure String

/-- Whether a file holds a dump, by its name. -/
def isDump (name : String) : Bool :=
  let ending := (SlashPath.extension name).map Char.toLower
  ending = ".yaml" || ending = ".yml"

/-- The group of a file: the first part of its name, when it is accepted and more follows. -/
def group? (groups : List String) (name : String) : Option String :=
  match Text.cutAt? ['/'] name.toList with
  | none => none
  | some (first, rest) =>
      let group := String.ofList first
      if rest.isEmpty || !groups.contains group then none else some group

/-- Records that a file is in no accepted group. -/
def skip (name : String) : Logged Unit :=
  Logged.debug "loader skipped file outside groups" [("file", .text name)]

/-- The source for a file, or a record that it is skipped; files without a dump are passed over
in silence. -/
def select (groups : List String) (name : String) (content : Except Failure String) :
    Logged (List Source) :=
  if isDump name then
    match group? groups name with
    | some group => pure [⟨group, name, content⟩]
    | none => do
        skip name
        pure []
  else pure []

/-- The sources among files. -/
def selectAll (groups : List String) (files : List (String × Except Failure String)) :
    Logged (List Source) := do
  let sources ← files.mapM fun f => select groups f.1 f.2
  pure sources.flatten

/-- Decodes one source. -/
def Source.decode (s : Source) : Except Failure Part := do
  let text ← locate ("read " ++ s.name) s.content
  let m ← Dump.decode s.name text
  pure ⟨s.group, m⟩

/-- Decodes sources in order; the first that fails decides. -/
def decodeAll (cancelled : Bool) (sources : List Source) : Logged (List Part) :=
  if sources.isEmpty then pure []
  else if cancelled then Logged.fail (.of .cancelled)
  else do
    let parts ← Logged.ofExcept (sources.mapM Source.decode)
    Logged.debug "loader decoded files" [("files", .number parts.length)]
    pure parts

/-- Loads the dumps of an archive in the order of their names. -/
def archive (a : Archive) (opts : Options) : Logged (List Part) := do
  let files := a.files.map fun f => (SlashPath.clean f.1, Except.ok f.2)
  let sources ← selectAll opts.groups files
  decodeAll opts.cancelled (sources.mergeSort fun a b => decide (a.name ≤ b.name))

/-- Loads the dumps of an archive in a file. -/
def archiveFile (t : FileTree) (path : String) (opts : Options) : Logged (List Part) := do
  let text ← Logged.ofExcept (locate ("read archive " ++ path) (t.read path))
  archive (Archive.parse text) opts

/-- The files below a place with their names as they are seen from there. -/
def filesBelow (t : FileTree) (p : Place) : List (String × Except Failure String) :=
  (t.below p).map fun q =>
    ("/".intercalate q,
      match t.text? (p ++ q) with
      | some text => .ok text
      | none => .error (.of (.system FileTree.Obstacle.missing.text)))

/-- Loads the dumps in a directory in the order of a walk.  A file in its place belongs to no
group. -/
def directory (t : FileTree) (root : String) (opts : Options) : Logged (List Part) :=
  match t.resolve root with
  | .error o =>
      Logged.fail (.along ["walk " ++ root] (.system ("lstat " ++ root ++ ": " ++ o.text)))
  | .ok p => do
      if t.isFile p && isDump root then skip "."
      let sources ← selectAll opts.groups (filesBelow t p)
      decodeAll opts.cancelled sources

end Load
end ClientLoom
