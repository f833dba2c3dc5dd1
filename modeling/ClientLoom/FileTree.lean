import ClientLoom.Failure
import ClientLoom.SlashPath

/-! # File trees

A file tree holds the files that a run reads and writes.  A place in the tree is the list of
names that leads to it from the working directory.  `FileTree.resolve` follows a path name by
name, so a path leads somewhere only when everything on its way is a directory. -/

namespace ClientLoom

/-- The names that lead to a file or directory. -/
abbrev Place := List String

/-- Files with their texts, and directories that may be empty. -/
structure FileTree where
  files : List (Place × String) := []
  dirs : List Place := []

namespace FileTree

/-- The text of the file at a place. -/
def text? (t : FileTree) (p : Place) : Option String := t.files.lookup p

/-- Whether a file is at a place. -/
def isFile (t : FileTree) (p : Place) : Bool := (t.text? p).isSome

/-- Whether a place is where a path may start: the working directory, the root of all files or
a directory above the working directory. -/
def isStart (p : Place) : Bool := p == ["/"] || p.all (· == "..")

/-- Whether a directory is at a place: each place on the way to something is one. -/
def isDir (t : FileTree) (p : Place) : Bool :=
  isStart p || t.dirs.any (p.isPrefixOf ·) || t.files.any fun f => p.isPrefixOf f.1 && p != f.1

/-- Why a path leads nowhere. -/
inductive Obstacle where
  | missing
  | notDirectory
  deriving DecidableEq, Repr

/-- The text of an obstacle. -/
def Obstacle.text : Obstacle → String
  | .missing => "no such file or directory"
  | .notDirectory => "not a directory"

/-- The place above a place. -/
def above (p : Place) : Place :=
  if p == ["/"] then p else if isStart p then ".." :: p else p.dropLast

/-- Follows one name from a place. -/
def follow (t : FileTree) (p : Place) (name : String) : Except Obstacle Place :=
  if t.isDir p then
    .ok (if name = "" || name = "." then p else if name = ".." then above p else p ++ [name])
  else .error (if t.isFile p then .notDirectory else .missing)

/-- The place that a path leads to, where something or nothing may be. -/
def follows (t : FileTree) (path : String) : Except Obstacle Place :=
  (Text.split path '/').foldlM t.follow (if SlashPath.isAbsolute path then ["/"] else [])

/-- The place that a path leads to, where a file or directory is. -/
def resolve (t : FileTree) (path : String) : Except Obstacle Place := do
  let p ← t.follows path
  if path ≠ "" && (t.isFile p || t.isDir p) then pure p else throw .missing

/-- Whether something is at a path. -/
def has (t : FileTree) (path : String) : Bool := (t.resolve path).isOk

/-- Reads the file at a path. -/
def read (t : FileTree) (path : String) : Except Failure String :=
  match t.resolve path with
  | .error o => .error (.of (.system ("open " ++ path ++ ": " ++ o.text)))
  | .ok p =>
    match t.text? p with
    | some text => .ok text
    | none => .error (.of (.system ("read " ++ path ++ ": is a directory")))

/-! ### Walking -/

/-- The order in which a walk meets places: name by name.  Names are compared by their characters,
which agrees with their bytes where these are text. -/
def comesBefore : Place → Place → Bool
  | [], _ => true
  | _ :: _, [] => false
  | a :: p, b :: q => if a = b then comesBefore p q else decide (a < b)

/-- Whether a place is below the directory that paths start from. -/
def isInside (p : Place) : Bool := p.head? != some "/" && p.head? != some ".."

/-- Whether a place is below a directory. -/
def isBelow (p q : Place) : Bool := p.isPrefixOf q && p != q && (isInside q || !isInside p)

/-- The places of the files in and below a directory, in the order of a walk, as they are seen
from there. -/
def below (t : FileTree) (p : Place) : List Place :=
  let places := (t.files.map (·.1)).eraseDups.filter (isBelow p)
  (places.map (·.drop p.length)).mergeSort comesBefore

/-! ### Writing -/

/-- Puts a file at a place, instead of the one that is there. -/
def put (t : FileTree) (p : Place) (text : String) : FileTree :=
  { t with files := (p, text) :: t.files.filter (·.1 != p) }

/-- The path and the paths on its way, the shortest one first.  Those on the way end with their
slashes. -/
def stages (path : String) : List String :=
  (go [] path.toList).map String.ofList
where
  /-- The paths that go on behind the given characters. -/
  go (done : List Char) : List Char → List (List Char)
    | [] => [done]
    | c :: cs =>
        if c == '/' && !(cs.isEmpty || cs.head? == some '/') then
          (done ++ [c]) :: go (done ++ [c]) cs
        else go (done ++ [c]) cs

/-- The place that a path leads to once every directory on its way is there. -/
def placeOf (path : String) : Place :=
  if SlashPath.isAbsolute path then "/" :: SlashPath.parts path else SlashPath.parts path

/-- A path that leads to a place. -/
def pathOf (p : Place) : String :=
  match p with
  | "/" :: names => "/" ++ "/".intercalate names
  | names => "/".intercalate names

/-- The files below the directory that paths start from, and no others. -/
def inside (t : FileTree) : FileTree := { t with files := t.files.filter fun f => isInside f.1 }

/-- The files that are new or different from those before. -/
def changesSince (t before : FileTree) : List (Place × String) :=
  t.files.filter fun f => before.text? f.1 != some f.2

/-- Makes the last directory on a path.  A file in its place is in the way, and the text tells how
the path runs into it. -/
def makeLast (t : FileTree) (path : String) : Except String FileTree :=
  match t.resolve path with
  | .ok p => if t.isDir p then .ok t else .error Obstacle.notDirectory.text
  | .error _ =>
    match t.follows (String.ofList (SlashPath.trimEnd path)) with
    | .error o => .error o.text
    | .ok p => if t.isFile p then .error "file exists" else .ok { t with dirs := t.dirs ++ [p] }

/-- Makes a directory and those on its way up to the first that fails; what was made before it
stays. -/
def makeDir (t : FileTree) (path : String) : FileTree × Except Failure Unit :=
  go t (stages path)
where
  /-- Makes directories one by one. -/
  go (t : FileTree) : List String → FileTree × Except Failure Unit
    | [] => (t, .ok ())
    | stage :: rest =>
        match t.makeLast stage with
        | .ok t' => go t' rest
        | .error text =>
            (t, .error (.along ["create " ++ path] (.system ("mkdir " ++ stage ++ ": " ++ text))))

/-- Writes a file as a whole, with the directories on its way.  A directory is never replaced. -/
def write (t : FileTree) (path : String) (text : String) : FileTree × Except Failure Unit :=
  match t.makeDir (SlashPath.dir path) with
  | (t, .error f) => (t, .error f)
  | (t, .ok ()) =>
      if t.isDir (placeOf path) then
        (t, .error (.along ["write " ++ path] (.system "rename")))
      else (t.put (placeOf path) text, .ok ())

/-- Writes a file below a directory unless something failed before. -/
def andWrite (dir : String) (done : FileTree × Except Failure Unit) (f : String × String) :
    FileTree × Except Failure Unit :=
  match done with
  | (t, .ok ()) => t.write (SlashPath.join dir f.1) f.2
  | failed => failed

/-- Writes files below a directory in order up to the first that fails; what was written before
it stays. -/
def writeAll (t : FileTree) (dir : String) (files : List (String × String)) :
    FileTree × Except Failure Unit :=
  files.foldl (andWrite dir) (t.makeDir dir)

end FileTree
end ClientLoom
