import ClientLoom.Digest
import ClientLoom.FileTree
import ClientLoom.Semver
import ClientLoom.SourceFile
import ClientLoom.Text.Fold
import ClientLoom.Toml.Parse

/-! # Manifests

A manifest records what a run wrote, with a digest of each unit, so that a later run can tell
which units changed.  It is kept as a TOML document: `Manifest.encode` writes it and
`Manifest.decode?` reads it. -/

namespace ClientLoom

/-- One unit in a manifest. -/
structure Manifest.Entry where
  name : String := ""
  file : String := ""
  modules : List String := []
  decls : Int := 0
  sha256 : String := ""
  deriving DecidableEq, Repr

/-- What a run wrote. -/
structure Manifest where
  generator : String := ""
  version : String := ""
  units : List Manifest.Entry := []
  deriving DecidableEq, Repr

namespace Manifest

/-- A manifest without units. -/
def new (version : String) : Manifest := { generator := "restitch", version := version }

/-- The entry for a unit with its rendered text. -/
def Entry.of (file : String) (f : SourceFile) (text : String) : Entry where
  name := f.name
  file := file
  modules := f.modules.map Module.name
  decls := f.size
  sha256 := Digest.ofText text

/-- Records a rendered unit. -/
def add (m : Manifest) (file : String) (f : SourceFile) (text : String) : Manifest :=
  { m with units := m.units ++ [Entry.of file f text] }

/-- The first entry called `name`. -/
def unit? (m : Manifest) (name : String) : Option Entry := m.units.find? (·.name == name)

/-- Whether an entry has the digest that `prev` has for its name. -/
def isKept (prev : Option Manifest) (e : Entry) : Bool :=
  (prev.bind (·.unit? e.name)).any (·.sha256 == e.sha256)

/-- The names of the units that an earlier manifest does not have, or has with another digest. -/
def changed (m : Manifest) (prev : Option Manifest) : List String :=
  (m.units.filter (!isKept prev ·)).map Entry.name

/-- Whether a manifest was written by a release that is newer than `version`. -/
def newerThan (m : Manifest) (version : String) : Bool := Semver.newer m.version version

/-! ### Writing -/

/-- A line that gives a value to a key. -/
def line (indent key : String) (value : List Char) : List Char :=
  indent.toList ++ key.toList ++ " = ".toList ++ value ++ ['\n']

/-- A list of strings. -/
def quotedList (xs : List String) : List Char :=
  '[' :: ((xs.map Toml.quoted).intersperse ", ".toList).flatten ++ [']']

/-- The text of a number. -/
def numeral (n : Int) : List Char := (toString n).toList

/-- The lines of an entry.  An empty list of modules is left out. -/
def Entry.encode (e : Entry) : List Char :=
  "\n[[unit]]\n".toList ++ line "  " "name" (Toml.quoted e.name) ++
    line "  " "file" (Toml.quoted e.file) ++
    (if e.modules.isEmpty then [] else line "  " "modules" (quotedList e.modules)) ++
    line "  " "decls" (numeral e.decls) ++ line "  " "sha256" (Toml.quoted e.sha256)

/-- A manifest as a document.  An empty version is left out. -/
def encode (m : Manifest) : String :=
  String.ofList (line "" "generator" (Toml.quoted m.generator) ++
    (if m.version = "" then [] else line "" "version" (Toml.quoted m.version)) ++
    m.units.flatMap Entry.encode)

/-! ### Reading -/

/-- A string. -/
def textOf? : Toml.Value → Option String
  | .text s => some s
  | _ => none

/-- A list of strings. -/
def textsOf? : Toml.Value → Option (List String)
  | .list items => items.mapM textOf?
  | _ => none

/-- Takes one key of a unit into account; keys are matched without regard to case and unknown
ones do not matter. -/
def Entry.set? (e : Entry) (kv : String × Toml.Value) : Option Entry :=
  match Text.foldKey kv.1, kv.2 with
  | "name", v => (textOf? v).map fun s => { e with name := s }
  | "file", v => (textOf? v).map fun s => { e with file := s }
  | "modules", v => (textsOf? v).map fun ss => { e with modules := ss }
  | "decls", .integer n => some { e with decls := n }
  | "decls", _ => none
  | "sha256", v => (textOf? v).map fun s => { e with sha256 := s }
  | _, _ => some e

/-- A unit. -/
def entryOf? : Toml.Value → Option Entry
  | .table entries => entries.foldlM Entry.set? {}
  | _ => none

/-- Takes one key of a manifest into account. -/
def set? (m : Manifest) (kv : String × Toml.Value) : Option Manifest :=
  match Text.foldKey kv.1, kv.2 with
  | "generator", v => (textOf? v).map fun s => { m with generator := s }
  | "version", v => (textOf? v).map fun s => { m with version := s }
  | "unit", .list items => (items.mapM entryOf?).map fun es => { m with units := es }
  | "unit", _ => none
  | _, _ => some m

/-- Reads a manifest from a document. -/
def decode? (text : String) : Option Manifest :=
  (Toml.parse? .lenient text).bind fun table => table.foldlM set? {}

/-- Reads the manifest at a path; there is none when nothing is there. -/
def read (t : FileTree) (path : String) : Except Failure (Option Manifest) :=
  let unreadable : Failure := .invalid (path ++ ": failed to parse manifest")
  match t.resolve path with
  | .error .missing => .ok none
  | .error .notDirectory => .error unreadable
  | .ok p =>
    match (t.text? p).bind decode? with
    | some m => .ok (some m)
    | none => .error unreadable

end Manifest
end ClientLoom
