import ClientLoom.Config.Basic
import ClientLoom.FileTree
import ClientLoom.Text.Fold
import ClientLoom.Text.Lower
import ClientLoom.Text.Numeral
import ClientLoom.Toml.Parse
import ClientLoom.Width

/-! # Layers of configuration

A key gets its value from the first layer that has one: the flags of the command line, the
environment, the configuration file, the usual configuration.  Values are loosely typed: a number
may stand for a text, a text for a number or, with commas, for a list. -/

namespace ClientLoom
namespace Config

/-- The layers above the usual configuration. -/
structure Layers where
  /-- the flags that were given, by the keys they set -/
  given : List (String × Toml.Value) := []
  /-- the keys that flags can set -/
  bound : List String := []
  /-- the variables of the environment -/
  environment : List (String × String) := []
  /-- the configuration file, with its keys in lower case -/
  file : Toml.Table := []

/-- A key, inside a section or on its own. -/
structure Key where
  parent : Option String := none
  name : String

namespace Key

/-- The text of a key. -/
def text (k : Key) : String :=
  match k.parent with
  | none => k.name
  | some p => p ++ "." ++ k.name

/-- The variable of the environment for the text of a key. -/
def variableOf (text : String) : String :=
  "RESTITCH_" ++ text.map fun c => if c = '.' then '_' else c.toUpper

end Key

/-! ### Files -/

mutual

/-- A value with the keys of its tables in lower case. -/
def lowered : Toml.Value → Toml.Value
  | .list items => .list (loweredItems items)
  | .table entries =>
      let (changed, same) := loweredEntries entries
      .table (changed ++ same)
  | v => v

/-- Values with the keys of their tables in lower case. -/
def loweredItems : List Toml.Value → List Toml.Value
  | [] => []
  | v :: vs => lowered v :: loweredItems vs

/-- Entries with their keys in lower case: those whose keys change, which come before the others
of the same key, and the others. -/
def loweredEntries : List (String × Toml.Value) → Toml.Table × Toml.Table
  | [] => ([], [])
  | (k, v) :: rest =>
      let (changed, same) := loweredEntries rest
      let key := Text.lowerCase k
      if key = k then (changed, (k, lowered v) :: same) else ((key, lowered v) :: changed, same)

end

/-- A table with its keys in lower case. -/
def loweredTable (t : Toml.Table) : Toml.Table :=
  let (changed, same) := loweredEntries t
  changed ++ same

mutual

/-- Whether a value is, or has in its tables, something else than a table. -/
def hasLeaf : Toml.Value → Bool
  | .table entries => anyLeaf entries
  | _ => true

/-- Whether one of the values is, or has in its tables, something else than a table. -/
def anyLeaf : List (String × Toml.Value) → Bool
  | [] => false
  | (_, v) :: rest => hasLeaf v || anyLeaf rest

end

/-- The value of a key in a file.  A key that is written with the point in quotes comes first. -/
def inFile? (file : Toml.Table) (k : Key) : Option Toml.Value :=
  match file.lookup k.text, k.parent with
  | some v, _ => some v
  | none, none => none
  | none, some p =>
    match file.lookup p with
    | some (.table entries) => entries.lookup k.name
    | _ => none

/-! ### Settings -/

/-- What the layers say about a key. -/
inductive Setting where
  | value (v : Toml.Value)
  /-- a variable stands for the section as a whole, which hides the keys in it -/
  | hidden
  | absent

namespace Layers

/-- The variable of the environment for a key, unless it is empty. -/
def fromEnvironment? (l : Layers) (text : String) : Option String :=
  (l.environment.lookup (Key.variableOf text)).filter (· != "")

/-- What the layers say about a key. -/
def setting (l : Layers) (k : Key) : Setting :=
  match l.given.lookup k.text, l.fromEnvironment? k.text with
  | some v, _ => .value v
  | none, some s => .value (.text s)
  | none, none =>
      if (k.parent.bind l.fromEnvironment?).isSome then .hidden
      else
        match inFile? l.file k with
        | some v => .value v
        | none => .absent

/-- Whether the layers know of a key that the usual configuration does not set.  When the file has
a table in its place, a variable hides what is in the table. -/
def knows (l : Layers) (name : String) : Bool :=
  l.bound.contains name || (l.file.lookup name).any fun v =>
    hasLeaf v && !(v.isTable && (l.fromEnvironment? name).isSome)

end Layers

/-! ### Loose types -/

/-- A value as a text. -/
def textOf? : Toml.Value → Option String
  | .text s => some s
  | .integer n => some (toString n)
  | .decimal d => some d.text
  | .truth b => some (if b then "1" else "0")
  | _ => none

/-- The integer part of a decimal number; what does not fit into 64 bits becomes the least
integer. -/
def wholePart (d : Toml.Decimal) : Int :=
  match d.truncate? with
  | some n => if Width.fits n then n else -Width.half
  | none => -Width.half

/-- A value as an integer. -/
def integerOf? : Toml.Value → Option Int
  | .text s => if s = "" then some 0 else (Text.Numeral.parse s).toOption
  | .integer n => some n
  | .decimal d => some (wholePart d)
  | .truth b => some (if b then 1 else 0)
  | _ => none

/-- The elements of a value as a list: the pieces of a text between commas, the values of a list,
nothing for an empty table, else the value itself. -/
def elements : Toml.Value → List Toml.Value
  | .text s => if s = "" then [] else (Text.split s ',').map .text
  | .list items => items
  | .table [] => []
  | v => [v]

/-- A value as a list of texts. -/
def textsOf? (v : Toml.Value) : Option (List String) := (elements v).mapM textOf?

/-- The text of a key in a table of a rule; keys are matched without regard to case. -/
def ruleText? (entries : Toml.Table) (name : String) : Option String :=
  match entries.find? (Text.foldKey ·.1 == name) with
  | none => some ""
  | some (_, v) => textOf? v

/-- A value as a rule.  A point in time has none of the keys. -/
def ruleOf? : Toml.Value → Option Rule
  | .table entries => do
      let type ← ruleText? entries "type"
      let field ← ruleText? entries "field"
      let discard ← ruleText? entries "discard_attribute"
      let remap ← ruleText? entries "remap_to_vec"
      let map ← ruleText? entries "map"
      pure ⟨type, field, discard, remap, map⟩
  | .time => some {}
  | _ => none

/-- A value as a list of rules. -/
def rulesOf? (v : Toml.Value) : Option (List Rule) := (elements v).mapM ruleOf?

/-! ### Reading -/

namespace Layers

/-- The value of a key by a loose type: `zero` when the key is hidden, `dflt` when no layer has
it. -/
def read {α : Type} (of? : Toml.Value → Option α) (zero dflt : α) (l : Layers) (k : Key) :
    Option α :=
  match l.setting k with
  | .value v => of? v
  | .hidden => some zero
  | .absent => some dflt

/-- A key that holds a text. -/
def text (l : Layers) (k : Key) (dflt : String) : Option String := l.read textOf? "" dflt k

/-- A key that holds a list of texts. -/
def texts (l : Layers) (k : Key) (dflt : List String) : Option (List String) :=
  l.read textsOf? [] dflt k

/-- A section: what stands in the file in its place has to be a table, or a point in time, which
has none of the keys. -/
def fromSection {α : Type} (l : Layers) (name : String) (zero : α) (keys : Option α) : Option α :=
  match l.file.lookup name with
  | none => keys
  | some (.table _) => keys
  | some .time => if (l.fromEnvironment? name).isSome then none else some zero
  | some _ => none

/-- The groups. -/
def groups? (l : Layers) (u : Groups) : Option Groups :=
  l.fromSection "groups" {} do
    let models ← l.text ⟨"groups", "models"⟩ u.models
    let apis ← l.text ⟨"groups", "apis"⟩ u.apis
    pure ⟨models, apis⟩

/-- The paths to drop and to strip. -/
def paths? (l : Layers) (u : Paths) : Option Paths :=
  l.fromSection "rewrite" {} do
    let drop ← l.texts ⟨"rewrite", "drop_imports"⟩ u.dropImports
    let strip ← l.texts ⟨"rewrite", "strip_prefixes"⟩ u.stripPaths
    pure ⟨drop, strip⟩

/-- How facades are made. -/
def facade? (l : Layers) (u : Facade) : Option Facade :=
  l.fromSection "facade" {} do
    let ending ← l.text ⟨"facade", "suffix"⟩ u.ending
    let handle ← l.text ⟨"facade", "handle_type"⟩ u.handleType
    let field ← l.text ⟨"facade", "field"⟩ u.field
    pure ⟨ending, handle, field⟩

/-- What is pruned. -/
def prune? (l : Layers) (u : Prune) : Option Prune :=
  l.fromSection "prune" {} do
    let module ← l.text ⟨"prune", "module"⟩ u.module
    let struct ← l.text ⟨"prune", "struct"⟩ u.struct
    let aux ← l.texts ⟨"prune", "aux_structs"⟩ u.auxStructs
    let fields ← l.texts ⟨"prune", "fields"⟩ u.fields
    let constructor ← l.text ⟨"prune", "constructor"⟩ u.constructor
    pure ⟨module, struct, aux, fields, constructor⟩

/-- The parameter objects. -/
def params? (l : Layers) (u : Params) : Option Params :=
  l.fromSection "params" {} do
    let ending ← l.text ⟨"params", "suffix"⟩ u.ending
    let module ← l.text ⟨"params", "module"⟩ u.module
    pure ⟨ending, module⟩

/-- The builders. -/
def builder? (l : Layers) (u : Builder) : Option Builder :=
  l.fromSection "builder" {} do
    let module ← l.text ⟨"builder", "module"⟩ u.module
    let endings ← l.texts ⟨"builder", "suffixes"⟩ u.endings
    let rules ← l.read rulesOf? [] u.rules ⟨"builder", "rules"⟩
    pure ⟨module, endings, rules⟩

/-- The configuration over the usual one; there is none when a value has the wrong type. -/
def config? (l : Layers) : Option Config := do
  let u := usual
  let input ← l.text ⟨none, "input"⟩ u.input
  let archive ← if l.knows "archive" then l.text ⟨none, "archive"⟩ u.archive else some u.archive
  let output ← l.text ⟨none, "output"⟩ u.output
  let manifest ← l.text ⟨none, "manifest"⟩ u.manifest
  let jobs ← l.read integerOf? 0 u.jobs ⟨none, "jobs"⟩
  let groups ← l.groups? u.groups
  let paths ← l.paths? u.paths
  let facade ← l.facade? u.facade
  let prune ← l.prune? u.prune
  let params ← l.params? u.params
  let builder ← l.builder? u.builder
  pure ⟨input, archive, output, manifest, jobs, groups, paths, facade, prune, params, builder⟩

/-- The configuration over the usual one, when it can be used. -/
def config (l : Layers) : Except Failure Config :=
  match l.config? with
  | none => .error (.invalid "failed to unmarshal config")
  | some c => c.check.map fun _ => c

end Layers

/-- The keys and sections that a variable of the environment can set. -/
def variableKeys : List String :=
  [ "input", "archive", "output", "manifest", "jobs", "groups", "groups.models", "groups.apis",
    "rewrite", "rewrite.drop_imports", "rewrite.strip_prefixes", "facade", "facade.suffix",
    "facade.handle_type", "facade.field", "prune", "prune.module", "prune.struct",
    "prune.aux_structs", "prune.fields", "prune.constructor", "params", "params.suffix",
    "params.module", "builder", "builder.module", "builder.suffixes", "builder.rules" ]

/-- The file that is read when no other is named. -/
def usualFile : String := "restitch.toml"

/-- The configuration file at a path, or the usual one if it is there. -/
def readFile (t : FileTree) (path : String) : Except Failure Toml.Table :=
  let name := if path = "" then usualFile else path
  if path = "" && !t.has usualFile then .ok []
  else
    match (t.read name).toOption.bind (Toml.parse? .strict) with
    | some table => .ok (loweredTable table)
    | none => .error (.invalid ("failed to read config file " ++ name))

/-- The configuration from a file and the environment. -/
def load (t : FileTree) (environment : List (String × String)) (path : String) :
    Except Failure Config := do
  let file ← readFile t path
  ({ environment := environment, file := file } : Layers).config

end Config
end ClientLoom
