import ClientLoom.CommandLine.Command
import ClientLoom.Config.Layers
import ClientLoom.Generate
import ClientLoom.Style

/-! # Running commands

`CommandLine.run` runs the program on its arguments: it takes the files that are there and
returns those that are there afterwards, with what was printed and logged. -/

namespace ClientLoom
namespace CommandLine

/-- What surrounds a run. -/
structure Surroundings where
  /-- the version of the program -/
  version : String
  /-- the variables of the environment -/
  environment : List (String × String) := []
  /-- whether the output goes to a terminal -/
  terminal : Bool := false
  /-- whether the run was cancelled -/
  cancelled : Bool := false

/-- What a run leaves behind. -/
structure Outcome where
  files : FileTree
  /-- what was printed -/
  printed : String := ""
  /-- the records that the verbosity lets through -/
  records : List Log.Record := []
  /-- whether records are written as JSON -/
  json : Bool := false
  result : Except Failure Unit := .ok ()

/-- What the program is for. -/
def helpText : String :=
  "restitch merges the partial modules of a generated HTTP API client,\n" ++
  "rewrites their paths, folds free operation functions into per-resource\n" ++
  "API objects and emits the models, apis, params and builders units.\n\n" ++
  "Examples:\n" ++
  "  restitch generate                     # read ./dump, write ./generated\n" ++
  "  restitch generate --archive dump.txtar\n" ++
  "  restitch generate -vv --json-logs\n"

/-! ### Output -/

/-- A text on the left of a column of the given width. -/
def padRight (width : Nat) (s : String) : String :=
  s ++ String.ofList (List.replicate (width - s.length) ' ')

/-- A text on the right of a column of the given width. -/
def padLeft (width : Nat) (s : String) : String :=
  String.ofList (List.replicate (width - s.length) ' ') ++ s

/-- A line of the summary. -/
def lineText (colour : Bool) (l : Generate.Line) : String :=
  "  " ++ Style.boldCyan.paint colour (padRight 10 l.unit) ++ " " ++ padLeft 4 (toString l.decls) ++
    " decls  " ++
    (if l.changed then Style.yellow.paint colour "changed"
      else Style.faint.paint colour "unchanged") ++ "\n"

/-- The summary of a run. -/
def summaryText (colour : Bool) (s : Generate.Summary) : String :=
  String.join (s.lines.map (lineText colour)) ++ Style.boldGreen.paint colour "wrote" ++ " " ++
    toString s.lines.length ++ " units in " ++ s.output ++ "\n"

/-! ### Commands -/

/-- Whether output is coloured. -/
def colour (around : Surroundings) (g : Given) : Except Failure Bool :=
  match (g.text? "color").getD "auto" with
  | "on" => .ok true
  | "off" => .ok false
  | "auto" => .ok around.terminal
  | mode => .error (.invalid ("--color must be auto, on or off, got " ++ Text.quote mode))

/-- The keys that flags set. -/
def boundKeys : List String := ["input", "archive", "output", "jobs"]

/-- The value that a flag gives to its key. -/
def keyValue : Flag.Value → Toml.Value
  | .text s => .text s
  | .number n => .integer n
  | .switch b => .truth b

/-- The configuration file that the flags name. -/
def configFile (g : Given) : String := (g.text? "config").getD ""

/-- The configuration of a run. -/
def configure (around : Surroundings) (t : FileTree) (g : Given) : Except Failure Config := do
  let file ← Config.readFile t (configFile g)
  let layers : Config.Layers :=
    { given := (g.values.filter fun v => boundKeys.contains v.1).map fun v => (v.1, keyValue v.2)
      bound := boundKeys
      environment := around.environment
      file := file }
  layers.config

/-- Runs the command that generates. -/
def generate (around : Surroundings) (t : FileTree) (g : Given) (colour : Bool) : Outcome :=
  let json := g.isOn "json-logs"
  match configure around t g with
  | .error f => { files := t, json := json, result := .error f }
  | .ok c =>
      let (t', run) := Generate.run t c around.version around.cancelled
      { files := t'
        printed :=
          match run.result with
          | .ok s => summaryText colour s
          | .error _ => ""
        records := Log.shown ((g.number? "verbose").getD 0) run.records
        json := json
        result := run.result.map fun _ => () }

/-- Runs a command that takes no words. -/
def runPlain (around : Surroundings) (t : FileTree) (c : Command) (g : Given)
    (f : Bool → Outcome) : Outcome :=
  match g.words with
  | word :: _ =>
      { files := t
        result := complaint ("unknown command " ++ Text.quote word ++ " for " ++
          Text.quote c.path) }
  | [] =>
    match colour around g with
    | .error e => { files := t, result := .error e }
    | .ok on => f on

/-- Runs a command with its flags read. -/
def execute (around : Surroundings) (t : FileTree) (c : Command) (g : Given) : Outcome :=
  if g.isOn "help" then { files := t, printed := helpText }
  else
    match c with
    | .generate => runPlain around t c g (generate around t g)
    | .version =>
        runPlain around t c g fun on =>
          { files := t
            printed :=
              Command.main.name ++ " " ++ Style.boldGreen.paint on around.version ++ "\n" }
    | .main =>
        if g.isOn "version" then
          { files := t, printed := Command.main.name ++ " version " ++ around.version ++ "\n" }
        else { files := t, printed := helpText }
    | _ => { files := t, printed := helpText }

/-- The command that the arguments name, with its flags. -/
def read (around : Surroundings) (args : List String) : Except Failure (Command × Given) := do
  let (c, rest) ← find args
  let g ← Flag.parse (c.flags around.version) rest {}
  pure (c, g)

/-- Runs the program on its arguments. -/
def run (around : Surroundings) (t : FileTree) (args : List String) : Outcome :=
  match read around args with
  | .error f => { files := t, result := .error f }
  | .ok (c, g) => execute around t c g

/-- The paths that a run looks at, as far as they are known from the files in `t`: the
configuration first, and what it names once it is there. -/
def reads (around : Surroundings) (t : FileTree) (args : List String) : List String :=
  match read around args with
  | .ok (.generate, g) =>
      let file := if configFile g = "" then Config.usualFile else configFile g
      file ::
        match configure around t g with
        | .ok c =>
            [if c.archive ≠ "" then c.archive else c.input, Generate.manifestPath c] ++
              ["models", "apis", Pipeline.paramsUnit, Pipeline.buildersUnit].map fun unit =>
                SlashPath.join c.output (unit ++ ".rs")
        | .error _ => []
  | _ => []

end CommandLine
end ClientLoom
