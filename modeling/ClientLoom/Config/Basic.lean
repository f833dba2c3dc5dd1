import ClientLoom.Failure
import ClientLoom.Text.Quoted

/-! # Configuration

What a run can be told.  `Config.usual` holds the values of keys that nobody sets and
`Config.check` refuses values that no run can use. -/

namespace ClientLoom

namespace Config

/-- The names of the groups of inputs. -/
structure Groups where
  models : String := ""
  apis : String := ""
  deriving DecidableEq, Repr

/-- Which imports are dropped and which leading paths are stripped. -/
structure Paths where
  dropImports : List String := []
  stripPaths : List String := []
  deriving DecidableEq, Repr

/-- How facades are made. -/
structure Facade where
  ending : String := ""
  handleType : String := ""
  field : String := ""
  deriving DecidableEq, Repr

/-- What is pruned. -/
structure Prune where
  module : String := ""
  struct : String := ""
  auxStructs : List String := []
  fields : List String := []
  constructor : String := ""
  deriving DecidableEq, Repr

/-- Which declarations are parameter objects and where they go. -/
structure Params where
  ending : String := ""
  module : String := ""
  deriving DecidableEq, Repr

/-- A rule for builders: which fields of which structs, all when empty, and one action. -/
structure Rule where
  type : String := ""
  field : String := ""
  discardAttribute : String := ""
  remapToVec : String := ""
  map : String := ""
  deriving DecidableEq, Repr

/-- Which builders are made, by which rules and where they go. -/
structure Builder where
  module : String := ""
  endings : List String := []
  rules : List Rule := []
  deriving DecidableEq, Repr

end Config

/-- What a run is told. -/
structure Config where
  /-- the directory of the dumps -/
  input : String := ""
  /-- the archive of the dumps, which comes before the directory -/
  archive : String := ""
  /-- the directory that the units are written to -/
  output : String := ""
  manifest : String := ""
  /-- how many dumps are decoded at a time; zero leaves it open -/
  jobs : Int := 0
  groups : Config.Groups := {}
  paths : Config.Paths := {}
  facade : Config.Facade := {}
  prune : Config.Prune := {}
  params : Config.Params := {}
  builder : Config.Builder := {}
  deriving DecidableEq, Repr

namespace Config

/-- The values of keys that nobody sets. -/
def usual : Config where
  input := "dump"
  output := "generated"
  manifest := "restitch.manifest.toml"
  groups := { models := "models", apis := "apis" }
  paths :=
    { dropImports := ["crate::models", "crate::apis"]
      stripPaths := ["crate::models", "models", "crate::apis"] }
  facade :=
    { ending := "_api"
      handleType := "std::sync::Arc<configuration::Configuration>"
      field := "configuration" }
  prune :=
    { module := "configuration"
      struct := "Configuration"
      auxStructs := ["BasicAuth", "ApiKey"]
      fields := ["basic_auth", "oauth_access_token", "bearer_access_token", "api_key"]
      constructor := "new" }
  params := { ending := "Params", module := "params" }
  builder :=
    { module := "builders"
      endings := ["Params", "Config"]
      rules := [{ discardAttribute := "serde" }] }

/-! ### Checks -/

/-- The number of actions that a rule sets. -/
def Rule.actions (r : Rule) : Nat := [r.discardAttribute, r.remapToVec, r.map].countP (· != "")

/-- Refuses a rule unless it sets one action. -/
def Rule.check (r : Rule) : Except Failure Unit :=
  if r.actions = 1 then .ok ()
  else
    .error (.invalid ("exactly one of discard_attribute, remap_to_vec, map must be set, got " ++
      toString r.actions))

/-- The place of an element of a list, in words. -/
def slot (key : String) (i : Nat) : String := key ++ "[" ++ toString i ++ "]"

/-- The first complaint about the elements of a list, each with its place. -/
def checkEach {α : Type} (f : Nat → α → Except Failure Unit) (xs : List α) :
    Except Failure Unit :=
  xs.zipIdx.forM fun (x, i) => f i x

/-- Refuses a condition with a complaint. -/
def refuse (bad : Bool) (complaint : String) : Except Failure Unit :=
  if bad then .error (.invalid complaint) else .ok ()

/-- Refuses a configuration that no run can use; the first complaint counts. -/
def check (c : Config) : Except Failure Unit := do
  refuse (c.input = "" && c.archive = "") "one of input or archive must be set"
  refuse (c.output = "") "output cannot be empty"
  refuse (c.jobs < 0) ("jobs must be >= 0, got " ++ toString c.jobs)
  refuse (c.groups.models = "" || c.groups.apis = "")
    "groups.models and groups.apis cannot be empty"
  refuse (c.groups.models = c.groups.apis)
    ("groups.models and groups.apis must differ, both are " ++ Text.quote c.groups.models)
  refuse (c.facade.ending = "") "facade.suffix cannot be empty"
  refuse (c.facade.handleType = "" || c.facade.field = "")
    "facade.handle_type and facade.field cannot be empty"
  refuse (c.params.ending = "") "params.suffix cannot be empty"
  refuse (c.params.module = "" || c.builder.module = "")
    "params.module and builder.module cannot be empty"
  checkEach (fun i s => refuse (s = "") (slot "builder.suffixes" i ++ " cannot be empty"))
    c.builder.endings
  checkEach (fun i r => locate (slot "builder.rules" i) r.check) c.builder.rules

end Config
end ClientLoom
