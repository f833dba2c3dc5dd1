import ClientLoom.Builder
import ClientLoom.Config.Basic
import ClientLoom.Facade
import ClientLoom.Prune
import ClientLoom.Strip
import ClientLoom.Ty.Parser

/-! # Settings

The settings of a run are its configuration with all paths and types read. -/

namespace ClientLoom

/-- Everything the stages of a run need. -/
structure Settings where
  modelsGroup : String
  apisGroup : String
  plan : Strip.Plan
  facade : Facade.Options
  prune : Prune.Options
  /-- the end of the names of parameter objects -/
  paramsEnding : String
  paramsModule : Ident
  builderModule : Ident
  /-- the ends of the names of structs that get a builder -/
  builderEndings : List String
  rules : List Builder.Rule

namespace Settings

/-- The settings of the usual configuration. -/
def usual : Settings where
  modelsGroup := "models"
  apisGroup := "apis"
  plan :=
    { drop := [.of "crate" ["models"], .of "crate" ["apis"]]
      strip := [.of "crate" ["models"], .of "models", .of "crate" ["apis"]] }
  facade := .usual
  prune := .usual
  paramsEnding := "Params"
  paramsModule := "params"
  builderModule := "builders"
  builderEndings := ["Params", "Config"]
  rules := [⟨⟨"", ""⟩, .discard "serde"⟩]

/-- Reads a path. -/
def path (s : String) : Except Failure Path :=
  (Path.parse s).mapError fun e => .invalid e.message

/-- Reads a type. -/
def type (s : String) : Except Failure Ty :=
  (Ty.parse s).mapError fun e => .invalid e.message

/-- The action of a rule that sets one. -/
def action (r : Config.Rule) : Except Failure Builder.Action :=
  if r.discardAttribute ≠ "" then .ok (.discard r.discardAttribute)
  else if r.remapToVec ≠ "" then (locate "remap_to_vec" (type r.remapToVec)).map .remap
  else (locate "map" (type r.map)).map .map

/-- The rule with its action read. -/
def rule (r : Config.Rule) : Except Failure Builder.Rule := do
  r.check
  let a ← action r
  pure ⟨⟨r.type, r.field⟩, a⟩

/-- The settings of a configuration. -/
def ofConfig (c : Config) : Except Failure Settings := do
  let drop ← locate "rewrite.drop_imports" (c.paths.dropImports.mapM path)
  let strip ← locate "rewrite.strip_prefixes" (c.paths.stripPaths.mapM path)
  let handle ← locate "facade.handle_type" (type c.facade.handleType)
  let rules ← c.builder.rules.zipIdx.mapM fun (r, i) =>
    locate (Config.slot "builder.rules" i) (rule r)
  pure
    { modelsGroup := c.groups.models
      apisGroup := c.groups.apis
      plan := ⟨drop, strip⟩
      facade := ⟨c.facade.ending, c.facade.field, handle⟩
      prune :=
        ⟨c.prune.module, c.prune.struct, c.prune.auxStructs, c.prune.fields, c.prune.constructor⟩
      paramsEnding := c.params.ending
      paramsModule := c.params.module
      builderModule := c.builder.module
      builderEndings := c.builder.endings
      rules := rules }

end Settings
end ClientLoom
