import ClientLoom.Load
import ClientLoom.Registry
import ClientLoom.Settings

/-! # Pipeline

A run merges the loaded parts, strips paths, makes facades, prunes the client configuration,
moves the parameter objects into a module of their own and makes builders.  The registry holds
the modules between the stages; `Pipeline.run` is their sequence. -/

namespace ClientLoom
namespace Pipeline

/-- The four units of a run. -/
structure Output where
  models : SourceFile
  apis : SourceFile
  params : SourceFile
  builders : SourceFile

/-- The units in the order in which they are written. -/
def Output.units (o : Output) : List SourceFile := [o.models, o.apis, o.params, o.builders]

/-- The group of the module of parameter objects, and the name of its unit. -/
def paramsUnit : String := "params"

/-- The group of the module of builders, and the name of its unit. -/
def buildersUnit : String := "builders"

/-- Lets a stage change the merged modules of a group in the order of their names, and collects
what it tells about each. -/
def onGroup {α : Type} (r : Registry) (group : String) (f : Module → Logged (Module × α)) :
    Logged (Registry × List α) := do
  let out ← r.entries.mapM fun e =>
    match e.merged with
    | some m =>
        if e.group = some group then do
          let (m, a) ← f m
          pure ({ e with merged := some m }, [a])
        else pure (e, [])
    | none => pure (e, [])
  pure (⟨out.map (·.1)⟩, out.flatMap (·.2))

/-! ### Merging -/

/-- Records one part. -/
def record (r : Registry) (p : Load.Part) : Except Failure Registry :=
  settled (r.add p.group p.module)

/-- Records all parts. -/
def collect (parts : List Load.Part) : Except Failure Registry :=
  locate "merge" (parts.foldlM record {})

/-- Records all parts and merges them. -/
def merge (parts : List Load.Part) : Logged Registry := do
  let r ← Logged.ofExcept (collect parts)
  let (merged, result) := r.mergeAll
  Logged.ofExcept (locate "merge" result)
  Logged.info "merged partial modules"
    [("parts", .number parts.length), ("modules", .number merged.size)]
  pure merged

/-! ### Stripping -/

/-- Strips the paths of one module. -/
def strip (s : Settings) (m : Module) : Logged (Module × Strip.Stats) := do
  let (m, st) := s.plan.apply m
  Logged.debug "rewrote module"
    [("module", .text m.name), ("imports", .number st.imports), ("decls", .number st.decls),
      ("bodies", .number st.bodies)]
  pure (m, st)

/-- Strips the paths of all modules. -/
def stripAll (s : Settings) (r : Registry) : Logged Registry := do
  let (r, models) ← onGroup r s.modelsGroup (strip s)
  let (r, apis) ← onGroup r s.apisGroup (strip s)
  let total := (models ++ apis).foldl Strip.Stats.add {}
  Logged.info "rewrote paths"
    [("imports_dropped", .number total.imports), ("decl_paths", .number total.decls),
      ("body_paths", .number total.bodies)]
  pure r

/-! ### Facades -/

/-- Makes the facade of one module, if it is an operation module; tells whether it did. -/
def facade (s : Settings) (m : Module) : Logged (Module × Bool) :=
  if Facade.applies m s.facade then do
    let (m, result) := Facade.generate m s.facade
    let made ← Logged.ofExcept result
    Logged.debug "generated facade"
      [("module", .text m.name), ("struct", .text made.struct),
        ("methods", .number made.methods.length)]
    pure (m, true)
  else pure (m, false)

/-- Makes the facades of the operation modules. -/
def facades (s : Settings) (r : Registry) : Logged Registry := do
  let (r, made) ← onGroup r s.apisGroup (facade s)
  Logged.info "generated facades" [("facades", .number (made.countP id))]
  pure r

/-! ### Pruning -/

/-- Prunes one module. -/
def prune (s : Settings) (m : Module) : Logged (Module × Unit) := do
  let (m, result) := Prune.run m s.prune
  let st ← Logged.ofExcept result
  if m.name = s.prune.module then
    Logged.info "pruned configuration"
      [("module", .text m.name), ("aux_structs", .number st.auxStructs),
        ("fields", .number st.fields), ("initialisers", .number st.inits)]
  pure (m, ())

/-- Prunes all modules. -/
def pruneAll (s : Settings) (r : Registry) : Logged Registry := do
  let (r, _) ← onGroup r s.modelsGroup (prune s)
  let (r, _) ← onGroup r s.apisGroup (prune s)
  pure r

/-! ### Parameter objects -/

/-- The import of all parameter objects. -/
def paramsImport (s : Settings) : Use := { path := .of "crate" [s.paramsModule], glob := true }

/-- Takes the parameter objects out of one module, which then imports them. -/
def takeParams (s : Settings) (m : Module) : Except Failure (Module × List Decl) :=
  let isParam := Decl.nameEndsWith s.paramsEnding
  match m.select isParam with
  | [] => .ok (m, [])
  | taken => (settled ((m.without isParam).push (.use (paramsImport s)))).map fun m => (m, taken)

/-- The order of declarations by their names. -/
def byName (a b : Decl) : Bool :=
  decide (Text.rank (a.ident?.getD "") ≤ Text.rank (b.ident?.getD ""))

/-- The module of the taken declarations in the order of their names. -/
def paramsModule (s : Settings) (taken : List Decl) : Except Failure Module :=
  settled (({ name := s.paramsModule } : Module).pushAll (taken.mergeSort byName))

/-- Takes the parameter objects out of the operation modules. -/
def extract (s : Settings) (r : Registry) : Logged (Registry × List Decl) := do
  let (r, taken) ← onGroup r s.apisGroup fun m => Logged.ofExcept (takeParams s m)
  pure (r, taken.flatten)

/-- Makes the module of parameter objects and records it. -/
def putParams (s : Settings) (r : Registry) (taken : List Decl) : Logged (Registry × Module) := do
  let m ← Logged.ofExcept (locate "extract params" (paramsModule s taken))
  let r ← Logged.ofExcept (locate "extract params" (settled (r.put paramsUnit m)))
  Logged.info "extracted parameter objects"
    [("module", .text m.name), ("decls", .number m.decls.length)]
  pure (r, m)

/-! ### Builders -/

/-- The records about rules that came too late for the fields of a struct. -/
def shadowRecords (rules : List Builder.Rule) (st : Struct) : List Log.Record :=
  st.fields.flatMap fun f =>
    (Builder.runRules rules st.name f).shadowed.map fun r =>
      ⟨.debug, "builder rule shadowed",
        [("struct", .text st.name), ("field", .text f.name), ("rule", .text r.text)]⟩

/-- The records about the sources of builders; `seen` holds the names of those before. -/
def sourceRecords (rules : List Builder.Rule) (seen : List Ident) : List Struct → List Log.Record
  | [] => []
  | st :: rest =>
      if seen.contains st.name then
        ⟨.debug, "builder duplicate dropped", [("struct", .text st.name)]⟩ ::
          sourceRecords rules seen rest
      else shadowRecords rules st ++ sourceRecords rules (st.name :: seen) rest

/-- The module of builders. -/
def buildersModule (s : Settings) (structs : List Struct) : Except Failure Module :=
  settled (({ name := s.builderModule } : Module).pushAll (structs.map .struct))

/-- Makes the builders for the structs of the given modules and records their module. -/
def builders (s : Settings) (r : Registry) (mods : List Module) : Logged Module := do
  Logged.logAll (sourceRecords s.rules [] (Builder.sources s.builderEndings mods))
  let structs := Builder.generate s.rules s.builderEndings mods
  let m ← Logged.ofExcept (locate "builders" (buildersModule s structs))
  let _ ← Logged.ofExcept (locate "builders" (settled (r.put buildersUnit m)))
  Logged.info "generated builders"
    [("module", .text m.name), ("builders", .number structs.length),
      ("rules", .number s.rules.length)]
  pure m

/-! ### All stages -/

/-- Runs the stages after the merge. -/
def stages (s : Settings) (cancelled : Bool) (r : Registry) : Logged Output := do
  if cancelled then Logged.fail (.of .cancelled)
  let r ← stripAll s r
  let r ← facades s r
  let r ← pruneAll s r
  let (r, taken) ← extract s r
  let models := r.group s.modelsGroup
  let apis := r.group s.apisGroup
  let (r, params) ← putParams s r taken
  let builders ← builders s r (params :: models.modules)
  pure
    { models := { models with name := "models" }
      apis := { apis with name := "apis" }
      params := { name := paramsUnit, modules := [params] }
      builders := { name := buildersUnit, modules := [builders] } }

/-- Runs all stages over the loaded parts. -/
def run (s : Settings) (cancelled : Bool) (parts : List Load.Part) : Logged Output := do
  let r ← merge parts
  stages s cancelled r

end Pipeline
end ClientLoom
