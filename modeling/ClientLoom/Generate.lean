import ClientLoom.Config.Basic
import ClientLoom.Manifest
import ClientLoom.Pipeline
import ClientLoom.Render

/-! # Generating

`Generate.run` loads the dumps that a configuration names, runs the stages over them and writes
the rendered units and their manifest.  Everything is rendered before anything is written, so a
failing stage leaves the files as they were. -/

namespace ClientLoom
namespace Generate

/-- The file of a unit. -/
def unitFile (f : SourceFile) : String := f.name ++ ".rs"

/-- The manifest of rendered units. -/
def manifestOf (version : String) (units : List SourceFile) : Manifest :=
  units.foldl (fun m f => m.add (unitFile f) f (f.render version)) (Manifest.new version)

/-- The path of the manifest: below the output, unless it is absolute. -/
def manifestPath (c : Config) : String :=
  if SlashPath.isAbsolute c.manifest then c.manifest else SlashPath.join c.output c.manifest

/-- Loads the dumps from the archive, if there is one, else from the directory. -/
def load (t : FileTree) (c : Config) (cancelled : Bool) : Logged (List Load.Part) :=
  let opts : Load.Options := ⟨[c.groups.models, c.groups.apis], cancelled⟩
  if c.archive ≠ "" then Load.archiveFile t c.archive opts else Load.directory t c.input opts

/-- The manifest of the run before, if it can be read; a newer one is worth a warning. -/
def previous (t : FileTree) (path version : String) : Logged (Option Manifest) :=
  match Manifest.read t path with
  | .error f => do
      Logged.warn "ignoring unreadable manifest"
        [("path", .text path), ("error", .text f.message)]
      pure none
  | .ok none => pure none
  | .ok (some m) => do
      if m.newerThan version then
        Logged.warn "previous output was written by a newer restitch"
          [("path", .text path), ("version", .text m.version), ("running", .text version)]
      pure (some m)

/-- What is to be written. -/
structure Plan where
  /-- the files of the units with their texts -/
  files : List (String × String)
  manifest : Manifest
  /-- the names of the units that differ from those of the run before -/
  changed : List String

/-- Loads, transforms and renders, and compares with the run before. -/
def plan (t : FileTree) (c : Config) (version : String) (cancelled : Bool) : Logged Plan := do
  let s ← Logged.ofExcept (Settings.ofConfig c)
  let parts ← load t c cancelled
  let out ← Pipeline.run s cancelled parts
  let manifest := manifestOf version out.units
  let prev ← previous t (manifestPath c) version
  pure
    { files := out.units.map fun f => (unitFile f, f.render version)
      manifest := manifest
      changed := manifest.changed prev }

/-- Writes the units and then the manifest. -/
def Plan.write (p : Plan) (c : Config) (t : FileTree) : FileTree × Except Failure Unit :=
  match t.writeAll c.output p.files with
  | (t, .error f) => (t, .error f)
  | (t, .ok ()) =>
      t.writeAll (SlashPath.dir (manifestPath c))
        [(SlashPath.base (manifestPath c), p.manifest.encode)]

/-- What a run reports about one unit. -/
structure Line where
  unit : String
  decls : Int
  changed : Bool
  deriving DecidableEq, Repr

/-- What a run reports. -/
structure Summary where
  lines : List Line
  output : String
  deriving DecidableEq, Repr

/-- The report about what was written. -/
def Plan.summary (p : Plan) (c : Config) : Summary where
  lines := p.manifest.units.map fun e => ⟨e.name, e.decls, p.changed.contains e.name⟩
  output := c.output

/-- The record of a run that wrote everything. -/
def Plan.done (p : Plan) (c : Config) : Log.Record :=
  ⟨.info, "generate wrote units",
    [("output", .text c.output), ("units", .number p.files.length),
      ("changed", .number p.changed.length)]⟩

/-- Runs all of it; the files after the run come back also when it fails. -/
def run (t : FileTree) (c : Config) (version : String) (cancelled : Bool) :
    FileTree × Logged Summary :=
  let planned := plan t c version cancelled
  match planned.result with
  | .error f => (t, ⟨planned.records, .error f⟩)
  | .ok p =>
    match p.write c t with
    | (t', .error f) => (t', ⟨planned.records, .error f⟩)
    | (t', .ok ()) => (t', ⟨planned.records ++ [p.done c], .ok (p.summary c)⟩)

end Generate
end ClientLoom
