import ClientLoom.SourceFile

/-! # Registry

The registry holds every module of a run under its name, with the group of inputs it came from.
Partial modules wait in it until `Registry.mergeAll` folds them into the merged module of their
name.  Every operation gives the registry that it leaves, whether it fails or not. -/

namespace ClientLoom

/-- What is known about one module name. -/
structure Registry.Entry where
  name : Ident
  /-- the group that claims the name; an entry without one is neither merged nor listed -/
  group : Option String := none
  /-- partial modules that are not merged yet -/
  parts : List Module := []
  merged : Option Module := none

/-- The modules of a run, in increasing order of their names. -/
structure Registry where
  entries : List Registry.Entry := []

namespace Registry

/-- The entry for a module name. -/
def lookup (r : Registry) (name : Ident) : Option Entry := r.entries.find? (·.name == name)

/-- Changes the entry with the name of `e`, or inserts `e` changed in its place. -/
def upsert (e : Entry) (f : Entry → Entry) : List Entry → List Entry
  | [] => [f e]
  | x :: xs =>
      if x.name = e.name then f x :: xs
      else if Text.rank e.name < Text.rank x.name then f e :: x :: xs
      else x :: upsert e f xs

/-- The group of a name. -/
def tag? (r : Registry) (name : Ident) : Option String := (r.lookup name).bind Entry.group

/-- The group that claims a name, when it is another than `group`. -/
def rival? (r : Registry) (group : String) (name : Ident) : Option String :=
  (r.tag? name).filter (· != group)

/-- Gives a name to a group and changes its entry; a name of another group is refused. -/
def claim (r : Registry) (group : String) (name : Ident) (refusal : String → Failure)
    (f : Entry → Entry) : Registry × Except Failure Unit :=
  match r.rival? group name with
  | some other => (r, .error (refusal other))
  | none =>
      (⟨upsert { name := name } (fun e => f { e with group := some group }) r.entries⟩, .ok ())

/-- Records a partial module for a group. -/
def add (r : Registry) (group : String) (m : Module) : Registry × Except Failure Unit :=
  r.claim group m.name
    (fun other =>
      { trail := ["module " ++ inMessage m.name ++ " (from " ++ m.origin ++ ") is in groups " ++
          other ++ " and " ++ group]
        cause := .groupCollision
        hints := ["rename one of the input files or set an explicit module: key"] })
    fun e => { e with parts := e.parts ++ [m] }

/-- Stores a merged module for a group in place of the one of its name. -/
def put (r : Registry) (group : String) (m : Module) : Registry × Except Failure Unit :=
  r.claim group m.name
    (fun other =>
      .along ["module " ++ inMessage m.name ++ " is in groups " ++ other ++ " and " ++ group]
        .groupCollision)
    fun e => { e with merged := some m }

/-- The parts that a merge of an entry combines: the merged module and those that wait. -/
def Entry.sources (e : Entry) : List Module :=
  if e.parts.isEmpty then [] else e.merged.toList ++ e.parts

/-- Merges the waiting parts of an entry. -/
def Entry.mergeParts (e : Entry) : Except Failure Entry :=
  if e.parts.isEmpty then .ok e
  else (Module.merge e.sources).map fun m => { e with parts := [], merged := some m }

/-- The groups with waiting parts in increasing order. -/
def waitingGroups (r : Registry) : List String :=
  ((r.entries.filter (!·.parts.isEmpty)).filterMap Entry.group).eraseDups.mergeSort
    fun a b => decide (Text.rank a ≤ Text.rank b)

/-- Merges the waiting parts of an entry of the given group. -/
def Entry.mergeIn (group : String) (e : Entry) : Except Failure Entry :=
  if e.group = some group then e.mergeParts else .ok e

/-- Merges the waiting parts of one group, all or none. -/
def mergeGroup (r : Registry) (group : String) : Except Failure Registry :=
  (r.entries.mapM (Entry.mergeIn group)).map Registry.mk

/-- Merges groups in order up to the first that fails; what was merged before it stays. -/
def mergeGroups (r : Registry) : List String → Registry × Except Failure Unit
  | [] => (r, .ok ())
  | g :: gs =>
      match r.mergeGroup g with
      | .ok r' => r'.mergeGroups gs
      | .error f => (r, .error f)

/-- Merges everything that waits, group by group. -/
def mergeAll (r : Registry) : Registry × Except Failure Unit := r.mergeGroups r.waitingGroups

/-- The merged module called `name`. -/
def module? (r : Registry) (name : Ident) : Option Module := (r.lookup name).bind Entry.merged

/-- The merged modules of a group in increasing order of their names. -/
def group (r : Registry) (group : String) : SourceFile :=
  { name := group
    modules := (r.entries.filter (·.group == some group)).filterMap Entry.merged }

/-- The number of merged modules. -/
def size (r : Registry) : Nat := r.entries.countP (·.merged.isSome)

end Registry
end ClientLoom
