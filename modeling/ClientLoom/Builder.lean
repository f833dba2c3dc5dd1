import ClientLoom.Module.Basic
import ClientLoom.Text.Order

/-! # Builders

A builder is a copy of a struct without impl blocks whose fields went through a list of rules.
A rule selects structs and fields by name and acts on what it selects.  On one field the first
matching rule of each slot acts: the discard rules of one attribute share a slot, and so do all
remap rules and all map rules. -/

namespace ClientLoom
namespace Builder

/-- The actions by number, as rules refer to them. -/
inductive ActionKind where
  | discardAttribute
  | remapToVec
  | map
  deriving DecidableEq, Repr

/-- The word for an action. -/
def ActionKind.text : ActionKind → String
  | .discardAttribute => "discard_attribute"
  | .remapToVec => "remap_to_vec"
  | .map => "map"

/-- The action with a number. -/
def ActionKind.ofNumber? : Nat → Option ActionKind
  | 0 => some .discardAttribute
  | 1 => some .remapToVec
  | 2 => some .map
  | _ => none

/-- The word for the action with the given number; numbers of no action are shown as such. -/
def ActionKind.describe (n : UInt8) : String :=
  match ofNumber? n.toNat with
  | some k => k.text
  | none => "ActionKind(" ++ toString n.toNat ++ ")"

/-- Which structs and fields a rule acts on; an empty name selects all. -/
structure Selector where
  type : Ident
  field : Ident
  deriving DecidableEq, Repr

/-- Whether a field of a struct is selected. -/
def Selector.selects (s : Selector) (type field : Ident) : Bool :=
  (s.type == "" || s.type == type) && (s.field == "" || s.field == field)

/-- The text of a selector. -/
def Selector.text (s : Selector) : String :=
  star s.type ++ "." ++ star s.field
where
  /-- A name, or a star for all. -/
  star (name : Ident) : String := if name = "" then "*" else name

/-- What a rule does to a field. -/
inductive Action where
  /-- removes the attributes called `attr` -/
  | discard (attr : Ident)
  /-- makes the type `Vec<elem>`, inside an `Option` that is there -/
  | remap (elem : Ty)
  /-- replaces the type -/
  | map (target : Ty)

/-- A rule. -/
structure Rule where
  selector : Selector
  action : Action

/-- The text of a rule. -/
def Rule.text (r : Rule) : String :=
  r.selector.text ++ " " ++
    match r.action with
    | .discard attr => ActionKind.discardAttribute.text ++ " " ++ attr
    | .remap elem => ActionKind.remapToVec.text ++ " " ++ elem.text
    | .map target => ActionKind.map.text ++ " " ++ target.text

/-- The slot a rule competes for. -/
inductive Slot where
  | discard (attr : Ident)
  | remap
  | map
  deriving DecidableEq, Repr

/-- The slot of an action. -/
def Action.slot : Action → Slot
  | .discard attr => .discard attr
  | .remap _ => .remap
  | .map _ => .map

/-- Acts on a field. -/
def Action.apply (a : Action) (f : Field) : Field :=
  match a with
  | .discard attr => f.dropAttrs attr
  | .remap elem =>
      let vec := Ty.named "Vec" [elem]
      { f with ty := if (f.ty.soleArg? "Option").isSome then .named "Option" [vec] else vec }
  | .map target => { f with ty := target }

/-- A rule as it is registered: the action by number, with what it may need. -/
structure RuleSpec where
  selector : Selector
  action : UInt8
  attr : Ident := ""
  target : Option Ty := none

/-- The text of a rule as it is registered. -/
def RuleSpec.text (r : RuleSpec) : String :=
  r.selector.text ++ " " ++ ActionKind.describe r.action ++
    match ActionKind.ofNumber? r.action.toNat with
    | some .discardAttribute => " " ++ r.attr
    | some _ => " " ++ Ty.textOrUnit r.target
    | none => ""

/-- The rule that is registered, when its action has what it needs. -/
def RuleSpec.complete (r : RuleSpec) : Except Failure Rule :=
  match ActionKind.ofNumber? r.action.toNat, r.target with
  | some .discardAttribute, _ =>
      if r.attr = "" then .error (complaint "missing attribute name")
      else .ok ⟨r.selector, .discard r.attr⟩
  | some .remapToVec, some t => .ok ⟨r.selector, .remap t⟩
  | some .map, some t => .ok ⟨r.selector, .map t⟩
  | some _, none => .error (complaint "missing target type")
  | none, _ => .error (complaint "unknown action")
where
  /-- What is wrong with the rule. -/
  complaint (what : String) : Failure := .invalid ("rule " ++ r.text ++ ": " ++ what)

/-- What happened while the rules ran over a field. -/
structure Pass where
  field : Field
  /-- slots whose first rule has acted -/
  taken : List Slot := []
  /-- rules that came too late, in order -/
  shadowed : List Rule := []

/-- Lets a rule act on a field of the struct called `type`. -/
def Pass.step (type : Ident) (p : Pass) (r : Rule) : Pass :=
  if r.selector.selects type p.field.name then
    if p.taken.contains r.action.slot then { p with shadowed := p.shadowed ++ [r] }
    else { p with field := r.action.apply p.field, taken := r.action.slot :: p.taken }
  else p

/-- Runs the rules over a field. -/
def runRules (rules : List Rule) (type : Ident) (f : Field) : Pass :=
  rules.foldl (Pass.step type) { field := f }

/-- The builder of a struct. -/
def buildStruct (rules : List Rule) (s : Struct) : Struct :=
  { s with fields := s.fields.map fun f => (runRules rules s.name f).field, impls := [] }

/-- The builder of a declaration, which has to be a struct. -/
def build (rules : List Rule) : Decl → Except Failure Struct
  | .struct s => .ok (buildStruct rules s)
  | d =>
      .error (.along ["builder " ++ inMessage (d.ident?.getD "") ++ ": got " ++ d.kind.text]
        .notStruct)

/-- The struct of a declaration whose name ends with one of the endings. -/
def source? (endings : List String) : Decl → Option Struct
  | .struct s => if endings.any (Text.endsWith s.name) then some s else none
  | _ => none

/-- Keeps the first element of every name. -/
def firstOfEachName : List Struct → List Struct
  | [] => []
  | s :: rest => s :: (firstOfEachName rest).filter (·.name != s.name)

/-- The structs of the modules whose names end with one of the endings, ordered by name. -/
def sources (endings : List String) (mods : List Module) : List Struct :=
  (mods.flatMap fun m => m.decls.filterMap (source? endings)).mergeSort
    fun a b => decide (Text.rank a.name ≤ Text.rank b.name)

/-- The builders of the structs whose names end with one of the endings: one for each name, from
the first struct of that name. -/
def generate (rules : List Rule) (endings : List String) (mods : List Module) : List Struct :=
  (firstOfEachName (sources endings mods)).map (buildStruct rules)

/-! ### Any declarations -/

/-- Whether a declaration is a struct whose name ends with one of the endings. -/
def hasEnding (endings : List String) : Decl → Bool
  | .struct s => endings.any (Text.endsWith s.name)
  | _ => false

/-- Builds declarations in order, of each name the first; `seen` holds the names before them. -/
def buildFirsts (rules : List Rule) (seen : List Ident) : List Decl → Except Failure (List Struct)
  | [] => .ok []
  | d :: ds =>
      let name := d.ident?.getD ""
      if seen.contains name then buildFirsts rules seen ds
      else do
        let b ← build rules d
        let bs ← buildFirsts rules (name :: seen) ds
        pure (b :: bs)

/-- The builders of the declarations that `selects` chooses, which have to be structs: one for each
name, from the first declaration of that name. -/
def generateSelected (rules : List Rule) (selects : Decl → Bool) (mods : List Module) :
    Except Failure (List Struct) :=
  buildFirsts rules []
    ((mods.flatMap (·.select selects)).mergeSort
      fun a b => decide (Text.rank (a.ident?.getD "") ≤ Text.rank (b.ident?.getD "")))

end Builder
end ClientLoom
