import ClientLoom.Decl.Walk
import ClientLoom.Module.Basic
import ClientLoom.Text.RawByte
import ClientLoom.Text.Upper

/-! # Facades

A module of operations called `pet_api` holds functions such as `pet_find` that take the client
configuration first.  `Facade.generate` turns those functions into methods of one struct that
holds the configuration. -/

namespace ClientLoom
namespace Facade

/-- How facades are named and what they hold. -/
structure Options where
  /-- the end of the names of operation modules -/
  ending : String
  /-- the field of the struct and the parameter of its constructor -/
  field : Ident
  /-- the type of the field -/
  handle : Ty

/-- The usual options. -/
def Options.usual : Options where
  ending := "_api"
  field := "configuration"
  handle :=
    .path (.of "std" ["sync", "Arc"]) [.path (.of "configuration" ["Configuration"]) []]

/-- The part of the names of operations that their module gives. -/
def stem (moduleName : Ident) (ending : String) : String := Text.stripEnd moduleName ending

/-- Whether a module is an operation module. -/
def applies (m : Module) (opts : Options) : Bool :=
  opts.ending != "" && Text.endsWith m.name opts.ending && m.name != opts.ending

/-- Splits at underscores and hyphens; empty pieces do not count. -/
def pieces (cs : List Char) : List (List Char) :=
  ((cs.splitBy fun a b => isGap a == isGap b).filter fun piece => !piece.any isGap)
where
  /-- The characters between the words of a name. -/
  isGap (c : Char) : Bool := c == '_' || c == '-'

/-- A word with its first character in upper case. -/
def capital : List Char → List Char
  | [] => []
  | c :: cs => Text.upper c :: cs

/-- The words of a name, each with a capital, without what separates them. -/
def pascalCase (s : String) : String :=
  String.ofList ((pieces (Text.replaceRaw s).toList).flatMap capital)

/-- The name of the struct for a stem. -/
def structName (stem : String) : Ident := pascalCase stem ++ "Api"

/-- Turns `param.name` into `self.name`. -/
def redirect? (param : Ident) : Expr → Option Expr
  | .field (.path p) name =>
      if p.isIdent param then some (.field (.path (.of "self")) name) else none
  | _ => none

/-- Redirects field accesses on a parameter to the receiver. -/
def redirecting (param : Ident) : Replacer Unit where
  onTy _ state := (none, state)
  onExpr e state := (redirect? param e, state)

/-- The name of the method for a function: the first `stem_` is left out, unless nothing would
remain. -/
def methodName (name : Ident) (stem : String) : Ident :=
  let short := Text.eraseFirst name (stem ++ "_")
  if short = "" then name else short

/-- The method for a function: its first parameter becomes the receiver. -/
def toMethod (stem : String) (f : Func) : Except Failure Func :=
  match f.params with
  | [] => .error (.along ["function " ++ inMessage f.name ++ " has no parameters"] .receiver)
  | first :: rest =>
      match first.pat.plain? with
      | none =>
          .error (.along ["function " ++ inMessage f.name ++ ": first parameter " ++
            Text.quote first.pat.text ++ " is not a plain identifier"] .receiver)
      | some param =>
          let g := (f.replaceBody (redirecting param) ()).value
          .ok { g with
            name := methodName f.name stem
            pub := true
            receiver := some { ref := true, mutable := true }
            params := rest }

/-- Whether a declaration is an operation of the stem. -/
def isOperation (stem : String) : Decl → Bool
  | .func f => Text.contains f.name stem
  | _ => false

/-- The function of a declaration that is an operation of the stem. -/
def operation? (stem : String) : Decl → Option Func
  | .func f => if Text.contains f.name stem then some f else none
  | _ => none

/-- The constructor of the struct. -/
def constructor (opts : Options) : Func where
  name := "new"
  pub := true
  params := [⟨.ident false opts.field, opts.handle⟩]
  ret := some (.named "Self")
  body := some [.expr (.construct (.of "Self") [.mk opts.field none] none) false]

/-- The struct for a stem. -/
def facadeStruct (opts : Options) (stem : String) : Struct where
  name := structName stem
  pub := true
  attrs := [⟨.of "derive", "(Clone)", false⟩]
  fields := [{ name := opts.field, ty := opts.handle }]

/-- The impl block with the constructor and the methods. -/
def facadeImpl (opts : Options) (stem : String) (methods : List Func) : Impl where
  self := structName stem
  fns := constructor opts :: methods

/-- What was generated. -/
structure Result where
  struct : Ident
  methods : List Ident
  deriving DecidableEq, Repr

/-- Converts the operations of a module to methods of one struct.  A function that cannot be
converted leaves the module as it was; a name that is already an enum is found only after the
functions have left it. -/
def generate (m : Module) (opts : Options) : Module × Except Failure Result :=
  let stem := stem m.name opts.ending
  let place := "facade " ++ inMessage m.name
  if stem = "" then
    (m, .error (.invalid (place ++ ": empty stem for suffix " ++ Text.quote opts.ending)))
  else
    match (m.decls.filterMap (operation? stem)).mapM (toMethod stem) with
    | .error f => (m, .error (f.within place))
    | .ok methods =>
        match (m.without (isOperation stem)).pushAll
            [.struct (facadeStruct opts stem), .impl (facadeImpl opts stem methods)] with
        | (m', .error f) => (m', .error (f.within place))
        | (m', .ok ()) => (m', .ok ⟨structName stem, methods.map Func.name⟩)

end Facade
end ClientLoom
