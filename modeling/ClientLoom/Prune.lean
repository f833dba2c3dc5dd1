import ClientLoom.Decl.Walk
import ClientLoom.Module.Basic

/-! # Pruning credentials

`Prune.run` takes the credentials out of the client configuration: the structs that describe
them, the fields that hold them and their entries in the struct literals of the constructor and
of the default value. -/

namespace ClientLoom
namespace Prune

/-- What to prune. -/
structure Options where
  /-- the module to prune; no other is touched -/
  module : Ident
  /-- the struct that loses fields -/
  struct : Ident
  /-- structs that go -/
  auxStructs : List Ident
  /-- fields that go -/
  fields : List Ident
  /-- the inherent function whose literals lose entries -/
  constructor : Ident

/-- The usual options. -/
def Options.usual : Options where
  module := "configuration"
  struct := "Configuration"
  auxStructs := ["BasicAuth", "ApiKey"]
  fields := ["basic_auth", "oauth_access_token", "bearer_access_token", "api_key"]
  constructor := "new"

/-- What was removed. -/
structure Stats where
  auxStructs : Nat := 0
  fields : Nat := 0
  inits : Nat := 0
  deriving DecidableEq, Repr

/-- Drops the named entries of every struct literal; the state counts them. -/
def droppingInits (names : List Ident) : Replacer Nat where
  onTy _ n := (none, n)
  onExpr e n :=
    match e with
    | .construct p inits base =>
        (some (.construct p (inits.filter (!names.contains ·.name)) base),
          n + inits.countP (names.contains ·.name))
    | _ => (none, n)

/-- Drops the named entries of every struct literal in a body, and counts them. -/
def dropInits (names : List Ident) (f : Func) : Func × Nat :=
  let out := f.replaceBody (droppingInits names) 0
  (out.value, out.state)

/-- Whether a declaration is one of the named structs. -/
def isAux (names : List Ident) : Decl → Bool
  | .struct s => names.contains s.name
  | _ => false

/-- The function called `name` in the block with the given trait. -/
def member? (s : Struct) (key : String) (name : Ident) : Option Func :=
  (Impl.findKey? s.impls key).bind (·.fn? name)

/-- Changes the function called `name` in the block with the given trait. -/
def modifyMember (s : Struct) (key : String) (name : Ident) (f : Func → Func) : Struct :=
  { s with
    impls := Module.modifyFirst (·.traitKey == key)
      (fun i => { i with fns := Module.modifyFirst (·.name == name) f i.fns }) s.impls }

/-- The struct without the fields and without their entries in the two bodies. -/
def pruneStruct (opts : Options) (s : Struct) : Struct :=
  let s := s.removeFields opts.fields
  let s := modifyMember s "" opts.constructor fun f => (dropInits opts.fields f).1
  modifyMember s "Default" "default" fun f => (dropInits opts.fields f).1

/-- Prunes a module.  All lookups come before anything is removed. -/
def run (m : Module) (opts : Options) : Module × Except Failure Stats :=
  let place := "prune " ++ inMessage m.name
  if m.name ≠ opts.module then (m, .ok {})
  else
    match m.struct? opts.struct with
    | none => (m, .error (.along [place ++ ": struct " ++ opts.struct] .missing))
    | some target =>
      match member? target "" opts.constructor, member? target "Default" "default" with
      | none, _ =>
          (m, .error (.along [place ++ ": constructor " ++ opts.struct ++ "::" ++ opts.constructor]
            .missing))
      | _, none =>
          (m, .error (.along [place ++ ": impl Default for " ++ opts.struct] .missingTrait))
      | some new, some dflt =>
          ((m.modifyStruct opts.struct (pruneStruct opts)).without (isAux opts.auxStructs),
            .ok
              { auxStructs := m.decls.countP (isAux opts.auxStructs)
                fields := target.fields.countP (opts.fields.contains ·.name)
                inits := (dropInits opts.fields new).2 + (dropInits opts.fields dflt).2 })

end Prune
end ClientLoom
