import ClientLoom.Decl.Walk
import ClientLoom.Module.Basic

/-! # Stripping paths

Declarations that move to a new scope lose the leading part of their paths, and imports that
would import the new scope into itself are dropped.  A `Strip.Plan` says which. -/

namespace ClientLoom
namespace Strip

/-- Shortens the path of a type. -/
def ty? (lead : Path) : Ty → Option Ty
  | .path p args => (p.strip? lead).map fun q => .path q args
  | _ => none

/-- Shortens the path of a path expression or a struct literal. -/
def expr? (lead : Path) : Expr → Option Expr
  | .path p => (p.strip? lead).map .path
  | .construct p inits base => (p.strip? lead).map fun q => .construct q inits base
  | _ => none

/-- Removes a leading path from every type and expression. -/
def stripping (lead : Path) : Replacer Unit where
  onTy t state := (ty? lead t, state)
  onExpr e state := (expr? lead e, state)

/-- A walked value with the number of replacements. -/
def counted {α : Type} (out : Replaced Unit α) : α × Nat := (out.value, out.count)

/-- Shortens the paths in a type. -/
def strippedTy (lead : Path) (t : Ty) : Ty × Nat := counted (t.replace (stripping lead) ())

/-- Shortens the paths in the types of a declaration and in the signatures of its functions. -/
def strippedDecl (lead : Path) (d : Decl) : Decl × Nat :=
  let (d, n) := d.mapTypes (strippedTy lead)
  let (d, k) := d.mapFuncs fun f => counted (f.replaceSignature (stripping lead) ())
  (d, n + k)

/-- Shortens the paths in the bodies of the functions of a declaration. -/
def strippedBodies (lead : Path) (d : Decl) : Decl × Nat :=
  d.mapFuncs fun f => counted (f.replaceBody (stripping lead) ())

/-- Whether a declaration imports from below `lead`. -/
def importsFrom (lead : Path) : Decl → Bool
  | .use u => u.path.startsWith lead
  | _ => false

/-- Removes every import that starts with `lead`. -/
def removeImports (lead : Path) (m : Module) : Module × Nat :=
  (m.without (importsFrom lead), m.decls.countP (importsFrom lead))

/-- Applies a counted change to every declaration of a module. -/
def onDecls (f : Decl → Decl × Nat) (m : Module) : Module × Nat :=
  let (decls, n) := mapCount f m.decls
  ({ m with decls := decls }, n)

/-- Removes a leading path from field types, payload types and signatures. -/
def stripDecls (lead : Path) (m : Module) : Module × Nat := onDecls (strippedDecl lead) m

/-- Removes a leading path from function bodies. -/
def stripBodies (lead : Path) (m : Module) : Module × Nat := onDecls (strippedBodies lead) m

/-- Which imports to drop and which leading paths to strip, in order. -/
structure Plan where
  drop : List Path
  strip : List Path

/-- What a plan changed. -/
structure Stats where
  imports : Nat := 0
  decls : Nat := 0
  bodies : Nat := 0
  deriving DecidableEq, Repr

/-- What two plans changed together. -/
def Stats.add (a b : Stats) : Stats :=
  ⟨a.imports + b.imports, a.decls + b.decls, a.bodies + b.bodies⟩

/-- Drops the imports below one path. -/
def dropStep (acc : Module × Stats) (lead : Path) : Module × Stats :=
  let (m, n) := removeImports lead acc.1
  (m, { acc.2 with imports := acc.2.imports + n })

/-- Strips one path from signatures and then from bodies. -/
def stripStep (acc : Module × Stats) (lead : Path) : Module × Stats :=
  let (m, n) := stripDecls lead acc.1
  let (m, k) := stripBodies lead m
  (m, { acc.2 with decls := acc.2.decls + n, bodies := acc.2.bodies + k })

/-- Applies a plan: the imports first, then each path in order. -/
def Plan.apply (plan : Plan) (m : Module) : Module × Stats :=
  plan.strip.foldl stripStep (plan.drop.foldl dropStep (m, {}))

end Strip
end ClientLoom
