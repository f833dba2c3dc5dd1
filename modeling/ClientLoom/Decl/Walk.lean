import ClientLoom.Decl.Basic
import ClientLoom.Expr.Walk

/-! # Walking declarations

Walks over the parts of declarations that carry types and bodies, with the number of
replacements made. -/

namespace ClientLoom

/-- Applies a counted change to every element in order and adds the counts. -/
def mapCount {α : Type} (f : α → α × Nat) : List α → List α × Nat
  | [] => ([], 0)
  | x :: xs =>
      let (y, n) := f x
      let (ys, k) := mapCount f xs
      (y :: ys, n + k)

namespace Replacer

variable {σ : Type}

/-- Walks the types of parameters in order. -/
def walkParams (r : Replacer σ) : List Param → StateM (Tally σ) (List Param)
  | [] => pure []
  | p :: ps => do
      let ty ← r.walkTy p.ty
      let ps ← walkParams r ps
      pure ({ p with ty := ty } :: ps)

/-- Walks the types of a signature: the parameters, then the result. -/
def walkSignature (r : Replacer σ) (f : Func) : StateM (Tally σ) Func := do
  let params ← r.walkParams f.params
  let ret ← r.walkTy? f.ret
  pure { f with params := params, ret := ret }

end Replacer

namespace Func

/-- Replaces within the types of a signature. -/
def replaceSignature {σ : Type} (r : Replacer σ) (state : σ) (f : Func) : Replaced σ Func :=
  .ofWalk (r.walkSignature f) state

/-- Replaces within the body of a function, when it has one. -/
def replaceBody {σ : Type} (r : Replacer σ) (state : σ) (f : Func) : Replaced σ Func :=
  match f.body with
  | none => ⟨f, state, 0⟩
  | some b =>
      let out := Block.replace r state b
      ⟨{ f with body := some out.value }, out.state, out.count⟩

end Func

namespace Decl

/-- Applies a counted change to every function of an impl block. -/
def implFuncs (f : Func → Func × Nat) (i : Impl) : Impl × Nat :=
  let (fns, n) := mapCount f i.fns
  ({ i with fns := fns }, n)

/-- Applies a counted change to every function of a declaration. -/
def mapFuncs (f : Func → Func × Nat) : Decl → Decl × Nat
  | .struct s =>
      let (impls, n) := mapCount (implFuncs f) s.impls
      (.struct { s with impls := impls }, n)
  | .enum e =>
      let (impls, n) := mapCount (implFuncs f) e.impls
      (.enum { e with impls := impls }, n)
  | .func g =>
      let (g, n) := f g
      (.func g, n)
  | .impl i =>
      let (i, n) := implFuncs f i
      (.impl i, n)
  | .use u => (.use u, 0)
  | .verbatim text => (.verbatim text, 0)

/-- Applies a counted change to the types of fields and to the payloads of variants. -/
def mapTypes (f : Ty → Ty × Nat) : Decl → Decl × Nat
  | .struct s =>
      let (fields, n) := mapCount (fun x => let (t, n) := f x.ty; ({ x with ty := t }, n)) s.fields
      (.struct { s with fields := fields }, n)
  | .enum e =>
      let (variants, n) :=
        mapCount
          (fun v => let (ts, n) := mapCount f v.types; ({ v with types := ts }, n)) e.variants
      (.enum { e with variants := variants }, n)
  | d => (d, 0)

end Decl
end ClientLoom
