import ClientLoom.Expr.Basic

/-! # Walking types and bodies

A replacer is offered every type and every expression of a tree and may answer with a
replacement.  Children come before their parent and siblings in source order; a replacement is
put in place and neither offered nor entered.  The walk counts the replacements. -/

namespace ClientLoom

/-- Answers to the nodes offered by a walk, with a state of its own. -/
structure Replacer (σ : Type) where
  onTy : Ty → σ → Option Ty × σ
  onExpr : Expr → σ → Option Expr × σ

/-- What a walk carries along: the state of the replacer and the number of replacements. -/
structure Tally (σ : Type) where
  state : σ
  count : Nat

namespace Replacer

variable {σ : Type}

/-- Puts an answer in place of the node and counts it. -/
def settle {α : Type} (node : α) (answer : Option α × σ) (count : Nat) : α × Tally σ :=
  match answer with
  | (some new, state) => (new, ⟨state, count + 1⟩)
  | (none, state) => (node, ⟨state, count⟩)

/-- Offers a type. -/
def offerTy (r : Replacer σ) (t : Ty) : StateM (Tally σ) Ty :=
  fun s => settle t (r.onTy t s.state) s.count

/-- Offers an expression. -/
def offerExpr (r : Replacer σ) (e : Expr) : StateM (Tally σ) Expr :=
  fun s => settle e (r.onExpr e s.state) s.count

mutual

/-- Walks a type. -/
def walkTy (r : Replacer σ) : Ty → StateM (Tally σ) Ty
  | .path p args => do
      let args ← walkTys r args
      r.offerTy (.path p args)
  | .ref mutable elem => do
      let elem ← walkTy r elem
      r.offerTy (.ref mutable elem)
  | .tuple elems => do
      let elems ← walkTys r elems
      r.offerTy (.tuple elems)
  | .slice elem => do
      let elem ← walkTy r elem
      r.offerTy (.slice elem)
  | .raw text => r.offerTy (.raw text)

/-- Walks types in order. -/
def walkTys (r : Replacer σ) : List Ty → StateM (Tally σ) (List Ty)
  | [] => pure []
  | t :: ts => do
      let t ← walkTy r t
      let ts ← walkTys r ts
      pure (t :: ts)

end

/-- Walks a type that may be absent. -/
def walkTy? (r : Replacer σ) : Option Ty → StateM (Tally σ) (Option Ty)
  | none => pure none
  | some t => do
      let t ← walkTy r t
      pure (some t)

mutual

/-- Walks an expression. -/
def walkExpr (r : Replacer σ) : Expr → StateM (Tally σ) Expr
  | .path p => r.offerExpr (.path p)
  | .lit text => r.offerExpr (.lit text)
  | .raw text => r.offerExpr (.raw text)
  | .field base name => do
      let base ← walkExpr r base
      r.offerExpr (.field base name)
  | .call callee args => do
      let callee ← walkExpr r callee
      let args ← walkExprs r args
      r.offerExpr (.call callee args)
  | .method base name args => do
      let base ← walkExpr r base
      let args ← walkExprs r args
      r.offerExpr (.method base name args)
  | .macroCall p args => do
      let args ← walkExprs r args
      r.offerExpr (.macroCall p args)
  | .construct p inits base => do
      let inits ← walkInits r inits
      let base ← walkExpr? r base
      r.offerExpr (.construct p inits base)
  | .ref mutable e => do
      let e ← walkExpr r e
      r.offerExpr (.ref mutable e)
  | .attempt e => do
      let e ← walkExpr r e
      r.offerExpr (.attempt e)
  | .letCond pat e => do
      let e ← walkExpr r e
      r.offerExpr (.letCond pat e)
  | .cond test yes no => do
      let test ← walkExpr r test
      let yes ← walkStmts r yes
      let no ← walkStmts? r no
      r.offerExpr (.cond test yes no)
  | .block stmts => do
      let stmts ← walkStmts r stmts
      r.offerExpr (.block stmts)

/-- Walks expressions in order. -/
def walkExprs (r : Replacer σ) : List Expr → StateM (Tally σ) (List Expr)
  | [] => pure []
  | e :: es => do
      let e ← walkExpr r e
      let es ← walkExprs r es
      pure (e :: es)

/-- Walks an expression that may be absent. -/
def walkExpr? (r : Replacer σ) : Option Expr → StateM (Tally σ) (Option Expr)
  | none => pure none
  | some e => do
      let e ← walkExpr r e
      pure (some e)

/-- Walks the values of a struct literal in order. -/
def walkInits (r : Replacer σ) : List FieldInit → StateM (Tally σ) (List FieldInit)
  | [] => pure []
  | .mk name value :: rest => do
      let value ← walkExpr? r value
      let rest ← walkInits r rest
      pure (.mk name value :: rest)

/-- Walks a statement; the type of a binding comes before its value. -/
def walkStmt (r : Replacer σ) : Stmt → StateM (Tally σ) Stmt
  | .bind pat ty value => do
      let ty ← walkTy? r ty
      let value ← walkExpr? r value
      pure (.bind pat ty value)
  | .expr e semi => do
      let e ← walkExpr r e
      pure (.expr e semi)

/-- Walks statements in order. -/
def walkStmts (r : Replacer σ) : List Stmt → StateM (Tally σ) (List Stmt)
  | [] => pure []
  | s :: rest => do
      let s ← walkStmt r s
      let rest ← walkStmts r rest
      pure (s :: rest)

/-- Walks statements that may be absent. -/
def walkStmts? (r : Replacer σ) : Option (List Stmt) → StateM (Tally σ) (Option (List Stmt))
  | none => pure none
  | some stmts => do
      let stmts ← walkStmts r stmts
      pure (some stmts)

end

end Replacer

/-- The result of a walk from a fresh count: the new tree, the final state and the number of
replacements. -/
structure Replaced (σ α : Type) where
  value : α
  state : σ
  count : Nat

/-- Runs a walk from the given state. -/
def Replaced.ofWalk {σ α : Type} (walk : StateM (Tally σ) α) (state : σ) : Replaced σ α :=
  let out := walk ⟨state, 0⟩
  ⟨out.1, out.2.state, out.2.count⟩

/-- Replaces within a type. -/
def Ty.replace {σ : Type} (r : Replacer σ) (state : σ) (t : Ty) : Replaced σ Ty :=
  .ofWalk (r.walkTy t) state

/-- Replaces within an expression. -/
def Expr.replace {σ : Type} (r : Replacer σ) (state : σ) (e : Expr) : Replaced σ Expr :=
  .ofWalk (r.walkExpr e) state

/-- Replaces within the statements of a block. -/
def Block.replace {σ : Type} (r : Replacer σ) (state : σ) (b : Block) : Replaced σ Block :=
  .ofWalk (r.walkStmts b) state

end ClientLoom
