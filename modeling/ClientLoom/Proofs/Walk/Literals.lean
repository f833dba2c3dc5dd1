import Mathlib.Data.List.Basic
import ClientLoom.Expr.Basic

/-! # The struct literals in bodies

`Literals.dropStmts` takes entries out of every struct literal in a body, by their names, and what
stands inside of such an entry goes with it.  `Literals.ofStmts` lists the struct literals of a
body that stand outside of the entries with some names, each with the names of its entries.

Dropping entries of some names and then of others is dropping them together
(`dropStmts_dropStmts`).  The literals that are left are those that stood outside of the dropped
entries, in the same order, and each of them lost the named entries and no other
(`ofStmts_dropStmts`). -/

namespace ClientLoom

@[simp] theorem FieldInit.name_mk (name : Ident) (value : Option Expr) :
    (FieldInit.mk name value).name = name := rfl

/-- What a struct literal names: its type and its entries, in order. -/
structure StructLiteral where
  path : Path
  entries : List Ident

/-- The literal without the entries whose names are gone. -/
def StructLiteral.drop (gone : Ident → Bool) (l : StructLiteral) : StructLiteral :=
  { l with entries := l.entries.filter (!gone ·) }

namespace Literals

mutual

/-- The struct literals in an expression that stand outside of entries whose names are gone; those
inside of a literal come before it. -/
def ofExpr (gone : Ident → Bool) : Expr → List StructLiteral
  | .path _ => []
  | .lit _ => []
  | .raw _ => []
  | .field base _ => ofExpr gone base
  | .call callee args => ofExpr gone callee ++ ofExprs gone args
  | .method base _ args => ofExpr gone base ++ ofExprs gone args
  | .macroCall _ args => ofExprs gone args
  | .construct p inits base =>
      ofInits gone inits ++ (ofExpr? gone base ++ [⟨p, inits.map FieldInit.name⟩])
  | .ref _ e => ofExpr gone e
  | .attempt e => ofExpr gone e
  | .letCond _ e => ofExpr gone e
  | .cond test yes no => ofExpr gone test ++ (ofStmts gone yes ++ ofStmts? gone no)
  | .block stmts => ofStmts gone stmts

/-- The struct literals in expressions, in order. -/
def ofExprs (gone : Ident → Bool) : List Expr → List StructLiteral
  | [] => []
  | e :: es => ofExpr gone e ++ ofExprs gone es

/-- The struct literals in an expression that may be absent. -/
def ofExpr? (gone : Ident → Bool) : Option Expr → List StructLiteral
  | none => []
  | some e => ofExpr gone e

/-- The struct literals in the values of entries, in order. -/
def ofInits (gone : Ident → Bool) : List FieldInit → List StructLiteral
  | [] => []
  | .mk name value :: rest =>
      (if gone name then [] else ofExpr? gone value) ++ ofInits gone rest

/-- The struct literals in a statement. -/
def ofStmt (gone : Ident → Bool) : Stmt → List StructLiteral
  | .bind _ _ value => ofExpr? gone value
  | .expr e _ => ofExpr gone e

/-- The struct literals in statements, in order. -/
def ofStmts (gone : Ident → Bool) : List Stmt → List StructLiteral
  | [] => []
  | s :: rest => ofStmt gone s ++ ofStmts gone rest

/-- The struct literals in statements that may be absent. -/
def ofStmts? (gone : Ident → Bool) : Option (List Stmt) → List StructLiteral
  | none => []
  | some stmts => ofStmts gone stmts

end

mutual

/-- The expression without the entries of struct literals whose names are gone. -/
def dropExpr (gone : Ident → Bool) : Expr → Expr
  | .path p => .path p
  | .lit text => .lit text
  | .raw text => .raw text
  | .field base name => .field (dropExpr gone base) name
  | .call callee args => .call (dropExpr gone callee) (dropExprs gone args)
  | .method base name args => .method (dropExpr gone base) name (dropExprs gone args)
  | .macroCall p args => .macroCall p (dropExprs gone args)
  | .construct p inits base =>
      .construct p ((dropValues gone inits).filter (!gone ·.name)) (dropExpr? gone base)
  | .ref mutable e => .ref mutable (dropExpr gone e)
  | .attempt e => .attempt (dropExpr gone e)
  | .letCond pat e => .letCond pat (dropExpr gone e)
  | .cond test yes no => .cond (dropExpr gone test) (dropStmts gone yes) (dropStmts? gone no)
  | .block stmts => .block (dropStmts gone stmts)

/-- Expressions without the entries. -/
def dropExprs (gone : Ident → Bool) : List Expr → List Expr
  | [] => []
  | e :: es => dropExpr gone e :: dropExprs gone es

/-- An expression that may be absent, without the entries. -/
def dropExpr? (gone : Ident → Bool) : Option Expr → Option Expr
  | none => none
  | some e => some (dropExpr gone e)

/-- All entries of a struct literal, with values that have lost entries of their own. -/
def dropValues (gone : Ident → Bool) : List FieldInit → List FieldInit
  | [] => []
  | .mk name value :: rest => .mk name (dropExpr? gone value) :: dropValues gone rest

/-- A statement without the entries. -/
def dropStmt (gone : Ident → Bool) : Stmt → Stmt
  | .bind pat ty value => .bind pat ty (dropExpr? gone value)
  | .expr e semi => .expr (dropExpr gone e) semi

/-- Statements without the entries. -/
def dropStmts (gone : Ident → Bool) : List Stmt → List Stmt
  | [] => []
  | s :: rest => dropStmt gone s :: dropStmts gone rest

/-- Statements that may be absent, without the entries. -/
def dropStmts? (gone : Ident → Bool) : Option (List Stmt) → Option (List Stmt)
  | none => none
  | some stmts => some (dropStmts gone stmts)

end

/-- All struct literals in a body. -/
abbrev all (b : Block) : List StructLiteral := ofStmts (fun _ => false) b

variable (gone lost : Ident → Bool)

theorem map_name_dropValues : ∀ inits : List FieldInit,
    (dropValues gone inits).map FieldInit.name = inits.map FieldInit.name
  | [] => rfl
  | .mk name value :: rest => by
      simp only [dropValues, List.map_cons, FieldInit.name_mk, map_name_dropValues rest]

/-! ### One drop after another -/

mutual

theorem dropExpr_dropExpr : ∀ e : Expr,
    dropExpr lost (dropExpr gone e) = dropExpr (fun n => gone n || lost n) e
  | .path _ | .lit _ | .raw _ => rfl
  | .field e _ | .ref _ e | .attempt e | .letCond _ e => by simp [dropExpr, dropExpr_dropExpr e]
  | .call e args | .method e _ args => by
      simp [dropExpr, dropExpr_dropExpr e, dropExprs_dropExprs args]
  | .macroCall _ args => by simp [dropExpr, dropExprs_dropExprs args]
  | .construct _ inits base => by
      simp only [dropExpr, dropValues_filter inits, dropExpr?_dropExpr? base]
  | .cond test yes no => by
      simp [dropExpr, dropExpr_dropExpr test, dropStmts_dropStmts yes, dropStmts?_dropStmts? no]
  | .block stmts => by simp [dropExpr, dropStmts_dropStmts stmts]

theorem dropExprs_dropExprs : ∀ es : List Expr,
    dropExprs lost (dropExprs gone es) = dropExprs (fun n => gone n || lost n) es
  | [] => rfl
  | e :: es => by simp [dropExprs, dropExpr_dropExpr e, dropExprs_dropExprs es]

theorem dropExpr?_dropExpr? : ∀ e : Option Expr,
    dropExpr? lost (dropExpr? gone e) = dropExpr? (fun n => gone n || lost n) e
  | none => rfl
  | some e => by simp [dropExpr?, dropExpr_dropExpr e]

/-- The entries that are left have the values that both drops leave. -/
theorem dropValues_filter : ∀ inits : List FieldInit,
    (dropValues lost ((dropValues gone inits).filter (!gone ·.name))).filter (!lost ·.name) =
      (dropValues (fun n => gone n || lost n) inits).filter fun i =>
        !(gone i.name || lost i.name)
  | [] => rfl
  | .mk name value :: rest => by
      have ih := dropValues_filter rest
      simp only [Bool.not_or] at ih ⊢
      cases hgone : gone name <;> cases hlost : lost name <;>
        simp [dropValues, hgone, hlost, dropExpr?_dropExpr? value, ih]

theorem dropStmt_dropStmt : ∀ s : Stmt,
    dropStmt lost (dropStmt gone s) = dropStmt (fun n => gone n || lost n) s
  | .bind _ _ value => by simp [dropStmt, dropExpr?_dropExpr? value]
  | .expr e _ => by simp [dropStmt, dropExpr_dropExpr e]

theorem dropStmts_dropStmts : ∀ b : List Stmt,
    dropStmts lost (dropStmts gone b) = dropStmts (fun n => gone n || lost n) b
  | [] => rfl
  | s :: rest => by simp [dropStmts, dropStmt_dropStmt s, dropStmts_dropStmts rest]

theorem dropStmts?_dropStmts? : ∀ b : Option (List Stmt),
    dropStmts? lost (dropStmts? gone b) = dropStmts? (fun n => gone n || lost n) b
  | none => rfl
  | some b => by simp [dropStmts?, dropStmts_dropStmts b]

end

/-! ### The literals that are left -/

mutual

theorem ofExpr_dropExpr : ∀ e : Expr, ofExpr lost (dropExpr gone e) =
    (ofExpr (fun n => gone n || lost n) e).map (StructLiteral.drop gone)
  | .path _ | .lit _ | .raw _ => rfl
  | .field e _ | .ref _ e | .attempt e | .letCond _ e => by
      simp [dropExpr, ofExpr, ofExpr_dropExpr e]
  | .call e args | .method e _ args => by
      simp [dropExpr, ofExpr, ofExpr_dropExpr e, ofExprs_dropExprs args]
  | .macroCall _ args => by simp [dropExpr, ofExpr, ofExprs_dropExprs args]
  | .construct p inits base => by
      have hentries : ((dropValues gone inits).filter (!gone ·.name)).map FieldInit.name =
          (inits.map FieldInit.name).filter (!gone ·) := by
        rw [← map_name_dropValues gone inits, List.filter_map]
        rfl
      simp only [dropExpr, ofExpr, ofInits_filter inits, ofExpr?_dropExpr? base, hentries,
        List.map_append]
      rfl
  | .cond test yes no => by
      simp [dropExpr, ofExpr, ofExpr_dropExpr test, ofStmts_dropStmts yes,
        ofStmts?_dropStmts? no]
  | .block stmts => by simp [dropExpr, ofExpr, ofStmts_dropStmts stmts]

theorem ofExprs_dropExprs : ∀ es : List Expr, ofExprs lost (dropExprs gone es) =
    (ofExprs (fun n => gone n || lost n) es).map (StructLiteral.drop gone)
  | [] => rfl
  | e :: es => by simp [dropExprs, ofExprs, ofExpr_dropExpr e, ofExprs_dropExprs es]

theorem ofExpr?_dropExpr? : ∀ e : Option Expr, ofExpr? lost (dropExpr? gone e) =
    (ofExpr? (fun n => gone n || lost n) e).map (StructLiteral.drop gone)
  | none => rfl
  | some e => by simp [dropExpr?, ofExpr?, ofExpr_dropExpr e]

theorem ofInits_filter : ∀ inits : List FieldInit,
    ofInits lost ((dropValues gone inits).filter (!gone ·.name)) =
      (ofInits (fun n => gone n || lost n) inits).map (StructLiteral.drop gone)
  | [] => rfl
  | .mk name value :: rest => by
      have ih := ofInits_filter rest
      cases hgone : gone name <;> cases hlost : lost name <;>
        simp [dropValues, ofInits, hgone, hlost, ofExpr?_dropExpr? value, ih]

theorem ofStmt_dropStmt : ∀ s : Stmt, ofStmt lost (dropStmt gone s) =
    (ofStmt (fun n => gone n || lost n) s).map (StructLiteral.drop gone)
  | .bind _ _ value => by simp [dropStmt, ofStmt, ofExpr?_dropExpr? value]
  | .expr e _ => by simp [dropStmt, ofStmt, ofExpr_dropExpr e]

theorem ofStmts_dropStmts : ∀ b : List Stmt, ofStmts lost (dropStmts gone b) =
    (ofStmts (fun n => gone n || lost n) b).map (StructLiteral.drop gone)
  | [] => rfl
  | s :: rest => by simp [dropStmts, ofStmts, ofStmt_dropStmt s, ofStmts_dropStmts rest]

theorem ofStmts?_dropStmts? : ∀ b : Option (List Stmt), ofStmts? lost (dropStmts? gone b) =
    (ofStmts? (fun n => gone n || lost n) b).map (StructLiteral.drop gone)
  | none => rfl
  | some b => by simp [dropStmts?, ofStmts?, ofStmts_dropStmts b]

end

/-! ### Literals inside of entries -/

mutual

theorem ofExpr_sublist : ∀ e : Expr, (ofExpr gone e).Sublist (ofExpr (fun _ => false) e)
  | .path _ | .lit _ | .raw _ => .slnil
  | .field e _ | .ref _ e | .attempt e | .letCond _ e => by simpa [ofExpr] using ofExpr_sublist e
  | .call e args | .method e _ args => by
      simpa [ofExpr] using (ofExpr_sublist e).append (ofExprs_sublist args)
  | .macroCall _ args => by simpa [ofExpr] using ofExprs_sublist args
  | .construct _ inits base =>
      (ofInits_sublist inits).append ((ofExpr?_sublist base).append (.refl _))
  | .cond test yes no =>
      (ofExpr_sublist test).append ((ofStmts_sublist yes).append (ofStmts?_sublist no))
  | .block stmts => by simpa [ofExpr] using ofStmts_sublist stmts

theorem ofExprs_sublist : ∀ es : List Expr, (ofExprs gone es).Sublist (ofExprs (fun _ => false) es)
  | [] => .slnil
  | e :: es => (ofExpr_sublist e).append (ofExprs_sublist es)

theorem ofExpr?_sublist : ∀ e : Option Expr, (ofExpr? gone e).Sublist (ofExpr? (fun _ => false) e)
  | none => .slnil
  | some e => ofExpr_sublist e

theorem ofInits_sublist : ∀ inits : List FieldInit,
    (ofInits gone inits).Sublist (ofInits (fun _ => false) inits)
  | [] => .slnil
  | .mk name value :: rest => by
      refine List.Sublist.append ?_ (ofInits_sublist rest)
      rw [if_neg Bool.false_ne_true]
      split
      · exact List.nil_sublist _
      · exact ofExpr?_sublist value

theorem ofStmt_sublist : ∀ s : Stmt, (ofStmt gone s).Sublist (ofStmt (fun _ => false) s)
  | .bind _ _ value => ofExpr?_sublist value
  | .expr e _ => ofExpr_sublist e

theorem ofStmts_sublist : ∀ b : List Stmt, (ofStmts gone b).Sublist (all b)
  | [] => .slnil
  | s :: rest => (ofStmt_sublist s).append (ofStmts_sublist rest)

theorem ofStmts?_sublist : ∀ b : Option (List Stmt),
    (ofStmts? gone b).Sublist (ofStmts? (fun _ => false) b)
  | none => .slnil
  | some b => ofStmts_sublist b

end

end Literals
end ClientLoom
