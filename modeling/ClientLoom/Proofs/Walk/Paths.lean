import ClientLoom.Expr.Basic

/-! # The paths in types and bodies

`Paths.ofTy` lists the paths that a type names and `Paths.ofStmts` those in a function body, each
with what it stands for there (`PathRole`), in the order in which a walk comes to them.  The path of
a macro is not among them, and text that is kept as it stands has none.  `Paths.mapTy` and
`Paths.mapStmts` put other paths in their places and leave everything else alone.

Three laws say how these belong together: the paths of the result are the new ones
(`ofStmts_mapStmts`), one change after another is one change (`mapStmts_mapStmts`), and a change of
no path is no change (`mapStmts_eq_self`). -/

namespace ClientLoom

/-- What a path in a function body stands for. -/
inductive PathRole where
  /-- a type, in the annotation of a binding -/
  | type
  /-- an expression -/
  | value
  /-- an expression that a field is taken of -/
  | base
  /-- the type of a struct literal -/
  | literal
  deriving DecidableEq

namespace Paths

/-! ### Types -/

mutual

/-- The paths that a type names; those of arguments come before the path they belong to. -/
def ofTy : Ty → List Path
  | .path p args => ofTys args ++ [p]
  | .ref _ elem => ofTy elem
  | .tuple elems => ofTys elems
  | .slice elem => ofTy elem
  | .raw _ => []

/-- The paths that types name, in order. -/
def ofTys : List Ty → List Path
  | [] => []
  | t :: ts => ofTy t ++ ofTys ts

end

/-- The paths of a type that may be absent. -/
def ofTy? : Option Ty → List Path
  | none => []
  | some t => ofTy t

mutual

/-- The type with other paths. -/
def mapTy (f : Path → Path) : Ty → Ty
  | .path p args => .path (f p) (mapTys f args)
  | .ref mutable elem => .ref mutable (mapTy f elem)
  | .tuple elems => .tuple (mapTys f elems)
  | .slice elem => .slice (mapTy f elem)
  | .raw text => .raw text

/-- Types with other paths. -/
def mapTys (f : Path → Path) : List Ty → List Ty
  | [] => []
  | t :: ts => mapTy f t :: mapTys f ts

end

section types

variable (f g : Path → Path)

mutual

theorem ofTy_mapTy : ∀ t : Ty, ofTy (mapTy f t) = (ofTy t).map f
  | .path p args => by simp [mapTy, ofTy, ofTys_mapTys args]
  | .ref _ t | .slice t => by simp [mapTy, ofTy, ofTy_mapTy t]
  | .tuple elems => by simp [mapTy, ofTy, ofTys_mapTys elems]
  | .raw _ => rfl

theorem ofTys_mapTys : ∀ ts : List Ty, ofTys (mapTys f ts) = (ofTys ts).map f
  | [] => rfl
  | t :: ts => by simp [mapTys, ofTys, ofTy_mapTy t, ofTys_mapTys ts]

end

mutual

theorem mapTy_mapTy : ∀ t : Ty, mapTy g (mapTy f t) = mapTy (g ∘ f) t
  | .path p args => by simp [mapTy, mapTys_mapTys args]
  | .ref _ t | .slice t => by simp [mapTy, mapTy_mapTy t]
  | .tuple elems => by simp [mapTy, mapTys_mapTys elems]
  | .raw _ => rfl

theorem mapTys_mapTys : ∀ ts : List Ty, mapTys g (mapTys f ts) = mapTys (g ∘ f) ts
  | [] => rfl
  | t :: ts => by simp [mapTys, mapTy_mapTy t, mapTys_mapTys ts]

end

variable {f}

mutual

theorem mapTy_eq_self : ∀ t : Ty, (∀ p ∈ ofTy t, f p = p) → mapTy f t = t
  | .path p args, h => by
      simp only [ofTy, List.forall_mem_append, List.forall_mem_singleton] at h
      simp [mapTy, mapTys_eq_self args h.1, h.2]
  | .ref _ t, h | .slice t, h => by simp [mapTy, mapTy_eq_self t h]
  | .tuple elems, h => by simp [mapTy, mapTys_eq_self elems h]
  | .raw _, _ => rfl

theorem mapTys_eq_self : ∀ ts : List Ty, (∀ p ∈ ofTys ts, f p = p) → mapTys f ts = ts
  | [], _ => rfl
  | t :: ts, h => by
      simp only [ofTys, List.forall_mem_append] at h
      simp [mapTys, mapTy_eq_self t h.1, mapTys_eq_self ts h.2]

end

theorem map_mapTy_eq_self (t : Option Ty) (h : ∀ p ∈ ofTy? t, f p = p) :
    t.map (mapTy f) = t := by
  cases t with
  | none => rfl
  | some t => exact congrArg some (mapTy_eq_self t h)

end types

/-! ### Bodies -/

mutual

/-- The paths in an expression that stands where a path would have the given role. -/
def ofExpr (role : PathRole) : Expr → List (PathRole × Path)
  | .path p => [(role, p)]
  | .lit _ => []
  | .raw _ => []
  | .field base _ => ofExpr .base base
  | .call callee args => ofExpr .value callee ++ ofExprs args
  | .method base _ args => ofExpr .value base ++ ofExprs args
  | .macroCall _ args => ofExprs args
  | .construct p inits base => ofInits inits ++ (ofExpr? base ++ [(.literal, p)])
  | .ref _ e => ofExpr .value e
  | .attempt e => ofExpr .value e
  | .letCond _ e => ofExpr .value e
  | .cond test yes no => ofExpr .value test ++ (ofStmts yes ++ ofStmts? no)
  | .block stmts => ofStmts stmts

/-- The paths in expressions, in order. -/
def ofExprs : List Expr → List (PathRole × Path)
  | [] => []
  | e :: es => ofExpr .value e ++ ofExprs es

/-- The paths in an expression that may be absent. -/
def ofExpr? : Option Expr → List (PathRole × Path)
  | none => []
  | some e => ofExpr .value e

/-- The paths in the values of a struct literal, in order. -/
def ofInits : List FieldInit → List (PathRole × Path)
  | [] => []
  | .mk _ value :: rest => ofExpr? value ++ ofInits rest

/-- The paths in a statement; those of the type of a binding come first. -/
def ofStmt : Stmt → List (PathRole × Path)
  | .bind _ ty value => (ofTy? ty).map (.type, ·) ++ ofExpr? value
  | .expr e _ => ofExpr .value e

/-- The paths in statements, in order. -/
def ofStmts : List Stmt → List (PathRole × Path)
  | [] => []
  | s :: rest => ofStmt s ++ ofStmts rest

/-- The paths in statements that may be absent. -/
def ofStmts? : Option (List Stmt) → List (PathRole × Path)
  | none => []
  | some stmts => ofStmts stmts

end

mutual

/-- The expression with other paths; it stands where a path would have the given role. -/
def mapExpr (f : PathRole → Path → Path) (role : PathRole) : Expr → Expr
  | .path p => .path (f role p)
  | .lit text => .lit text
  | .raw text => .raw text
  | .field base name => .field (mapExpr f .base base) name
  | .call callee args => .call (mapExpr f .value callee) (mapExprs f args)
  | .method base name args => .method (mapExpr f .value base) name (mapExprs f args)
  | .macroCall p args => .macroCall p (mapExprs f args)
  | .construct p inits base => .construct (f .literal p) (mapInits f inits) (mapExpr? f base)
  | .ref mutable e => .ref mutable (mapExpr f .value e)
  | .attempt e => .attempt (mapExpr f .value e)
  | .letCond pat e => .letCond pat (mapExpr f .value e)
  | .cond test yes no => .cond (mapExpr f .value test) (mapStmts f yes) (mapStmts? f no)
  | .block stmts => .block (mapStmts f stmts)

/-- Expressions with other paths. -/
def mapExprs (f : PathRole → Path → Path) : List Expr → List Expr
  | [] => []
  | e :: es => mapExpr f .value e :: mapExprs f es

/-- An expression that may be absent, with other paths. -/
def mapExpr? (f : PathRole → Path → Path) : Option Expr → Option Expr
  | none => none
  | some e => some (mapExpr f .value e)

/-- The entries of a struct literal with other paths. -/
def mapInits (f : PathRole → Path → Path) : List FieldInit → List FieldInit
  | [] => []
  | .mk name value :: rest => .mk name (mapExpr? f value) :: mapInits f rest

/-- A statement with other paths. -/
def mapStmt (f : PathRole → Path → Path) : Stmt → Stmt
  | .bind pat ty value => .bind pat (ty.map (mapTy (f .type))) (mapExpr? f value)
  | .expr e semi => .expr (mapExpr f .value e) semi

/-- Statements with other paths. -/
def mapStmts (f : PathRole → Path → Path) : List Stmt → List Stmt
  | [] => []
  | s :: rest => mapStmt f s :: mapStmts f rest

/-- Statements that may be absent, with other paths. -/
def mapStmts? (f : PathRole → Path → Path) : Option (List Stmt) → Option (List Stmt)
  | none => none
  | some stmts => some (mapStmts f stmts)

end

section bodies

variable (f g : PathRole → Path → Path)

/-- A path with its role, changed. -/
def change (x : PathRole × Path) : PathRole × Path := (x.1, f x.1 x.2)

theorem ofTy?_map (h : Path → Path) (t : Option Ty) :
    ofTy? (t.map (mapTy h)) = (ofTy? t).map h := by
  cases t with
  | none => rfl
  | some t => exact ofTy_mapTy h t

mutual

theorem ofExpr_mapExpr (role : PathRole) :
    ∀ e : Expr, ofExpr role (mapExpr f role e) = (ofExpr role e).map (change f)
  | .path _ | .lit _ | .raw _ => rfl
  | .field base _ => by simp [mapExpr, ofExpr, ofExpr_mapExpr .base base]
  | .call e args | .method e _ args => by
      simp [mapExpr, ofExpr, ofExpr_mapExpr .value e, ofExprs_mapExprs args]
  | .macroCall _ args => by simp [mapExpr, ofExpr, ofExprs_mapExprs args]
  | .construct p inits base => by
      simp [mapExpr, ofExpr, ofInits_mapInits inits, ofExpr?_mapExpr? base, change]
  | .ref _ e | .attempt e | .letCond _ e => by simp [mapExpr, ofExpr, ofExpr_mapExpr .value e]
  | .cond test yes no => by
      simp [mapExpr, ofExpr, ofExpr_mapExpr .value test, ofStmts_mapStmts yes,
        ofStmts?_mapStmts? no]
  | .block stmts => by simp [mapExpr, ofExpr, ofStmts_mapStmts stmts]

theorem ofExprs_mapExprs : ∀ es : List Expr, ofExprs (mapExprs f es) = (ofExprs es).map (change f)
  | [] => rfl
  | e :: es => by simp [mapExprs, ofExprs, ofExpr_mapExpr .value e, ofExprs_mapExprs es]

theorem ofExpr?_mapExpr? :
    ∀ e : Option Expr, ofExpr? (mapExpr? f e) = (ofExpr? e).map (change f)
  | none => rfl
  | some e => by simp [mapExpr?, ofExpr?, ofExpr_mapExpr .value e]

theorem ofInits_mapInits :
    ∀ inits : List FieldInit, ofInits (mapInits f inits) = (ofInits inits).map (change f)
  | [] => rfl
  | .mk _ value :: rest => by
      simp [mapInits, ofInits, ofExpr?_mapExpr? value, ofInits_mapInits rest]

theorem ofStmt_mapStmt : ∀ s : Stmt, ofStmt (mapStmt f s) = (ofStmt s).map (change f)
  | .bind _ ty value => by
      simp [mapStmt, ofStmt, ofTy?_map, ofExpr?_mapExpr? value, change]
  | .expr e _ => by simp [mapStmt, ofStmt, ofExpr_mapExpr .value e]

theorem ofStmts_mapStmts : ∀ b : List Stmt, ofStmts (mapStmts f b) = (ofStmts b).map (change f)
  | [] => rfl
  | s :: rest => by simp [mapStmts, ofStmts, ofStmt_mapStmt s, ofStmts_mapStmts rest]

theorem ofStmts?_mapStmts? :
    ∀ b : Option (List Stmt), ofStmts? (mapStmts? f b) = (ofStmts? b).map (change f)
  | none => rfl
  | some b => by simp [mapStmts?, ofStmts?, ofStmts_mapStmts b]

end

/-- One change of paths after another. -/
def andThen : PathRole → Path → Path := fun role p => g role (f role p)

mutual

theorem mapExpr_mapExpr (role : PathRole) :
    ∀ e : Expr, mapExpr g role (mapExpr f role e) = mapExpr (andThen f g) role e
  | .path _ | .lit _ | .raw _ => rfl
  | .field base _ => by simp [mapExpr, mapExpr_mapExpr .base base]
  | .call e args | .method e _ args => by
      simp [mapExpr, mapExpr_mapExpr .value e, mapExprs_mapExprs args]
  | .macroCall _ args => by simp [mapExpr, mapExprs_mapExprs args]
  | .construct p inits base => by
      simp [mapExpr, mapInits_mapInits inits, mapExpr?_mapExpr? base, andThen]
  | .ref _ e | .attempt e | .letCond _ e => by simp [mapExpr, mapExpr_mapExpr .value e]
  | .cond test yes no => by
      simp [mapExpr, mapExpr_mapExpr .value test, mapStmts_mapStmts yes, mapStmts?_mapStmts? no]
  | .block stmts => by simp [mapExpr, mapStmts_mapStmts stmts]

theorem mapExprs_mapExprs :
    ∀ es : List Expr, mapExprs g (mapExprs f es) = mapExprs (andThen f g) es
  | [] => rfl
  | e :: es => by simp [mapExprs, mapExpr_mapExpr .value e, mapExprs_mapExprs es]

theorem mapExpr?_mapExpr? :
    ∀ e : Option Expr, mapExpr? g (mapExpr? f e) = mapExpr? (andThen f g) e
  | none => rfl
  | some e => by simp [mapExpr?, mapExpr_mapExpr .value e]

theorem mapInits_mapInits :
    ∀ inits : List FieldInit, mapInits g (mapInits f inits) = mapInits (andThen f g) inits
  | [] => rfl
  | .mk _ value :: rest => by simp [mapInits, mapExpr?_mapExpr? value, mapInits_mapInits rest]

theorem mapStmt_mapStmt : ∀ s : Stmt, mapStmt g (mapStmt f s) = mapStmt (andThen f g) s
  | .bind _ ty value => by
      have hty : mapTy (g .type) ∘ mapTy (f .type) = mapTy (andThen f g .type) := by
        funext t
        exact mapTy_mapTy (f .type) (g .type) t
      simp [mapStmt, hty, mapExpr?_mapExpr? value]
  | .expr e _ => by simp [mapStmt, mapExpr_mapExpr .value e]

theorem mapStmts_mapStmts :
    ∀ b : List Stmt, mapStmts g (mapStmts f b) = mapStmts (andThen f g) b
  | [] => rfl
  | s :: rest => by simp [mapStmts, mapStmt_mapStmt s, mapStmts_mapStmts rest]

theorem mapStmts?_mapStmts? :
    ∀ b : Option (List Stmt), mapStmts? g (mapStmts? f b) = mapStmts? (andThen f g) b
  | none => rfl
  | some b => by simp [mapStmts?, mapStmts_mapStmts b]

end

variable {f}

mutual

theorem mapExpr_eq_self (role : PathRole) :
    ∀ e : Expr, (∀ x ∈ ofExpr role e, f x.1 x.2 = x.2) → mapExpr f role e = e
  | .path p, h => by simp [mapExpr, h (role, p) (List.mem_singleton_self _)]
  | .lit _, _ | .raw _, _ => rfl
  | .field base _, h => by simp [mapExpr, mapExpr_eq_self .base base h]
  | .call e args, h | .method e _ args, h => by
      simp only [ofExpr, List.forall_mem_append] at h
      simp [mapExpr, mapExpr_eq_self .value e h.1, mapExprs_eq_self args h.2]
  | .macroCall _ args, h => by simp [mapExpr, mapExprs_eq_self args h]
  | .construct p inits base, h => by
      simp only [ofExpr, List.forall_mem_append, List.forall_mem_singleton] at h
      simp [mapExpr, mapInits_eq_self inits h.1, mapExpr?_eq_self base h.2.1, h.2.2]
  | .ref _ e, h | .attempt e, h | .letCond _ e, h => by
      simp [mapExpr, mapExpr_eq_self .value e h]
  | .cond test yes no, h => by
      simp only [ofExpr, List.forall_mem_append] at h
      simp [mapExpr, mapExpr_eq_self .value test h.1, mapStmts_eq_self yes h.2.1,
        mapStmts?_eq_self no h.2.2]
  | .block stmts, h => by simp [mapExpr, mapStmts_eq_self stmts h]

theorem mapExprs_eq_self :
    ∀ es : List Expr, (∀ x ∈ ofExprs es, f x.1 x.2 = x.2) → mapExprs f es = es
  | [], _ => rfl
  | e :: es, h => by
      simp only [ofExprs, List.forall_mem_append] at h
      simp [mapExprs, mapExpr_eq_self .value e h.1, mapExprs_eq_self es h.2]

theorem mapExpr?_eq_self :
    ∀ e : Option Expr, (∀ x ∈ ofExpr? e, f x.1 x.2 = x.2) → mapExpr? f e = e
  | none, _ => rfl
  | some e, h => by simp [mapExpr?, mapExpr_eq_self .value e h]

theorem mapInits_eq_self :
    ∀ inits : List FieldInit, (∀ x ∈ ofInits inits, f x.1 x.2 = x.2) → mapInits f inits = inits
  | [], _ => rfl
  | .mk _ value :: rest, h => by
      simp only [ofInits, List.forall_mem_append] at h
      simp [mapInits, mapExpr?_eq_self value h.1, mapInits_eq_self rest h.2]

theorem mapStmt_eq_self :
    ∀ s : Stmt, (∀ x ∈ ofStmt s, f x.1 x.2 = x.2) → mapStmt f s = s
  | .bind _ ty value, h => by
      simp only [ofStmt, List.forall_mem_append, List.forall_mem_map] at h
      simp [mapStmt, map_mapTy_eq_self ty h.1, mapExpr?_eq_self value h.2]
  | .expr e _, h => by simp [mapStmt, mapExpr_eq_self .value e h]

theorem mapStmts_eq_self :
    ∀ b : List Stmt, (∀ x ∈ ofStmts b, f x.1 x.2 = x.2) → mapStmts f b = b
  | [], _ => rfl
  | s :: rest, h => by
      simp only [ofStmts, List.forall_mem_append] at h
      simp [mapStmts, mapStmt_eq_self s h.1, mapStmts_eq_self rest h.2]

theorem mapStmts?_eq_self :
    ∀ b : Option (List Stmt), (∀ x ∈ ofStmts? b, f x.1 x.2 = x.2) → mapStmts? f b = b
  | none, _ => rfl
  | some b, h => by simp [mapStmts?, mapStmts_eq_self b h]

end

end bodies

end Paths
end ClientLoom
