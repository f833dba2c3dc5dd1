import ClientLoom.Expr.Walk
import ClientLoom.Proofs.Walk.Declarations

/-! # Walks that change paths

A replacer that only gives other paths is described by its answers to paths (`PathRule`).  A walk
with it changes each path by itself, wherever the path stands, and counts the paths that got an
answer (`PathRule.walkTy_eq`, `PathRule.walkStmts_eq`): that replacements are made from the inside
out and are not entered makes no difference, since an answer never depends on what is inside a node
or around it.  A walk with a replacer that answers to no type goes past types
(`Replacer.walkTy?_of_silent`). -/

namespace ClientLoom

/-- Answers to paths, by what they stand for. -/
structure PathRule where
  type : Path → Option Path
  value : Path → Option Path
  base : Path → Option Path
  literal : Path → Option Path
  /-- The base of a field access is offered as an expression first, and again with the access; it
  gets one answer at most. -/
  once : ∀ {p q : Path}, value p = some q → base q = none

/-- A tally with more replacements. -/
def Tally.plus {σ : Type} (s : Tally σ) (n : Nat) : Tally σ := ⟨s.state, s.count + n⟩

@[simp] theorem Tally.plus_plus {σ : Type} (s : Tally σ) (n k : Nat) :
    (s.plus n).plus k = s.plus (n + k) :=
  congrArg (Tally.mk s.state) (Nat.add_assoc s.count n k)

namespace Replacer

variable {σ α β : Type}

theorem bind_apply (x : StateM σ α) (k : α → StateM σ β) (s : σ) :
    (x >>= k) s = k (x s).1 (x s).2 := rfl

theorem pure_apply (a : α) (s : σ) : (pure a : StateM σ α) s = (a, s) := rfl

/-! ### Types that get no answer -/

/-- A replacer that answers to no type, so that a walk goes past types. -/
def Silent (r : Replacer σ) : Prop := ∀ t state, r.onTy t state = (none, state)

variable {r : Replacer σ}

theorem offerTy_of_silent (h : r.Silent) (t : Ty) (s : Tally σ) : r.offerTy t s = (t, s) := by
  rw [offerTy, h]
  rfl

mutual

theorem walkTy_of_silent (h : r.Silent) : ∀ (t : Ty) (s : Tally σ), walkTy r t s = (t, s)
  | .path _ args, s => by
      simp only [walkTy, bind_apply, walkTys_of_silent h args, offerTy_of_silent h]
  | .ref _ t, s | .slice t, s => by
      simp only [walkTy, bind_apply, walkTy_of_silent h t, offerTy_of_silent h]
  | .tuple elems, s => by
      simp only [walkTy, bind_apply, walkTys_of_silent h elems, offerTy_of_silent h]
  | .raw _, s => offerTy_of_silent h _ s

theorem walkTys_of_silent (h : r.Silent) : ∀ (ts : List Ty) (s : Tally σ), walkTys r ts s = (ts, s)
  | [], _ => rfl
  | t :: ts, s => by
      simp only [walkTys, bind_apply, pure_apply, walkTy_of_silent h t, walkTys_of_silent h ts]

end

theorem walkTy?_of_silent (h : r.Silent) (t : Option Ty) (s : Tally σ) :
    walkTy? r t s = (t, s) := by
  cases t with
  | none => rfl
  | some t => simp only [walkTy?, bind_apply, pure_apply, walkTy_of_silent h]

end Replacer

namespace PathRule

open Paths
open Replacer (bind_apply pure_apply walkTy walkTys walkTy? walkExpr walkExprs walkExpr? walkInits
  walkStmt walkStmts walkStmts?)

variable (r : PathRule)

/-- The answer to a type. -/
def onTy? : Ty → Option Ty
  | .path p args => (r.type p).map (Ty.path · args)
  | _ => none

/-- The answer to an expression. -/
def onExpr? : Expr → Option Expr
  | .path p => (r.value p).map .path
  | .field (.path p) name => (r.base p).map fun q => .field (.path q) name
  | .construct p inits base => (r.literal p).map fun q => .construct q inits base
  | _ => none

/-- The replacer that answers by the rule. -/
def replacer : Replacer Unit where
  onTy t state := (r.onTy? t, state)
  onExpr e state := (r.onExpr? e, state)

/-- The answer to a path that stands for something. -/
def answer : PathRole → Path → Option Path
  | .type, p => r.type p
  | .value, p => r.value p
  | .base, p => (r.value p).or (r.base p)
  | .literal, p => r.literal p

/-- What becomes of a path. -/
def outcome (role : PathRole) (p : Path) : Path := (r.answer role p).getD p

/-- Whether a path gets an answer. -/
def hits (x : PathRole × Path) : Bool := (r.answer x.1 x.2).isSome

/-! ### Offers -/

theorem settle_eq {α : Type} (node : α) (answer : Option α) (s : Tally Unit) :
    Replacer.settle node (answer, s.state) s.count =
      (answer.getD node, s.plus (if answer.isSome then 1 else 0)) := by
  cases answer <;> rfl

theorem offerTy_eq (t : Ty) (s : Tally Unit) :
    r.replacer.offerTy t s =
      ((r.onTy? t).getD t, s.plus (if (r.onTy? t).isSome then 1 else 0)) :=
  settle_eq t (r.onTy? t) s

theorem offerExpr_eq (e : Expr) (s : Tally Unit) :
    r.replacer.offerExpr e s =
      ((r.onExpr? e).getD e, s.plus (if (r.onExpr? e).isSome then 1 else 0)) :=
  settle_eq e (r.onExpr? e) s

theorem offerTy_none {t : Ty} (h : r.onTy? t = none) (s : Tally Unit) :
    r.replacer.offerTy t s = (t, s) := by
  rw [offerTy_eq, h]
  rfl

theorem offerExpr_none {e : Expr} (h : r.onExpr? e = none) (s : Tally Unit) :
    r.replacer.offerExpr e s = (e, s) := by
  rw [offerExpr_eq, h]
  rfl

theorem offerTy_path (p : Path) (args : List Ty) (s : Tally Unit) :
    r.replacer.offerTy (.path p args) s =
      (.path (r.outcome .type p) args, s.plus (if r.hits (.type, p) then 1 else 0)) := by
  rw [offerTy_eq]
  cases h : r.type p <;> simp [onTy?, outcome, hits, answer, h]

theorem offerExpr_path (p : Path) (s : Tally Unit) :
    r.replacer.offerExpr (.path p) s =
      (.path (r.outcome .value p), s.plus (if r.hits (.value, p) then 1 else 0)) := by
  rw [offerExpr_eq]
  cases h : r.value p <;> simp [onExpr?, outcome, hits, answer, h]

theorem offerExpr_construct (p : Path) (inits : List FieldInit) (base : Option Expr)
    (s : Tally Unit) :
    r.replacer.offerExpr (.construct p inits base) s =
      (.construct (r.outcome .literal p) inits base,
        s.plus (if r.hits (.literal, p) then 1 else 0)) := by
  rw [offerExpr_eq]
  cases h : r.literal p <;> simp [onExpr?, outcome, hits, answer, h]

/-- A field access is offered when its base was changed as an expression; together this is one
change of the base. -/
theorem offerExpr_field (base : Expr) (name : Ident) (s : Tally Unit) :
    r.replacer.offerExpr (.field (mapExpr r.outcome .value base) name)
        (s.plus ((ofExpr .value base).countP r.hits)) =
      (.field (mapExpr r.outcome .base base) name,
        s.plus ((ofExpr .base base).countP r.hits)) := by
  cases base with
  | path p =>
      rw [offerExpr_eq]
      cases hvalue : r.value p with
      -- a base that was answered as an expression is not answered with its access
      | some q => simp [mapExpr, ofExpr, onExpr?, outcome, hits, answer, hvalue, r.once hvalue]
      | none =>
          cases hbase : r.base p <;>
            simp [mapExpr, ofExpr, onExpr?, outcome, hits, answer, hvalue, hbase]
  | _ => exact r.offerExpr_none rfl _

/-! ### Walks -/

mutual

theorem walkTy_eq : ∀ (t : Ty) (s : Tally Unit), walkTy r.replacer t s =
    (mapTy (r.outcome .type) t, s.plus ((ofTy t).countP fun p => r.hits (.type, p)))
  | .path p args, s => by
      simp only [walkTy, bind_apply, walkTys_eq args, offerTy_path, mapTy, ofTy]
      simp [List.countP_append, List.countP_singleton]
  | .ref _ t, s | .slice t, s => by
      simp only [walkTy, bind_apply, walkTy_eq t, mapTy, ofTy]
      exact r.offerTy_none rfl _
  | .tuple elems, s => by
      simp only [walkTy, bind_apply, walkTys_eq elems, mapTy, ofTy]
      exact r.offerTy_none rfl _
  | .raw _, s => r.offerTy_none rfl s

theorem walkTys_eq : ∀ (ts : List Ty) (s : Tally Unit), walkTys r.replacer ts s =
    (mapTys (r.outcome .type) ts, s.plus ((ofTys ts).countP fun p => r.hits (.type, p)))
  | [], s => rfl
  | t :: ts, s => by
      simp only [walkTys, bind_apply, pure_apply, walkTy_eq t, walkTys_eq ts, mapTys, ofTys,
        List.countP_append, Tally.plus_plus]

end

theorem walkTy?_eq (t : Option Ty) (s : Tally Unit) : walkTy? r.replacer t s =
    (t.map (mapTy (r.outcome .type)),
      s.plus ((ofTy? t).countP fun p => r.hits (.type, p))) := by
  cases t with
  | none => rfl
  | some t => simp only [walkTy?, bind_apply, pure_apply, walkTy_eq, ofTy?, Option.map_some]

/-! In a body the induction is on the expressions and statements together.  The answer to a node
depends on its own path only, so that it stays what it was when the walk has changed the children
of the node. -/

mutual

theorem walkExpr_eq : ∀ (e : Expr) (s : Tally Unit), walkExpr r.replacer e s =
    (mapExpr r.outcome .value e, s.plus ((ofExpr .value e).countP r.hits))
  | .path p, s => by
      simp only [walkExpr, offerExpr_path, mapExpr, ofExpr, List.countP_singleton]
  | .lit _, s | .raw _, s => r.offerExpr_none rfl s
  | .field base name, s => by
      simp only [walkExpr, bind_apply, walkExpr_eq base, offerExpr_field, mapExpr, ofExpr]
  | .call e args, s | .method e _ args, s => by
      simp only [walkExpr, bind_apply, walkExpr_eq e, walkExprs_eq args, mapExpr, ofExpr,
        List.countP_append, Tally.plus_plus]
      exact r.offerExpr_none rfl _
  | .macroCall _ args, s => by
      simp only [walkExpr, bind_apply, walkExprs_eq args, mapExpr, ofExpr]
      exact r.offerExpr_none rfl _
  | .construct p inits base, s => by
      simp only [walkExpr, bind_apply, walkInits_eq inits, walkExpr?_eq base, offerExpr_construct,
        mapExpr, ofExpr, List.countP_append, List.countP_singleton, Tally.plus_plus, Nat.add_assoc]
  | .ref _ e, s | .attempt e, s | .letCond _ e, s => by
      simp only [walkExpr, bind_apply, walkExpr_eq e, mapExpr, ofExpr]
      exact r.offerExpr_none rfl _
  | .cond test yes no, s => by
      simp only [walkExpr, bind_apply, walkExpr_eq test, walkStmts_eq yes, walkStmts?_eq no,
        mapExpr, ofExpr, List.countP_append, Tally.plus_plus, Nat.add_assoc]
      exact r.offerExpr_none rfl _
  | .block stmts, s => by
      simp only [walkExpr, bind_apply, walkStmts_eq stmts, mapExpr, ofExpr]
      exact r.offerExpr_none rfl _

theorem walkExprs_eq : ∀ (es : List Expr) (s : Tally Unit), walkExprs r.replacer es s =
    (mapExprs r.outcome es, s.plus ((ofExprs es).countP r.hits))
  | [], s => rfl
  | e :: es, s => by
      simp only [walkExprs, bind_apply, pure_apply, walkExpr_eq e, walkExprs_eq es, mapExprs,
        ofExprs, List.countP_append, Tally.plus_plus]

theorem walkExpr?_eq : ∀ (e : Option Expr) (s : Tally Unit), walkExpr? r.replacer e s =
    (mapExpr? r.outcome e, s.plus ((ofExpr? e).countP r.hits))
  | none, s => rfl
  | some e, s => by
      simp only [walkExpr?, bind_apply, pure_apply, walkExpr_eq e, mapExpr?, ofExpr?]

theorem walkInits_eq : ∀ (inits : List FieldInit) (s : Tally Unit), walkInits r.replacer inits s =
    (mapInits r.outcome inits, s.plus ((ofInits inits).countP r.hits))
  | [], s => rfl
  | .mk _ value :: rest, s => by
      simp only [walkInits, bind_apply, pure_apply, walkExpr?_eq value, walkInits_eq rest, mapInits,
        ofInits, List.countP_append, Tally.plus_plus]

theorem walkStmt_eq : ∀ (stmt : Stmt) (s : Tally Unit), walkStmt r.replacer stmt s =
    (mapStmt r.outcome stmt, s.plus ((ofStmt stmt).countP r.hits))
  | .bind _ ty value, s => by
      simp only [walkStmt, bind_apply, pure_apply, walkTy?_eq, walkExpr?_eq value, mapStmt, ofStmt,
        List.countP_append, List.countP_map, Tally.plus_plus, Function.comp_def]
  | .expr e _, s => by
      simp only [walkStmt, bind_apply, pure_apply, walkExpr_eq e, mapStmt, ofStmt]

theorem walkStmts_eq : ∀ (b : List Stmt) (s : Tally Unit), walkStmts r.replacer b s =
    (mapStmts r.outcome b, s.plus ((ofStmts b).countP r.hits))
  | [], s => rfl
  | stmt :: rest, s => by
      simp only [walkStmts, bind_apply, pure_apply, walkStmt_eq stmt, walkStmts_eq rest, mapStmts,
        ofStmts, List.countP_append, Tally.plus_plus]

theorem walkStmts?_eq :
    ∀ (b : Option (List Stmt)) (s : Tally Unit), walkStmts? r.replacer b s =
      (mapStmts? r.outcome b, s.plus ((ofStmts? b).countP r.hits))
  | none, s => rfl
  | some b, s => by
      simp only [walkStmts?, bind_apply, pure_apply, walkStmts_eq b, mapStmts?, ofStmts?]

end

/-! ### Functions -/

theorem walkParams_eq (params : List Param) (s : Tally Unit) : r.replacer.walkParams params s =
    (params.map (Func.mapParam (r.outcome .type)),
      s.plus ((params.flatMap fun p => ofTy p.ty).countP fun p => r.hits (.type, p))) := by
  induction params generalizing s with
  | nil => rfl
  | cons p params ih =>
      simp only [Replacer.walkParams, bind_apply, pure_apply, walkTy_eq, ih, List.map_cons,
        Func.mapParam, List.flatMap_cons, List.countP_append, Tally.plus_plus]

theorem replaceSignature_eq (f : Func) : f.replaceSignature r.replacer () =
    ⟨f.mapDeclared (r.outcome .type), (),
      f.declaredPaths.countP fun p => r.hits (.type, p)⟩ := by
  simp only [Func.replaceSignature, Replaced.ofWalk, Replacer.walkSignature, bind_apply, pure_apply,
    walkParams_eq, walkTy?_eq, Func.mapDeclared, Func.declaredPaths, List.countP_append,
    Tally.plus, Nat.zero_add]

theorem replaceBody_eq (f : Func) : f.replaceBody r.replacer () =
    ⟨f.mapBody r.outcome, (), f.bodyPaths.countP r.hits⟩ := by
  cases hbody : f.body with
  | none =>
      simp only [Func.replaceBody, hbody, Func.mapBody, Func.bodyPaths, mapStmts?, ofStmts?,
        List.countP_nil]
      rw [← hbody]
  | some b =>
      simp only [Func.replaceBody, hbody, Block.replace, Replaced.ofWalk, walkStmts_eq,
        Func.mapBody, Func.bodyPaths, mapStmts?, ofStmts?, Tally.plus, Nat.zero_add]

end PathRule
end ClientLoom
