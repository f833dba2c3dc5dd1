import ClientLoom.Proofs.Walk.Rules

/-! # Terms and their children

A term is what a walk offers: a type or an expression.  `Term.children` lists the terms right inside
of a term, in source order and through the statements that stand in between; `Term.withChildren`
puts other terms in their places and leaves everything else alone.

A walk comes to a term by its children: it walks them in order, puts the results in their places and
offers what comes out (`Replacer.walkTerm_eq`).  Every term is reached from its children up
(`Term.Rises.all`), so that a fact about walks needs no induction on expressions and statements of
its own. -/

namespace ClientLoom

/-- A type or an expression. -/
inductive Term where
  | ty (t : Ty)
  | expr (e : Expr)

namespace Term

/-! ### Children -/

/-- The terms of an entry of a struct literal. -/
def ofInit : FieldInit → List Term
  | .mk _ value => (value.map .expr).toList

/-- The terms of a statement; the type of a binding comes before its value. -/
def ofStmt : Stmt → List Term
  | .bind _ type value => (type.map .ty).toList ++ (value.map .expr).toList
  | .expr e _ => [.expr e]

/-- The terms of statements. -/
def ofStmts (b : List Stmt) : List Term := b.flatMap ofStmt

/-- The terms right inside of a term, in order. -/
def children : Term → List Term
  | .ty (.path _ args) => args.map .ty
  | .ty (.ref _ elem) => [.ty elem]
  | .ty (.tuple elems) => elems.map .ty
  | .ty (.slice elem) => [.ty elem]
  | .ty (.raw _) => []
  | .expr (.path _) => []
  | .expr (.lit _) => []
  | .expr (.raw _) => []
  | .expr (.field base _) => [.expr base]
  | .expr (.call callee args) => .expr callee :: args.map .expr
  | .expr (.method base _ args) => .expr base :: args.map .expr
  | .expr (.macroCall _ args) => args.map .expr
  | .expr (.construct _ inits base) => inits.flatMap ofInit ++ (base.map .expr).toList
  | .expr (.ref _ e) => [.expr e]
  | .expr (.attempt e) => [.expr e]
  | .expr (.letCond _ e) => [.expr e]
  | .expr (.cond test yes no) => .expr test :: (ofStmts yes ++ (no.map ofStmts).getD [])
  | .expr (.block stmts) => ofStmts stmts

/-! ### Places

Terms are put in place one after another: each place takes the next term of a list, when it is one
of its sort. -/

/-- The next term, in the place of a type. -/
def nextTy (t : Ty) : StateM (List Term) Ty
  | .ty new :: rest => (new, rest)
  | rest => (t, rest)

/-- The next term, in the place of an expression. -/
def nextExpr (e : Expr) : StateM (List Term) Expr
  | .expr new :: rest => (new, rest)
  | rest => (e, rest)

/-- Puts the next terms in the place of the value of an entry. -/
def fillInit : FieldInit → StateM (List Term) FieldInit
  | .mk name value => do
      let value ← value.mapM nextExpr
      pure (.mk name value)

/-- Puts the next terms in the places of a statement. -/
def fillStmt : Stmt → StateM (List Term) Stmt
  | .bind pat type value => do
      let type ← type.mapM nextTy
      let value ← value.mapM nextExpr
      pure (.bind pat type value)
  | .expr e semi => do
      let e ← nextExpr e
      pure (.expr e semi)

/-- Puts the next term in the place of the type of a parameter. -/
def fillParam (p : Param) : StateM (List Term) Param := do
  let ty ← nextTy p.ty
  pure { p with ty := ty }

/-- Puts the next terms in the places of the children. -/
def fill : Term → StateM (List Term) Term
  | .ty (.path p args) => do
      let args ← args.mapM nextTy
      pure (.ty (.path p args))
  | .ty (.ref mutable elem) => do
      let elem ← nextTy elem
      pure (.ty (.ref mutable elem))
  | .ty (.tuple elems) => do
      let elems ← elems.mapM nextTy
      pure (.ty (.tuple elems))
  | .ty (.slice elem) => do
      let elem ← nextTy elem
      pure (.ty (.slice elem))
  | .ty (.raw text) => pure (.ty (.raw text))
  | .expr (.path p) => pure (.expr (.path p))
  | .expr (.lit text) => pure (.expr (.lit text))
  | .expr (.raw text) => pure (.expr (.raw text))
  | .expr (.field base name) => do
      let base ← nextExpr base
      pure (.expr (.field base name))
  | .expr (.call callee args) => do
      let callee ← nextExpr callee
      let args ← args.mapM nextExpr
      pure (.expr (.call callee args))
  | .expr (.method base name args) => do
      let base ← nextExpr base
      let args ← args.mapM nextExpr
      pure (.expr (.method base name args))
  | .expr (.macroCall p args) => do
      let args ← args.mapM nextExpr
      pure (.expr (.macroCall p args))
  | .expr (.construct p inits base) => do
      let inits ← inits.mapM fillInit
      let base ← base.mapM nextExpr
      pure (.expr (.construct p inits base))
  | .expr (.ref mutable e) => do
      let e ← nextExpr e
      pure (.expr (.ref mutable e))
  | .expr (.attempt e) => do
      let e ← nextExpr e
      pure (.expr (.attempt e))
  | .expr (.letCond pat e) => do
      let e ← nextExpr e
      pure (.expr (.letCond pat e))
  | .expr (.cond test yes no) => do
      let test ← nextExpr test
      let yes ← yes.mapM fillStmt
      let no ← no.mapM (·.mapM fillStmt)
      pure (.expr (.cond test yes no))
  | .expr (.block stmts) => do
      let stmts ← stmts.mapM fillStmt
      pure (.expr (.block stmts))

/-- The term with other children. -/
def withChildren (t : Term) (new : List Term) : Term := (t.fill new).1

end Term

namespace Replacer

variable {σ α β : Type}

/-- Walks a term. -/
def walkTerm (r : Replacer σ) : Term → StateM (Tally σ) Term
  | .ty t => do
      let t ← r.walkTy t
      pure (.ty t)
  | .expr e => do
      let e ← r.walkExpr e
      pure (.expr e)

/-- The answer to a term. -/
def onTerm (r : Replacer σ) : Term → StateM σ (Option Term)
  | .ty t => fun state => ((r.onTy t state).1.map .ty, (r.onTy t state).2)
  | .expr e => fun state => ((r.onExpr e state).1.map .expr, (r.onExpr e state).2)

/-- Offers a term. -/
def offer (r : Replacer σ) : Term → StateM (Tally σ) Term
  | .ty t => do
      let t ← r.offerTy t
      pure (.ty t)
  | .expr e => do
      let e ← r.offerExpr e
      pure (.expr e)

theorem settle_apply (node : α) (answer : Option α × σ) (count : Nat) :
    settle node answer count =
      (answer.1.getD node, ⟨answer.2, count + if answer.1.isSome then 1 else 0⟩) := by
  obtain ⟨_ | new, state⟩ := answer <;> rfl

theorem offer_eq (r : Replacer σ) (t : Term) (s : Tally σ) :
    r.offer t s =
      ((r.onTerm t s.state).1.getD t,
        ⟨(r.onTerm t s.state).2,
          s.count + if (r.onTerm t s.state).1.isSome then 1 else 0⟩) := by
  cases t <;>
    simp [offer, offerTy, offerExpr, onTerm, bind_apply, pure_apply, settle_apply, Option.getD_map]

/-! ### Walks over the elements of a list -/

theorem mapM_cons_apply (f : α → StateM σ β) (a : α) (as : List α) (s : σ) :
    (a :: as).mapM f s =
      ((f a s).1 :: (as.mapM f (f a s).2).1, (as.mapM f (f a s).2).2) := by
  rw [List.mapM_cons]
  rfl

theorem mapM_append_apply (f : α → StateM σ β) (as bs : List α) (s : σ) :
    (as ++ bs).mapM f s =
      ((as.mapM f s).1 ++ (bs.mapM f (as.mapM f s).2).1, (bs.mapM f (as.mapM f s).2).2) := by
  rw [List.mapM_append]
  rfl

variable (r : Replacer σ)

theorem walkTys_eq_mapM (ts : List Ty) : r.walkTys ts = ts.mapM r.walkTy := by
  induction ts with
  | nil => rfl
  | cons t ts ih => simp only [walkTys, List.mapM_cons, ih]

theorem walkTy?_eq_mapM (t : Option Ty) : r.walkTy? t = t.mapM r.walkTy := by
  cases t <;> rfl

theorem walkExprs_eq_mapM (es : List Expr) : r.walkExprs es = es.mapM r.walkExpr := by
  induction es with
  | nil => rfl
  | cons e es ih => simp only [walkExprs, List.mapM_cons, ih]

theorem walkExpr?_eq_mapM (e : Option Expr) : r.walkExpr? e = e.mapM r.walkExpr := by
  cases e <;> rfl

/-- Walks the value of an entry. -/
def walkInit : FieldInit → StateM (Tally σ) FieldInit
  | .mk name value => do
      let value ← r.walkExpr? value
      pure (.mk name value)

theorem walkInits_eq_mapM (inits : List FieldInit) : r.walkInits inits = inits.mapM r.walkInit := by
  induction inits with
  | nil => rfl
  | cons init inits ih =>
      obtain ⟨name, value⟩ := init
      simp only [walkInits, walkInit, List.mapM_cons, ih, bind_assoc, pure_bind]

theorem walkStmts_eq_mapM (b : List Stmt) : r.walkStmts b = b.mapM r.walkStmt := by
  induction b with
  | nil => rfl
  | cons s b ih => simp only [walkStmts, List.mapM_cons, ih]

theorem walkStmts?_eq_mapM (b : Option (List Stmt)) :
    r.walkStmts? b = b.mapM (·.mapM r.walkStmt) := by
  cases b with
  | none => rfl
  | some b => simp only [walkStmts?, walkStmts_eq_mapM]; rfl

/-- Walks the type of a parameter. -/
def walkParam (p : Param) : StateM (Tally σ) Param := do
  let ty ← r.walkTy p.ty
  pure { p with ty := ty }

theorem walkParams_eq_mapM (params : List Param) :
    r.walkParams params = params.mapM r.walkParam := by
  induction params with
  | nil => rfl
  | cons p params ih =>
      simp only [walkParams, walkParam, List.mapM_cons, ih, bind_assoc, pure_bind]

/-! ### Values that hold terms -/

/-- How a value holds terms: `view` lists them, `fill` puts the next terms of a list in their
places, and `walk` walks them.  The walk goes through the terms in order and changes nothing else:
with its results in their places the value is what the walk makes of it, and with the terms
themselves it is what it was. -/
structure Holds (view : α → List Term) (a : α) (fill : StateM (List Term) α)
    (walk : StateM (Tally σ) α) : Prop where
  walk_view : ∀ s, (view a).mapM r.walkTerm s = (view (walk s).1, (walk s).2)
  fill_walk : ∀ s more, fill (view (walk s).1 ++ more) = ((walk s).1, more)
  fill_view : ∀ more, fill (view a ++ more) = (a, more)

theorem holds_ty (t : Ty) : r.Holds (fun t => [.ty t]) t (Term.nextTy t) (r.walkTy t) :=
  ⟨fun _ => rfl, fun _ _ => rfl, fun _ => rfl⟩

theorem holds_expr (e : Expr) :
    r.Holds (fun e => [.expr e]) e (Term.nextExpr e) (r.walkExpr e) :=
  ⟨fun _ => rfl, fun _ _ => rfl, fun _ => rfl⟩

namespace Holds

variable {r} {view : α → List Term} {view' : β → List Term}

theorem none {a : α} (h : view a = []) : r.Holds view a (pure a) (pure a) where
  walk_view s := by simp only [pure_apply, h, List.mapM_nil]
  fill_walk s more := by simp only [pure_apply, h, List.nil_append]
  fill_view more := by simp only [pure_apply, h, List.nil_append]

/-- One value after another. -/
theorem pair {a : α} {b : β} {fill : StateM (List Term) α} {fill' : StateM (List Term) β}
    {walk : StateM (Tally σ) α} {walk' : StateM (Tally σ) β} (h : r.Holds view a fill walk)
    (h' : r.Holds view' b fill' walk') :
    r.Holds (fun x : α × β => view x.1 ++ view' x.2) (a, b)
      (do let a ← fill; let b ← fill'; pure (a, b))
      (do let a ← walk; let b ← walk'; pure (a, b)) where
  walk_view s := by
    simp only [mapM_append_apply, h.walk_view, h'.walk_view, bind_apply, pure_apply]
  fill_walk s more := by
    simp only [bind_apply, pure_apply, List.append_assoc, h.fill_walk, h'.fill_walk]
  fill_view more := by
    simp only [bind_apply, pure_apply, List.append_assoc, h.fill_view, h'.fill_view]

/-- A value around another one that holds the same terms. -/
theorem map {a : α} {fill : StateM (List Term) α} {walk : StateM (Tally σ) α}
    (h : r.Holds view a fill walk) (g : α → β) (hview : ∀ a, view' (g a) = view a) :
    r.Holds view' (g a) (do let a ← fill; pure (g a)) (do let a ← walk; pure (g a)) where
  walk_view s := by simp only [hview, h.walk_view, bind_apply, pure_apply]
  fill_walk s more := by simp only [hview, bind_apply, pure_apply, h.fill_walk]
  fill_view more := by simp only [hview, bind_apply, pure_apply, h.fill_view]

variable {fill : α → StateM (List Term) α} {walk : α → StateM (Tally σ) α}

theorem list (h : ∀ a, r.Holds view a (fill a) (walk a)) (as : List α) :
    r.Holds (fun as => as.flatMap view) as (as.mapM fill) (as.mapM walk) where
  walk_view s := by
    induction as generalizing s with
    | nil => rfl
    | cons a as ih =>
        simp only [List.flatMap_cons, mapM_append_apply, mapM_cons_apply, (h a).walk_view, ih]
  fill_walk s more := by
    induction as generalizing s with
    | nil => rfl
    | cons a as ih =>
        simp only [mapM_cons_apply, List.flatMap_cons, List.append_assoc, (h a).fill_walk, ih]
  fill_view more := by
    induction as with
    | nil => rfl
    | cons a as ih =>
        simp only [mapM_cons_apply, List.flatMap_cons, List.append_assoc, (h a).fill_view, ih]

theorem option (h : ∀ a, r.Holds view a (fill a) (walk a)) (o : Option α) :
    r.Holds (fun o => (o.map view).getD []) o (o.mapM fill) (o.mapM walk) := by
  cases o with
  | none => exact Holds.none rfl
  | some a => exact (h a).map some fun _ => rfl

end Holds

theorem holds_tys (ts : List Ty) :
    r.Holds (fun ts => ts.map .ty) ts (ts.mapM Term.nextTy) (r.walkTys ts) := by
  rw [walkTys_eq_mapM]
  exact (Holds.list r.holds_ty ts).map id fun _ => List.map_eq_flatMap

theorem holds_ty? (t : Option Ty) :
    r.Holds (fun t => (t.map .ty).toList) t (t.mapM Term.nextTy) (r.walkTy? t) := by
  rw [walkTy?_eq_mapM]
  exact (Holds.option r.holds_ty t).map id fun t => by cases t <;> rfl

theorem holds_exprs (es : List Expr) :
    r.Holds (fun es => es.map .expr) es (es.mapM Term.nextExpr) (r.walkExprs es) := by
  rw [walkExprs_eq_mapM]
  exact (Holds.list r.holds_expr es).map id fun _ => List.map_eq_flatMap

theorem holds_expr? (e : Option Expr) :
    r.Holds (fun e => (e.map .expr).toList) e (e.mapM Term.nextExpr) (r.walkExpr? e) := by
  rw [walkExpr?_eq_mapM]
  exact (Holds.option r.holds_expr e).map id fun e => by cases e <;> rfl

theorem holds_inits (inits : List FieldInit) :
    r.Holds (fun inits => inits.flatMap Term.ofInit) inits (inits.mapM Term.fillInit)
      (r.walkInits inits) := by
  rw [walkInits_eq_mapM]
  refine Holds.list (fun init => ?_) inits
  obtain ⟨name, value⟩ := init
  exact (r.holds_expr? value).map (FieldInit.mk name) fun _ => rfl

theorem holds_stmt (s : Stmt) : r.Holds Term.ofStmt s (Term.fillStmt s) (r.walkStmt s) := by
  cases s with
  | bind pat type value =>
      exact ((r.holds_ty? type).pair (r.holds_expr? value)).map
        (fun x => Stmt.bind pat x.1 x.2) fun _ => rfl
  | expr e semi => exact (r.holds_expr e).map (Stmt.expr · semi) fun _ => rfl

theorem holds_stmts (b : List Stmt) :
    r.Holds Term.ofStmts b (b.mapM Term.fillStmt) (r.walkStmts b) := by
  rw [walkStmts_eq_mapM]
  exact Holds.list r.holds_stmt b

theorem holds_stmts? (b : Option (List Stmt)) :
    r.Holds (fun b => (b.map Term.ofStmts).getD []) b (b.mapM fun b => b.mapM Term.fillStmt)
      (r.walkStmts? b) := by
  rw [walkStmts?_eq_mapM]
  exact Holds.option (fun b => r.walkStmts_eq_mapM b ▸ r.holds_stmts b) b

theorem holds_params (params : List Param) :
    r.Holds (fun params => params.map (.ty ·.ty)) params (params.mapM Term.fillParam)
      (r.walkParams params) := by
  have hparam (p : Param) : r.Holds (fun p => [.ty p.ty]) p (Term.fillParam p) (r.walkParam p) :=
    (r.holds_ty p.ty).map (fun ty => { p with ty := ty }) fun _ => rfl
  rw [walkParams_eq_mapM]
  exact (Holds.list hparam params).map id fun _ => List.map_eq_flatMap

/-- A walk goes inside of a term first and then offers what it has made of it.  The two sides of the
equation only nest their steps in different ways. -/
theorem exists_inside : ∀ t : Term, ∃ inside : StateM (Tally σ) Term,
    r.Holds Term.children t t.fill inside ∧ r.walkTerm t = inside >>= r.offer
  | .ty (.path p args) =>
      ⟨_, (r.holds_tys args).map (fun x => Term.ty (.path p x)) fun _ => rfl, rfl⟩
  | .ty (.ref mutable elem) =>
      ⟨_, (r.holds_ty elem).map (fun x => Term.ty (.ref mutable x)) fun _ => rfl, rfl⟩
  | .ty (.tuple elems) =>
      ⟨_, (r.holds_tys elems).map (fun x => Term.ty (.tuple x)) fun _ => rfl, rfl⟩
  | .ty (.slice elem) =>
      ⟨_, (r.holds_ty elem).map (fun x => Term.ty (.slice x)) fun _ => rfl, rfl⟩
  | .ty (.raw _) | .expr (.path _) | .expr (.lit _) | .expr (.raw _) => ⟨_, .none rfl, rfl⟩
  | .expr (.field base name) =>
      ⟨_, (r.holds_expr base).map (fun x => Term.expr (.field x name)) fun _ => rfl, rfl⟩
  | .expr (.call callee args) =>
      ⟨_, ((r.holds_expr callee).pair (r.holds_exprs args)).map
        (fun x => Term.expr (.call x.1 x.2)) fun _ => rfl, rfl⟩
  | .expr (.method base name args) =>
      ⟨_, ((r.holds_expr base).pair (r.holds_exprs args)).map
        (fun x => Term.expr (.method x.1 name x.2)) fun _ => rfl, rfl⟩
  | .expr (.macroCall p args) =>
      ⟨_, (r.holds_exprs args).map (fun x => Term.expr (.macroCall p x)) fun _ => rfl, rfl⟩
  | .expr (.construct p inits base) =>
      ⟨_, ((r.holds_inits inits).pair (r.holds_expr? base)).map
        (fun x => Term.expr (.construct p x.1 x.2)) fun _ => rfl, rfl⟩
  | .expr (.ref mutable e) =>
      ⟨_, (r.holds_expr e).map (fun x => Term.expr (.ref mutable x)) fun _ => rfl, rfl⟩
  | .expr (.attempt e) =>
      ⟨_, (r.holds_expr e).map (fun x => Term.expr (.attempt x)) fun _ => rfl, rfl⟩
  | .expr (.letCond pat e) =>
      ⟨_, (r.holds_expr e).map (fun x => Term.expr (.letCond pat x)) fun _ => rfl, rfl⟩
  | .expr (.cond test yes no) =>
      ⟨_, ((r.holds_expr test).pair ((r.holds_stmts yes).pair (r.holds_stmts? no))).map
        (fun x => Term.expr (.cond x.1 x.2.1 x.2.2)) fun _ => rfl, rfl⟩
  | .expr (.block stmts) =>
      ⟨_, (r.holds_stmts stmts).map (fun x => Term.expr (.block x)) fun _ => rfl, rfl⟩

/-! ### The step of a walk -/

/-- What a walk over a value makes of it: the results of its terms stand in their places. -/
theorem Holds.walk_eq {r : Replacer σ} {view : α → List Term} {a : α}
    {fill : StateM (List Term) α} {walk : StateM (Tally σ) α} (h : r.Holds view a fill walk)
    (s : Tally σ) :
    walk s = ((fill ((view a).mapM r.walkTerm s).1).1, ((view a).mapM r.walkTerm s).2) ∧
      view (walk s).1 = ((view a).mapM r.walkTerm s).1 := by
  have hfill := h.fill_walk s []
  rw [List.append_nil] at hfill
  rw [h.walk_view s, hfill]
  exact ⟨rfl, rfl⟩

/-- A walk over a term walks its children in order, puts the results in their places and offers
what comes out. -/
theorem walkTerm_eq (t : Term) :
    r.walkTerm t =
      t.children.mapM r.walkTerm >>= fun results => r.offer (t.withChildren results) := by
  obtain ⟨inside, hinside, hwalk⟩ := r.exists_inside t
  funext s
  rw [hwalk, bind_apply, (hinside.walk_eq s).1]
  rfl

theorem children_withChildren (t : Term) (s : Tally σ) :
    (t.withChildren (t.children.mapM r.walkTerm s).1).children =
      (t.children.mapM r.walkTerm s).1 := by
  obtain ⟨inside, hinside, -⟩ := r.exists_inside t
  obtain ⟨hwalk, hview⟩ := hinside.walk_eq s
  rw [hwalk] at hview
  exact hview

end Replacer

theorem Term.withChildren_children (t : Term) : t.withChildren t.children = t := by
  obtain ⟨inside, hinside, -⟩ :=
    (⟨fun _ s => (none, s), fun _ s => (none, s)⟩ : Replacer Unit).exists_inside t
  have hfill := hinside.fill_view []
  rw [List.append_nil] at hfill
  rw [Term.withChildren, hfill]

/-! ### Induction from the children up -/

namespace Term

/-- What holds of a term whenever it holds of its children. -/
def Rises (P : Term → Prop) : Prop := ∀ t : Term, (∀ c ∈ t.children, P c) → P t

section rises

variable {P : Term → Prop}

mutual

theorem Rises.ty (h : Rises P) : ∀ t : Ty, P (.ty t)
  | .path _ args => h _ (h.tys args)
  | .ref _ elem | .slice elem => h _ (List.forall_mem_singleton.mpr (h.ty elem))
  | .tuple elems => h _ (h.tys elems)
  | .raw _ => h _ (List.forall_mem_nil P)

theorem Rises.tys (h : Rises P) : ∀ ts : List Ty, ∀ c ∈ ts.map .ty, P c
  | [] => List.forall_mem_nil P
  | t :: ts => List.forall_mem_cons.mpr ⟨h.ty t, h.tys ts⟩

end

theorem Rises.ty? (h : Rises P) : ∀ t : Option Ty, ∀ c ∈ (t.map .ty).toList, P c
  | none => List.forall_mem_nil P
  | some t => List.forall_mem_singleton.mpr (h.ty t)

mutual

theorem Rises.expr (h : Rises P) : ∀ e : Expr, P (.expr e)
  | .path _ | .lit _ | .raw _ => h _ (List.forall_mem_nil P)
  | .field e _ | .ref _ e | .attempt e | .letCond _ e =>
      h _ (List.forall_mem_singleton.mpr (h.expr e))
  | .call e args | .method e _ args =>
      h _ (List.forall_mem_cons.mpr ⟨h.expr e, h.exprs args⟩)
  | .macroCall _ args => h _ (h.exprs args)
  | .construct _ inits base =>
      h _ (List.forall_mem_append.mpr ⟨h.inits inits, h.expr? base⟩)
  | .cond test yes no =>
      h _ (List.forall_mem_cons.mpr
        ⟨h.expr test, List.forall_mem_append.mpr ⟨h.stmts yes, h.stmts? no⟩⟩)
  | .block stmts => h _ (h.stmts stmts)

theorem Rises.exprs (h : Rises P) : ∀ es : List Expr, ∀ c ∈ es.map .expr, P c
  | [] => List.forall_mem_nil P
  | e :: es => List.forall_mem_cons.mpr ⟨h.expr e, h.exprs es⟩

theorem Rises.expr? (h : Rises P) : ∀ e : Option Expr, ∀ c ∈ (e.map .expr).toList, P c
  | none => List.forall_mem_nil P
  | some e => List.forall_mem_singleton.mpr (h.expr e)

theorem Rises.inits (h : Rises P) : ∀ inits : List FieldInit, ∀ c ∈ inits.flatMap ofInit, P c
  | [] => List.forall_mem_nil P
  | .mk _ value :: rest => List.forall_mem_append.mpr ⟨h.expr? value, h.inits rest⟩

theorem Rises.stmt (h : Rises P) : ∀ s : Stmt, ∀ c ∈ ofStmt s, P c
  | .bind _ type value => List.forall_mem_append.mpr ⟨h.ty? type, h.expr? value⟩
  | .expr e _ => List.forall_mem_singleton.mpr (h.expr e)

theorem Rises.stmts (h : Rises P) : ∀ b : List Stmt, ∀ c ∈ ofStmts b, P c
  | [] => List.forall_mem_nil P
  | s :: rest => List.forall_mem_append.mpr ⟨h.stmt s, h.stmts rest⟩

theorem Rises.stmts? (h : Rises P) :
    ∀ b : Option (List Stmt), ∀ c ∈ (b.map ofStmts).getD [], P c
  | none => List.forall_mem_nil P
  | some b => h.stmts b

end

theorem Rises.all (h : Rises P) : ∀ t : Term, P t
  | .ty t => h.ty t
  | .expr e => h.expr e

end rises

end Term
end ClientLoom
