import ClientLoom.Proofs.Walk.Offers

/-! # The order of a walk

A walk starts from a type, an expression, a block or a signature (`Tree`), each of which has some
outermost terms.  From whichever it starts, and whatever the replacer is, it offers every term of
the tree once, with the results of its children in their places, in post-order; it counts the offers
that got a replacement; and what it returns is the tree with the results of its outermost terms.  A
replacer that answers to nothing gets the tree back as it was (`Tree.replace_postOrder`).

A replacement has no address of its own: it stands in the place of a term, is part of what is
offered above that place, and is not offered or entered itself. -/

namespace ClientLoom

namespace Replacer

variable {σ : Type} {r : Replacer σ}

/-! ### Replacers that refuse -/

/-- A replacer that answers to nothing. -/
def Refuses (r : Replacer σ) : Prop :=
  (∀ t state, (r.onTy t state).1 = none) ∧ ∀ e state, (r.onExpr e state).1 = none

theorem Refuses.onTerm (h : r.Refuses) (t : Term) (state : σ) : (r.onTerm t state).1 = none := by
  cases t with
  | ty t => exact Option.map_eq_none_iff.mpr (h.1 t state)
  | expr e => exact Option.map_eq_none_iff.mpr (h.2 e state)

theorem mapM_walkTerm_of_forall {ts : List Term}
    (h : ∀ t ∈ ts, ∀ s, (r.walkTerm t s).1 = t ∧ (r.walkTerm t s).2.count = s.count) :
    ∀ s, (ts.mapM r.walkTerm s).1 = ts ∧ (ts.mapM r.walkTerm s).2.count = s.count := by
  induction ts with
  | nil => exact fun s => ⟨rfl, rfl⟩
  | cons t ts ih =>
      rw [List.forall_mem_cons] at h
      intro s
      rw [mapM_cons_apply]
      obtain ⟨hvalue, hcount⟩ := h.1 s
      obtain ⟨hvalues, hcounts⟩ := ih h.2 (r.walkTerm t s).2
      exact ⟨by rw [hvalue, hvalues], hcounts.trans hcount⟩

theorem Refuses.walkTerm (h : r.Refuses) :
    ∀ t s, (r.walkTerm t s).1 = t ∧ (r.walkTerm t s).2.count = s.count := by
  refine Term.Rises.all fun t ih s => ?_
  obtain ⟨hvalues, hcounts⟩ := mapM_walkTerm_of_forall ih s
  rw [walkTerm_eq, bind_apply, hvalues, t.withChildren_children, offer_eq, h.onTerm]
  exact ⟨rfl, hcounts⟩

end Replacer

/-! ### Trees -/

/-- What a walk starts from: a type, an expression, a block or the signature of a function. -/
inductive Tree where
  | ty (t : Ty)
  | expr (e : Expr)
  | block (b : Block)
  | signature (f : Func)

/-- The same replacements, of another value. -/
def Replaced.map {σ α β : Type} (f : α → β) (x : Replaced σ α) : Replaced σ β :=
  ⟨f x.value, x.state, x.count⟩

namespace Tree

variable {σ : Type}

/-- Replaces within a tree. -/
def replace (r : Replacer σ) (state : σ) : Tree → Replaced σ Tree
  | .ty t => (t.replace r state).map .ty
  | .expr e => (e.replace r state).map .expr
  | .block b => (b.replace r state).map .block
  | .signature f => (f.replaceSignature r state).map .signature

/-- The outermost terms of a tree in order; in a signature the parameters come before the
result. -/
def roots : Tree → List Term
  | .ty t => [.ty t]
  | .expr e => [.expr e]
  | .block b => Term.ofStmts b
  | .signature f => f.params.map (.ty ·.ty) ++ (f.ret.map .ty).toList

/-- The term at an address in a tree; the first number tells in which of its outermost terms. -/
def at? (x : Tree) : Address → Option Term := Term.among? x.roots

/-- Puts the next terms in the places of the outermost ones. -/
def fill : Tree → StateM (List Term) Tree
  | .ty t => do
      let t ← Term.nextTy t
      pure (.ty t)
  | .expr e => do
      let e ← Term.nextExpr e
      pure (.expr e)
  | .block b => do
      let b ← b.mapM Term.fillStmt
      pure (.block b)
  | .signature f => do
      let params ← f.params.mapM Term.fillParam
      let ret ← f.ret.mapM Term.nextTy
      pure (.signature { f with params := params, ret := ret })

/-- The tree with other outermost terms. -/
def withRoots (x : Tree) (new : List Term) : Tree := (x.fill new).1

/-- Walks a tree. -/
def walk (x : Tree) (r : Replacer σ) : StateM (Tally σ) Tree :=
  match x with
  | .ty t => do
      let t ← r.walkTy t
      pure (.ty t)
  | .expr e => do
      let e ← r.walkExpr e
      pure (.expr e)
  | .block b => do
      let b ← r.walkStmts b
      pure (.block b)
  | .signature f => do
      let f ← r.walkSignature f
      pure (.signature f)

theorem replace_eq (r : Replacer σ) (state : σ) (x : Tree) :
    x.replace r state = .ofWalk (x.walk r) state := by
  cases x <;> rfl

theorem holds (r : Replacer σ) : ∀ x : Tree, r.Holds roots x x.fill (x.walk r)
  | .ty t => (r.holds_ty t).map Tree.ty fun _ => rfl
  | .expr e => (r.holds_expr e).map Tree.expr fun _ => rfl
  | .block b => (r.holds_stmts b).map Tree.block fun _ => rfl
  | .signature f =>
      ((r.holds_params f.params).pair (r.holds_ty? f.ret)).map
        (fun x => Tree.signature { f with params := x.1, ret := x.2 }) fun _ => rfl

theorem walk_eq (x : Tree) (r : Replacer σ) :
    x.walk r = x.roots.mapM r.walkTerm >>= fun results => pure (x.withRoots results) := by
  funext s
  exact ((holds r x).walk_eq s).1

/-- What a walk over a tree does, by its offers in order. -/
structure Walked (r : Replacer σ) (state : σ) (x : Tree) (log : List Offer) : Prop where
  /-- The replacer is called for the offers of the log and for nothing else, in this order. -/
  called : x.replace r.recording (state, []) =
    ⟨(x.replace r state).value, ((x.replace r state).state, log.map Offer.call),
      (x.replace r state).count⟩
  /-- The answers are those of the replacer, each in the state that the one before it left. -/
  answered : (log.map Offer.term).mapM r.onTerm state =
    (log.map Offer.answer, (x.replace r state).state)
  /-- No term is offered twice. -/
  once : (log.map Offer.address).Nodup
  /-- The terms of the tree are offered in post-order. -/
  order : Offer.PostOrder x.at? log
  /-- The results of the outermost terms stand in their places. -/
  value : ∃ results, Offer.Settled log [] x.roots.length results ∧
    (x.replace r state).value = x.withRoots results ∧ (x.replace r state).value.roots = results
  /-- The offers that got a replacement are counted. -/
  count : (x.replace r state).count = log.countP (·.answer.isSome)

theorem makes_walk {r : Replacer σ} {x : Tree} {s : Tally σ} {log : List Offer}
    (h : r.VisitsAll x.roots s log) : r.Makes (fun _ q => x.walk q) s log := by
  have hwalk : (fun τ (q : Replacer τ) => x.walk q) =
      fun τ q => x.roots.mapM q.walkTerm >>= fun results => pure (x.withRoots results) := by
    funext τ q
    exact x.walk_eq q
  rw [hwalk]
  exact h.makes.map x.withRoots

theorem walked_of_visitsAll {r : Replacer σ} {state : σ} {x : Tree} {log : List Offer}
    (h : r.VisitsAll x.roots ⟨state, 0⟩ log) : x.Walked r state log := by
  have hmakes := makes_walk h
  obtain ⟨hwalk, hroots⟩ := (holds r x).walk_eq ⟨state, 0⟩
  constructor
  · rw [replace_eq, replace_eq, Replaced.ofWalk, hmakes.called []]
    rfl
  · rw [replace_eq]
    exact hmakes.answered
  · exact h.order.nodup
  · exact h.order
  · rw [replace_eq]
    exact ⟨_, h.settled, congrArg Prod.fst hwalk, hroots⟩
  · rw [replace_eq]
    exact hmakes.count.trans (Nat.zero_add _)

theorem walk_of_refuses {r : Replacer σ} (h : r.Refuses) (x : Tree) (s : Tally σ) :
    (x.walk r s).1 = x ∧ (x.walk r s).2.count = s.count := by
  obtain ⟨hroots, hcount⟩ := Replacer.mapM_walkTerm_of_forall (fun t _ => h.walkTerm t) s
  have hfill := (holds r x).fill_view []
  rw [List.append_nil] at hfill
  rw [walk_eq, Replacer.bind_apply, hroots]
  exact ⟨congrArg Prod.fst hfill, hcount⟩

/-- A walk offers the terms of a tree in post-order, each once and with the results of its children
in their places, and counts the replacements; when none is made, the tree stays as it was. -/
theorem replace_postOrder (r : Replacer σ) (state : σ) (x : Tree) :
    (∃ log, x.Walked r state log) ∧
      (r.Refuses → (x.replace r state).value = x ∧ (x.replace r state).count = 0) := by
  constructor
  · obtain ⟨log, hlog⟩ := Replacer.exists_visitsAll (fun t _ => r.exists_visits t) ⟨state, 0⟩
    exact ⟨log, walked_of_visitsAll hlog⟩
  · intro hrefuses
    rw [replace_eq]
    exact walk_of_refuses hrefuses x ⟨state, 0⟩

/-- The statement `let url: Url = get(config.base_path, id)?;`. -/
def urlBinding : Tree :=
  .block [.bind "url" (some (Ty.named "Url")) (some (.attempt (.call (.path (Path.of "get"))
    [.field (.path (Path.of "config")) "base_path", .path (Path.of "id")])))]

/-- Counts the terms it is offered and puts a literal in the place of the third one. -/
def replaceThird : Replacer Nat where
  onTy _ n := (none, n + 1)
  onExpr _ n := (if n = 2 then some (.lit "0") else none, n + 1)

/-- Counts the terms it is offered. -/
def countOffers : Replacer Nat where
  onTy _ n := (none, n + 1)
  onExpr _ n := (none, n + 1)

/-- The literal is not offered itself, but it is part of the field access that is offered next. -/
theorem replace_postOrder_urlBinding :
    (∃ log, urlBinding.Walked replaceThird 0 log ∧
      log.map Offer.term =
        [.ty (Ty.named "Url"), .expr (.path (Path.of "get")), .expr (.path (Path.of "config")),
          .expr (.field (.lit "0") "base_path"), .expr (.path (Path.of "id")),
          .expr (.call (.path (Path.of "get"))
            [.field (.lit "0") "base_path", .path (Path.of "id")]),
          .expr (.attempt (.call (.path (Path.of "get"))
            [.field (.lit "0") "base_path", .path (Path.of "id")]))]) ∧
      countOffers.Refuses ∧ (urlBinding.replace countOffers 0).value = urlBinding ∧
      (urlBinding.replace countOffers 0).count = 0 := by
  have hrefuses : countOffers.Refuses := ⟨fun _ _ => rfl, fun _ _ => rfl⟩
  refine ⟨?_, hrefuses, (replace_postOrder countOffers 0 urlBinding).2 hrefuses⟩
  obtain ⟨log, hlog⟩ := (replace_postOrder replaceThird 0 urlBinding).1
  have hcalls : log.map Offer.call =
      (urlBinding.replace replaceThird.recording (0, [])).state.2 := by
    rw [hlog.called]
  have hterms : log.map Offer.term = (log.map Offer.call).map Prod.fst := by
    rw [List.map_map]
    rfl
  refine ⟨log, hlog, ?_⟩
  rw [hterms, hcalls]
  rfl

end Tree
end ClientLoom
