import ClientLoom.Proofs.Dump.Consulting
import ClientLoom.Proofs.Yaml.Sharing

/-! # Expressions that documents share

An expression is decoded from its node and from what the aliases in it stand for: documents that
share the node decode it alike (`exprWithin_eq_of_shares`).  The parts of an expression are read by
the schema, whose shapes are alike for such documents (`alike_exprShape`). -/

namespace ClientLoom.Dump

open Yaml (Node Document Fit Shape)
open Yaml.Fit (Alike alike_pure)

variable {d d' : Document} {S : Node → Prop} {ar : List Nat}

/-! ### Parts -/

section parts

variable {α β : Type}

theorem alike_textPart (h : d.Shares d' S) (set : α → String → α) :
    Shape.PartAlike S (textPart d set) (textPart d' set) := by
  intro ar n a hn
  refine (Fit.alike_text h hn).bind fun s => ?_
  cases s with
  | none => exact alike_pure a
  | some s => exact alike_pure (set a s)

theorem alike_flagPart (h : d.Shares d' S) (set : α → Bool → α) :
    Shape.PartAlike S (flagPart d set) (flagPart d' set) := by
  intro ar n a hn
  refine (Fit.alike_truth h hn).bind fun b => ?_
  cases b with
  | none => exact alike_pure a
  | some b => exact alike_pure (set a b)

theorem alike_listPart {item item' : Node → Fit (Option β)} (h : d.Shares d' S)
    (set : α → List β → α) (hitem : ∀ ar m, S m → Alike ar (item m) (item' m)) :
    Shape.PartAlike S (listPart d item set) (listPart d' item' set) := by
  intro ar n a hn
  refine (Fit.alike_items h hn fun ar' m hm _ => hitem ar' m hm).bind fun xs => ?_
  cases xs with
  | none => exact alike_pure a
  | some xs => exact alike_pure (set a xs)

theorem alike_nodeShape : nodeShape.Alike S nodeShape where
  empty := rfl
  strict := rfl
  whole := rfl
  part _ := .none

theorem alike_nodePart (h : d.Shares d' S) (set : α → Node → α) :
    Shape.PartAlike S (nodePart d set) (nodePart d' set) := by
  intro ar n a hn
  refine (Shape.alike_readMaybe h alike_nodeShape hn).bind fun x => ?_
  split
  · exact alike_pure _
  · exact alike_pure a

end parts

/-! ### Shapes -/

theorem alike_letShape (h : d.Shares d' S) (strict : Bool) :
    (letShape d strict).Alike S (letShape d' strict) where
  empty := rfl
  strict := rfl
  whole := rfl
  part name := by
    unfold letShape
    dsimp only
    split
    · exact .some (alike_textPart h _)
    · exact .some (alike_textPart h _)
    · exact .some (alike_nodePart h _)
    · exact .none

theorem alike_bindingPart (h : d.Shares d' S) (strict : Bool) :
    Shape.PartAlike S (bindingPart d strict) (bindingPart d' strict) := by
  intro ar n a hn
  refine (Shape.alike_readMaybe h (alike_letShape h strict) hn).bind fun b => ?_
  cases b with
  | none => exact alike_pure a
  | some b => exact alike_pure _

theorem alike_stmtShape (h : d.Shares d' S) (strict : Bool) :
    (stmtShape d strict).Alike S (stmtShape d' strict) where
  empty := rfl
  strict := rfl
  whole := rfl
  part name := by
    unfold stmtShape
    dsimp only
    split
    · exact .some (alike_bindingPart h strict)
    · exact .some (alike_nodePart h _)
    · exact .some (alike_nodePart h _)
    · exact .some (alike_flagPart h _)
    · exact .none

theorem alike_initShape (h : d.Shares d' S) : (initShape d).Alike S (initShape d') where
  empty := rfl
  strict := rfl
  whole := rfl
  part name := by
    unfold initShape
    dsimp only
    split
    · exact .some (alike_textPart h _)
    · exact .some (alike_nodePart h _)
    · exact .none

theorem alike_exprPart (h : d.Shares d' S) (name : String) :
    Option.Rel (Shape.PartAlike S) (exprPart? d name) (exprPart? d' name) := by
  have hstmt : ∀ ar m, S m →
      Alike ar ((stmtShape d false).read d m) ((stmtShape d' false).read d' m) :=
    fun _ _ hm => Shape.alike_read h (alike_stmtShape h false) hm
  unfold exprPart?
  split
  · exact .some (alike_nodePart h _)
  · exact .some (alike_nodePart h _)
  · exact .some (alike_nodePart h _)
  · exact .some (alike_nodePart h _)
  · exact .some (alike_nodePart h _)
  · exact .some (alike_listPart h _ fun _ _ hm => Shape.alike_read h alike_nodeShape hm)
  · exact .some (alike_textPart h _)
  · exact .some (alike_textPart h _)
  · exact .some (alike_textPart h _)
  · exact .some (alike_listPart h _ fun _ _ hm => Shape.alike_read h (alike_initShape h) hm)
  · exact .some (alike_listPart h _ hstmt)
  · exact .some (alike_listPart h _ hstmt)
  · exact .none

theorem alike_exprShape (h : d.Shares d' S) (keys : List String) :
    (exprShape d keys).Alike S (exprShape d' keys) where
  empty := rfl
  strict := rfl
  whole := rfl
  part name := by
    unfold exprShape
    dsimp only
    split
    · exact alike_exprPart h name
    · exact .none

/-! ### Expressions -/

section expressions

variable {v : Node}

theorem partsOf_eq_of_shares (h : d.Shares d' S) (keys : List String) (hv : S v) :
    partsOf d' keys v = partsOf d keys v := by
  have hread : Alike [] (readExpr d keys v) (readExpr d' keys v) :=
    (Shape.alike_read h (alike_exprShape h keys) hv).bind fun e => alike_pure _
  unfold partsOf fitting
  rw [hread.result_eq]

theorem readStmts_result_eq (h : d.Shares d' S) (hv : S v) :
    (readStmts d' v).result = (readStmts d v).result := by
  have hread : Alike [] (readStmts d v) (readStmts d' v) :=
    (Fit.alike_items h hv fun _ _ hm _ =>
      Shape.alike_read h (alike_stmtShape h false) hm).bind fun stmts => alike_pure _
  exact hread.result_eq.symm

theorem kindOf_eq_of_shares (h : d.Shares d' S) (expr : ExprDecoder) (key : String) (hv : S v) :
    kindOf d' expr key v = kindOf d expr key v := by
  unfold kindOf fieldOf callOf methodOf macroOf constructOf letCondOf condOf nestedOf fitting
  simp only [partsOf_eq_of_shares h _ hv, readStmts_result_eq h hv]

theorem exprStep_eq_of_shares (h : d.Shares d' S) (expr : ExprDecoder) {n : Node} (hn : S n) :
    exprStep d' expr n = exprStep d expr n := by
  unfold exprStep
  split
  · next line tag k v =>
    rw [kindOf_eq_of_shares h expr _ (h.closed hn (.value (List.mem_singleton_self (k, v))))]
  · rfl

/-- Documents decode the expressions they share alike. -/
theorem exprWithin_eq_of_shares (h : d.Shares d' S) (depth : Nat) {n : Node} (hn : S n) :
    exprWithin d' depth n = exprWithin d depth n := by
  induction depth generalizing n with
  | zero => rfl
  | succ depth ih =>
      show exprStep d' (exprWithin d' depth) n = exprStep d (exprWithin d depth) n
      rw [exprStep_eq_of_shares h _ hn]
      exact (consults_exprStep h.closed fun _ hpart => h.closed hn hpart).congr fun m hm => ih hm

end expressions
end ClientLoom.Dump
