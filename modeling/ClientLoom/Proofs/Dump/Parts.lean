import ClientLoom.Dump.Schema
import ClientLoom.Proofs.Yaml.Filling

/-! # The parts of records

What a part makes of a record, when it is read without a flaw, and that every shape of the schema is
regular: its records are filled from the entries of their mappings (`Shape.fills_of_read`). -/

namespace ClientLoom.Dump

open Yaml (Node Document Fit Shape)
open Yaml.Fit

variable {α β : Type} {d : Document} {v : Node} {a b : α}

/-! ### Kinds of parts -/

section parts

variable {textSet : α → String → α} {flagSet : α → Bool → α} {listSet : α → List β → α}
  {nodeSet : α → Node → α} {item : Node → Fit (Option β)}

theorem ensures_textPart (v : Node) (a : α) :
    Ensures (· = none) (textPart d textSet v a) fun b m =>
      (∃ r, d.text? v = some r ∧ b = r.elim a (textSet a)) ∧ m = none := by
  refine (ensures_text d v).bind fun r => ?_
  cases r with
  | none => exact ensures_pure fun _ h => ⟨⟨none, h.1, rfl⟩, h.2⟩
  | some s => exact ensures_pure fun _ h => ⟨⟨some s, h.1, rfl⟩, h.2⟩

theorem steady_truth (v : Node) : Steady (truth d v) := by
  refine ensures_visit ?_
  split
  · next tag style text hn =>
    split
    · exact ensures_pure fun _ h => h
    · refine (ensures_scalarText 0 tag style text).bind fun r => ?_
      split
      · exact ensures_pure fun _ h => h.2
      · exact ensures_flaw.elim
    · exact (ensures_nothing tag style text).mono (fun _ h => h) fun _ _ h => h.2
  · exact ensures_flaw.elim

theorem ensures_flagPart (v : Node) (a : α) :
    Ensures (· = none) (flagPart d flagSet v a) fun b m =>
      (∃ r : Option Bool, b = r.elim a (flagSet a)) ∧ m = none := by
  refine (steady_truth v).bind fun r => ?_
  cases r with
  | none => exact ensures_pure fun _ h => ⟨⟨none, rfl⟩, h⟩
  | some x => exact ensures_pure fun _ h => ⟨⟨some x, rfl⟩, h⟩

theorem ensures_listPart (hitem : ∀ m, Steady (item m)) (v : Node) (a : α) :
    Ensures (· = none) (listPart d item listSet v a) fun b m =>
      (b = a ∧ (d.resolve v).items = [] ∨ ∃ xs, b = listSet a (xs.filterMap id) ∧
        List.Forall₂ (fun m x => Clean (item m) x) (d.resolve v).items xs) ∧ m = none := by
  refine (ensures_items hitem).bind fun r => ?_
  cases r with
  | none =>
      refine ensures_pure ?_
      rintro m ⟨⟨-, hitems⟩ | ⟨xs, hxs, -⟩, hm⟩
      · exact ⟨.inl ⟨rfl, hitems⟩, hm⟩
      · cases hxs
  | some ys =>
      refine ensures_pure ?_
      rintro m ⟨⟨hys, -⟩ | ⟨xs, hxs, hitems⟩, hm⟩
      · cases hys
      · obtain rfl := Option.some.inj hxs
        exact ⟨.inr ⟨xs, rfl, hitems⟩, hm⟩

theorem steadyParts_nodeShape : nodeShape.SteadyParts := fun _ _ h => nomatch h

theorem ensures_add_node (fuel : Nat) (x : Option Node) (n : Node) :
    Ensures (· = none) (nodeShape.add d fuel x n) fun r m =>
      (n.isNull = false → r = some (some n)) ∧ m = none := by
  cases hnull : n.isNull with
  | true =>
      exact (Shape.steady_add steadyParts_nodeShape fuel x n).mono (fun _ h => h)
        fun _ _ h => ⟨nofun, h⟩
  | false =>
      cases fuel with
      | zero => exact ensures_refuse
      | succ fuel =>
          unfold Shape.add
          simp only [nodeShape, hnull]
          exact ensures_pure fun _ h => ⟨fun _ => rfl, h⟩

theorem ensures_read_node (n : Node) :
    Ensures (· = none) (nodeShape.read d n) fun r m =>
      ((d.resolve n).isNull = false → r = some (some (d.resolve n))) ∧ m = none :=
  ensures_visit (ensures_add_node d.depth none (d.resolve n))

theorem ensures_readMaybe_node (n : Node) :
    Ensures (· = none) (nodeShape.readMaybe d n) fun r m =>
      ((d.resolve n).isNull = false → r = some (some (d.resolve n))) ∧ m = none := by
  refine ensures_visit ?_
  split
  · next hnull hn =>
    refine (ensures_nothing _ _ _).mono (fun _ h => h) ?_
    rintro r m ⟨rfl, hm⟩
    exact ⟨fun h => (nomatch hnull.symm.trans h), hm⟩
  · exact ensures_flaw.elim
  · exact ensures_add_node d.depth none (d.resolve n)

theorem ensures_nodePart (v : Node) (a : α) :
    Ensures (· = none) (nodePart d nodeSet v a) fun b m =>
      (((d.resolve v).isNull = false → b = nodeSet a (d.resolve v)) ∧
        ∃ r : Option Node, b = r.elim a (nodeSet a)) ∧ m = none := by
  refine (ensures_readMaybe_node v).bind fun r => ?_
  split
  · next n =>
    refine ensures_pure fun _ h => ⟨⟨fun hnull => ?_, some n, rfl⟩, h.2⟩
    obtain rfl : n = d.resolve v := by simpa using h.1 hnull
    rfl
  · next hnone =>
    refine ensures_pure fun _ h => ⟨⟨fun hnull => ?_, none, rfl⟩, h.2⟩
    exact absurd (h.1 hnull) (hnone _)

theorem steady_textPart (v : Node) (a : α) : Steady (textPart d textSet v a) :=
  (ensures_textPart v a).mono (fun _ h => h) fun _ _ h => h.2

theorem steady_flagPart (v : Node) (a : α) : Steady (flagPart d flagSet v a) :=
  (ensures_flagPart v a).mono (fun _ h => h) fun _ _ h => h.2

theorem steady_listPart (hitem : ∀ m, Steady (item m)) (v : Node) (a : α) :
    Steady (listPart d item listSet v a) :=
  (ensures_listPart hitem v a).mono (fun _ h => h) fun _ _ h => h.2

theorem steady_nodePart (v : Node) (a : α) : Steady (nodePart d nodeSet v a) :=
  (ensures_nodePart v a).mono (fun _ h => h) fun _ _ h => h.2

theorem steady_text (v : Node) : Steady (text d v) :=
  (ensures_text d v).mono (fun _ h => h) fun _ _ h => h.2

theorem steady_read_node (v : Node) : Steady (nodeShape.read d v) :=
  (ensures_read_node v).mono (fun _ h => h) fun _ _ h => h.2

theorem steady_read {s : Shape α} (h : s.Regular) (v : Node) : Steady (s.read d v) :=
  (Shape.ensures_read h v).mono (fun _ h => h) fun _ _ h => h.2

/-- Every item of a list is read, and what comes of it is in the record. -/
theorem exists_item (hitem : ∀ m, Steady (item m)) (h : Clean (listPart d item listSet v a) b)
    {m : Node} (hm : m ∈ (d.resolve v).items) :
    ∃ x xs, Clean (item m) x ∧ b = listSet a xs ∧ ∀ y ∈ x, y ∈ xs := by
  obtain ⟨_, ⟨-, hnone⟩ | ⟨xs, rfl, hitems⟩, -⟩ := (ensures_listPart hitem v a).of_clean h
  · simp [hnone] at hm
  · obtain ⟨x, hx, hclean⟩ := exists_right_of_forall₂ hitems hm
    exact ⟨x, _, hclean, rfl, fun y hy => List.mem_filterMap.mpr ⟨x, hx, hy⟩⟩

end parts

/-! ### What a part leaves alone -/

section spared

variable {γ : Type} {g : α → γ} {textSet : α → String → α} {flagSet : α → Bool → α}
  {listSet : α → List β → α} {nodeSet : α → Node → α} {item : Node → Fit (Option β)}

theorem spared_by_text (h : Clean (textPart d textSet v a) b) (hg : ∀ x, g (textSet a x) = g a) :
    g b = g a := by
  obtain ⟨_, ⟨r, -, rfl⟩, -⟩ := (ensures_textPart v a).of_clean h
  cases r with
  | none => rfl
  | some x => exact hg x

theorem spared_by_flag (h : Clean (flagPart d flagSet v a) b) (hg : ∀ x, g (flagSet a x) = g a) :
    g b = g a := by
  obtain ⟨_, ⟨r, rfl⟩, -⟩ := (ensures_flagPart v a).of_clean h
  cases r with
  | none => rfl
  | some x => exact hg x

theorem spared_by_node (h : Clean (nodePart d nodeSet v a) b) (hg : ∀ x, g (nodeSet a x) = g a) :
    g b = g a := by
  obtain ⟨_, ⟨-, r, rfl⟩, -⟩ := (ensures_nodePart v a).of_clean h
  cases r with
  | none => rfl
  | some x => exact hg x

theorem spared_by_list (h : Clean (listPart d item listSet v a) b)
    (hitem : ∀ m, Steady (item m)) (hg : ∀ xs, g (listSet a xs) = g a) : g b = g a := by
  obtain ⟨_, ⟨rfl, -⟩ | ⟨xs, rfl, -⟩, -⟩ := (ensures_listPart hitem v a).of_clean h
  · rfl
  · exact hg _

end spared

/-! ### Shapes

A key of a shape is one of its names, so each proof goes through them: a name is a word, and its
part is of one of the kinds above. -/

theorem regular_fieldShape (d : Document) : (fieldShape d).Regular where
  steady name part hpart v a := by
    unfold fieldShape at hpart
    dsimp only at hpart
    split at hpart
    all_goals first
      | cases hpart; done
      | obtain rfl := Option.some.inj hpart
        first
          | with_reducible exact steady_textPart v a
          | with_reducible exact steady_flagPart v a
          | with_reducible exact steady_listPart steady_text v a
  worded name hname times := by
    unfold fieldShape at hname
    dsimp only at hname
    split at hname
    all_goals first | cases times <;> rfl | cases hname
  unmerged := rfl
  whole := rfl

theorem regular_variantShape (d : Document) : (variantShape d).Regular where
  steady name part hpart v a := by
    unfold variantShape at hpart
    dsimp only at hpart
    split at hpart
    all_goals first
      | cases hpart; done
      | obtain rfl := Option.some.inj hpart
        first
          | with_reducible exact steady_textPart v a
          | with_reducible exact steady_listPart steady_text v a
  worded name hname times := by
    unfold variantShape at hname
    dsimp only at hname
    split at hname
    all_goals first | cases times <;> rfl | cases hname
  unmerged := rfl
  whole := rfl

theorem regular_paramShape (d : Document) : (paramShape d).Regular where
  steady name part hpart v a := by
    unfold paramShape at hpart
    dsimp only at hpart
    split at hpart
    all_goals first
      | cases hpart; done
      | obtain rfl := Option.some.inj hpart
        first
          | with_reducible exact steady_textPart v a
          | with_reducible exact steady_flagPart v a
  worded name hname times := by
    unfold paramShape at hname
    dsimp only at hname
    split at hname
    all_goals first | cases times <;> rfl | cases hname
  unmerged := rfl
  whole := rfl

theorem regular_letShape (d : Document) (strict : Bool) : (letShape d strict).Regular where
  steady name part hpart v a := by
    unfold letShape at hpart
    dsimp only at hpart
    split at hpart
    all_goals first
      | cases hpart; done
      | obtain rfl := Option.some.inj hpart
        first
          | with_reducible exact steady_textPart v a
          | with_reducible exact steady_nodePart v a
  worded name hname times := by
    unfold letShape at hname
    dsimp only at hname
    split at hname
    all_goals first | cases times <;> rfl | cases hname
  unmerged := rfl
  whole := rfl

theorem ensures_bindingPart (strict : Bool) (v : Node) (a : StmtDoc) :
    Ensures (· = none) (bindingPart d strict v a) fun b m =>
      (∃ r, Clean ((letShape d strict).readMaybe d v) r ∧
        b = r.elim a fun x => { a with binding := some x }) ∧ m = none := by
  refine (Shape.ensures_readMaybe (regular_letShape d strict) v).clean.bind fun r => ?_
  cases r with
  | none => exact ensures_pure fun _ h => ⟨⟨none, h.1, rfl⟩, h.2.2⟩
  | some x => exact ensures_pure fun _ h => ⟨⟨some x, h.1, rfl⟩, h.2.2⟩

theorem steady_bindingPart (strict : Bool) (v : Node) (a : StmtDoc) :
    Steady (bindingPart d strict v a) :=
  (ensures_bindingPart strict v a).mono (fun _ h => h) fun _ _ h => h.2

theorem regular_stmtShape (d : Document) (strict : Bool) : (stmtShape d strict).Regular where
  steady name part hpart v a := by
    unfold stmtShape at hpart
    dsimp only at hpart
    split at hpart
    all_goals first
      | cases hpart; done
      | obtain rfl := Option.some.inj hpart
        first
          | with_reducible exact steady_bindingPart strict v a
          | with_reducible exact steady_nodePart v a
          | with_reducible exact steady_flagPart v a
  worded name hname times := by
    unfold stmtShape at hname
    dsimp only at hname
    split at hname
    all_goals first | cases times <;> rfl | cases hname
  unmerged := rfl
  whole := rfl

theorem regular_initShape (d : Document) : (initShape d).Regular where
  steady name part hpart v a := by
    unfold initShape at hpart
    dsimp only at hpart
    split at hpart
    all_goals first
      | cases hpart; done
      | obtain rfl := Option.some.inj hpart
        first
          | with_reducible exact steady_textPart v a
          | with_reducible exact steady_nodePart v a
  worded name hname times := by
    unfold initShape at hname
    dsimp only at hname
    split at hname
    all_goals first | cases times <;> rfl | cases hname
  unmerged := rfl
  whole := rfl

theorem regular_declShape {fn : Node → Fit (Option DeclDoc)} (hfn : ∀ m, Steady (fn m)) :
    (declShape d fn).Regular where
  steady name part hpart v a := by
    unfold declShape at hpart
    dsimp only at hpart
    split at hpart
    all_goals first
      | cases hpart; done
      | obtain rfl := Option.some.inj hpart
        first
          | with_reducible exact steady_textPart v a
          | with_reducible exact steady_flagPart v a
          | with_reducible exact steady_listPart steady_text v a
          | with_reducible exact steady_listPart hfn v a
          | with_reducible exact steady_listPart (steady_read (regular_fieldShape d)) v a
          | with_reducible exact steady_listPart (steady_read (regular_variantShape d)) v a
          | with_reducible exact steady_listPart (steady_read (regular_paramShape d)) v a
          | with_reducible exact steady_listPart (steady_read (regular_stmtShape d true)) v a
  worded name hname times := by
    unfold declShape at hname
    dsimp only at hname
    split at hname
    all_goals first | cases times <;> rfl | cases hname
  unmerged := rfl
  whole := rfl

theorem steady_readDecl (fuel : Nat) (v : Node) : Steady (readDecl d fuel v) := by
  induction fuel generalizing v with
  | zero => exact ensures_refuse
  | succ fuel ih => exact steady_read (regular_declShape ih) v

theorem regular_fileShape (d : Document) : (fileShape d).Regular where
  steady name part hpart v a := by
    unfold fileShape at hpart
    dsimp only at hpart
    split at hpart
    all_goals first
      | cases hpart; done
      | obtain rfl := Option.some.inj hpart
        first
          | with_reducible exact steady_textPart v a
          | with_reducible exact steady_listPart steady_text v a
          | with_reducible exact steady_listPart (steady_readDecl d.depth) v a
  worded name hname times := by
    unfold fileShape at hname
    dsimp only at hname
    split at hname
    all_goals first | cases times <;> rfl | cases hname
  unmerged := rfl
  whole := rfl

theorem steady_exprPart {name : String} {part : Node → ExprDoc → Fit ExprDoc}
    (hpart : exprPart? d name = some part) (v : Node) (a : ExprDoc) : Steady (part v a) := by
  unfold exprPart? at hpart
  split at hpart
  all_goals first
    | cases hpart; done
    | obtain rfl := Option.some.inj hpart
      first
        | with_reducible exact steady_textPart v a
        | with_reducible exact steady_nodePart v a
        | with_reducible exact steady_listPart steady_read_node v a
        | with_reducible exact steady_listPart (steady_read (regular_initShape d)) v a
        | with_reducible exact steady_listPart (steady_read (regular_stmtShape d false)) v a

theorem regular_exprShape (d : Document) (keys : List String) : (exprShape d keys).Regular where
  steady name part hpart v a := by
    unfold exprShape at hpart
    dsimp only at hpart
    split at hpart
    · exact steady_exprPart hpart v a
    · cases hpart
  worded name hname times := by
    unfold exprShape at hname
    dsimp only at hname
    split at hname
    · unfold exprPart? at hname
      split at hname
      all_goals first | cases times <;> rfl | cases hname
    · cases hname
  unmerged := by
    unfold exprShape
    dsimp only
    split <;> rfl
  whole := rfl

/-! ### What other parts leave alone

What a record shows of one part is as that part has made it. -/

theorem spares_fileShape (d : Document) :
    (fileShape d).Spares "decls" FileDoc.decls := by
  intro name part hne hpart v a b h
  unfold fileShape at hpart
  dsimp only at hpart
  split at hpart
  all_goals first
    | exact absurd rfl hne
    | cases hpart; done
    | obtain rfl := Option.some.inj hpart
      first
        | with_reducible refine spared_by_text h ?_
        | with_reducible refine spared_by_list h steady_text ?_
      intro; rfl

theorem spares_declShape {fn : Node → Fit (Option DeclDoc)} (hfn : ∀ m, Steady (fn m)) :
    (declShape d fn).Spares "fn" DeclDoc.fn ∧ (declShape d fn).Spares "impl" DeclDoc.impl ∧
      (declShape d fn).Spares "fns" DeclDoc.fns ∧ (declShape d fn).Spares "body" DeclDoc.body := by
  refine ⟨?_, ?_, ?_, ?_⟩
  all_goals
    intro name part hne hpart v a b h
    unfold declShape at hpart
    dsimp only at hpart
    split at hpart
    all_goals first
      | exact absurd rfl hne
      | cases hpart; done
      | obtain rfl := Option.some.inj hpart
        first
          | with_reducible refine spared_by_text h ?_
          | with_reducible refine spared_by_flag h ?_
          | with_reducible refine spared_by_list h steady_text ?_
          | with_reducible refine spared_by_list h hfn ?_
          | with_reducible refine spared_by_list h (steady_read (regular_fieldShape d)) ?_
          | with_reducible refine spared_by_list h (steady_read (regular_variantShape d)) ?_
          | with_reducible refine spared_by_list h (steady_read (regular_paramShape d)) ?_
          | with_reducible refine spared_by_list h (steady_read (regular_stmtShape d true)) ?_
        intro; rfl

theorem spared_by_binding {γ : Type} {strict : Bool} {a b : StmtDoc} {g : StmtDoc → γ}
    (h : Clean (bindingPart d strict v a) b)
    (hg : ∀ x, g { a with binding := some x } = g a) : g b = g a := by
  obtain ⟨_, ⟨r, -, rfl⟩, -⟩ := (ensures_bindingPart strict v a).of_clean h
  cases r with
  | none => rfl
  | some x => exact hg x

theorem spares_stmtShape (d : Document) (strict : Bool) :
    (stmtShape d strict).Spares "let" StmtDoc.binding ∧
      (stmtShape d strict).Spares "expr" StmtDoc.expr ∧
      (stmtShape d strict).Spares "tail" StmtDoc.tail := by
  refine ⟨?_, ?_, ?_⟩
  all_goals
    intro name part hne hpart v a b h
    unfold stmtShape at hpart
    dsimp only at hpart
    split at hpart
    all_goals first
      | exact absurd rfl hne
      | cases hpart; done
      | obtain rfl := Option.some.inj hpart
        first
          | with_reducible refine spared_by_binding h ?_
          | with_reducible refine spared_by_node h ?_
          | with_reducible refine spared_by_flag h ?_
        intro; rfl

theorem spares_letShape (d : Document) (strict : Bool) :
    (letShape d strict).Spares "value" LetDoc.value := by
  intro name part hne hpart v a b h
  unfold letShape at hpart
  dsimp only at hpart
  split at hpart
  all_goals first
    | exact absurd rfl hne
    | cases hpart; done
    | obtain rfl := Option.some.inj hpart
      first
        | with_reducible refine spared_by_text h ?_
      intro; rfl

theorem spares_initShape (d : Document) :
    (initShape d).Spares "value" InitDoc.value := by
  intro name part hne hpart v a b h
  unfold initShape at hpart
  dsimp only at hpart
  split at hpart
  all_goals first
    | exact absurd rfl hne
    | cases hpart; done
    | obtain rfl := Option.some.inj hpart
      first
        | with_reducible refine spared_by_text h ?_
      intro; rfl

theorem spares_exprShape (d : Document) (keys : List String) :
    (¬ ("of" ∈ keys ∧ "base" ∈ keys) → "of" ∈ keys →
        (exprShape d keys).Spares "of" ExprDoc.base) ∧
      (¬ ("of" ∈ keys ∧ "base" ∈ keys) → "base" ∈ keys →
        (exprShape d keys).Spares "base" ExprDoc.base) ∧
      (exprShape d keys).Spares "fn" ExprDoc.callee ∧
      (exprShape d keys).Spares "value" ExprDoc.value ∧
      (exprShape d keys).Spares "cond" ExprDoc.test ∧
      (exprShape d keys).Spares "args" ExprDoc.args ∧
      (exprShape d keys).Spares "fields" ExprDoc.inits ∧
      (exprShape d keys).Spares "then" ExprDoc.yes ∧
      (exprShape d keys).Spares "else" ExprDoc.no := by
  refine ⟨fun hboth hof => ?_, fun hboth hbase => ?_, ?_, ?_, ?_, ?_, ?_, ?_, ?_⟩
  all_goals
    intro name part hne hpart v a b h
    unfold exprShape at hpart
    dsimp only at hpart
    split at hpart
    · next hkey =>
      unfold exprPart? at hpart
      split at hpart
      all_goals first
        | exact absurd rfl hne
        | cases hpart; done
        | obtain rfl := Option.some.inj hpart
          first
            | with_reducible refine spared_by_text h ?_
            | with_reducible refine spared_by_node h ?_
            | with_reducible refine spared_by_list h steady_read_node ?_
            | with_reducible refine spared_by_list h (steady_read (regular_initShape d)) ?_
            | with_reducible refine spared_by_list h (steady_read (regular_stmtShape d false)) ?_
          intro; rfl
        | have hkey := List.contains_iff_mem.mp hkey
          exact absurd (by constructor <;> assumption) hboth
    · cases hpart

end ClientLoom.Dump
