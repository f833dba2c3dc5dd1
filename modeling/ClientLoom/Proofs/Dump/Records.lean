import ClientLoom.Dump.Schema
import ClientLoom.Proofs.Yaml.Yields

/-! # The nodes that records hold

The schema keeps expressions as nodes.  Whatever is read from a node of a document holds nodes of
that document only (`yields_readFile`, `yields_readStmts`, `yields_readExpr`): `Within S` says of a
record that every node it holds is in `S`. -/

namespace ClientLoom.Dump

open Yaml (Node Document Fit Shape)
open Yaml.Fit

variable {d : Document} {S : Node → Prop}

/-! ### Records -/

/-- The nodes of a statement are in `S`. -/
structure StmtDoc.Within (S : Node → Prop) (s : StmtDoc) : Prop where
  binding : ∀ b ∈ s.binding, IfAny S b.value
  expr : IfAny S s.expr
  tail : IfAny S s.tail

/-- The nodes of an expression are in `S`. -/
structure ExprDoc.Within (S : Node → Prop) (e : ExprDoc) : Prop where
  base : IfAny S e.base
  callee : IfAny S e.callee
  value : IfAny S e.value
  test : IfAny S e.test
  args : ∀ x ∈ e.args, IfAny S x
  inits : ∀ i ∈ e.inits, IfAny S i.value
  yes : ∀ s ∈ e.yes, s.Within S
  no : IfAny (fun stmts => ∀ s ∈ stmts, s.Within S) e.no

/-- The nodes in the body of a function are in `S`. -/
def DeclDoc.BodyWithin (S : Node → Prop) (f : DeclDoc) : Prop :=
  IfAny (fun stmts => ∀ s ∈ stmts, s.Within S) f.body

/-- The nodes of a declaration are in `S`: those in its body and those in the functions of an impl
block. -/
structure DeclDoc.Within (S : Node → Prop) (f : DeclDoc) : Prop where
  body : f.BodyWithin S
  fns : ∀ g ∈ f.fns, g.BodyWithin S

/-- The nodes of a whole document are in `S`. -/
def FileDoc.Within (S : Node → Prop) (f : FileDoc) : Prop := ∀ x ∈ f.decls, x.Within S

section both

variable {T : Node → Prop}

theorem StmtDoc.Within.and {s : StmtDoc} (h : s.Within S) (h' : s.Within T) :
    s.Within fun n => S n ∧ T n where
  binding b hb n hn := ⟨h.binding b hb n hn, h'.binding b hb n hn⟩
  expr n hn := ⟨h.expr n hn, h'.expr n hn⟩
  tail n hn := ⟨h.tail n hn, h'.tail n hn⟩

theorem DeclDoc.BodyWithin.and {f : DeclDoc} (h : f.BodyWithin S) (h' : f.BodyWithin T) :
    f.BodyWithin fun n => S n ∧ T n :=
  fun stmts hstmts s hs => (h stmts hstmts s hs).and (h' stmts hstmts s hs)

theorem DeclDoc.Within.and {f : DeclDoc} (h : f.Within S) (h' : f.Within T) :
    f.Within fun n => S n ∧ T n where
  body := h.body.and h'.body
  fns g hg := (h.fns g hg).and (h'.fns g hg)

end both

/-! ### Parts -/

section parts

variable {α β : Type} {P : α → Prop} {Q : β → Prop} {a : α} {n : Node}

theorem yields_textPart {set : α → String → α} (ha : P a) (hset : ∀ s, P (set a s)) :
    Yields P (textPart d set n a) := by
  refine .after fun s => ?_
  cases s with
  | none => exact yields_pure ha
  | some s => exact yields_pure (hset s)

theorem yields_flagPart {set : α → Bool → α} (ha : P a) (hset : ∀ b, P (set a b)) :
    Yields P (flagPart d set n a) := by
  refine .after fun b => ?_
  cases b with
  | none => exact yields_pure ha
  | some b => exact yields_pure (hset b)

theorem yields_listPart {item : Node → Fit (Option β)} {set : α → List β → α}
    (hd : d.Closed S) (hn : S n) (hitem : ∀ m, S m → Yields (IfAny Q) (item m)) (ha : P a)
    (hset : ∀ xs, (∀ x ∈ xs, Q x) → P (set a xs)) : Yields P (listPart d item set n a) := by
  refine (yields_items hd hn hitem).bind fun xs hxs => ?_
  cases xs with
  | none => exact yields_pure ha
  | some xs => exact yields_pure (hset xs (hxs xs rfl))

/-- A list part whose items hold no nodes. -/
theorem yields_plainPart {item : Node → Fit (Option β)} {set : α → List β → α} (ha : P a)
    (hset : ∀ xs, P (set a xs)) : Yields P (listPart d item set n a) := by
  refine .after fun xs => ?_
  cases xs with
  | none => exact yields_pure ha
  | some xs => exact yields_pure (hset xs)

theorem keeps_nodeShape : nodeShape.Keeps S (IfAny S) where
  empty := ifAny_none
  part _ _ h := nomatch h
  whole w h n hn := by
    obtain rfl := Option.some.inj h
    exact ifAny_some hn

theorem yields_nodePart {set : α → Node → α} (hd : d.Closed S) (hn : S n) (ha : P a)
    (hset : ∀ m, S m → P (set a m)) : Yields P (nodePart d set n a) := by
  refine (Shape.yields_readMaybe hd keeps_nodeShape hn).bind fun x hx => ?_
  split
  · next m => exact yields_pure (hset m (hx _ rfl m rfl))
  · exact yields_pure ha

end parts

/-! ### Shapes -/

theorem keeps_letShape (hd : d.Closed S) (strict : Bool) :
    (letShape d strict).Keeps S fun b => IfAny S b.value where
  empty := ifAny_none
  part name part h n a hn ha := by
    unfold letShape at h
    dsimp only at h
    split at h
    · exact Option.some.inj h ▸ yields_textPart ha fun _ => ha
    · exact Option.some.inj h ▸ yields_textPart ha fun _ => ha
    · exact Option.some.inj h ▸ yields_nodePart hd hn ha fun _ => ifAny_some
    · cases h
  whole _ h := nomatch h

theorem keeps_stmtShape (hd : d.Closed S) (strict : Bool) :
    (stmtShape d strict).Keeps S (StmtDoc.Within S) where
  empty := ⟨ifAny_none, ifAny_none, ifAny_none⟩
  part name part h n a hn ha := by
    unfold stmtShape at h
    dsimp only at h
    split at h
    · obtain rfl := Option.some.inj h
      refine (Shape.yields_readMaybe hd (keeps_letShape hd strict) hn).bind fun b hb => ?_
      cases b with
      | none => exact yields_pure ha
      | some b => exact yields_pure { ha with binding := ifAny_some (hb b rfl) }
    · exact Option.some.inj h ▸
        yields_nodePart hd hn ha fun _ hm => { ha with expr := ifAny_some hm }
    · exact Option.some.inj h ▸
        yields_nodePart hd hn ha fun _ hm => { ha with tail := ifAny_some hm }
    · exact Option.some.inj h ▸ yields_flagPart ha fun _ => { ha with }
    · cases h
  whole _ h := nomatch h

theorem keeps_initShape (hd : d.Closed S) : (initShape d).Keeps S fun i => IfAny S i.value where
  empty := ifAny_none
  part name part h n a hn ha := by
    unfold initShape at h
    dsimp only at h
    split at h
    · exact Option.some.inj h ▸ yields_textPart ha fun _ => ha
    · exact Option.some.inj h ▸ yields_nodePart hd hn ha fun _ => ifAny_some
    · cases h
  whole _ h := nomatch h

theorem yields_exprPart {name : String} {part : Node → ExprDoc → Fit ExprDoc} {n : Node}
    {a : ExprDoc} (hd : d.Closed S) (h : exprPart? d name = some part) (hn : S n)
    (ha : a.Within S) : Yields (ExprDoc.Within S) (part n a) := by
  have hstmts : ∀ m, S m → Yields (IfAny (StmtDoc.Within S)) ((stmtShape d false).read d m) :=
    fun m hm => Shape.yields_read hd (keeps_stmtShape hd false) hm
  unfold exprPart? at h
  split at h
  · exact Option.some.inj h ▸ yields_nodePart hd hn ha fun _ hm => { ha with base := ifAny_some hm }
  · exact Option.some.inj h ▸ yields_nodePart hd hn ha fun _ hm => { ha with base := ifAny_some hm }
  · exact Option.some.inj h ▸
      yields_nodePart hd hn ha fun _ hm => { ha with callee := ifAny_some hm }
  · exact Option.some.inj h ▸
      yields_nodePart hd hn ha fun _ hm => { ha with value := ifAny_some hm }
  · exact Option.some.inj h ▸ yields_nodePart hd hn ha fun _ hm => { ha with test := ifAny_some hm }
  · exact Option.some.inj h ▸
      yields_listPart hd hn (fun _ hm => Shape.yields_read hd keeps_nodeShape hm) ha
        fun _ hxs => { ha with args := hxs }
  · exact Option.some.inj h ▸ yields_textPart ha fun _ => { ha with }
  · exact Option.some.inj h ▸ yields_textPart ha fun _ => { ha with }
  · exact Option.some.inj h ▸ yields_textPart ha fun _ => { ha with }
  · exact Option.some.inj h ▸
      yields_listPart hd hn (fun _ hm => Shape.yields_read hd (keeps_initShape hd) hm) ha
        fun _ hxs => { ha with inits := hxs }
  · exact Option.some.inj h ▸
      yields_listPart hd hn hstmts ha fun _ hxs => { ha with yes := hxs }
  · exact Option.some.inj h ▸
      yields_listPart hd hn hstmts ha fun _ hxs => { ha with no := ifAny_some hxs }
  · cases h

theorem keeps_exprShape (hd : d.Closed S) (keys : List String) :
    (exprShape d keys).Keeps S (ExprDoc.Within S) where
  empty :=
    { base := ifAny_none
      callee := ifAny_none
      value := ifAny_none
      test := ifAny_none
      args := List.forall_mem_nil _
      inits := List.forall_mem_nil _
      yes := List.forall_mem_nil _
      no := ifAny_none }
  part name part h n a hn ha := by
    unfold exprShape at h
    dsimp only at h
    split at h
    · exact yields_exprPart hd h hn ha
    · cases h
  whole _ h := nomatch h

theorem keeps_declShape {fn : Node → Fit (Option DeclDoc)} (hd : d.Closed S)
    (hfn : ∀ m, S m → Yields (IfAny (DeclDoc.Within S)) (fn m)) :
    (declShape d fn).Keeps S (DeclDoc.Within S) where
  empty := ⟨ifAny_none, List.forall_mem_nil _⟩
  part name part h n a hn ha := by
    unfold declShape at h
    dsimp only at h
    split at h
    -- the functions of an impl block, the body of a function, and keys without a part
    case h_15 =>
      exact Option.some.inj h ▸
        yields_listPart hd hn hfn ha fun xs hxs => { ha with fns := fun g hg => (hxs g hg).body }
    case h_20 =>
      have hstmts : ∀ m, S m → Yields (IfAny (StmtDoc.Within S)) ((stmtShape d true).read d m) :=
        fun m hm => Shape.yields_read hd (keeps_stmtShape hd true) hm
      exact Option.some.inj h ▸
        yields_listPart hd hn hstmts ha fun _ hxs => { ha with body := ifAny_some hxs }
    case h_21 => cases h
    -- the other keys bring texts, flags and lists without nodes
    all_goals
      obtain rfl := Option.some.inj h
      first
      | exact yields_textPart ha fun _ => { ha with }
      | exact yields_flagPart ha fun _ => { ha with }
      | exact yields_plainPart ha fun _ => { ha with }
  whole _ h := nomatch h

/-! ### Reading -/

theorem yields_readDecl (hd : d.Closed S) (fuel : Nat) {n : Node} (hn : S n) :
    Yields (IfAny (DeclDoc.Within S)) (readDecl d fuel n) := by
  induction fuel generalizing n with
  | zero => exact yields_refuse
  | succ fuel ih => exact Shape.yields_read hd (keeps_declShape hd fun _ hm => ih hm) hn

theorem keeps_fileShape (hd : d.Closed S) : (fileShape d).Keeps S (FileDoc.Within S) where
  empty := List.forall_mem_nil _
  part name part h n a hn ha := by
    unfold fileShape at h
    dsimp only at h
    split at h
    · exact Option.some.inj h ▸ yields_textPart ha fun _ => ha
    · exact Option.some.inj h ▸ yields_plainPart ha fun _ => ha
    · exact Option.some.inj h ▸
        yields_listPart hd hn (fun _ hm => yields_readDecl hd _ hm) ha fun _ hxs => hxs
    · cases h
  whole _ h := nomatch h

theorem yields_readFile (hd : d.Closed S) (hroot : ∀ n ∈ d.root, S n) :
    Yields (FileDoc.Within S) (readFile d) := by
  unfold readFile
  split
  · exact yields_pure (List.forall_mem_nil _)
  · next n hn =>
    refine .after fun _ => ?_
    refine (Shape.yields_read hd (keeps_fileShape hd) (hroot n hn)).bind fun f hf => ?_
    cases f with
    | none => exact yields_pure (List.forall_mem_nil _)
    | some f => exact yields_pure (hf f rfl)

theorem yields_readStmts (hd : d.Closed S) {n : Node} (hn : S n) :
    Yields (fun stmts => ∀ s ∈ stmts, s.Within S) (readStmts d n) := by
  refine (yields_items hd hn fun m hm =>
    Shape.yields_read hd (keeps_stmtShape hd false) hm).bind fun stmts hstmts => ?_
  cases stmts with
  | none => exact yields_pure (List.forall_mem_nil _)
  | some stmts => exact yields_pure (hstmts stmts rfl)

theorem yields_readExpr (hd : d.Closed S) (keys : List String) {n : Node} (hn : S n) :
    Yields (ExprDoc.Within S) (readExpr d keys n) := by
  refine (Shape.yields_read hd (keeps_exprShape hd keys) hn).bind fun e he => ?_
  cases e with
  | none => exact yields_pure (keeps_exprShape hd keys).empty
  | some e => exact yields_pure (he e rfl)

end ClientLoom.Dump
