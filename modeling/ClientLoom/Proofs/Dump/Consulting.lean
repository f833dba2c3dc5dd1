import ClientLoom.Dump.Decode
import ClientLoom.Proofs.Dump.Records
import ClientLoom.Proofs.Module.Reachable

/-! # Decoding consults a decoder

What contains expressions is decoded with the help of a decoder of expressions: it asks for the
value of one node after another and passes the first failure on.  `Consults w S F` says this of a
computation `F`, that all the nodes it may ask for are in `S`, and which causes its own failures
have (`Fault w`).  So `F` does not see a change of the decoder elsewhere (`Consults.congr`), it has
no end itself only when a node that it needs has none (`Consults.exists_needed`), and whatever it
fails with is a fault of its own or one of the decoder (`Consults.cause_of_eq_error`). -/

namespace ClientLoom.Dump

open Yaml (Node Document Fit)

variable {α β : Type}

/-- A computation was given up for its depth. -/
def Endless (x : Except Failure α) : Prop := ∃ f, x = .error f ∧ f.cause = .endless

/-- `y` is the outcome of `x` if `x` was not given up. -/
def Refines (x y : Except Failure α) : Prop := Endless x ∨ x = y

/-- What is decoded: something inside an entry, or entries as a whole. -/
inductive Extent where
  | inside
  | entries

/-- The causes of the failures that arise in decoding so much. -/
inductive Fault : Extent → Cause → Prop where
  | malformed {w : Extent} : Fault w .malformed
  | breakdown {w : Extent} (text : String) : Fault w (.breakdown text)
  | unsupported : Fault .entries .unsupported
  | kindClash : Fault .entries .kindClash

/-- `F` asks for expressions at nodes in `S` and passes the first failure on. -/
inductive Consults (w : Extent) (S : Node → Prop) : (ExprDecoder → Except Failure α) → Prop where
  | value (a : α) : Consults w S fun _ => .ok a
  | failure (f : Failure) : Fault w f.cause → Consults w S fun _ => .error f
  /-- `seen` is the view of a failure from here -/
  | ask {n : Node} (seen : Failure → Failure) {k : Expr → ExprDecoder → Except Failure α} :
      S n → (∀ f, (seen f).cause = f.cause) → (∀ e, Consults w S (k e)) →
        Consults w S fun expr =>
          match expr n with
          | .ok e => k e expr
          | .error f => .error (seen f)

/-- Whatever failure the decoder has at `m`, it is passed on by `F`. -/
def Needs (F : ExprDecoder → Except Failure α) (expr : ExprDecoder) (m : Node) : Prop :=
  ∀ (expr' : ExprDecoder) (f : Failure), (∀ n, n ≠ m → expr' n = expr n) → expr' m = .error f →
    ∃ g, F expr' = .error g ∧ g.cause = f.cause

theorem endless_error_iff {f : Failure} :
    Endless (.error f : Except Failure α) ↔ f.cause = .endless :=
  ⟨fun ⟨_, hg, hcause⟩ => Except.error.inj hg ▸ hcause, fun h => ⟨f, rfl, h⟩⟩

theorem not_endless_ok (a : α) : ¬ Endless (.ok a : Except Failure α) := fun ⟨_, h, _⟩ => nomatch h

theorem Fault.ne_endless {w : Extent} {c : Cause} (h : Fault w c) : c ≠ .endless := by
  rintro rfl
  cases h

namespace Consults

variable {w : Extent} {S : Node → Prop} {F : ExprDecoder → Except Failure α}
  {expr expr' : ExprDecoder}

/-! ### What the decoder decides -/

theorem congr (h : Consults w S F) (heq : ∀ n, S n → expr n = expr' n) : F expr = F expr' := by
  induction h with
  | value => rfl
  | failure => rfl
  | @ask n seen k hn _ _ ih =>
      dsimp only
      rw [heq n hn]
      cases expr' n with
      | error f => rfl
      | ok e => exact ih e

theorem refines (h : Consults w S F) (hexpr : ∀ n, S n → Refines (expr n) (expr' n)) :
    Refines (F expr) (F expr') := by
  induction h with
  | value => exact .inr rfl
  | failure => exact .inr rfl
  | @ask n seen k hn hseen _ ih =>
      dsimp only
      rcases hexpr n hn with ⟨f, hf, hcause⟩ | heq
      · rw [hf]
        exact .inl ⟨_, rfl, (hseen f).trans hcause⟩
      · rw [heq]
        cases expr' n with
        | error f => exact .inr rfl
        | ok e => exact ih e

/-- A computation without end needs a node without end. -/
theorem exists_needed (h : Consults w S F) (expr : ExprDecoder) (hF : Endless (F expr)) :
    ∃ m, S m ∧ Endless (expr m) ∧ Needs F expr m := by
  induction h with
  | value a => exact absurd hF (not_endless_ok a)
  | failure f hf => exact absurd (endless_error_iff.mp hF) hf.ne_endless
  | @ask n seen k hn hseen hk ih =>
      dsimp only at hF
      cases hexpr : expr n with
      | error f =>
          rw [hexpr] at hF
          have hcause := (hseen f).symm.trans (endless_error_iff.mp hF)
          refine ⟨n, hn, ⟨f, hexpr, hcause⟩, fun expr' g _ hg => ⟨seen g, ?_, hseen g⟩⟩
          dsimp only
          rw [hg]
      | ok e =>
          rw [hexpr] at hF
          obtain ⟨m, hm, hend, hneeds⟩ := ih e hF
          refine ⟨m, hm, hend, fun expr' g hoff hg => ?_⟩
          -- the node that was asked for first is another one, for it has an end
          have hne : n ≠ m := by
            rintro rfl
            exact not_endless_ok e (hexpr ▸ hend)
          dsimp only
          rw [hoff n hne, hexpr]
          exact hneeds expr' g hoff hg

/-- What `F` fails with is a fault of its own or one that the decoder has. -/
theorem cause_of_eq_error {C : Cause → Prop} (h : Consults w S F) (expr : ExprDecoder)
    (hfault : ∀ c, Fault w c → C c) (hexpr : ∀ n, S n → ∀ f, expr n = .error f → C f.cause)
    {g : Failure} (hF : F expr = .error g) : C g.cause := by
  induction h with
  | value a => cases hF
  | failure f hf =>
      obtain rfl := Except.error.inj hF
      exact hfault _ hf
  | @ask n seen k hn hseen _ ih =>
      dsimp only at hF
      cases he : expr n with
      | error f =>
          rw [he] at hF
          obtain rfl := Except.error.inj hF
          exact hseen f ▸ hexpr n hn f he
      | ok e =>
          rw [he] at hF
          exact ih e hF

theorem fault_or_endless (h : Consults w S F)
    (hexpr : ∀ n, S n → ∀ f, expr n = .error f → Fault w f.cause ∨ f.cause = .endless)
    {g : Failure} (hF : F expr = .error g) : Fault w g.cause ∨ g.cause = .endless :=
  h.cause_of_eq_error (C := fun c => Fault w c ∨ c = .endless) expr (fun _ hc => .inl hc) hexpr hF

/-- Only nodes in `S` are needed: no other node can decide what the failure is. -/
theorem mem_of_needs (h : Consults w S F) {m : Node} (hm : Needs F expr m) : S m := by
  classical
  by_contra hS
  have hsame (f : Failure) : F (Function.update expr m (.error f)) = F expr :=
    h.congr fun n hn => Function.update_of_ne (fun heq : n = m => hS (heq ▸ hn)) _ _
  have hcause (f : Failure) : ∃ g, F expr = .error g ∧ g.cause = f.cause := by
    rw [← hsame f]
    exact hm _ f (fun n hn => Function.update_of_ne hn _ _) (Function.update_self ..)
  obtain ⟨g, hg, hmalformed⟩ := hcause (.of .malformed)
  obtain ⟨g', hg', hmissing⟩ := hcause (.of .missing)
  obtain rfl := Except.error.inj (hg.symm.trans hg')
  exact absurd (hmalformed.symm.trans hmissing) (by decide)

/-! ### Building computations -/

theorem malformed (what : String) :
    Consults w S fun _ => (Dump.malformed what : Except Failure α) :=
  .failure _ .malformed

theorem asking {n : Node} (hn : S n) : Consults w S fun expr => expr n := by
  have h : Consults w S _ := .ask id hn (fun _ => rfl) fun e => .value e
  convert h using 2 with expr
  cases expr n <;> rfl

theorem bind {G : α → ExprDecoder → Except Failure β} (h : Consults w S F)
    (hG : ∀ a, Consults w S (G a)) : Consults w S fun expr => F expr >>= fun a => G a expr := by
  induction h with
  | value a => exact hG a
  | failure f hf => exact .failure f hf
  | @ask n seen k hn hseen _ ih =>
      have hask : Consults w S _ := .ask seen hn hseen ih
      convert hask using 2 with expr
      dsimp only
      cases expr n <;> rfl

/-- After a computation that asks for nothing, what is known of its value can be used. -/
theorem after {x : Except Failure α} {G : α → ExprDecoder → Except Failure β}
    (h : Consults w S fun _ => x) (hG : ∀ a, x = .ok a → Consults w S (G a)) :
    Consults w S fun expr => x >>= fun a => G a expr := by
  cases hx : x with
  | ok a => exact hG a hx
  | error f =>
      refine .failure f (h.cause_of_eq_error (fun _ => .ok default) (fun _ hc => hc) ?_ hx)
      exact fun _ _ _ hf => nomatch hf

theorem map (g : α → β) (h : Consults w S F) : Consults w S fun expr => (F expr).map g := by
  have hbind := h.bind fun a => (.value (g a) : Consults w S _)
  convert hbind using 2 with expr
  cases F expr <;> rfl

theorem locate (place : String) (h : Consults w S F) :
    Consults w S fun expr => ClientLoom.locate place (F expr) := by
  induction h with
  | value a => exact .value a
  | failure f hf => exact .failure _ (by rwa [Failure.within_cause])
  | @ask n seen k hn hseen _ ih =>
      have hask : Consults w S _ :=
        .ask (fun f => (seen f).within place) hn
          (fun f => (Failure.within_cause place _).trans (hseen f)) ih
      convert hask using 2 with expr
      dsimp only
      cases expr n <;> rfl

theorem mapM {G : β → ExprDecoder → Except Failure α} {xs : List β}
    (h : ∀ x ∈ xs, Consults w S (G x)) : Consults w S fun expr => xs.mapM fun x => G x expr := by
  induction xs with
  | nil => exact .value []
  | cons x xs ih =>
      simp only [List.mapM_cons]
      refine (h x List.mem_cons_self).bind fun y => ?_
      exact (ih fun z hz => h z (List.mem_cons_of_mem _ hz)).bind fun ys => .value (y :: ys)

/-- Two ways to get a value that is used alike. -/
theorem branch {c : Prop} [Decidable c] {F' : ExprDecoder → Except Failure α}
    {G : α → ExprDecoder → Except Failure β} (h : Consults w S F) (h' : Consults w S F')
    (hG : ∀ a, Consults w S (G a)) :
    Consults w S fun expr =>
      if c then F expr >>= fun a => G a expr else F' expr >>= fun a => G a expr := by
  split
  · exact h.bind hG
  · exact h'.bind hG

theorem eachOf {place : Nat → String} {G : β → ExprDecoder → Except Failure α} {xs : List β}
    (h : ∀ x ∈ xs, Consults w S (G x)) :
    Consults w S fun expr => Dump.eachOf place (fun x => G x expr) xs := by
  refine mapM
    (G := fun (p : β × Nat) expr => ClientLoom.locate (place p.2) (G p.1 expr)) fun p hp => ?_
  exact (h p.1 (List.fst_mem_of_mem_zipIdx hp)).locate _

end Consults

/-! ### Computations without expressions -/

section plain

variable {w : Extent} {S : Node → Prop}

theorem consults_pathOf (what text : String) : Consults w S fun _ => pathOf what text := by
  unfold pathOf
  cases Path.parse text with
  | ok p => exact .value p
  | error e => exact .malformed _

theorem consults_typeOf (what text : String) : Consults w S fun _ => typeOf what text := by
  unfold typeOf
  cases Ty.parse text with
  | ok t => exact .value t
  | error e => exact .malformed _

theorem consults_attrsOf (texts : List String) : Consults w S fun _ => attrsOf texts := by
  refine .mapM fun text _ => ?_
  cases Attr.parse text with
  | ok a => exact .value a
  | error e => exact .malformed _

theorem consults_fitting (what : String) (x : Fit α) : Consults w S fun _ => fitting what x := by
  unfold fitting
  cases x.result with
  | ok a => exact .value a
  | error e =>
      cases e with
      | refused => exact .malformed _
      | incomparable k => exact .failure _ (.breakdown _)

theorem of_fitting {Q : α → Prop} {what : String} {x : Fit α} {a : α} (hx : x.Yields Q)
    (h : fitting what x = .ok a) : Q a := by
  unfold fitting Fit.result at h
  cases hrun : x {} with
  | error e =>
      rw [hrun] at h
      cases e <;> cases h
  | ok p =>
      rw [hrun] at h
      dsimp only at h
      split at h
      · next b hb =>
        split at hb
        · cases hb
        · obtain rfl := (Except.ok.inj hb).trans (Except.ok.inj h)
          exact hx _ _ _ hrun
      all_goals cases h

theorem fitting_eq_ok_iff {what : String} {x : Fit α} {a : α} :
    fitting what x = .ok a ↔ x.result = .ok a := by
  unfold fitting
  cases x.result with
  | ok b => exact ⟨fun h => congrArg _ (Except.ok.inj h), fun h => congrArg _ (Except.ok.inj h)⟩
  | error e => cases e <;> exact ⟨fun h => (nomatch h), fun h => (nomatch h)⟩

end plain

/-! ### Statements -/

section parts

variable {w : Extent} {S : Node → Prop}

theorem consults_needed {x : Option Node} (hx : Yaml.Fit.IfAny S x) :
    Consults w S fun expr => needed expr x := by
  cases x with
  | none => exact .malformed _
  | some n => exact .asking (hx n rfl)

theorem consults_optional {x : Option Node} (hx : Yaml.Fit.IfAny S x) :
    Consults w S fun expr => optional expr x := by
  cases x with
  | none => exact .value none
  | some n => exact (Consults.asking (hx n rfl)).map some

theorem consults_bindingOf {b : LetDoc} (hb : Yaml.Fit.IfAny S b.value) :
    Consults w S fun expr => bindingOf expr b := by
  unfold bindingOf
  split
  · exact .malformed _
  · exact .branch (.value none) ((consults_typeOf _ _).map some) fun _ =>
      (consults_optional hb).bind fun _ => .value _

theorem consults_stmtOf {s : StmtDoc} (hs : s.Within S) :
    Consults w S fun expr => stmtOf expr s := by
  unfold stmtOf
  cases hb : s.binding <;> cases he : s.expr <;> cases ht : s.tail
  case some.none.none b => exact consults_bindingOf (hs.binding b hb)
  case none.some.none n => exact (Consults.asking (hs.expr n he)).map _
  case none.none.some n => exact (Consults.asking (hs.tail n ht)).map _
  all_goals exact .malformed _

theorem consults_blockOf {stmts : List StmtDoc} (h : ∀ s ∈ stmts, s.Within S) :
    Consults w S fun expr => blockOf expr stmts :=
  .eachOf fun s hs => consults_stmtOf (h s hs)

theorem consults_argsOf {args : List (Option Node)} (h : ∀ x ∈ args, Yaml.Fit.IfAny S x) :
    Consults w S fun expr => argsOf expr args :=
  .eachOf fun x hx => consults_needed (h x hx)

end parts

/-! ### Expressions -/

section expressions

variable {d : Document} {S : Node → Prop} {v : Node}

theorem consults_partsOf (keys : List String) : Consults .inside S fun _ => partsOf d keys v := by
  unfold partsOf
  split
  · split
    · exact .malformed _
    · exact consults_fitting _ _
  · exact .malformed _

theorem within_of_partsOf {keys : List String} {parts : ExprDoc} (hd : d.Closed S) (hv : S v)
    (h : partsOf d keys v = .ok parts) : parts.Within S := by
  unfold partsOf at h
  split at h
  · split at h
    · cases h
    · exact of_fitting (yields_readExpr hd keys hv) h
  · cases h

/-- What reads the parts of a node and goes on with them. -/
theorem consults_parts {keys : List String} {G : ExprDoc → ExprDecoder → Except Failure α}
    (hd : d.Closed S) (hv : S v)
    (hG : ∀ parts : ExprDoc, parts.Within S → Consults .inside S (G parts)) :
    Consults .inside S fun expr => partsOf d keys v >>= fun parts => G parts expr :=
  (consults_partsOf keys).after fun parts h => hG parts (within_of_partsOf hd hv h)

theorem consults_fieldOf (hd : d.Closed S) (hv : S v) :
    Consults .inside S fun expr => fieldOf d expr v :=
  consults_parts hd hv fun _ hparts => (consults_needed hparts.base).bind fun _ => .value _

theorem consults_callOf (hd : d.Closed S) (hv : S v) :
    Consults .inside S fun expr => callOf d expr v :=
  consults_parts hd hv fun _ hparts =>
    (consults_needed hparts.callee).bind fun _ =>
      (consults_argsOf hparts.args).bind fun _ => .value _

theorem consults_methodOf (hd : d.Closed S) (hv : S v) :
    Consults .inside S fun expr => methodOf d expr v :=
  consults_parts hd hv fun _ hparts =>
    (consults_needed hparts.base).bind fun _ =>
      (consults_argsOf hparts.args).bind fun _ => .value _

theorem consults_macroOf (hd : d.Closed S) (hv : S v) :
    Consults .inside S fun expr => macroOf d expr v :=
  consults_parts hd hv fun _ hparts =>
    (consults_pathOf _ _).bind fun _ =>
      (consults_argsOf hparts.args).bind fun _ => .value _

theorem consults_constructOf (hd : d.Closed S) (hv : S v) :
    Consults .inside S fun expr => constructOf d expr v :=
  consults_parts hd hv fun _ hparts =>
    (consults_pathOf _ _).bind fun _ =>
      (Consults.mapM fun i hi => (consults_optional (hparts.inits i hi)).map _).bind fun _ =>
        (consults_optional hparts.base).bind fun _ => .value _

theorem consults_letCondOf (hd : d.Closed S) (hv : S v) :
    Consults .inside S fun expr => letCondOf d expr v :=
  consults_parts hd hv fun _ hparts => (consults_needed hparts.value).bind fun _ => .value _

theorem consults_condOf (hd : d.Closed S) (hv : S v) :
    Consults .inside S fun expr => condOf d expr v := by
  refine consults_parts hd hv fun parts hparts => ?_
  refine (consults_needed hparts.test).bind fun test => ?_
  refine (consults_blockOf hparts.yes).bind fun yes => ?_
  cases hno : parts.no with
  | none => exact .value _
  | some stmts => exact (consults_blockOf (hparts.no stmts hno)).bind fun _ => .value _

theorem consults_nestedOf (hd : d.Closed S) (hv : S v) :
    Consults .inside S fun expr => nestedOf d expr v := by
  refine (consults_fitting _ _).after fun stmts h => ?_
  exact (consults_blockOf (of_fitting (yields_readStmts hd hv) h)).bind fun _ => .value _

theorem consults_kindOf (hd : d.Closed S) (key : String) (hv : S v) :
    Consults .inside S fun expr => kindOf d expr key v := by
  unfold kindOf
  split
  · exact (consults_pathOf _ _).map _
  · exact .value _
  · exact .value _
  · exact consults_fieldOf hd hv
  · exact consults_callOf hd hv
  · exact consults_methodOf hd hv
  · exact consults_macroOf hd hv
  · exact consults_constructOf hd hv
  · exact (Consults.asking hv).map _
  · exact (Consults.asking hv).map _
  · exact (Consults.asking hv).map _
  · exact consults_letCondOf hd hv
  · exact consults_condOf hd hv
  · exact consults_nestedOf hd hv
  · exact .malformed _

/-- An expression consults for nodes that its parts lead to. -/
theorem consults_exprStep (hd : d.Closed S) {n : Node} (hn : ∀ m, d.Part n m → S m) :
    Consults .inside S fun expr => exprStep d expr n := by
  unfold exprStep
  split
  · next line tag k v =>
    exact (consults_kindOf hd _ (hn v (.value (List.mem_singleton_self (k, v))))).locate _
  · exact .malformed _

end expressions

/-! ### Declarations -/

section declarations

variable {w : Extent} {S : Node → Prop}

theorem consults_fieldDocOf (f : FieldDoc) : Consults w S fun _ => fieldDocOf f := by
  unfold fieldDocOf
  split
  · exact .malformed _
  · exact (consults_typeOf _ _).bind fun _ =>
      ((consults_attrsOf _).locate _).bind fun _ => .value _

theorem consults_variantOf (v : VariantDoc) : Consults w S fun _ => variantOf v :=
  (Consults.mapM fun _ _ => consults_typeOf _ _).bind fun _ =>
    ((consults_attrsOf _).locate _).bind fun _ => .value _

theorem consults_receiverOf (text : String) : Consults w S fun _ => receiverOf text := by
  unfold receiverOf
  split
  all_goals first | exact .value _ | exact .malformed _

theorem consults_paramOf (fn : String) (p : ParamDoc) (i : Nat) :
    Consults w S fun _ => paramOf fn p i := by
  unfold paramOf
  refine (consults_typeOf _ _).bind fun ty => ?_
  split
  · exact .value _
  · split
    · exact .malformed _
    · exact .value _

theorem consults_funcOf {f : DeclDoc} (hf : f.BodyWithin S) :
    Consults w S fun expr => funcOf expr f := by
  unfold funcOf
  refine ((consults_attrsOf _).locate _).bind fun attrs => ?_
  dsimp only
  refine .branch (.value none) (((consults_receiverOf _).map some).locate _) fun receiver => ?_
  refine (Consults.mapM fun p _ => consults_paramOf _ p.1 p.2).bind fun params => ?_
  refine .branch (.value none) ((consults_typeOf _ _).map some) fun ret => ?_
  cases hbody : f.body with
  | none => exact .value _
  | some stmts =>
      exact (((consults_blockOf (hf stmts hbody)).map some).locate _).bind fun _ => .value _

theorem consults_memberOf {f : DeclDoc} (hf : f.BodyWithin S) (self : String) (i : Nat) :
    Consults w S fun expr => memberOf expr self f i := by
  unfold memberOf
  split
  · exact .malformed _
  · exact (consults_funcOf hf).locate _

theorem consults_kindDeclOf {f : DeclDoc} (hf : f.Within S) (attrs : List Attr) :
    Consults w S fun expr => kindDeclOf expr f attrs := by
  unfold kindDeclOf
  split
  · exact (consults_pathOf _ _).bind fun _ => .value _
  · split
    · exact ((Consults.mapM fun x _ => consults_fieldDocOf x).locate _).bind fun _ => .value _
    · split
      · exact ((Consults.mapM fun x _ => consults_variantOf x).locate _).bind fun _ => .value _
      · split
        · refine .branch (.value none) ((consults_pathOf _ _).map some) fun trait => ?_
          refine (Consults.mapM fun p hp => ?_).bind fun fns => .value _
          exact consults_memberOf (hf.fns p.1 (List.fst_mem_of_mem_zipIdx hp)) _ p.2
        · split
          · exact (consults_funcOf hf.body).map _
          · exact .value _

theorem consults_declOf_of_mod {f : DeclDoc} (hf : f.Within S) (hmod : f.mod = "") :
    Consults w S fun expr => declOf expr f := by
  unfold declOf
  simp only [hmod, ne_eq, not_true_eq_false, if_false]
  split
  · exact .malformed _
  · exact (consults_attrsOf _).bind fun attrs => consults_kindDeclOf hf attrs

theorem consults_declOf {f : DeclDoc} (hf : f.Within S) :
    Consults .entries S fun expr => declOf expr f := by
  by_cases hmod : f.mod = ""
  · exact consults_declOf_of_mod hf hmod
  · unfold declOf
    simp only [ne_eq, if_pos hmod]
    exact .failure _ .unsupported

theorem consults_addDecl (m : Module) {f : DeclDoc} (hf : f.Within S) :
    Consults .entries S fun expr => addDecl expr m f := by
  refine (consults_declOf hf).bind fun decl => ?_
  rcases Module.push_cases m decl with ⟨ds, -, hpush⟩ | ⟨g, hpush, hcause⟩
  · rw [hpush]
    exact .value _
  · rw [hpush]
    exact .failure g (hcause ▸ .kindClash)

theorem consults_addDecls (place : String) (m : Module) (i : Nat) {fs : List DeclDoc}
    (hfs : ∀ f ∈ fs, f.Within S) : Consults .entries S fun expr => addDecls expr place m i fs := by
  induction fs generalizing m i with
  | nil => exact .value m
  | cons f fs ih =>
      refine ((consults_addDecl m (hfs f List.mem_cons_self)).locate _).bind fun m' => ?_
      exact ih m' (i + 1) fun g hg => hfs g (List.mem_cons_of_mem _ hg)

/-- A module consults for the nodes of its document. -/
theorem consults_moduleOf (name : String) {f : FileDoc} (hf : f.Within S) :
    Consults .entries S fun expr => moduleOf expr name f :=
  ((consults_attrsOf _).locate _).bind fun _ => consults_addDecls _ _ 0 hf

end declarations

end ClientLoom.Dump
