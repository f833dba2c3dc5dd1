import ClientLoom.Proofs.Dump.Records
import ClientLoom.Proofs.Module.Reachable

/-! # What an accepted dump decodes

Decoding stops at the first expression that is at fault.  So of whatever is decoded, all nodes that
the schema kept for expressions are decoded as such: of a statement (`within_of_stmtOf`), of the
parts of an expression (`parts_of_kindOf`) and of a function (`bodyWithin_of_funcOf`).  A
declaration that is no function keeps its body undecoded (`decodedIn_of_declOf`). -/

namespace ClientLoom.Dump

open Yaml (Node Document Fit)
open Yaml.Fit (IfAny ifAny_none ifAny_some)

variable {α β : Type} {S : Node → Prop} {expr : ExprDecoder}

theorem exists_mem_zipIdx {x : α} {xs : List α} (hx : x ∈ xs) : ∃ i, (x, i) ∈ xs.zipIdx := by
  obtain ⟨i, hi, rfl⟩ := List.mem_iff_getElem.mp hx
  exact ⟨i, List.mk_mem_zipIdx_iff_getElem?.mpr (List.getElem?_eq_getElem hi)⟩

theorem forall_of_eachOf {place : Nat → String} {f : α → Except Failure β} {xs : List α}
    {ys : List β} (h : eachOf place f xs = .ok ys) {x : α} (hx : x ∈ xs) : ∃ y, f x = .ok y := by
  obtain ⟨i, hi⟩ := exists_mem_zipIdx hx
  obtain ⟨y, -, hy⟩ := exists_mem_of_mapM h hi
  exact ⟨y, locate_eq_ok_iff.mp hy⟩

/-! ### Statements -/

section statements

variable (hS : ∀ n e, expr n = .ok e → S n)

include hS

theorem exists_of_needed {x : Option Node} {e : Expr} (h : needed expr x = .ok e) :
    ∃ n, x = some n ∧ S n := by
  cases x with
  | none => cases h
  | some n => exact ⟨n, rfl, hS n e h⟩

theorem ifAny_of_needed {x : Option Node} {e : Expr} (h : needed expr x = .ok e) : IfAny S x := by
  obtain ⟨n, rfl, hn⟩ := exists_of_needed hS h
  exact ifAny_some hn

theorem ifAny_of_optional {x : Option Node} {e : Option Expr} (h : optional expr x = .ok e) :
    IfAny S x := by
  cases x with
  | none => exact ifAny_none
  | some n =>
      obtain ⟨e, he, -⟩ := map_eq_ok_iff.mp h
      exact ifAny_some (hS n e he)

theorem ifAny_of_bindingOf {b : LetDoc} {x : Stmt} (h : bindingOf expr b = .ok x) :
    IfAny S b.value := by
  have hvalue : ∀ ty, (do let value ← optional expr b.value; pure (Stmt.bind b.pat ty value)) =
      (.ok x : Except Failure Stmt) → IfAny S b.value := by
    intro ty h
    obtain ⟨e, he, -⟩ := bind_eq_ok_iff.mp h
    exact ifAny_of_optional hS he
  unfold bindingOf at h
  split at h
  · cases h
  · split at h
    · exact hvalue _ h
    · obtain ⟨ty, -, h⟩ := bind_eq_ok_iff.mp h
      exact hvalue _ h

theorem within_of_stmtOf {s : StmtDoc} {x : Stmt} (h : stmtOf expr s = .ok x) : s.Within S := by
  unfold stmtOf at h
  split at h
  · next b hb he ht =>
    exact
      { binding := fun b' hb' => by
          obtain rfl := Option.some.inj (hb.symm.trans hb')
          exact ifAny_of_bindingOf hS h
        expr := he ▸ ifAny_none
        tail := ht ▸ ifAny_none }
  · next n hb he ht =>
    obtain ⟨e, hn, -⟩ := map_eq_ok_iff.mp h
    exact
      { binding := by simp [hb]
        expr := he ▸ ifAny_some (hS n e hn)
        tail := ht ▸ ifAny_none }
  · next n hb he ht =>
    obtain ⟨e, hn, -⟩ := map_eq_ok_iff.mp h
    exact
      { binding := by simp [hb]
        expr := he ▸ ifAny_none
        tail := ht ▸ ifAny_some (hS n e hn) }
  · cases h

theorem within_of_blockOf {stmts : List StmtDoc} {x : Block} (h : blockOf expr stmts = .ok x) :
    ∀ s ∈ stmts, s.Within S := by
  intro s hs
  obtain ⟨y, hy⟩ := forall_of_eachOf h hs
  exact within_of_stmtOf hS hy

theorem exists_of_argsOf {args : List (Option Node)} {es : List Expr}
    (h : argsOf expr args = .ok es) : ∀ x ∈ args, ∃ n, x = some n ∧ S n := by
  intro x hx
  obtain ⟨e, he⟩ := forall_of_eachOf h hx
  exact exists_of_needed hS he

end statements

/-! ### Expressions -/

/-- The keys of the parts of an expression, for the kinds that have parts with names. -/
def partKeys? : String → Option (List String)
  | "field" => some ["of", "name"]
  | "call" => some ["fn", "args"]
  | "method" => some ["of", "name", "args"]
  | "macro" => some ["name", "args"]
  | "struct" => some ["path", "fields", "base"]
  | "letcond" => some ["pat", "value"]
  | "if" => some ["cond", "then", "else"]
  | _ => none

/-- The kinds of expressions. -/
def exprKinds : List String :=
  ["path", "lit", "raw", "field", "call", "method", "macro", "struct", "ref", "refmut", "try",
    "letcond", "if", "block"]

/-- The nodes that the part called `name` keeps are in `S`. -/
def ExprDoc.PartIn (S : Node → Prop) (e : ExprDoc) : String → Prop
  | "of" => IfAny S e.base
  | "base" => IfAny S e.base
  | "fn" => IfAny S e.callee
  | "value" => IfAny S e.value
  | "cond" => IfAny S e.test
  | "args" => ∀ x ∈ e.args, ∃ n, x = some n ∧ S n
  | "fields" => ∀ i ∈ e.inits, IfAny S i.value
  | "then" => ∀ s ∈ e.yes, s.Within S
  | "else" => IfAny (fun stmts => ∀ s ∈ stmts, s.Within S) e.no
  | _ => True

section expressions

variable {d : Document} {v : Node} (hS : ∀ n e, expr n = .ok e → S n)

theorem mem_exprKinds_of_kindOf {key : String} {e : Expr} (h : kindOf d expr key v = .ok e) :
    key ∈ exprKinds := by
  unfold kindOf at h
  split at h
  all_goals first | decide | cases h

include hS

theorem parts_of_fieldOf {e : Expr} (h : fieldOf d expr v = .ok e) :
    ∃ parts, partsOf d ["of", "name"] v = .ok parts ∧
      ∀ name ∈ ["of", "name"], parts.PartIn S name := by
  obtain ⟨parts, hparts, h⟩ := bind_eq_ok_iff.mp h
  obtain ⟨base, hbase, -⟩ := bind_eq_ok_iff.mp h
  refine ⟨parts, hparts, ?_⟩
  simp only [List.forall_mem_cons]
  exact ⟨ifAny_of_needed hS hbase, trivial, List.forall_mem_nil _⟩

theorem parts_of_callOf {e : Expr} (h : callOf d expr v = .ok e) :
    ∃ parts, partsOf d ["fn", "args"] v = .ok parts ∧
      ∀ name ∈ ["fn", "args"], parts.PartIn S name := by
  obtain ⟨parts, hparts, h⟩ := bind_eq_ok_iff.mp h
  obtain ⟨callee, hcallee, h⟩ := bind_eq_ok_iff.mp h
  obtain ⟨args, hargs, -⟩ := bind_eq_ok_iff.mp h
  refine ⟨parts, hparts, ?_⟩
  simp only [List.forall_mem_cons]
  exact ⟨ifAny_of_needed hS hcallee, exists_of_argsOf hS hargs, List.forall_mem_nil _⟩

theorem parts_of_methodOf {e : Expr} (h : methodOf d expr v = .ok e) :
    ∃ parts, partsOf d ["of", "name", "args"] v = .ok parts ∧
      ∀ name ∈ ["of", "name", "args"], parts.PartIn S name := by
  obtain ⟨parts, hparts, h⟩ := bind_eq_ok_iff.mp h
  obtain ⟨base, hbase, h⟩ := bind_eq_ok_iff.mp h
  obtain ⟨args, hargs, -⟩ := bind_eq_ok_iff.mp h
  refine ⟨parts, hparts, ?_⟩
  simp only [List.forall_mem_cons]
  exact ⟨ifAny_of_needed hS hbase, trivial, exists_of_argsOf hS hargs, List.forall_mem_nil _⟩

theorem parts_of_macroOf {e : Expr} (h : macroOf d expr v = .ok e) :
    ∃ parts, partsOf d ["name", "args"] v = .ok parts ∧
      ∀ name ∈ ["name", "args"], parts.PartIn S name := by
  obtain ⟨parts, hparts, h⟩ := bind_eq_ok_iff.mp h
  obtain ⟨p, -, h⟩ := bind_eq_ok_iff.mp h
  obtain ⟨args, hargs, -⟩ := bind_eq_ok_iff.mp h
  refine ⟨parts, hparts, ?_⟩
  simp only [List.forall_mem_cons]
  exact ⟨trivial, exists_of_argsOf hS hargs, List.forall_mem_nil _⟩

theorem parts_of_constructOf {e : Expr} (h : constructOf d expr v = .ok e) :
    ∃ parts, partsOf d ["path", "fields", "base"] v = .ok parts ∧
      ∀ name ∈ ["path", "fields", "base"], parts.PartIn S name := by
  obtain ⟨parts, hparts, h⟩ := bind_eq_ok_iff.mp h
  obtain ⟨p, -, h⟩ := bind_eq_ok_iff.mp h
  obtain ⟨inits, hinits, h⟩ := bind_eq_ok_iff.mp h
  obtain ⟨base, hbase, -⟩ := bind_eq_ok_iff.mp h
  have hvalues : ∀ i ∈ parts.inits, IfAny S i.value := by
    intro i hi
    obtain ⟨f, -, hf⟩ := exists_mem_of_mapM hinits hi
    obtain ⟨x, hx, -⟩ := map_eq_ok_iff.mp hf
    exact ifAny_of_optional hS hx
  refine ⟨parts, hparts, ?_⟩
  simp only [List.forall_mem_cons]
  exact ⟨trivial, hvalues, ifAny_of_optional hS hbase, List.forall_mem_nil _⟩

theorem parts_of_letCondOf {e : Expr} (h : letCondOf d expr v = .ok e) :
    ∃ parts, partsOf d ["pat", "value"] v = .ok parts ∧
      ∀ name ∈ ["pat", "value"], parts.PartIn S name := by
  obtain ⟨parts, hparts, h⟩ := bind_eq_ok_iff.mp h
  obtain ⟨value, hvalue, -⟩ := bind_eq_ok_iff.mp h
  refine ⟨parts, hparts, ?_⟩
  simp only [List.forall_mem_cons]
  exact ⟨trivial, ifAny_of_needed hS hvalue, List.forall_mem_nil _⟩

theorem parts_of_condOf {e : Expr} (h : condOf d expr v = .ok e) :
    ∃ parts, partsOf d ["cond", "then", "else"] v = .ok parts ∧
      ∀ name ∈ ["cond", "then", "else"], parts.PartIn S name := by
  obtain ⟨parts, hparts, h⟩ := bind_eq_ok_iff.mp h
  obtain ⟨test, htest, h⟩ := bind_eq_ok_iff.mp h
  obtain ⟨yes, hyes, h⟩ := bind_eq_ok_iff.mp h
  have hno : IfAny (fun stmts => ∀ s ∈ stmts, s.Within S) parts.no := by
    intro stmts hstmts
    rw [Option.mem_def.mp hstmts] at h
    obtain ⟨no, hno, -⟩ := bind_eq_ok_iff.mp h
    exact within_of_blockOf hS hno
  refine ⟨parts, hparts, ?_⟩
  simp only [List.forall_mem_cons]
  exact ⟨ifAny_of_needed hS htest, within_of_blockOf hS hyes, hno, List.forall_mem_nil _⟩

/-- Of an accepted expression of a kind with parts, the parts are read, and the nodes that they keep
are decoded. -/
theorem parts_of_kindOf {key : String} {keys : List String} {e : Expr}
    (hkeys : partKeys? key = some keys) (h : kindOf d expr key v = .ok e) :
    ∃ parts, partsOf d keys v = .ok parts ∧ ∀ name ∈ keys, parts.PartIn S name := by
  unfold partKeys? at hkeys
  split at hkeys
  all_goals first | cases hkeys; done | obtain rfl := Option.some.inj hkeys
  · exact parts_of_fieldOf hS h
  · exact parts_of_callOf hS h
  · exact parts_of_methodOf hS h
  · exact parts_of_macroOf hS h
  · exact parts_of_constructOf hS h
  · exact parts_of_letCondOf hS h
  · exact parts_of_condOf hS h

theorem within_of_nestedOf {e : Expr} (h : nestedOf d expr v = .ok e) :
    ∃ stmts, fitting "block: yaml" (readStmts d v) = .ok stmts ∧ ∀ s ∈ stmts, s.Within S := by
  obtain ⟨stmts, hstmts, h⟩ := bind_eq_ok_iff.mp h
  obtain ⟨block, hblock, -⟩ := bind_eq_ok_iff.mp h
  exact ⟨stmts, hstmts, within_of_blockOf hS hblock⟩

end expressions

/-! ### Declarations -/

/-- How far a declaration is decoded. -/
inductive DeclUse where
  /-- one of the declarations of the document -/
  | top
  /-- a function in an impl block of the document -/
  | member
  /-- one that no declaration of its kind asks for -/
  | kept
  deriving DecidableEq, Repr

/-- The nodes that are decoded of a declaration are in `S`. -/
def DeclDoc.DecodedIn (S : Node → Prop) (f : DeclDoc) : DeclUse → Prop
  | .top => (f.fn ≠ "" → f.BodyWithin S) ∧ (f.impl ≠ "" → ∀ g ∈ f.fns, g.BodyWithin S)
  | .member => f.BodyWithin S
  | .kept => True

/-- A declaration of one kind that has a name as a function or an impl block is nothing else. -/
theorem DeclDoc.of_kinds_fn {f : DeclDoc} (h : f.kinds.length = 1) (hfn : f.fn ≠ "") :
    f.use = "" ∧ f.struct = "" ∧ f.enum = "" ∧ f.impl = "" := by
  unfold kinds at h
  by_cases huse : f.use = "" <;> by_cases hstruct : f.struct = "" <;>
    by_cases henum : f.enum = "" <;> by_cases himpl : f.impl = "" <;>
    simp_all

theorem DeclDoc.of_kinds_impl {f : DeclDoc} (h : f.kinds.length = 1) (himpl : f.impl ≠ "") :
    f.use = "" ∧ f.struct = "" ∧ f.enum = "" := by
  unfold kinds at h
  by_cases huse : f.use = "" <;> by_cases hstruct : f.struct = "" <;>
    by_cases henum : f.enum = "" <;> simp_all

/-- A decoded declaration has one kind, and it is decoded as one of that kind. -/
theorem kind_of_declOf {f : DeclDoc} {x : Decl} (h : declOf expr f = .ok x) :
    f.mod = "" ∧ f.kinds.length = 1 ∧ ∃ attrs, kindDeclOf expr f attrs = .ok x := by
  unfold declOf at h
  split at h
  · cases h
  · next hmod =>
    split at h
    · cases h
    · next hkinds =>
      obtain ⟨attrs, -, h⟩ := bind_eq_ok_iff.mp h
      exact ⟨not_not.mp hmod, not_not.mp hkinds, attrs, h⟩

theorem exists_funcOf_of_declOf {f : DeclDoc} {x : Decl} (h : declOf expr f = .ok x)
    (hfn : f.fn ≠ "") : ∃ g, funcOf expr f = .ok g := by
  obtain ⟨-, hkinds, attrs, h⟩ := kind_of_declOf h
  obtain ⟨huse, hstruct, henum, himpl⟩ := DeclDoc.of_kinds_fn hkinds hfn
  unfold kindDeclOf at h
  simp only [huse, hstruct, henum, himpl, ne_eq, not_true_eq_false, if_false, if_pos hfn] at h
  obtain ⟨g, hg, -⟩ := map_eq_ok_iff.mp h
  exact ⟨g, hg⟩

theorem exists_memberOf_of_declOf {f : DeclDoc} {x : Decl} (h : declOf expr f = .ok x)
    (himpl : f.impl ≠ "") {g : DeclDoc} (hg : g ∈ f.fns) :
    ∃ i y, memberOf expr f.impl g i = .ok y := by
  obtain ⟨-, hkinds, attrs, h⟩ := kind_of_declOf h
  obtain ⟨huse, hstruct, henum⟩ := DeclDoc.of_kinds_impl hkinds himpl
  unfold kindDeclOf at h
  simp only [huse, hstruct, henum, ne_eq, not_true_eq_false, if_false, if_pos himpl] at h
  have hfns {k : List Func → Except Failure Decl}
      (h : (f.fns.zipIdx.mapM (fun e => memberOf expr f.impl e.1 e.2) >>= k) = .ok x) :
      ∃ i y, memberOf expr f.impl g i = .ok y := by
    obtain ⟨fns, hfns, -⟩ := bind_eq_ok_iff.mp h
    obtain ⟨i, hi⟩ := exists_mem_zipIdx hg
    obtain ⟨y, -, hy⟩ := exists_mem_of_mapM hfns hi
    exact ⟨i, y, hy⟩
  split at h <;>
    · obtain ⟨trait, -, h⟩ := bind_eq_ok_iff.mp h
      exact hfns h

theorem exists_declOf_of_addDecls {place : String} {m m' : Module} {i : Nat} {fs : List DeclDoc}
    (h : addDecls expr place m i fs = .ok m') {f : DeclDoc} (hf : f ∈ fs) :
    ∃ x, declOf expr f = .ok x := by
  obtain ⟨items, ds, hitems, -, -⟩ := Module.addDecls_eq_ok_iff.mp h
  obtain ⟨x, -, hx⟩ := exists_mem_of_mapM hitems hf
  exact ⟨x, hx⟩

section declarations

variable (hS : ∀ n e, expr n = .ok e → S n)

include hS

theorem bodyWithin_of_funcOf {f : DeclDoc} {x : Func} (h : funcOf expr f = .ok x) :
    f.BodyWithin S := by
  intro stmts hstmts
  unfold funcOf at h
  obtain ⟨attrs, -, h⟩ := bind_eq_ok_iff.mp h
  rw [Option.mem_def.mp hstmts] at h
  -- whatever the receiver and the result are, the body comes last
  have hbody {k : Option Block → Except Failure Func} {place : String}
      (h : (locate place ((blockOf expr stmts).map some) >>= k) = .ok x) :
      ∀ s ∈ stmts, s.Within S := by
    obtain ⟨block, hblock, -⟩ := bind_eq_ok_iff.mp h
    obtain ⟨stmts', hstmts', -⟩ := map_eq_ok_iff.mp (locate_eq_ok_iff.mp hblock)
    exact within_of_blockOf hS hstmts'
  dsimp only at h
  split at h <;>
    · obtain ⟨receiver, -, h⟩ := bind_eq_ok_iff.mp h
      obtain ⟨params, -, h⟩ := bind_eq_ok_iff.mp h
      split at h <;>
        · obtain ⟨ret, -, h⟩ := bind_eq_ok_iff.mp h
          exact hbody h

theorem bodyWithin_of_memberOf {self : String} {f : DeclDoc} {i : Nat} {x : Func}
    (h : memberOf expr self f i = .ok x) : f.BodyWithin S := by
  unfold memberOf at h
  split at h
  · cases h
  · exact bodyWithin_of_funcOf hS (locate_eq_ok_iff.mp h)

theorem decodedIn_of_declOf {f : DeclDoc} {x : Decl} (h : declOf expr f = .ok x) :
    f.DecodedIn S .top := by
  constructor
  · intro hfn
    obtain ⟨g, hg⟩ := exists_funcOf_of_declOf h hfn
    exact bodyWithin_of_funcOf hS hg
  · intro himpl g hg
    obtain ⟨i, y, hy⟩ := exists_memberOf_of_declOf h himpl hg
    exact bodyWithin_of_memberOf hS hy

theorem decodedIn_of_addDecls {place : String} {m m' : Module} {i : Nat} {fs : List DeclDoc}
    (h : addDecls expr place m i fs = .ok m') : ∀ f ∈ fs, f.DecodedIn S .top := by
  intro f hf
  obtain ⟨x, hx⟩ := exists_declOf_of_addDecls h hf
  exact decodedIn_of_declOf hS hx

theorem decodedIn_of_moduleOf {name : String} {f : FileDoc} {m : Module}
    (h : moduleOf expr name f = .ok m) : ∀ x ∈ f.decls, x.DecodedIn S .top := by
  obtain ⟨attrs, -, h⟩ := bind_eq_ok_iff.mp h
  exact decodedIn_of_addDecls hS h

end declarations

end ClientLoom.Dump
