import ClientLoom.Proofs.Dump.Consulting
import ClientLoom.Proofs.Dump.Strictness

/-! # Kinds of declarations

One record holds the keys of all kinds of declarations.  Which kind an entry is of is decided on two
ways.  An entry of the document must have exactly one of the keys that name a kind, and no nested
module (`oneKind_of_declOf`).  An entry in an impl block must have a name as a function, and that is
all: whatever it says of other kinds, and of nested modules, is not looked at
(`moduleOf_plainMembers`).

Main statement: a dump is accepted exactly when its entries have one kind each, the entries in impl
blocks have names as functions, and it is accepted without what those entries say of other kinds
(`decode_eq_ok_iff_kinds`).  So an entry in an impl block may have two kinds
(`two_kinds_accepted`). -/

namespace ClientLoom.Dump

open Yaml (Document Fit)

variable {expr : ExprDecoder} {name text place : String} {m m' : Module}

/-! ### Entries -/

/-- The entry has exactly one kind and is no nested module. -/
def DeclDoc.OneKind (e : DeclDoc) : Prop := e.mod = "" ∧ e.kinds.length = 1

instance (e : DeclDoc) : Decidable e.OneKind := inferInstanceAs (Decidable (_ ∧ _))

/-- Every entry in an impl block has a name as a function. -/
def DeclDoc.MembersNamed (e : DeclDoc) : Prop := e.impl ≠ "" → ∀ g ∈ e.fns, g.fn ≠ ""

/-- An entry in an impl block, without what it says of kinds other than functions. -/
def DeclDoc.asMember (g : DeclDoc) : DeclDoc :=
  { g with use := "", struct := "", enum := "", impl := "", verbatim := "", mod := "" }

/-- The entry, with nothing but functions in it. -/
def DeclDoc.plainMembers (e : DeclDoc) : DeclDoc := { e with fns := e.fns.map DeclDoc.asMember }

/-- The document, with nothing but functions in its impl blocks. -/
def FileDoc.plainMembers (f : FileDoc) : FileDoc :=
  { f with decls := f.decls.map DeclDoc.plainMembers }

theorem oneKind_asMember {g : DeclDoc} (h : g.fn ≠ "") : g.asMember.OneKind := by
  refine ⟨rfl, ?_⟩
  simp [DeclDoc.kinds, DeclDoc.asMember, h]

/-! ### What is not looked at -/

theorem memberOf_asMember (self : String) (g : DeclDoc) (i : Nat) :
    memberOf expr self g.asMember i = memberOf expr self g i := rfl

theorem declOf_plainMembers (e : DeclDoc) : declOf expr e.plainMembers = declOf expr e := by
  have hfns (self : String) :
      (e.fns.map DeclDoc.asMember).zipIdx.mapM (fun p => memberOf expr self p.1 p.2) =
        e.fns.zipIdx.mapM fun p => memberOf expr self p.1 p.2 := by
    rw [List.zipIdx_map, List.mapM_map]
    exact mapM_congr_left fun x _ => memberOf_asMember self x.1 x.2
  have hkind (attrs : List Attr) :
      kindDeclOf expr e.plainMembers attrs = kindDeclOf expr e attrs := by
    unfold kindDeclOf
    simp only [DeclDoc.plainMembers, hfns]
    rfl
  unfold declOf
  simp only [hkind]
  rfl

theorem addDecls_plainMembers (place : String) (m : Module) (i : Nat) (es : List DeclDoc) :
    addDecls expr place m i (es.map DeclDoc.plainMembers) = addDecls expr place m i es := by
  induction es generalizing m i with
  | nil => rfl
  | cons e es ih =>
      have hfirst : addDecl expr m e.plainMembers = addDecl expr m e := by
        unfold addDecl
        rw [declOf_plainMembers]
      rw [List.map_cons, addDecls, addDecls, hfirst]
      simp only [ih]

/-- Of the entries in impl blocks only what they say of functions is looked at. -/
theorem moduleOf_plainMembers (name : String) (f : FileDoc) :
    moduleOf expr name f.plainMembers = moduleOf expr name f := by
  unfold moduleOf
  simp only [FileDoc.plainMembers, addDecls_plainMembers]
  rfl

/-! ### What is required -/

theorem oneKind_of_declOf {e : DeclDoc} {x : Decl} (h : declOf expr e = .ok x) :
    e.OneKind ∧ e.MembersNamed := by
  obtain ⟨hmod, hkinds, -⟩ := kind_of_declOf h
  refine ⟨⟨hmod, hkinds⟩, fun himpl g hg hfn => ?_⟩
  obtain ⟨i, y, hy⟩ := exists_memberOf_of_declOf h himpl hg
  unfold memberOf at hy
  rw [if_pos hfn] at hy
  cases hy

theorem oneKind_of_addDecls {i : Nat} {es : List DeclDoc}
    (h : addDecls expr place m i es = .ok m') : ∀ e ∈ es, e.OneKind ∧ e.MembersNamed := by
  intro e he
  obtain ⟨x, hx⟩ := exists_declOf_of_addDecls h he
  exact oneKind_of_declOf hx

theorem oneKind_of_moduleOf {f : FileDoc} (h : moduleOf expr name f = .ok m) :
    ∀ e ∈ f.decls, e.OneKind ∧ e.MembersNamed := by
  obtain ⟨attrs, -, h⟩ := bind_eq_ok_iff.mp h
  exact oneKind_of_addDecls h

/-! ### Accepted dumps -/

theorem decode_eq_ok_iff :
    decode name text = .ok m ↔ ∃ d f, Document.parse? text = some d ∧
      (readFile d).result = .ok f ∧ moduleOf (exprWithin d d.bound) name f = .ok m := by
  unfold decode
  cases hd : Document.parse? text with
  | none => exact ⟨fun h => (nomatch h), fun ⟨_, _, h, _⟩ => (nomatch h)⟩
  | some d =>
      simp only [decodeDocument, decodeWithin, bind_eq_ok_iff, fitting_eq_ok_iff,
        Option.some.injEq, exists_and_left, exists_eq_left']

/-- A dump is accepted exactly when each of its entries has one kind and is no nested module, each
entry in an impl block has a name as a function, and it is accepted when those entries have no
other kind and are no nested modules either.  Whether they are is not looked at. -/
theorem decode_eq_ok_iff_kinds :
    decode name text = .ok m ↔ ∃ d f, Document.parse? text = some d ∧
      (readFile d).result = .ok f ∧ (∀ e ∈ f.decls, e.OneKind ∧ e.MembersNamed) ∧
      (∀ e ∈ f.plainMembers.decls, e.impl ≠ "" → ∀ g ∈ e.fns, g.OneKind) ∧
      moduleOf (exprWithin d d.bound) name f.plainMembers = .ok m := by
  rw [decode_eq_ok_iff]
  refine exists_congr fun d => exists_congr fun f => and_congr_right fun _ =>
    and_congr_right fun _ => ?_
  rw [moduleOf_plainMembers]
  refine ⟨fun h => ?_, fun h => h.2.2⟩
  have hkinds := oneKind_of_moduleOf h
  refine ⟨hkinds, fun e he himpl g hg => ?_, h⟩
  obtain ⟨e₀, he₀, rfl⟩ := List.mem_map.mp he
  obtain ⟨g₀, hg₀, rfl⟩ := List.mem_map.mp hg
  exact oneKind_asMember ((hkinds e₀ he₀).2 himpl g₀ hg₀)

/-- An entry in an impl block that is a function and a struct. -/
def twoKinds : String := "decls: [{impl: Pet, fns: [{fn: f, struct: X}]}]"

theorem two_kinds_accepted :
    ∃ d f m, Document.parse? twoKinds = some d ∧ (readFile d).result = .ok f ∧
      decode "m.yaml" twoKinds = .ok m ∧
      ∃ e ∈ f.decls, e.impl ≠ "" ∧ ∃ g ∈ e.fns, ¬ g.OneKind := by
  obtain ⟨d, m, hd, hm, hfound⟩ := exists_accepted twoKinds
    (fun d => (readFile d).result.toOption.any fun f =>
      f.decls.any fun e => e.impl != "" && e.fns.any fun g => !decide g.OneKind)
    (by decide +kernel)
  obtain ⟨f, hf, hany⟩ := (Option.any_eq_true _ _).mp hfound
  obtain ⟨e, he, hboth⟩ := List.any_eq_true.mp hany
  obtain ⟨himpl, hmember⟩ := (Bool.and_eq_true _ _).mp hboth
  obtain ⟨g, hg, hkinds⟩ := List.any_eq_true.mp hmember
  exact ⟨d, f, m, hd, toOption_eq_some_iff.mp hf, hm, e, he, bne_iff_ne.mp himpl, g, hg,
    by simpa using hkinds⟩

end ClientLoom.Dump
