import ClientLoom.Decl.Walk
import ClientLoom.Module.Basic
import ClientLoom.Proofs.Walk.Paths

/-! # The paths in the declarations of a module

A module names paths in two places: in what its declarations state of themselves (the types of
fields, the payloads of variants, signatures) and in the bodies of its functions.
`Module.declaredPaths` and `Module.bodyPaths` list them, `Module.mapDeclared` and `Module.mapBodies`
put others in their places.

The two places do not meet: a change in one leaves the list of the other as it was
(`bodyPaths_mapDeclared`, `declaredPaths_mapBodies`) and changes in both can be made in either order
(`mapBodies_mapDeclared`).  Imports, trait paths and attributes belong to neither. -/

namespace ClientLoom

/-! ### Counted changes -/

/-- A counted change of every element, when the count of an element is that of its parts which
satisfy `hit`. -/
theorem mapCount_eq {α β : Type} {f : α → α × Nat} {new : α → α} {parts : α → List β}
    {hit : β → Bool} (h : ∀ x, f x = (new x, (parts x).countP hit)) (xs : List α) :
    mapCount f xs = (xs.map new, (xs.flatMap parts).countP hit) := by
  induction xs with
  | nil => rfl
  | cons x xs ih =>
      simp only [mapCount, h x, ih, List.map_cons, List.flatMap_cons, List.countP_append]

theorem map_eq_self_iff {α : Type} {f : α → α} {xs : List α} :
    xs.map f = xs ↔ ∀ x ∈ xs, f x = x := by
  have h := @List.map_inj_left α α xs f id
  rwa [List.map_id] at h

/-! ### Functions -/

namespace Func

/-- The paths in a signature: those of the parameters, then those of the result. -/
def declaredPaths (f : Func) : List Path :=
  f.params.flatMap (fun p => Paths.ofTy p.ty) ++ Paths.ofTy? f.ret

/-- The paths in the body of a function. -/
def bodyPaths (f : Func) : List (PathRole × Path) := Paths.ofStmts? f.body

/-- A parameter with other paths. -/
def mapParam (g : Path → Path) (p : Param) : Param := { p with ty := Paths.mapTy g p.ty }

/-- A function with other paths in its signature. -/
def mapDeclared (g : Path → Path) (f : Func) : Func :=
  { f with params := f.params.map (mapParam g), ret := f.ret.map (Paths.mapTy g) }

/-- A function with other paths in its body. -/
def mapBody (g : PathRole → Path → Path) (f : Func) : Func :=
  { f with body := Paths.mapStmts? g f.body }

variable (g h : Path → Path) (k l : PathRole → Path → Path) (f : Func)

theorem declaredPaths_mapDeclared :
    (f.mapDeclared g).declaredPaths = f.declaredPaths.map g := by
  simp [declaredPaths, mapDeclared, mapParam, List.flatMap_map, List.map_flatMap,
    Paths.ofTy_mapTy, Paths.ofTy?_map]

theorem bodyPaths_mapDeclared : (f.mapDeclared g).bodyPaths = f.bodyPaths := rfl

theorem declaredPaths_mapBody : (f.mapBody k).declaredPaths = f.declaredPaths := rfl

theorem bodyPaths_mapBody : (f.mapBody k).bodyPaths = f.bodyPaths.map (Paths.change k) :=
  Paths.ofStmts?_mapStmts? k f.body

theorem mapBody_comp_mapDeclared : mapBody k ∘ mapDeclared g = mapDeclared g ∘ mapBody k := rfl

theorem mapDeclared_mapDeclared :
    (f.mapDeclared g).mapDeclared h = f.mapDeclared (h ∘ g) := by
  simp [mapDeclared, mapParam, Function.comp_def, Paths.mapTy_mapTy]

theorem mapBody_mapBody : (f.mapBody k).mapBody l = f.mapBody (Paths.andThen k l) := by
  simp only [mapBody, Paths.mapStmts?_mapStmts?]

variable {g k f}

theorem mapDeclared_eq_self (hg : ∀ p ∈ f.declaredPaths, g p = p) : f.mapDeclared g = f := by
  simp only [declaredPaths, List.forall_mem_append] at hg
  have hparams : f.params.map (mapParam g) = f.params := by
    apply map_eq_self_iff.mpr
    intro p hp
    have hty : Paths.mapTy g p.ty = p.ty :=
      Paths.mapTy_eq_self p.ty fun q hq => hg.1 q (List.mem_flatMap_of_mem hp hq)
    simp only [mapParam, hty]
  have hret : f.ret.map (Paths.mapTy g) = f.ret := Paths.map_mapTy_eq_self f.ret hg.2
  simp only [mapDeclared, hparams, hret]

theorem mapBody_eq_self (hk : ∀ x ∈ f.bodyPaths, k x.1 x.2 = x.2) : f.mapBody k = f := by
  simp only [mapBody, Paths.mapStmts?_eq_self f.body hk]

end Func

/-! ### Declarations -/

namespace Impl

/-- The block with other functions in the places of its own. -/
def mapFns (φ : Func → Func) (i : Impl) : Impl := { i with fns := i.fns.map φ }

variable {φ : Func → Func}

theorem mapFns_eq_self {i : Impl} (h : ∀ f ∈ i.fns, φ f = f) : i.mapFns φ = i := by
  have hfns : i.fns.map φ = i.fns := map_eq_self_iff.mpr h
  simp only [mapFns, hfns]

theorem map_mapFns_eq_self {impls : List Impl} (h : ∀ f ∈ impls.flatMap (·.fns), φ f = f) :
    impls.map (mapFns φ) = impls := by
  apply map_eq_self_iff.mpr
  intro i hi
  exact mapFns_eq_self fun f hf => h f (List.mem_flatMap_of_mem hi hf)

end Impl

namespace Field

/-- The field with a type made from its own. -/
def mapTy (τ : Ty → Ty) (x : Field) : Field := { x with ty := τ x.ty }

end Field

namespace Variant

/-- The variant with types made from its own. -/
def mapTys (τ : Ty → Ty) (v : Variant) : Variant := { v with types := v.types.map τ }

end Variant

namespace Decl

/-- The types of the fields of a struct or of the payloads of an enum, in order. -/
def ownTys : Decl → List Ty
  | .struct s => s.fields.map (·.ty)
  | .enum e => e.variants.flatMap (·.types)
  | _ => []

/-- The declaration with other types of fields and payloads. -/
def mapOwnTys (τ : Ty → Ty) : Decl → Decl
  | .struct s => .struct { s with fields := s.fields.map (Field.mapTy τ) }
  | .enum e => .enum { e with variants := e.variants.map (Variant.mapTys τ) }
  | d => d

/-- The declaration with other functions in the places of its own. -/
def mapFns (φ : Func → Func) : Decl → Decl
  | .struct s => .struct { s with impls := s.impls.map (Impl.mapFns φ) }
  | .enum e => .enum { e with impls := e.impls.map (Impl.mapFns φ) }
  | .func f => .func (φ f)
  | .impl i => .impl (i.mapFns φ)
  | d => d

variable (τ ρ : Ty → Ty) (φ ψ : Func → Func) (d : Decl)

theorem ownTys_mapOwnTys : (d.mapOwnTys τ).ownTys = d.ownTys.map τ := by
  cases d <;>
    simp [ownTys, mapOwnTys, Field.mapTy, Variant.mapTys, List.flatMap_map, List.map_flatMap]

theorem ownTys_mapFns : (d.mapFns φ).ownTys = d.ownTys := by cases d <;> rfl

theorem funcs_mapOwnTys : (d.mapOwnTys τ).funcs = d.funcs := by cases d <;> rfl

theorem funcs_mapFns : (d.mapFns φ).funcs = d.funcs.map φ := by
  cases d <;> simp [funcs, mapFns, Impl.mapFns, List.flatMap_map, List.map_flatMap]

theorem mapOwnTys_mapOwnTys : (d.mapOwnTys τ).mapOwnTys ρ = d.mapOwnTys (ρ ∘ τ) := by
  cases d <;> simp [mapOwnTys, Field.mapTy, Variant.mapTys]

theorem mapFns_mapFns : (d.mapFns φ).mapFns ψ = d.mapFns (ψ ∘ φ) := by
  cases d <;> simp [mapFns, Impl.mapFns]

theorem mapFns_mapOwnTys : (d.mapOwnTys τ).mapFns φ = (d.mapFns φ).mapOwnTys τ := by
  cases d <;> rfl

variable {τ φ d}

theorem mapOwnTys_eq_self (h : ∀ t ∈ d.ownTys, τ t = t) : d.mapOwnTys τ = d := by
  cases d with
  | struct s =>
      have hfields : s.fields.map (Field.mapTy τ) = s.fields := by
        apply map_eq_self_iff.mpr
        intro x hx
        simp only [Field.mapTy, h x.ty (List.mem_map_of_mem hx)]
      simp only [mapOwnTys, hfields]
  | enum e =>
      have hvariants : e.variants.map (Variant.mapTys τ) = e.variants := by
        apply map_eq_self_iff.mpr
        intro v hv
        have htypes : v.types.map τ = v.types :=
          map_eq_self_iff.mpr fun t ht => h t (List.mem_flatMap_of_mem hv ht)
        simp only [Variant.mapTys, htypes]
      simp only [mapOwnTys, hvariants]
  | _ => rfl

theorem mapFns_eq_self (h : ∀ f ∈ d.funcs, φ f = f) : d.mapFns φ = d := by
  cases d with
  | struct s => simp only [mapFns, Impl.map_mapFns_eq_self h]
  | enum e => simp only [mapFns, Impl.map_mapFns_eq_self h]
  | func f => simp only [mapFns, h f (List.mem_singleton_self f)]
  | impl i => simp only [mapFns, Impl.mapFns_eq_self h]
  | use u => rfl
  | verbatim text => rfl

variable {β : Type} {hit : β → Bool}

/-- A counted change of the functions of a declaration. -/
theorem mapFuncs_eq {f : Func → Func × Nat} {φ : Func → Func} {parts : Func → List β}
    (h : ∀ g, f g = (φ g, (parts g).countP hit)) (d : Decl) :
    d.mapFuncs f = (d.mapFns φ, (d.funcs.flatMap parts).countP hit) := by
  have himpl : ∀ i, implFuncs f i = (i.mapFns φ, (i.fns.flatMap parts).countP hit) := by
    intro i
    simp only [implFuncs, mapCount_eq h, Impl.mapFns]
  cases d with
  | struct s => simp only [mapFuncs, mapCount_eq himpl, mapFns, funcs, List.flatMap_assoc]
  | enum e => simp only [mapFuncs, mapCount_eq himpl, mapFns, funcs, List.flatMap_assoc]
  | func g => simp only [mapFuncs, h, mapFns, funcs, List.flatMap_cons, List.flatMap_nil,
      List.append_nil]
  | impl i => simp only [mapFuncs, himpl, mapFns, funcs]
  | use u => rfl
  | verbatim text => rfl

/-- A counted change of the types of fields and payloads. -/
theorem mapTypes_eq {f : Ty → Ty × Nat} {τ : Ty → Ty} {parts : Ty → List β}
    (h : ∀ t, f t = (τ t, (parts t).countP hit)) (d : Decl) :
    d.mapTypes f = (d.mapOwnTys τ, (d.ownTys.flatMap parts).countP hit) := by
  cases d with
  | struct s =>
      rw [mapTypes, @mapCount_eq Field β _ (Field.mapTy τ) (fun x => parts x.ty) hit ?field]
      · simp only [mapOwnTys, ownTys, List.flatMap_map]
      case field =>
        intro x
        simp only [h, Field.mapTy]
  | enum e =>
      rw [mapTypes,
        @mapCount_eq Variant β _ (Variant.mapTys τ) (fun v => v.types.flatMap parts) hit ?variant]
      · simp only [mapOwnTys, ownTys, List.flatMap_assoc]
      case variant =>
        intro v
        simp only [mapCount_eq h, Variant.mapTys]
  | _ => rfl

/-- The paths in the types of fields and payloads and in signatures. -/
def declaredPaths (d : Decl) : List Path :=
  d.ownTys.flatMap Paths.ofTy ++ d.funcs.flatMap Func.declaredPaths

/-- The declaration with other paths in the types of its fields, payloads and signatures. -/
def mapDeclared (g : Path → Path) (d : Decl) : Decl :=
  (d.mapOwnTys (Paths.mapTy g)).mapFns (Func.mapDeclared g)

/-- The paths in the bodies of the functions of a declaration. -/
def bodyPaths (d : Decl) : List (PathRole × Path) := d.funcs.flatMap Func.bodyPaths

/-- The declaration with other paths in the bodies of its functions. -/
def mapBodies (k : PathRole → Path → Path) (d : Decl) : Decl := d.mapFns (Func.mapBody k)

theorem mapDeclared_eq_self {g : Path → Path} {d : Decl} (hg : ∀ p ∈ d.declaredPaths, g p = p) :
    d.mapDeclared g = d := by
  simp only [declaredPaths, List.forall_mem_append] at hg
  have hown : d.mapOwnTys (Paths.mapTy g) = d := by
    apply mapOwnTys_eq_self
    intro t ht
    exact Paths.mapTy_eq_self t fun p hp => hg.1 p (List.mem_flatMap_of_mem ht hp)
  rw [mapDeclared, hown]
  apply mapFns_eq_self
  intro f hf
  exact Func.mapDeclared_eq_self fun p hp => hg.2 p (List.mem_flatMap_of_mem hf hp)

theorem mapBodies_eq_self {k : PathRole → Path → Path} {d : Decl}
    (hk : ∀ x ∈ d.bodyPaths, k x.1 x.2 = x.2) : d.mapBodies k = d := by
  apply mapFns_eq_self
  intro f hf
  exact Func.mapBody_eq_self fun x hx => hk x (List.mem_flatMap_of_mem hf hx)

end Decl

/-! ### Modules -/

namespace Module

/-- The paths in the types of fields and payloads and in signatures, in the order of the
declarations. -/
def declaredPaths (m : Module) : List Path := m.decls.flatMap Decl.declaredPaths

/-- The paths in the bodies of the functions of a module. -/
def bodyPaths (m : Module) : List (PathRole × Path) := m.decls.flatMap Decl.bodyPaths

/-- The module with other paths in the types of fields and payloads and in signatures. -/
def mapDeclared (g : Path → Path) (m : Module) : Module :=
  { m with decls := m.decls.map (Decl.mapDeclared g) }

/-- The module with other paths in function bodies. -/
def mapBodies (k : PathRole → Path → Path) (m : Module) : Module :=
  { m with decls := m.decls.map (Decl.mapBodies k) }

variable (g h : Path → Path) (k l : PathRole → Path → Path) (m : Module)

theorem declaredPaths_mapDeclared : (m.mapDeclared g).declaredPaths = m.declaredPaths.map g := by
  have hdecl : ∀ d : Decl, (d.mapDeclared g).declaredPaths = d.declaredPaths.map g := by
    intro d
    simp [Decl.declaredPaths, Decl.mapDeclared, Decl.ownTys_mapFns, Decl.ownTys_mapOwnTys,
      Decl.funcs_mapFns, Decl.funcs_mapOwnTys, List.flatMap_map, List.map_flatMap,
      Paths.ofTy_mapTy, Func.declaredPaths_mapDeclared]
  simp only [declaredPaths, mapDeclared, List.flatMap_map, List.map_flatMap, hdecl]

theorem bodyPaths_mapDeclared : (m.mapDeclared g).bodyPaths = m.bodyPaths := by
  have hdecl : ∀ d : Decl, (d.mapDeclared g).bodyPaths = d.bodyPaths := by
    intro d
    simp only [Decl.bodyPaths, Decl.mapDeclared, Decl.funcs_mapFns, Decl.funcs_mapOwnTys,
      List.flatMap_map, Func.bodyPaths_mapDeclared]
  simp only [bodyPaths, mapDeclared, List.flatMap_map, hdecl]

theorem declaredPaths_mapBodies : (m.mapBodies k).declaredPaths = m.declaredPaths := by
  have hdecl : ∀ d : Decl, (d.mapBodies k).declaredPaths = d.declaredPaths := by
    intro d
    simp only [Decl.declaredPaths, Decl.mapBodies, Decl.ownTys_mapFns, Decl.funcs_mapFns,
      List.flatMap_map, Func.declaredPaths_mapBody]
  simp only [declaredPaths, mapBodies, List.flatMap_map, hdecl]

theorem bodyPaths_mapBodies :
    (m.mapBodies k).bodyPaths = m.bodyPaths.map (Paths.change k) := by
  have hdecl : ∀ d : Decl, (d.mapBodies k).bodyPaths = d.bodyPaths.map (Paths.change k) := by
    intro d
    simp only [Decl.bodyPaths, Decl.mapBodies, Decl.funcs_mapFns, List.flatMap_map,
      List.map_flatMap, Func.bodyPaths_mapBody]
  simp only [bodyPaths, mapBodies, List.flatMap_map, List.map_flatMap, hdecl]

theorem mapBodies_mapDeclared :
    (m.mapDeclared g).mapBodies k = (m.mapBodies k).mapDeclared g := by
  have hdecl : ∀ d : Decl, (d.mapDeclared g).mapBodies k = (d.mapBodies k).mapDeclared g := by
    intro d
    simp only [Decl.mapBodies, Decl.mapDeclared, Decl.mapFns_mapOwnTys, Decl.mapFns_mapFns,
      Func.mapBody_comp_mapDeclared]
  simp [mapDeclared, mapBodies, hdecl]

theorem mapDeclared_mapDeclared :
    (m.mapDeclared g).mapDeclared h = m.mapDeclared (h ∘ g) := by
  have hty : Paths.mapTy h ∘ Paths.mapTy g = Paths.mapTy (h ∘ g) :=
    funext (Paths.mapTy_mapTy g h)
  have hfunc : Func.mapDeclared h ∘ Func.mapDeclared g = Func.mapDeclared (h ∘ g) :=
    funext (Func.mapDeclared_mapDeclared g h)
  have hdecl : ∀ d : Decl, (d.mapDeclared g).mapDeclared h = d.mapDeclared (h ∘ g) := by
    intro d
    simp only [Decl.mapDeclared, Decl.mapFns_mapOwnTys, Decl.mapFns_mapFns,
      Decl.mapOwnTys_mapOwnTys, hty, hfunc]
  simp [mapDeclared, hdecl]

theorem mapBodies_mapBodies :
    (m.mapBodies k).mapBodies l = m.mapBodies (Paths.andThen k l) := by
  have hfunc : Func.mapBody l ∘ Func.mapBody k = Func.mapBody (Paths.andThen k l) :=
    funext (Func.mapBody_mapBody k l)
  simp [mapBodies, Decl.mapBodies, Decl.mapFns_mapFns, hfunc]

variable {g k m}

theorem mapDeclared_eq_self (hg : ∀ p ∈ m.declaredPaths, g p = p) : m.mapDeclared g = m := by
  have hdecls : m.decls.map (Decl.mapDeclared g) = m.decls := by
    apply map_eq_self_iff.mpr
    intro d hd
    exact Decl.mapDeclared_eq_self fun p hp => hg p (List.mem_flatMap_of_mem hd hp)
  simp only [mapDeclared, hdecls]

theorem mapBodies_eq_self (hk : ∀ x ∈ m.bodyPaths, k x.1 x.2 = x.2) : m.mapBodies k = m := by
  have hdecls : m.decls.map (Decl.mapBodies k) = m.decls := by
    apply map_eq_self_iff.mpr
    intro d hd
    exact Decl.mapBodies_eq_self fun x hx => hk x (List.mem_flatMap_of_mem hd hx)
  simp only [mapBodies, hdecls]

end Module
end ClientLoom
