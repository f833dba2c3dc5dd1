import ClientLoom.Proofs.Facade.Failure
import ClientLoom.Proofs.Module.Attaching
import ClientLoom.Proofs.Module.Reachable

/-! # What a facade keeps

A facade that is generated takes functions out of a module and puts methods into the inherent
block of one struct.  Every operation should be found there afterwards, converted
(`IsMethodOf`), and the constructor should be the only function that is new (`Conserves`).

The struct may have been there before, and a block may have waited for it.  An inherent block
that was there absorbs the new one, and what it absorbs has to have a name of its own
(`NamesFree`).  Main statement: the facade keeps every operation exactly when the names are free,
and otherwise functions get lost (`generate_conserves_iff`). -/

namespace ClientLoom
namespace Facade

variable (m : Module) (opts : Options)

/-- A block in which the fields of `param` are read from the receiver. -/
def redirected (param : Ident) (b : Block) : Block := (Block.replace (redirecting param) () b).value

/-- `g` is the method for the operation `f`. -/
structure IsMethodOf (stem : String) (f g : Func) : Prop where
  name : g.name = methodName f.name stem
  pub : g.pub = true
  isAsync : g.isAsync = f.isAsync
  attrs : g.attrs = f.attrs
  receiver : g.receiver = some { ref := true, mutable := true }
  params : ∃ mutable param ty, param ≠ "" ∧ f.params = ⟨.ident mutable param, ty⟩ :: g.params ∧
    g.body = f.body.map (redirected param)
  ret : g.ret = f.ret

/-- What a module `m'` has of the functions of `m` when it is `m` with its facade. -/
structure Conserves (m' : Module) : Prop where
  operations : ∃ s b, m'.struct? (structName (stemOf m opts)) = some s ∧
    Impl.findKey? s.impls "" = some b ∧
    ∀ f ∈ operations m opts, ∃ g ∈ b.fns, IsMethodOf (stemOf m opts) f g
  others : m'.freeFuncs = m.freeFuncs.filter fun f => !Text.contains f.name (stemOf m opts)
  count : m'.funcs.length = m.funcs.length + 1

/-- The names of the functions that a facade adds. -/
def addedNames : List Ident :=
  "new" :: (operations m opts).map fun f => methodName f.name (stemOf m opts)

/-- The inherent block that a module holds for the struct of its facade. -/
def heldBlock? : Option Impl :=
  Impl.findKey? (Module.blocksFor m.decls (structName (stemOf m opts))) ""

/-- The functions of a facade get along with those that their block has. -/
def NamesFree : Prop :=
  ∀ b, heldBlock? m opts = some b →
    (addedNames m opts).Nodup ∧ ∀ name ∈ addedNames m opts, name ∉ b.fns.map Func.name

/-! ### Converting operations -/

theorem toMethod_eq_ok_iff {stem : String} {f g : Func} :
    toMethod stem f = .ok g ↔ IsMethodOf stem f g := by
  constructor
  · intro h
    obtain ⟨name, pub, isAsync, attrs, receiver, params, ret, body⟩ := f
    unfold toMethod at h
    match params with
    | [] => cases h
    | ⟨.raw text, ty⟩ :: rest => cases h
    | ⟨.ident mutable param, ty⟩ :: rest =>
        by_cases hparam : param = ""
        · simp [Pattern.plain?, hparam] at h
        · simp only [Pattern.plain?, if_neg hparam] at h
          obtain rfl := Except.ok.inj h
          cases body <;>
            exact ⟨rfl, rfl, rfl, rfl, rfl, ⟨mutable, param, ty, hparam, rfl, rfl⟩, rfl⟩
  · rintro ⟨hname, hpub, hasync, hattrs, hreceiver,
      ⟨mutable, param, ty, hparam, hparams, hbody⟩, hret⟩
    obtain ⟨name, pub, isAsync, attrs, receiver, params, ret, body⟩ := f
    obtain ⟨name', pub', isAsync', attrs', receiver', params', ret', body'⟩ := g
    dsimp only at hname hpub hasync hattrs hreceiver hparams hbody hret
    subst hname hpub hasync hattrs hreceiver hparams hbody hret
    unfold toMethod
    simp only [Pattern.plain?, if_neg hparam]
    cases body <;> rfl

theorem forall₂_isMethodOf {methods : List Func}
    (h : (operations m opts).mapM (toMethod (stemOf m opts)) = .ok methods) :
    List.Forall₂ (IsMethodOf (stemOf m opts)) (operations m opts) methods :=
  (mapM_eq_ok_iff.mp h).imp fun _ _ => toMethod_eq_ok_iff.mp

theorem map_name_facadeImpl {stem : String} {fs methods : List Func}
    (h : List.Forall₂ (IsMethodOf stem) fs methods) :
    (facadeImpl opts stem methods).fns.map Func.name =
      "new" :: fs.map fun f => methodName f.name stem := by
  have hnames : methods.map Func.name = fs.map fun f => methodName f.name stem := by
    induction h with
    | nil => rfl
    | cons hfg _ ih => rw [List.map_cons, List.map_cons, hfg.name, ih]
  rw [facadeImpl, List.map_cons, hnames]
  rfl

/-! ### Taking the operations out -/

theorem blocksFor_without (stem : String) (name : Ident) :
    Module.blocksFor (m.without (isOperation stem)).decls name =
      Module.blocksFor m.decls name := by
  have hwaiting : (m.without (isOperation stem)).decls.filterMap (Module.waiting? name) =
      m.decls.filterMap (Module.waiting? name) := by
    unfold Module.without
    rw [List.filterMap_filter]
    congr 1
    funext d
    cases d with
    | func f => simp [Module.waiting?]
    | _ => simp [isOperation]
  rw [Module.blocksFor, Module.blocksFor, typeDecl?_without, hwaiting]

theorem freeFuncs_without (stem : String) :
    (m.without (isOperation stem)).freeFuncs =
      m.freeFuncs.filter fun f => !Text.contains f.name stem := by
  unfold Module.freeFuncs Module.without
  rw [List.filterMap_filter, List.filter_filterMap]
  congr 1
  funext d
  cases d with
  | func f =>
      cases h : Text.contains f.name stem <;>
        simp [isOperation, Decl.func?, Option.filter, h]
  | _ => simp [isOperation, Decl.func?]

theorem length_funcs_without :
    (m.without (isOperation (stemOf m opts))).funcs.length + (operations m opts).length =
      m.funcs.length := by
  unfold Module.funcs Module.without operations
  dsimp only
  induction m.decls with
  | nil => rfl
  | cons d ds ih =>
      cases hop : operation? (stemOf m opts) d with
      | none =>
          rw [List.filter_cons_of_pos (by simp [isOperation_eq, hop]),
            List.filterMap_cons_none hop, List.flatMap_cons, List.flatMap_cons,
            List.length_append, List.length_append]
          omega
      | some f =>
          obtain rfl := eq_func_of_operation? hop
          rw [List.filter_cons_of_neg (by simp [isOperation_eq, hop]),
            List.filterMap_cons_some hop, List.flatMap_cons, List.length_append,
            List.length_cons, Decl.funcs, List.length_singleton]
          omega

/-! ### The module with its facade -/

variable {m opts}

theorem facadeStruct_name (stem : String) : (facadeStruct opts stem).name = structName stem := rfl

/-- A facade that is generated is pushed to the module without the operations. -/
theorem exists_methods_of_generate {m' : Module} {r : Result}
    (h : generate m opts = (m', .ok r)) :
    ∃ methods, (operations m opts).mapM (toMethod (stemOf m opts)) = .ok methods ∧
      (m.without (isOperation (stemOf m opts))).pushAll
        [.struct (facadeStruct opts (stemOf m opts)),
          .impl (facadeImpl opts (stemOf m opts) methods)] = (m', .ok ()) := by
  obtain ⟨-, methods, hmethods, hpush, -⟩ := generate_eq_ok_iff.mp h
  exact ⟨methods, hmethods, hpush⟩

/-- The block of a facade can be attached exactly when the names of its functions are free. -/
theorem canAttach_facadeImpl_iff {methods : List Func}
    (h : (operations m opts).mapM (toMethod (stemOf m opts)) = .ok methods) :
    Impl.CanAttach (Module.blocksFor m.decls (structName (stemOf m opts)))
        (facadeImpl opts (stemOf m opts) methods) ↔ NamesFree m opts := by
  have hnames := map_name_facadeImpl opts (forall₂_isMethodOf m opts h)
  have hjoin (b : Impl) : b.CanJoin (facadeImpl opts (stemOf m opts) methods).fns ↔
      (addedNames m opts).Nodup ∧ ∀ name ∈ addedNames m opts, name ∉ b.fns.map Func.name := by
    rw [Impl.canJoin_iff_names, hnames]
    rfl
  unfold Impl.CanAttach NamesFree
  simp only [hjoin]
  rfl

/-- A facade keeps every operation of a module exactly when the names of its functions are free.
It keeps the other free functions always; where a name is not free, the module has not got more
functions than before, in spite of the constructor. -/
theorem generate_conserves_iff {m' : Module} {r : Result} (hm : m.WellFormed)
    (h : generate m opts = (m', .ok r)) :
    (Conserves m opts m' ↔ NamesFree m opts) ∧
      m'.freeFuncs = (m.freeFuncs.filter fun f => !Text.contains f.name (stemOf m opts)) ∧
      (¬ NamesFree m opts → m'.funcs.length ≤ m.funcs.length) := by
  obtain ⟨methods, hmethods, hpush⟩ := exists_methods_of_generate h
  have hmethod := forall₂_isMethodOf m opts hmethods
  obtain ⟨⟨s, hs, himpls⟩, hcount, hfree⟩ :=
    Module.pushAll_pair (hm.without (isOperation (stemOf m opts))) rfl rfl hpush
  rw [facadeStruct_name, blocksFor_without] at himpls hcount
  rw [freeFuncs_without] at hfree
  have hbefore := length_funcs_without m opts
  have hblock : (facadeImpl opts (stemOf m opts) methods).fns.length =
      (operations m opts).length + 1 := by
    rw [facadeImpl, List.length_cons, hmethod.length_eq]
  -- the functions are counted as those of the blocks for the struct are
  have hle := Impl.length_fns_attach_le
    (Module.blocksFor m.decls (structName (stemOf m opts)))
    (facadeImpl opts (stemOf m opts) methods)
  have hall : m'.funcs.length = m.funcs.length + 1 ↔ NamesFree m opts := by
    rw [← canAttach_facadeImpl_iff hmethods, ← Impl.length_fns_attach_eq_iff]
    exact ⟨fun heq => by omega, fun heq => by omega⟩
  refine ⟨⟨fun hkept => hall.mp hkept.count, fun hnames => ?_⟩, hfree, fun hnames => ?_⟩
  · obtain ⟨b, hb, hsub⟩ := ((canAttach_facadeImpl_iff hmethods).mpr hnames).exists_block
    refine ⟨⟨s, b, hs, himpls ▸ hb, fun f hf => ?_⟩, hfree, hall.mpr hnames⟩
    obtain ⟨g, hg, hfg⟩ := exists_mem_of_mapM hmethods hf
    exact ⟨g, hsub (List.mem_cons_of_mem _ hg), toMethod_eq_ok_iff.mp hfg⟩
  · have hne := hall.not.mpr hnames
    omega

/-- A module of operations in which the struct of the facade has a method already. -/
def taggedPet (method : Ident) : Module :=
  (({ name := "pet_api" } : Module).pushAll
    [.impl { self := "PetApi", fns := [{ name := method }] },
      .func { name := "ping" },
      .func
        { name := "pet_find"
          params := [⟨.ident false "config", .named "Config"⟩, ⟨.ident false "id", .named "u64"⟩]
          body := some [.expr (.field (.path (.of "config")) "url") false] },
      .struct { name := "PetApi" }]).1

theorem wellFormed_taggedPet (method : Ident) : (taggedPet method).WellFormed := by
  refine Module.WellFormed.pushAll Module.tidy_nil fun d hd => ?_
  simp only [List.mem_cons, List.not_mem_nil, or_false] at hd
  rcases hd with rfl | rfl | rfl | rfl <;> exact List.nodup_nil

theorem generate_conserves_iff_pet :
    (∃ r, (generate (taggedPet "close") .usual).2 = .ok r) ∧
      (operations (taggedPet "close") .usual).map Func.name = ["pet_find"] ∧
      Conserves (taggedPet "close") .usual (generate (taggedPet "close") .usual).1 := by
  have hok : ∃ r, (generate (taggedPet "close") .usual).2 = .ok r :=
    ⟨⟨"PetApi", ["find"]⟩, by decide +kernel⟩
  have hheld : (heldBlock? (taggedPet "close") .usual).map (·.fns.map Func.name) =
      some ["close"] := by decide +kernel
  have hadded : addedNames (taggedPet "close") .usual = ["new", "find"] := by decide +kernel
  have hnames : NamesFree (taggedPet "close") .usual := by
    intro b hb
    rw [hb] at hheld
    have hclose : b.fns.map Func.name = ["close"] := Option.some.inj hheld
    rw [hadded, hclose]
    decide
  obtain ⟨r, hr⟩ := hok
  exact ⟨⟨r, hr⟩, by decide +kernel,
    (generate_conserves_iff (wellFormed_taggedPet "close") (Prod.ext rfl hr)).1.mpr hnames⟩

/-- The operation has the name of the method that is there, and is lost. -/
theorem generate_loses_pet :
    (taggedPet "find").WellFormed ∧ (∃ r, (generate (taggedPet "find") .usual).2 = .ok r) ∧
      (operations (taggedPet "find") .usual).map Func.name = ["pet_find"] ∧
      (generate (taggedPet "find") .usual).1.funcs.map (fun f => (f.name, f.body.isSome)) =
        [("ping", false), ("find", false), ("new", true)] ∧
      ¬ Conserves (taggedPet "find") .usual (generate (taggedPet "find") .usual).1 := by
  have hfuncs : (generate (taggedPet "find") .usual).1.funcs.map
      (fun f => (f.name, f.body.isSome)) =
        [("ping", false), ("find", false), ("new", true)] := by decide +kernel
  have hbefore : (taggedPet "find").funcs.length = 3 := by decide +kernel
  refine ⟨wellFormed_taggedPet "find", ⟨⟨"PetApi", ["find"]⟩, by decide +kernel⟩,
    by decide +kernel, hfuncs, fun h => ?_⟩
  have hafter := congrArg List.length hfuncs
  rw [List.length_map, h.count, hbefore] at hafter
  exact absurd hafter (by decide)

end Facade
end ClientLoom
