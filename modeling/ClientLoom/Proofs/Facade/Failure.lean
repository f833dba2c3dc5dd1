import ClientLoom.Facade
import ClientLoom.Proofs.Outcome

/-! # Failing facades

`Facade.generate` fails in three ways.  An empty stem and a function that cannot become a method
are found before anything changes.  That the name of the struct is taken by an enum is found only
when the struct is pushed, and the operations have left the module by then: they are stranded.

Main statement: a failure leaves the module as it was exactly when it does not strand operations
(`generate_atomic_iff_not_stranded`). -/

namespace ClientLoom
namespace Facade

variable (m : Module) (opts : Options)

/-- The stem of a module. -/
abbrev stemOf : String := stem m.name opts.ending

/-- The functions of a module that the facade takes up. -/
def operations : List Func := m.decls.filterMap (operation? (stemOf m opts))

/-- The first parameter of a function is a plain name. -/
def HasReceiver (f : Func) : Prop :=
  ∃ mutable name ty rest, name ≠ "" ∧ f.params = ⟨.ident mutable name, ty⟩ :: rest

/-- Every operation can become a method, but the struct that would hold the methods has the name
of an enum. -/
structure Clashes : Prop where
  stem_ne : stemOf m opts ≠ ""
  convertible : ∀ f ∈ operations m opts, HasReceiver f
  enum : ∃ e, Module.typeDecl? m.decls (structName (stemOf m opts)) = some (.enum e)

/-- The operations of a module, at least one, have nowhere to go. -/
structure Stranded : Prop extends Clashes m opts where
  operations_ne : operations m opts ≠ []

/-! ### Taking the operations out -/

theorem exists_toMethod_eq_ok_iff {stem : String} {f : Func} :
    (∃ g, toMethod stem f = .ok g) ↔ HasReceiver f := by
  obtain ⟨name, pub, isAsync, attrs, receiver, params, ret, body⟩ := f
  unfold toMethod HasReceiver
  match params with
  | [] => simp
  | ⟨.raw text, ty⟩ :: rest => simp [Pattern.plain?]
  | ⟨.ident mutable param, ty⟩ :: rest =>
      by_cases hparam : param = "" <;> simp [Pattern.plain?, hparam]

theorem exists_methods_iff :
    (∃ methods, (operations m opts).mapM (toMethod (stemOf m opts)) = .ok methods) ↔
      ∀ f ∈ operations m opts, HasReceiver f := by
  simp only [exists_mapM_eq_ok_iff, exists_toMethod_eq_ok_iff]

/-- The types stay where they are. -/
theorem typeDecl?_without (stem : String) (name : Ident) :
    Module.typeDecl? (m.without (isOperation stem)).decls name = Module.typeDecl? m.decls name := by
  unfold Module.typeDecl? Module.without
  rw [List.find?_filter]
  congr 1
  funext d
  cases d with
  | func f => simp [Module.declares, Decl.typeName?]
  | _ => simp [isOperation]

theorem isOperation_eq (stem : String) (d : Decl) :
    isOperation stem d = (operation? stem d).isSome := by
  cases d with
  | func f => by_cases h : Text.contains f.name stem = true <;> simp [isOperation, operation?, h]
  | _ => rfl

theorem eq_func_of_operation? {stem : String} {d : Decl} {f : Func}
    (h : operation? stem d = some f) : d = .func f := by
  cases d with
  | func g =>
      simp only [operation?] at h
      split at h
      · rw [Option.some.inj h]
      · cases h
  | _ => cases h

/-- A module that has operations is changed. -/
theorem without_eq_self_iff :
    m.without (isOperation (stemOf m opts)) = m ↔ operations m opts = [] := by
  have hdecls : m.without (isOperation (stemOf m opts)) = m ↔
      m.decls.filter (!isOperation (stemOf m opts) ·) = m.decls :=
    ⟨fun h => congrArg Module.decls h, fun h => by rw [Module.without, h]⟩
  rw [hdecls, List.filter_eq_self, operations, List.filterMap_eq_nil_iff]
  simp [isOperation_eq]

/-! ### Pushing the struct and its block -/

section push

variable {m₀ : Module} {stem : String} (methods : List Func)

theorem pushAll_of_enum {e : Enum}
    (h : Module.typeDecl? m₀.decls (structName stem) = some (.enum e)) :
    m₀.pushAll [.struct (facadeStruct opts stem), .impl (facadeImpl opts stem methods)] =
      (m₀, .error (Module.clash .struct (structName stem) .enum)) := by
  have hstruct : Module.pushDecl m₀.decls (.struct (facadeStruct opts stem)) =
      (m₀.decls, .error (Module.clash .struct (structName stem) .enum)) := by
    show Module.pushType m₀.decls (structName stem) _ _ = _
    rw [Module.pushType, h]
    rfl
  rw [Module.pushAll, Module.push, hstruct]

theorem exists_pushAll_of_no_enum
    (h : ∀ e, Module.typeDecl? m₀.decls (structName stem) ≠ some (.enum e)) :
    ∃ m', m₀.pushAll [.struct (facadeStruct opts stem), .impl (facadeImpl opts stem methods)] =
      (m', .ok ()) := by
  have hstruct : ∃ ds,
      Module.pushDecl m₀.decls (.struct (facadeStruct opts stem)) = (ds, .ok ()) := by
    show ∃ ds, Module.pushType m₀.decls (structName stem) _ _ = (ds, .ok ())
    unfold Module.pushType
    cases hold : Module.typeDecl? m₀.decls (structName stem) with
    | none => exact ⟨_, rfl⟩
    | some old =>
        have hname : Module.declares (structName stem) old = true := List.find?_some hold
        cases old with
        | struct s => exact ⟨_, rfl⟩
        | enum e => exact absurd hold (h e)
        | _ => cases hname
  obtain ⟨ds, hds⟩ := hstruct
  -- the block is never refused
  refine ⟨{ m₀ with decls := Module.pushImpl ds (facadeImpl opts stem methods) }, ?_⟩
  rw [Module.pushAll, Module.push, hds]
  rfl

end push

/-! ### Cases of generating a facade -/

variable {m opts}

theorem generate_of_stem_eq (hstem : stemOf m opts = "") :
    generate m opts = (m, .error (.invalid ("facade " ++ inMessage m.name ++
      ": empty stem for suffix " ++ Text.quote opts.ending))) := by
  unfold generate
  dsimp only
  exact if_pos hstem

theorem generate_of_mapM_eq_error {f : Failure} (hstem : stemOf m opts ≠ "")
    (hmethods : (operations m opts).mapM (toMethod (stemOf m opts)) = .error f) :
    generate m opts = (m, .error (f.within ("facade " ++ inMessage m.name))) := by
  unfold operations at hmethods
  unfold generate
  dsimp only
  rw [if_neg hstem, hmethods]

/-- With a stem and methods, generating a facade is pushing it to what is left of the module. -/
theorem generate_eq_pushAll {methods : List Func} (hstem : stemOf m opts ≠ "")
    (hmethods : (operations m opts).mapM (toMethod (stemOf m opts)) = .ok methods) :
    generate m opts =
      match (m.without (isOperation (stemOf m opts))).pushAll
          [.struct (facadeStruct opts (stemOf m opts)),
            .impl (facadeImpl opts (stemOf m opts) methods)] with
      | (m', .error f) => (m', .error (f.within ("facade " ++ inMessage m.name)))
      | (m', .ok ()) => (m', .ok ⟨structName (stemOf m opts), methods.map Func.name⟩) := by
  unfold operations at hmethods
  unfold generate
  dsimp only
  rewrite [if_neg hstem, hmethods]
  rfl

theorem generate_eq_ok_iff {m' : Module} {r : Result} :
    generate m opts = (m', .ok r) ↔
      stemOf m opts ≠ "" ∧ ∃ methods,
        (operations m opts).mapM (toMethod (stemOf m opts)) = .ok methods ∧
        (m.without (isOperation (stemOf m opts))).pushAll
          [.struct (facadeStruct opts (stemOf m opts)),
            .impl (facadeImpl opts (stemOf m opts) methods)] = (m', .ok ()) ∧
        r = ⟨structName (stemOf m opts), methods.map Func.name⟩ := by
  constructor
  · intro h
    have hstem : stemOf m opts ≠ "" := by
      intro hempty
      rw [generate_of_stem_eq hempty] at h
      cases (Prod.mk.inj h).2
    refine ⟨hstem, ?_⟩
    cases hmethods : (operations m opts).mapM (toMethod (stemOf m opts)) with
    | error f =>
        rw [generate_of_mapM_eq_error hstem hmethods] at h
        cases (Prod.mk.inj h).2
    | ok methods =>
        rw [generate_eq_pushAll hstem hmethods] at h
        split at h
        · cases (Prod.mk.inj h).2
        · next hpush =>
          obtain ⟨rfl, hr⟩ := Prod.mk.inj h
          exact ⟨methods, rfl, hpush, (Except.ok.inj hr).symm⟩
  · rintro ⟨hstem, methods, hmethods, hpush, rfl⟩
    rw [generate_eq_pushAll hstem hmethods, hpush]

/-! ### What a failure leaves -/

theorem generate_of_clashes (h : Clashes m opts) :
    generate m opts =
      (m.without (isOperation (stemOf m opts)),
        .error ((Module.clash .struct (structName (stemOf m opts)) .enum).within
          ("facade " ++ inMessage m.name))) := by
  obtain ⟨methods, hmethods⟩ := (exists_methods_iff m opts).mpr h.convertible
  obtain ⟨e, henum⟩ := h.enum
  rw [← typeDecl?_without m (stemOf m opts)] at henum
  rw [generate_eq_pushAll h.stem_ne hmethods, pushAll_of_enum opts methods henum]

/-- Every other failure is found before the module changes. -/
theorem generate_fst_of_not_clashes {f : Failure} (hf : (generate m opts).2 = .error f)
    (h : ¬ Clashes m opts) : (generate m opts).1 = m := by
  by_cases hstem : stemOf m opts = ""
  · rw [generate_of_stem_eq hstem]
  · cases hmethods : (operations m opts).mapM (toMethod (stemOf m opts)) with
    | error g => rw [generate_of_mapM_eq_error hstem hmethods]
    | ok methods =>
        have hreceivers := (exists_methods_iff m opts).mp ⟨methods, hmethods⟩
        have henum (e : Enum) : Module.typeDecl? (m.without (isOperation (stemOf m opts))).decls
            (structName (stemOf m opts)) ≠ some (.enum e) := by
          rw [typeDecl?_without]
          exact fun he => h ⟨hstem, hreceivers, e, he⟩
        obtain ⟨m', hm'⟩ := exists_pushAll_of_no_enum opts methods henum
        rw [generate_eq_pushAll hstem hmethods, hm'] at hf
        cases hf

/-- Failures of facade generation leave the module as it was, unless they strand operations; then
the operations are gone and everything else is left, and the failure is a clash of kinds. -/
theorem generate_atomic_iff_not_stranded (m : Module) (opts : Options) :
    ((∀ f, (generate m opts).2 = .error f → (generate m opts).1 = m) ↔ ¬ Stranded m opts) ∧
      (Stranded m opts →
        (generate m opts).1 = m.without (isOperation (stemOf m opts)) ∧
          ∃ f, (generate m opts).2 = .error f ∧ f.cause = .kindClash) := by
  refine ⟨⟨fun hsame h => ?_, fun h f hf => ?_⟩, fun h => ?_⟩
  · have hleft := generate_of_clashes h.toClashes
    have hself := hsame _ (congrArg Prod.snd hleft)
    rw [hleft] at hself
    exact h.operations_ne ((without_eq_self_iff m opts).mp hself)
  · by_cases hclash : Clashes m opts
    · have hnone : operations m opts = [] := by
        by_contra hne
        exact h ⟨hclash, hne⟩
      rw [generate_of_clashes hclash]
      exact (without_eq_self_iff m opts).mpr hnone
    · exact generate_fst_of_not_clashes hf hclash
  · rw [generate_of_clashes h.toClashes]
    exact ⟨rfl, _, rfl, Failure.within_cause _ _⟩

/-- An operation beside an enum that has the name of the facade. -/
def clashingPet : Module :=
  { name := "pet_api"
    decls :=
      [.enum { name := "PetApi" },
        .func { name := "pet_find", params := [⟨.ident false "config", .named "Config"⟩] }] }

theorem clashes_pet : Clashes clashingPet .usual := by
  have hstem : stemOf clashingPet .usual = "pet" := by decide +kernel
  have hname : structName "pet" = "PetApi" := by decide +kernel
  refine ⟨by rw [hstem]; decide, fun f hf => ?_, { name := "PetApi" }, ?_⟩
  · obtain ⟨d, hd, hop⟩ := List.mem_filterMap.mp hf
    obtain rfl := eq_func_of_operation? hop
    rcases List.mem_pair.mp hd with h | h <;> cases h
    exact ⟨false, "config", .named "Config", [], by decide, rfl⟩
  · rw [hstem, hname]
    rfl

theorem generate_atomic_iff_not_stranded_pet :
    Stranded clashingPet .usual ∧
      (generate clashingPet .usual).1 =
        clashingPet.without (isOperation (stemOf clashingPet .usual)) := by
  have hlength : (operations clashingPet .usual).length = 1 := by decide +kernel
  have hstranded : Stranded clashingPet .usual :=
    ⟨clashes_pet, List.ne_nil_of_length_eq_add_one hlength⟩
  exact ⟨hstranded, ((generate_atomic_iff_not_stranded _ _).2 hstranded).1⟩

/-- The function is lost. -/
theorem generate_strands_pet :
    (∃ f, (generate clashingPet .usual).2 = .error f) ∧
      (generate clashingPet .usual).1.decls.map Decl.kind = [.enum] ∧
      (generate clashingPet .usual).1 ≠ clashingPet := by
  have hkinds : (clashingPet.without (isOperation (stemOf clashingPet .usual))).decls.map
      Decl.kind = [.enum] := by decide +kernel
  rw [generate_of_clashes clashes_pet]
  refine ⟨⟨_, rfl⟩, hkinds, fun h => ?_⟩
  have hsame := congrArg (fun m => m.decls.map Decl.kind) h
  cases hkinds.symm.trans hsame

end Facade
end ClientLoom
