import ClientLoom.Proofs.Pipeline.TypeNames

/-! # What becomes of the parameter objects

The types that a run takes out of the operation modules are pushed into one module, where a name is
declared once.  So the module of parameter objects declares the name of every taken type, with what
the first taken type of that name holds but impl blocks (`parameter_objects_kept`).  No type is
changed exactly when all taken types of one name hold the same, and none is left out exactly when
their names differ.  Different operation modules may well have types of one name, and then all but
the first of them are lost (`parameter_object_lost`).

The types are pushed in the order of their names.  That order keeps types of one name as they come
(`filter_mergeSort_byName`), and the first declaration of a name is the one that a run of pushes
keeps (`Module.Makes.map_bare_typeDecl?`). -/

namespace ClientLoom

namespace Pipeline

open ClientLoom.Module (Makes typeDecl? typeNames)

variable {s : Settings} {r r' : Registry} {parts : List Load.Part} {taken : List Decl}
  {params : Module} {n : Ident}

/-! ### What is taken -/

/-- The registry from which the parameter objects are taken. -/
def prepared (s : Settings) (parts : List Load.Part) : Logged Registry := do
  let r ← merge parts
  let r ← stripAll s r
  let r ← facades s r
  pruneAll s r

/-- What is taken out of the operation modules, in the order of these. -/
def parameterObjects (s : Settings) (r : Registry) : List Decl :=
  (r.group s.apisGroup).modules.flatMap (·.select (Decl.nameEndsWith s.paramsEnding))

theorem taken_of_takeParams {m : Module} {out : Module × List Decl}
    (h : takeParams s m = .ok out) : out.2 = m.select (Decl.nameEndsWith s.paramsEnding) := by
  unfold takeParams at h
  dsimp only at h
  split at h
  · next hnil =>
      obtain rfl := Except.ok.inj h
      exact hnil.symm
  · obtain ⟨m', -, rfl⟩ := map_eq_ok_iff.mp h
    rfl

theorem taken_of_extract (h : (extract s r).result = .ok (r', taken)) :
    taken = parameterObjects s r := by
  obtain ⟨told, hstage, rfl⟩ := stageOn_of_extract h
  obtain ⟨outs, houts, -, rfl⟩ := hstage.changed
  unfold parameterObjects
  rw [List.flatMap_def]
  refine congrArg List.flatten ?_
  rw [← List.forall₂_eq_eq_eq, List.forall₂_map_left_iff, List.forall₂_map_right_iff]
  exact houts.flip.imp fun _ _ hout => taken_of_takeParams hout

/-- A run makes its module of parameter objects of what is taken from the prepared registry. -/
theorem paramsModule_of_run {cancelled : Bool} {out : Output}
    (hrun : (run s cancelled parts).result = .ok out) :
    ∃ r params, (prepared s parts).result = .ok r ∧ out.params.modules = [params] ∧
      paramsModule s (parameterObjects s r) = .ok params := by
  unfold run at hrun
  rw [Logged.result_bind, bind_eq_ok_iff] at hrun
  obtain ⟨r₀, h₀, hstages⟩ := hrun
  obtain rfl := eq_false_of_stages hstages
  obtain ⟨r₁, h₁, r₂, h₂, r₃, h₃, r₄, taken, h₄, r₅, params, h₅, made, -, rfl⟩ :=
    result_stages_eq_ok_iff.mp hstages
  refine ⟨r₃, params, ?_, rfl, taken_of_extract h₄ ▸ paramsModule_of_putParams h₅⟩
  unfold prepared
  simp only [Logged.result_bind, bind_eq_ok_iff]
  exact ⟨r₀, h₀, r₁, h₁, r₂, h₂, h₃⟩

/-! ### The order of pushes -/

theorem ident?_of_typeName? {d : Decl} (h : d.typeName? = some n) : d.ident? = some n := by
  cases d with
  | struct s => exact h
  | enum e => exact h
  | _ => cases h

/-- The order by names keeps types of one name as they come. -/
theorem filter_mergeSort_byName (ds : List Decl) (n : Ident) :
    (ds.mergeSort byName).filter (Module.declares n) = ds.filter (Module.declares n) :=
  filter_mergeSort_key (fun d : Decl => Text.rank (d.ident?.getD ""))
    (fun d hd => by rw [ident?_of_typeName? (Module.declares_iff.mp hd), Option.getD_some]) ds

theorem typeDecl?_mergeSort_byName (ds : List Decl) (n : Ident) :
    typeDecl? (ds.mergeSort byName) n = typeDecl? ds n := by
  unfold typeDecl?
  rw [← List.head?_filter, ← List.head?_filter, filter_mergeSort_byName]

/-! ### The module of parameter objects -/

/-- Types of one name hold the same, impl blocks apart. -/
def SameNamedAgree (ds : List Decl) : Prop :=
  ∀ d ∈ ds, ∀ e ∈ ds, ∀ n, d.typeName? = some n → e.typeName? = some n → d.bare = e.bare

/-- A declaration stands in a list with all that it holds but impl blocks. -/
def StandsIn (d : Decl) (ds : List Decl) : Prop := ∃ e ∈ ds, e.bare = d.bare

theorem first_taken_kept (h : paramsModule s taken = .ok params) (n : Ident) :
    (typeDecl? params.decls n).map Decl.bare = (typeDecl? taken n).map Decl.bare := by
  obtain ⟨ds, hds, rfl⟩ := Module.ofDecls_eq_ok_iff.mp h
  rw [← typeDecl?_mergeSort_byName taken n]
  exact hds.map_bare_typeDecl? n

theorem nodup_typeNames_params (h : paramsModule s taken = .ok params) :
    (typeNames params.decls).Nodup := by
  obtain ⟨ds, hds, rfl⟩ := Module.ofDecls_eq_ok_iff.mp h
  exact hds.nodup_typeNames

theorem mem_typeNames_params (h : paramsModule s taken = .ok params) :
    n ∈ typeNames params.decls ↔ n ∈ typeNames taken := by
  rw [← Module.isSome_typeDecl?, ← Module.isSome_typeDecl?, ← Option.isSome_map (f := Decl.bare),
    first_taken_kept h, Option.isSome_map]

/-- A taken type stands in the module of parameter objects when it holds the same as the first
taken type of its name. -/
theorem standsIn_params_iff {d first : Decl} (h : paramsModule s taken = .ok params)
    (hn : d.typeName? = some n) (hfirst : typeDecl? taken n = some first) :
    StandsIn d params.decls ↔ first.bare = d.bare := by
  obtain ⟨kept, hkept, hbare⟩ : ∃ kept, typeDecl? params.decls n = some kept ∧
      kept.bare = first.bare := by
    rw [← Option.map_eq_some_iff, first_taken_kept h, hfirst, Option.map_some]
  rw [← hbare]
  constructor
  · rintro ⟨e, he, hed⟩
    have hne : e.typeName? = some n := by rw [← e.typeName?_bare, hed, d.typeName?_bare, hn]
    have hfound := Module.typeDecl?_eq_some (nodup_typeNames_params h) he hne
    rw [← Option.some.inj (hfound.symm.trans hkept), hed]
  · exact fun hd => ⟨kept, (Module.mem_of_typeDecl? hkept).1, hd⟩

/-- Every taken type stands in the module of parameter objects exactly when types of one name hold
the same. -/
theorem all_standIn_params_iff (h : paramsModule s taken = .ok params) :
    (∀ d ∈ taken, ∀ n, d.typeName? = some n → StandsIn d params.decls) ↔ SameNamedAgree taken := by
  constructor
  · intro hall d hd e he n hdn hen
    obtain ⟨first, hfirst⟩ := Module.exists_typeDecl? hd hdn
    exact ((standsIn_params_iff h hdn hfirst).mp (hall d hd n hdn)).symm.trans
      ((standsIn_params_iff h hen hfirst).mp (hall e he n hen))
  · intro hagree d hd n hdn
    obtain ⟨first, hfirst⟩ := Module.exists_typeDecl? hd hdn
    obtain ⟨hmem, hname⟩ := Module.mem_of_typeDecl? hfirst
    exact (standsIn_params_iff h hdn hfirst).mpr (hagree first hmem d hd n hname hdn)

/-- None of the taken types is left out exactly when their names differ. -/
theorem typeNames_params_perm_iff (h : paramsModule s taken = .ok params) :
    (typeNames params.decls).Perm (typeNames taken) ↔ (typeNames taken).Nodup := by
  refine ⟨fun hperm => hperm.nodup (nodup_typeNames_params h), fun hnodup => ?_⟩
  exact (List.perm_ext_iff_of_nodup (nodup_typeNames_params h) hnodup).mpr
    fun n => mem_typeNames_params h

/-- A successful run declares in its module of parameter objects the name of every type that it
takes out of an operation module, with the visibility, the attributes and the fields or variants
that the first taken type of that name had then.  So every taken type is there as it was exactly
when taken types of one name hold the same, and each is there on its own exactly when no two of
them have one name. -/
theorem parameter_objects_kept {cancelled : Bool} {out : Output}
    (hrun : (run s cancelled parts).result = .ok out) :
    ∃ r params, (prepared s parts).result = .ok r ∧ out.params.modules = [params] ∧
      (∀ n, (typeDecl? params.decls n).map Decl.bare =
        (typeDecl? (parameterObjects s r) n).map Decl.bare) ∧
      ((∀ d ∈ parameterObjects s r, ∀ n, d.typeName? = some n → StandsIn d params.decls) ↔
        SameNamedAgree (parameterObjects s r)) ∧
      ((typeNames params.decls).Perm (typeNames (parameterObjects s r)) ↔
        (typeNames (parameterObjects s r)).Nodup) := by
  obtain ⟨r, params, hr, hunit, hparams⟩ := paramsModule_of_run hrun
  exact ⟨r, params, hr, hunit, first_taken_kept hparams, all_standIn_params_iff hparams,
    typeNames_params_perm_iff hparams⟩

/-- The parameters of an operation that lists something. -/
def listParams (field : Field) : Decl := .struct { name := "ListParams", fields := [field] }

def limitParams : Decl := listParams { name := "limit", ty := .named "u32" }

def nameParams : Decl := listParams { name := "name", ty := .named "String" }

/-- Two operation modules with parameters of one name. -/
def listings : List Load.Part :=
  [⟨"apis", { name := "pets", origin := "pets.yaml", decls := [limitParams] }⟩,
    ⟨"apis", { name := "users", origin := "users.yaml", decls := [nameParams] }⟩]

/-- Their modules, merged. -/
def listed : Registry := ⟨listings.map fun p => mergedEntry p.group p.module⟩

theorem merged_listings : Merged listings listed :=
  ⟨_, rfl, mapM_eq_ok_iff.mpr (.cons (mergeParts_alone (Module.merge_singleton _))
    (.cons (mergeParts_alone (Module.merge_singleton _)) .nil))⟩

theorem result_prepared_listings : (prepared .usual listings).result = .ok listed := by
  unfold prepared
  rw [Logged.result_bind, bind_eq_ok_iff]
  exact ⟨listed, result_merge_eq_ok_iff.mpr merged_listings, rfl⟩

/-- The module that keeps the first parameters only. -/
def limits : Module := { name := "params", decls := [limitParams] }

theorem paramsModule_listings :
    paramsModule .usual (parameterObjects .usual listed) = .ok limits := by
  have hobjects : parameterObjects .usual listed = [limitParams, nameParams] := rfl
  rw [hobjects, paramsModule_of_sorted (by decide)]
  rfl

/-- What is left of an operation module that had nothing but its parameters. -/
def emptied (name : Ident) : Module :=
  { name := name, origin := name ++ ".yaml", decls := [.use (paramsImport .usual)] }

theorem exists_output_listings : ∃ out, (run .usual false listings).result = .ok out ∧
    out.params.modules = [limits] := by
  have hput : (putParams .usual
      ⟨[mergedEntry "apis" (emptied "pets"), mergedEntry "apis" (emptied "users")]⟩
      (parameterObjects .usual listed)).result =
        .ok (⟨[mergedEntry "params" limits, mergedEntry "apis" (emptied "pets"),
          mergedEntry "apis" (emptied "users")]⟩, limits) := by
    unfold putParams
    rw [paramsModule_listings]
    rfl
  have hbuilders : ∃ made, (builders .usual
      ⟨[mergedEntry "params" limits, mergedEntry "apis" (emptied "pets"),
        mergedEntry "apis" (emptied "users")]⟩ [limits]).result = .ok made := by
    unfold builders
    rw [Builder.generate_of_selected _ rfl]
    exact ⟨_, rfl⟩
  obtain ⟨made, hmade⟩ := hbuilders
  exact ⟨_, result_run_eq_ok_iff.mpr ⟨_, merged_listings, result_stages_eq_ok_iff.mpr
    ⟨_, rfl, _, rfl, _, rfl, _, _, rfl, _, _, hput, _, hmade, rfl⟩⟩, rfl⟩

theorem bare_limitParams_ne : limitParams.bare ≠ nameParams.bare := by
  simp [limitParams, nameParams, listParams, Decl.bare]

theorem nameParams_mem : nameParams ∈ parameterObjects .usual listed :=
  List.mem_cons_of_mem _ List.mem_cons_self

theorem parameter_objects_kept_listings : ∃ out params,
    (run .usual false listings).result = .ok out ∧ out.params.modules = [params] ∧
      (typeDecl? params.decls "ListParams").map Decl.bare = some limitParams ∧
      ¬ ∀ d ∈ parameterObjects .usual listed, ∀ n, d.typeName? = some n →
        StandsIn d params.decls := by
  obtain ⟨out, hout, -⟩ := exists_output_listings
  obtain ⟨r, params, hr, hunit, hfirst, hstand, -⟩ := parameter_objects_kept hout
  obtain rfl := Except.ok.inj (result_prepared_listings.symm.trans hr)
  refine ⟨out, params, hout, hunit, (hfirst "ListParams").trans rfl, fun hall => ?_⟩
  have hlimit : limitParams ∈ parameterObjects .usual listed := List.mem_cons_self
  exact bare_limitParams_ne
    (hstand.mp hall _ hlimit _ nameParams_mem "ListParams" rfl rfl)

/-- The parameters of the second module are lost: another declaration of their name stands in the
module of parameter objects. -/
theorem parameter_object_lost :
    ¬ ∀ out r params, (run .usual false listings).result = .ok out →
      (prepared .usual listings).result = .ok r → out.params.modules = [params] →
      ∀ d ∈ parameterObjects .usual r, ∀ n, d.typeName? = some n → StandsIn d params.decls := by
  intro hall
  obtain ⟨out, hout, hunit⟩ := exists_output_listings
  obtain ⟨e, he, hbare⟩ :=
    hall out listed limits hout result_prepared_listings hunit _ nameParams_mem "ListParams" rfl
  obtain rfl : e = limitParams := List.mem_singleton.mp he
  exact bare_limitParams_ne hbare

end Pipeline
end ClientLoom
