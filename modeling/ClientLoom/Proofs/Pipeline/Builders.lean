import ClientLoom.Proofs.Builder.Generation
import ClientLoom.Proofs.Module.Replay
import ClientLoom.Proofs.Pipeline.TypeNames

/-! # The module of builders

A run generates builders from the module of parameter objects and the modules of models behind it,
which come in the order of their names (`models_increasing_of_run`).  The builders have distinct
names and bring no impl blocks, so that each of them is pushed as it is
(`buildersModule_eq_ok`).

Main statement: what is generated from any modules is complete, sorted and without repetitions, and
so is what a successful run leaves in its module of builders (`builders_complete`). -/

namespace ClientLoom
namespace Pipeline

open Builder (Generated firstStruct?)
open ClientLoom.Module (Makes Tidy outline)

variable {s : Settings} {r r' : Registry} {parts : List Load.Part} {ms : List Module}
  {structs : List Struct}

/-! ### Pushing builders -/

theorem typeNames_structs (structs : List Struct) :
    Module.typeNames (structs.map .struct) = structs.map Struct.name := by
  unfold Module.typeNames
  rw [List.filterMap_map]
  exact congrFun List.filterMap_eq_map structs

/-- Structs of distinct names are pushed as they are. -/
theorem makes_structs (h : (structs.map Struct.name).Nodup) :
    Makes (structs.map .struct) (structs.map .struct) := by
  induction structs using List.reverseRecOn with
  | nil => exact Module.makes_nil
  | append_singleton structs b ih =>
      rw [List.map_append, List.nodup_append] at h
      have hnew : b.name ∉ Module.typeNames (structs.map .struct) := by
        rw [typeNames_structs]
        exact fun hb => h.2.2 _ hb _ List.mem_cons_self rfl
      have hwait : ∀ i, Decl.impl i ∈ structs.map .struct → i.self ≠ b.name := by simp
      rw [List.map_append, List.map_singleton]
      exact Module.makes_concat_iff.mpr ⟨_, ih h.1, Module.pushType_of_fresh hnew hwait b.impls⟩

theorem buildersModule_eq_ok (h : (structs.map Struct.name).Nodup) :
    buildersModule s structs =
      .ok { name := s.builderModule, decls := structs.map .struct } :=
  Module.ofDecls_eq_ok_iff.mpr ⟨_, makes_structs h, rfl⟩

/-- The stage of builders leaves the module of what is generated. -/
theorem eq_of_builders {made : Module} (h : (builders s r ms).result = .ok made) :
    made =
      { name := s.builderModule
        decls := (Builder.generate s.rules s.builderEndings ms).map .struct } := by
  have hdistinct :
      ((Builder.generate s.rules s.builderEndings ms).map Struct.name).Nodup :=
    List.pairwise_map.mpr ((Builder.generated _ _ _).increasing.imp Text.ne_of_rank_lt)
  unfold builders at h
  simp only [Logged.result_bind, Logged.result_ofExcept, buildersModule_eq_ok hdistinct,
    bind_eq_ok_iff, locate_eq_ok_iff] at h
  obtain ⟨-, -, m, hm, -, -, -, -, h⟩ := h
  exact (Except.ok.inj h).symm.trans (Except.ok.inj hm).symm

/-! ### The names of the models -/

/-- The modules of models come in the order of their names, whatever the settings are. -/
theorem models_increasing_of_run {cancelled : Bool} {out : Output}
    (hrun : (run s cancelled parts).result = .ok out) :
    out.models.modules.Pairwise fun a b => Text.rank a.name < Text.rank b.name := by
  obtain ⟨r₀, hmerged, hstages⟩ := result_run_eq_ok_iff.mp hrun
  obtain rfl := eq_false_of_stages hstages
  obtain ⟨r₁, h₁, r₂, h₂, r₃, h₃, r₄, taken, h₄, r₅, params, -, made, -, rfl⟩ :=
    result_stages_eq_ok_iff.mp hstages
  -- every stage keeps the names of modules
  have hrefl (m : Module) : m.name = m.name := rfl
  have htrans (a b c : Module) : a.name = b.name → b.name = c.name → a.name = c.name := Eq.trans
  obtain ⟨told, hextract, -⟩ := stageOn_of_extract h₄
  have h₁ := keeps_of_stripAll hrefl htrans (fun _ _ h => h.sameTypes.name_eq.symm) h₁
    s.modelsGroup
  have h₂ := keeps_of_facades hrefl (fun _ _ h => h.kinds.1.symm) h₂ s.modelsGroup
  have h₃ := keeps_of_pruneAll hrefl htrans (fun _ _ h => h.kinds.1.symm) h₃ s.modelsGroup
  have h₄ := hextract.keeps (S := fun a b => a.name = b.name) hrefl
    (fun _ _ h => (takeParams_kinds h).1.symm) s.modelsGroup
  have hnames : List.Forall₂ (fun a b : Module => a.name = b.name)
      (r₀.group s.modelsGroup).modules (r₄.group s.modelsGroup).modules :=
    (forall₂_comp h₁ (forall₂_comp h₂ (forall₂_comp h₃ h₄))).imp
      fun _ _ ⟨_, h₁, _, h₂, _, h₃, h₄⟩ => h₁.trans (h₂.trans (h₃.trans h₄))
  exact pairwise_of_forall₂_eq (R := fun m n => Text.rank m < Text.rank n)
    (hmerged.orderly.group_increasing s.modelsGroup) hnames

/-! ### Runs -/

/-- A run leaves in its module of builders what is generated from the parameter objects and the
models. -/
theorem builders_of_run {cancelled : Bool} {out : Output}
    (hrun : (run s cancelled parts).result = .ok out) :
    ∃ params, out.params.modules = [params] ∧ out.builders.modules =
      [{ name := s.builderModule
         decls := (Builder.generate s.rules s.builderEndings
           (params :: out.models.modules)).map .struct }] := by
  obtain ⟨r₀, -, hstages⟩ := result_run_eq_ok_iff.mp hrun
  obtain rfl := eq_false_of_stages hstages
  obtain ⟨r₁, -, r₂, -, r₃, -, r₄, taken, -, r₅, params, -, made, hmade, rfl⟩ :=
    result_stages_eq_ok_iff.mp hstages
  exact ⟨params, rfl, congrArg (fun m => [m]) (eq_of_builders hmade)⟩

/-- Generation from modules succeeds, whatever the rules, the endings and the modules are: it gives
builders in strictly increasing order, one for every name of a struct with one of the endings, and
each of them is built from the first struct of its name in the order of modules and declarations.
So after a successful run the module of builders declares exactly those structs for the parameter
objects and the models.  They have no impl blocks, they are in that order, and each is built from
the parameter objects when these have its name, and otherwise from the first module of models by
name that does. -/
theorem builders_complete :
    (∀ (rules : List Builder.Rule) (endings : List String) (ms : List Module), ∃ out,
      Builder.generateSelected rules (Builder.hasEnding endings) ms = .ok out ∧
        Generated rules endings ms out) ∧
      ∀ (s : Settings) (cancelled : Bool) (parts : List Load.Part) (out : Output),
        (run s cancelled parts).result = .ok out → ∃ params structs,
          out.params.modules = [params] ∧
          out.models.modules.Pairwise (fun a b => Text.rank a.name < Text.rank b.name) ∧
          out.builders.modules = [{ name := s.builderModule, decls := structs.map .struct }] ∧
          Generated s.rules s.builderEndings (params :: out.models.modules) structs ∧
          ∀ b ∈ structs, b.impls = [] ∧ ∃ source,
            (params.struct? b.name).or (firstStruct? out.models.modules b.name) = some source ∧
              Builder.build s.rules (.struct source) = .ok b := by
  refine ⟨fun rules endings ms => ⟨_, Builder.generateSelected_hasEnding rules endings ms,
    Builder.generated rules endings ms⟩, fun s cancelled parts out hrun => ?_⟩
  obtain ⟨params, hparams, hbuilders⟩ := builders_of_run hrun
  have hgenerated := Builder.generated s.rules s.builderEndings (params :: out.models.modules)
  refine ⟨params, _, hparams, models_increasing_of_run hrun, hbuilders, hgenerated,
    fun b hb => ?_⟩
  obtain ⟨source, hsource, hbuild⟩ := hgenerated.built b hb
  refine ⟨?_, source, ?_, hbuild⟩
  · rw [← Except.ok.inj hbuild]
    rfl
  · rw [← hsource, Builder.firstStruct?_cons]

theorem builders_complete_shop : ∃ (out : Output) (structs : List Struct),
    (run .usual false shopParts).result = .ok out ∧
      out.builders.modules = [{ name := "builders", decls := structs.map .struct }] ∧
      "FindParams" ∈ structs.map Struct.name ∧ "Pet" ∉ structs.map Struct.name := by
  obtain ⟨out, hout, hmodels, -, hunit⟩ := exists_output_shop
  obtain ⟨params, structs, hparams, -, hbuilders, hgenerated, -⟩ :=
    builders_complete.2 _ _ _ _ hout
  obtain rfl : params = findParams := List.singleton_inj.mp (hparams.symm.trans hunit)
  refine ⟨out, structs, hout, hbuilders, ?_, fun hpet => ?_⟩
  · exact (hgenerated.mem_names _).mpr ⟨by decide, findParams, List.mem_cons_self,
      { name := "FindParams" }, List.mem_cons_self, rfl⟩
  · exact absurd ((hgenerated.mem_names _).mp hpet).1 (by decide)

end Pipeline
end ClientLoom
