import ClientLoom.Pipeline
import ClientLoom.Proofs.Outcome

/-! # The stages, module by module

A stage runs over the merged modules of one group, in the order of their names, and changes no
other group (`stageOn_of_onGroup`).  So a successful run takes every merged module of its two
groups through the stages of the group, one after the other, independently of all other modules:
the models are stripped and pruned, and the operation modules are stripped, get their facades, are
pruned and give away their parameter objects (`journey_of_stages`). -/

namespace ClientLoom

theorem Logged.result_mapM {α β : Type} {f : α → Logged β} {xs : List α} :
    (xs.mapM f).result = xs.mapM fun x => (f x).result := by
  have hloop : ∀ acc, (List.mapM.loop f xs acc).result =
      List.mapM.loop (fun x => (f x).result) xs acc := by
    induction xs with
    | nil => exact fun _ => rfl
    | cons x xs ih =>
        intro acc
        unfold List.mapM.loop
        rw [Logged.result_bind]
        exact congrArg _ (funext fun y => ih (y :: acc))
  exact hloop []

namespace Pipeline

open Registry (Entry)

variable {α : Type} {r r' : Registry} {g : String} {f : Module → Logged (Module × α)}
  {s : Settings} {m m' : Module}

/-! ### One stage -/

/-- What a stage makes of a registry: the merged modules of one group are changed one by one, and
no other group changes. -/
structure StageOn (g : String) (R : Module → Module × α → Prop) (r r' : Registry)
    (told : List α) : Prop where
  changed : ∃ outs, List.Forall₂ R (r.group g).modules outs ∧
    (r'.group g).modules = outs.map Prod.fst ∧ told = outs.map Prod.snd
  others : ∀ g', g' ≠ g → r'.group g' = r.group g'

/-- What a stage makes of an entry. -/
def EntryStep (g : String) (f : Module → Logged (Module × α)) (e : Entry)
    (out : Entry × List α) : Prop :=
  (e.group = some g ∧ ∃ m m' a, e.merged = some m ∧ (f m).result = .ok (m', a) ∧
      out = ({ e with merged := some m' }, [a])) ∨
    (¬ (e.group = some g ∧ e.merged.isSome) ∧ out = (e, []))

theorem entrySteps_of_onGroup {told : List α} (h : (onGroup r g f).result = .ok (r', told)) :
    ∃ outs, List.Forall₂ (EntryStep g f) r.entries outs ∧ r'.entries = outs.map Prod.fst ∧
      told = outs.flatMap Prod.snd := by
  unfold onGroup at h
  rw [Logged.result_bind, bind_eq_ok_iff] at h
  obtain ⟨outs, houts, h⟩ := h
  obtain ⟨rfl, rfl⟩ := Prod.mk.inj (Except.ok.inj h)
  rw [Logged.result_mapM, mapM_eq_ok_iff] at houts
  refine ⟨outs, houts.imp fun e out hout => ?_, rfl, rfl⟩
  cases hm : e.merged with
  | none =>
      simp only [hm] at hout
      exact .inr ⟨by simp [hm], (Except.ok.inj hout).symm⟩
  | some m =>
      simp only [hm] at hout
      split at hout
      · next hg =>
          rw [Logged.result_bind, bind_eq_ok_iff] at hout
          obtain ⟨⟨m', a⟩, hf, hout⟩ := hout
          exact .inl ⟨hg, m, m', a, hm, hf, (Except.ok.inj hout).symm⟩
      · next hg => exact .inr ⟨fun h => hg h.1, (Except.ok.inj hout).symm⟩

/-- The merged modules of a group among entries. -/
def modulesOf (g : String) (es : List Entry) : List Module :=
  (es.filter (·.group == some g)).filterMap Entry.merged

theorem modulesOf_cons (e : Entry) (es : List Entry) :
    modulesOf g (e :: es) =
      (if e.group = some g then e.merged.toList else []) ++ modulesOf g es := by
  unfold modulesOf
  by_cases hg : e.group = some g
  · cases hm : e.merged <;> simp [hg, hm]
  · simp [hg]

theorem modulesOf_of_entrySteps {es : List Entry} {outs : List (Entry × List α)}
    (h : List.Forall₂ (EntryStep g f) es outs) :
    (∃ pairs, List.Forall₂ (fun m out => (f m).result = .ok out) (modulesOf g es) pairs ∧
        modulesOf g (outs.map Prod.fst) = pairs.map Prod.fst ∧
        outs.flatMap Prod.snd = pairs.map Prod.snd) ∧
      ∀ g', g' ≠ g → modulesOf g' (outs.map Prod.fst) = modulesOf g' es := by
  induction h with
  | nil => exact ⟨⟨[], .nil, rfl, rfl⟩, fun _ _ => rfl⟩
  | @cons e out es outs hstep _ ih =>
      obtain ⟨⟨pairs, hpairs, hmodules, htold⟩, hothers⟩ := ih
      rw [List.map_cons, List.flatMap_cons]
      rcases hstep with ⟨hg, m, m', a, hm, hf, rfl⟩ | ⟨hnot, rfl⟩
      · refine ⟨⟨(m', a) :: pairs, ?_, ?_, ?_⟩, fun g' hg' => ?_⟩
        · rw [modulesOf_cons, if_pos hg, hm]
          exact .cons hf hpairs
        · rw [modulesOf_cons, if_pos hg, hmodules]
          rfl
        · rw [htold]
          rfl
        · have hne : e.group ≠ some g' := fun h => hg' (Option.some.inj (h.symm.trans hg))
          rw [modulesOf_cons, modulesOf_cons, hothers g' hg', if_neg hne, if_neg hne]
      · have hnone : (if e.group = some g then e.merged.toList else []) = [] := by
          split
          · next hg =>
              cases hm : e.merged with
              | none => rfl
              | some m => exact absurd ⟨hg, by simp [hm]⟩ hnot
          · rfl
        refine ⟨⟨pairs, ?_, ?_, htold⟩, fun g' hg' => ?_⟩
        · rwa [modulesOf_cons, hnone]
        · rwa [modulesOf_cons, hnone]
        · rw [modulesOf_cons, modulesOf_cons, hothers g' hg']

/-- A stage over a group changes its modules one by one and no other group. -/
theorem stageOn_of_onGroup {told : List α} (h : (onGroup r g f).result = .ok (r', told)) :
    StageOn g (fun m out => (f m).result = .ok out) r r' told := by
  obtain ⟨outs, hsteps, hentries, rfl⟩ := entrySteps_of_onGroup h
  obtain ⟨hchanged, hothers⟩ := modulesOf_of_entrySteps hsteps
  have hgroup (g : String) : (r'.group g).modules = modulesOf g (outs.map Prod.fst) := by
    rw [← hentries]
    rfl
  refine ⟨?_, fun g' hg' => ?_⟩
  · obtain ⟨pairs, hpairs, hmodules, htold⟩ := hchanged
    exact ⟨pairs, hpairs, (hgroup g).trans hmodules, htold⟩
  · have hsame : (r'.group g').modules = (r.group g').modules :=
      (hgroup g').trans (hothers g' hg')
    unfold Registry.group at hsame ⊢
    rw [SourceFile.mk.injEq]
    exact ⟨rfl, rfl, hsame⟩

/-! ### What the stages make of a module -/

/-- The module with its paths stripped. -/
def Stripped (s : Settings) (m m' : Module) : Prop := (s.plan.apply m).1 = m'

/-- The module with its facade, if it is an operation module. -/
def Faceted (s : Settings) (m m' : Module) : Prop :=
  (Facade.applies m s.facade = true ∧ ∃ made, Facade.generate m s.facade = (m', .ok made)) ∨
    (Facade.applies m s.facade = false ∧ m' = m)

/-- The module after pruning. -/
def Pruned (s : Settings) (m m' : Module) : Prop := ∃ stats, Prune.run m s.prune = (m', .ok stats)

/-- The stages that a module of models goes through. -/
def ModelSteps (s : Settings) (m m' : Module) : Prop :=
  ∃ m₁, Stripped s m m₁ ∧ Pruned s m₁ m'

/-- The stages that an operation module goes through; in the end it gives away declarations. -/
def ApiSteps (s : Settings) (m : Module) (out : Module × List Decl) : Prop :=
  ∃ m₁ m₂ m₃, Stripped s m m₁ ∧ Faceted s m₁ m₂ ∧ Pruned s m₂ m₃ ∧ takeParams s m₃ = .ok out

theorem stripped_of_result {out : Module × Strip.Stats} (h : (strip s m).result = .ok out) :
    Stripped s m out.1 := by
  obtain rfl := Except.ok.inj h
  rfl

theorem faceted_of_result {out : Module × Bool} (h : (facade s m).result = .ok out) :
    Faceted s m out.1 := by
  unfold facade at h
  split at h
  · next happlies =>
      refine .inl ⟨happlies, ?_⟩
      rw [Logged.result_bind, Logged.result_ofExcept, bind_eq_ok_iff] at h
      obtain ⟨made, hmade, h⟩ := h
      obtain rfl := Except.ok.inj h
      exact ⟨made, Prod.ext rfl hmade⟩
  · next happlies =>
      obtain rfl := Except.ok.inj h
      exact .inr ⟨by simpa using happlies, rfl⟩

theorem pruned_of_result {out : Module × Unit} (h : (prune s m).result = .ok out) :
    Pruned s m out.1 := by
  unfold prune at h
  rw [Logged.result_bind, Logged.result_ofExcept, bind_eq_ok_iff] at h
  obtain ⟨stats, hstats, h⟩ := h
  refine ⟨stats, ?_⟩
  split at h
  · obtain rfl := Except.ok.inj h
    exact Prod.ext rfl hstats
  · obtain rfl := Except.ok.inj h
    exact Prod.ext rfl hstats

/-! ### All stages -/

/-- What the stages make of the merged modules of both groups. -/
structure Journey (s : Settings) (r : Registry) (out : Output) : Prop where
  models : List.Forall₂ (ModelSteps s) (r.group s.modelsGroup).modules out.models.modules
  apis : ∃ outs, List.Forall₂ (ApiSteps s) (r.group s.apisGroup).modules outs ∧
    out.apis.modules = outs.map Prod.fst ∧
    ∃ params, paramsModule s (outs.flatMap Prod.snd) = .ok params ∧ out.params.modules = [params]

/-- A stage that tells nothing of interest relates the modules of a group one by one. -/
theorem StageOn.forall₂ {R : Module → Module × α → Prop} {S : Module → Module → Prop}
    {told : List α} (h : StageOn g R r r' told) (hR : ∀ m out, R m out → S m out.1) :
    List.Forall₂ S (r.group g).modules (r'.group g).modules := by
  obtain ⟨outs, houts, hmodules, -⟩ := h.changed
  rw [hmodules, List.forall₂_map_right_iff]
  exact houts.imp hR

theorem forall₂_of_stripAll (hgroups : s.modelsGroup ≠ s.apisGroup)
    (h : (stripAll s r).result = .ok r') :
    List.Forall₂ (Stripped s) (r.group s.modelsGroup).modules (r'.group s.modelsGroup).modules ∧
      List.Forall₂ (Stripped s) (r.group s.apisGroup).modules (r'.group s.apisGroup).modules := by
  unfold stripAll at h
  rw [Logged.result_bind, bind_eq_ok_iff] at h
  obtain ⟨⟨r₁, models⟩, h₁, h⟩ := h
  rw [Logged.result_bind, bind_eq_ok_iff] at h
  obtain ⟨⟨r₂, apis⟩, h₂, h⟩ := h
  obtain rfl := Except.ok.inj h
  have hmodels := stageOn_of_onGroup h₁
  have hapis := stageOn_of_onGroup h₂
  refine ⟨?_, ?_⟩
  · rw [hapis.others _ hgroups]
    exact hmodels.forall₂ fun _ _ => stripped_of_result
  · rw [← hmodels.others _ hgroups.symm]
    exact hapis.forall₂ fun _ _ => stripped_of_result

theorem forall₂_of_facades (hgroups : s.modelsGroup ≠ s.apisGroup)
    (h : (facades s r).result = .ok r') :
    r'.group s.modelsGroup = r.group s.modelsGroup ∧
      List.Forall₂ (Faceted s) (r.group s.apisGroup).modules (r'.group s.apisGroup).modules := by
  unfold facades at h
  rw [Logged.result_bind, bind_eq_ok_iff] at h
  obtain ⟨⟨r₁, made⟩, h₁, h⟩ := h
  obtain rfl := Except.ok.inj h
  have hapis := stageOn_of_onGroup h₁
  exact ⟨hapis.others _ hgroups, hapis.forall₂ fun _ _ => faceted_of_result⟩

theorem forall₂_of_pruneAll (hgroups : s.modelsGroup ≠ s.apisGroup)
    (h : (pruneAll s r).result = .ok r') :
    List.Forall₂ (Pruned s) (r.group s.modelsGroup).modules (r'.group s.modelsGroup).modules ∧
      List.Forall₂ (Pruned s) (r.group s.apisGroup).modules (r'.group s.apisGroup).modules := by
  unfold pruneAll at h
  rw [Logged.result_bind, bind_eq_ok_iff] at h
  obtain ⟨⟨r₁, models⟩, h₁, h⟩ := h
  rw [Logged.result_bind, bind_eq_ok_iff] at h
  obtain ⟨⟨r₂, apis⟩, h₂, h⟩ := h
  obtain rfl := Except.ok.inj h
  have hmodels := stageOn_of_onGroup h₁
  have hapis := stageOn_of_onGroup h₂
  refine ⟨?_, ?_⟩
  · rw [hapis.others _ hgroups]
    exact hmodels.forall₂ fun _ _ => pruned_of_result
  · rw [← hmodels.others _ hgroups.symm]
    exact hapis.forall₂ fun _ _ => pruned_of_result

theorem stageOn_of_extract {taken : List Decl} (h : (extract s r).result = .ok (r', taken)) :
    ∃ told, StageOn s.apisGroup (fun m out => takeParams s m = .ok out) r r' told ∧
      taken = told.flatten := by
  unfold extract at h
  rw [Logged.result_bind, bind_eq_ok_iff] at h
  obtain ⟨⟨r₁, told⟩, h₁, h⟩ := h
  obtain ⟨rfl, rfl⟩ := Prod.mk.inj (Except.ok.inj h)
  exact ⟨told, stageOn_of_onGroup h₁, rfl⟩

theorem exists_outs_of_extract {taken : List Decl} (hgroups : s.modelsGroup ≠ s.apisGroup)
    (h : (extract s r).result = .ok (r', taken)) :
    r'.group s.modelsGroup = r.group s.modelsGroup ∧
      ∃ outs, List.Forall₂ (fun m out => takeParams s m = .ok out)
          (r.group s.apisGroup).modules outs ∧
        (r'.group s.apisGroup).modules = outs.map Prod.fst ∧ taken = outs.flatMap Prod.snd := by
  obtain ⟨told, hapis, rfl⟩ := stageOn_of_extract h
  obtain ⟨outs, houts, hmodules, rfl⟩ := hapis.changed
  exact ⟨hapis.others _ hgroups, outs, houts, hmodules, by rw [List.flatMap_def]⟩

/-! ### What every module keeps -/

section keeps

variable {S : Module → Module → Prop}

/-- Where a stage relates what it changes to what was there, all modules are so related. -/
theorem StageOn.keeps {R : Module → Module × α → Prop} {told : List α} (hrefl : ∀ m, S m m)
    (h : StageOn g R r r' told) (hR : ∀ m out, R m out → S m out.1) (g' : String) :
    List.Forall₂ S (r.group g').modules (r'.group g').modules := by
  by_cases hg : g' = g
  · exact hg ▸ h.forall₂ hR
  · rw [h.others g' hg]
    exact List.forall₂_same.mpr fun m _ => hrefl m

theorem keeps_of_stripAll (hrefl : ∀ m, S m m) (htrans : ∀ a b c, S a b → S b c → S a c)
    (hS : ∀ m m', Stripped s m m' → S m m') (h : (stripAll s r).result = .ok r') (g : String) :
    List.Forall₂ S (r.group g).modules (r'.group g).modules := by
  unfold stripAll at h
  rw [Logged.result_bind, bind_eq_ok_iff] at h
  obtain ⟨⟨r₁, models⟩, h₁, h⟩ := h
  rw [Logged.result_bind, bind_eq_ok_iff] at h
  obtain ⟨⟨r₂, apis⟩, h₂, h⟩ := h
  obtain rfl := Except.ok.inj h
  have hmodels := (stageOn_of_onGroup h₁).keeps hrefl (fun _ _ h => hS _ _ (stripped_of_result h)) g
  have hapis := (stageOn_of_onGroup h₂).keeps hrefl (fun _ _ h => hS _ _ (stripped_of_result h)) g
  exact (forall₂_comp hmodels hapis).imp fun _ _ ⟨_, h, h'⟩ => htrans _ _ _ h h'

theorem keeps_of_facades (hrefl : ∀ m, S m m) (hS : ∀ m m', Faceted s m m' → S m m')
    (h : (facades s r).result = .ok r') (g : String) :
    List.Forall₂ S (r.group g).modules (r'.group g).modules := by
  unfold facades at h
  rw [Logged.result_bind, bind_eq_ok_iff] at h
  obtain ⟨⟨r₁, made⟩, h₁, h⟩ := h
  obtain rfl := Except.ok.inj h
  exact (stageOn_of_onGroup h₁).keeps hrefl (fun _ _ h => hS _ _ (faceted_of_result h)) g

theorem keeps_of_pruneAll (hrefl : ∀ m, S m m) (htrans : ∀ a b c, S a b → S b c → S a c)
    (hS : ∀ m m', Pruned s m m' → S m m') (h : (pruneAll s r).result = .ok r') (g : String) :
    List.Forall₂ S (r.group g).modules (r'.group g).modules := by
  unfold pruneAll at h
  rw [Logged.result_bind, bind_eq_ok_iff] at h
  obtain ⟨⟨r₁, models⟩, h₁, h⟩ := h
  rw [Logged.result_bind, bind_eq_ok_iff] at h
  obtain ⟨⟨r₂, apis⟩, h₂, h⟩ := h
  obtain rfl := Except.ok.inj h
  have hmodels := (stageOn_of_onGroup h₁).keeps hrefl (fun _ _ h => hS _ _ (pruned_of_result h)) g
  have hapis := (stageOn_of_onGroup h₂).keeps hrefl (fun _ _ h => hS _ _ (pruned_of_result h)) g
  exact (forall₂_comp hmodels hapis).imp fun _ _ ⟨_, h, h'⟩ => htrans _ _ _ h h'

end keeps

/-- What is taken in the order of names is pushed as it comes. -/
theorem paramsModule_of_sorted {taken : List Decl} (h : taken.Pairwise fun a b => byName a b) :
    paramsModule s taken = settled (({ name := s.paramsModule } : Module).pushAll taken) := by
  rw [paramsModule, List.mergeSort_of_pairwise h]

theorem paramsModule_of_putParams {taken : List Decl} {params : Module}
    (h : (putParams s r taken).result = .ok (r', params)) :
    paramsModule s taken = .ok params := by
  unfold putParams at h
  rw [Logged.result_bind, Logged.result_ofExcept, bind_eq_ok_iff] at h
  obtain ⟨m, hm, h⟩ := h
  rw [Logged.result_bind, Logged.result_ofExcept, bind_eq_ok_iff] at h
  obtain ⟨r₁, -, h⟩ := h
  obtain ⟨-, rfl⟩ := Prod.mk.inj (Except.ok.inj h)
  exact locate_eq_ok_iff.mp hm

theorem result_stages_eq_ok_iff {out : Output} :
    (stages s false r).result = .ok out ↔
      ∃ r₁, (stripAll s r).result = .ok r₁ ∧ ∃ r₂, (facades s r₁).result = .ok r₂ ∧
      ∃ r₃, (pruneAll s r₂).result = .ok r₃ ∧
      ∃ r₄ taken, (extract s r₃).result = .ok (r₄, taken) ∧
      ∃ r₅ params, (putParams s r₄ taken).result = .ok (r₅, params) ∧
      ∃ made, (builders s r₅ (params :: (r₄.group s.modelsGroup).modules)).result = .ok made ∧
        { models := { r₄.group s.modelsGroup with name := "models" }
          apis := { r₄.group s.apisGroup with name := "apis" }
          params := { name := paramsUnit, modules := [params] }
          builders := { name := buildersUnit, modules := [made] } } = out := by
  unfold stages
  simp only [Bool.false_eq_true, if_false, Logged.result_bind, Logged.result_pure, bind_eq_ok_iff,
    Prod.exists, Except.ok.injEq]

/-- A run of the stages that is cancelled fails. -/
theorem eq_false_of_stages {cancelled : Bool} {out : Output}
    (h : (stages s cancelled r).result = .ok out) : cancelled = false := by
  cases cancelled with
  | false => rfl
  | true => cases h

/-- A successful run of the stages takes every merged module through those of its group. -/
theorem journey_of_stages {cancelled : Bool} {out : Output}
    (hgroups : s.modelsGroup ≠ s.apisGroup) (h : (stages s cancelled r).result = .ok out) :
    Journey s r out := by
  obtain rfl := eq_false_of_stages h
  obtain ⟨r₁, h₁, r₂, h₂, r₃, h₃, r₄, taken, h₄, r₅, params, h₅, made, -, rfl⟩ :=
    result_stages_eq_ok_iff.mp h
  obtain ⟨hmodels₁, hapis₁⟩ := forall₂_of_stripAll hgroups h₁
  obtain ⟨hmodels₂, hapis₂⟩ := forall₂_of_facades hgroups h₂
  obtain ⟨hmodels₃, hapis₃⟩ := forall₂_of_pruneAll hgroups h₃
  obtain ⟨hmodels₄, outs, houts, hmodules, rfl⟩ := exists_outs_of_extract hgroups h₄
  refine ⟨?_, outs, ?_, hmodules, params, paramsModule_of_putParams h₅, rfl⟩
  · show List.Forall₂ (ModelSteps s) _ (r₄.group s.modelsGroup).modules
    rw [hmodels₄]
    rw [hmodels₂] at hmodels₃
    exact forall₂_comp hmodels₁ hmodels₃
  · exact (forall₂_comp hapis₁ (forall₂_comp hapis₂ (forall₂_comp hapis₃ houts))).imp
      fun _ _ ⟨m₁, h₁, m₂, h₂, m₃, h₃, h₄⟩ => ⟨m₁, m₂, m₃, h₁, h₂, h₃, h₄⟩

end Pipeline
end ClientLoom
