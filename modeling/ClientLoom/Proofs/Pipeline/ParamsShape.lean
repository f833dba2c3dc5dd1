import ClientLoom.Proofs.Module.Attaching
import ClientLoom.Proofs.Module.MergeAgain
import ClientLoom.Proofs.Pipeline.Extraction

/-! # The shape of what is extracted

Parameter objects are structs, enums and free functions whose names end as the settings say.  A run
takes them out of the operation modules.  Neither imports nor impl blocks are among them, so that
pushing them in the order of their names gives the first type of each name and every function, in
that order (`gathered_of_paramsModule`).

The other side is what is left of the operation modules.  Stripping removes the imports that are to
be dropped and changes no other (`dropped_of_stripped`), facades and pruning keep all imports, and
a module that loses something gets the import of the parameter objects, behind the imports that it
has (`left_of_takeParams`). -/

namespace ClientLoom
namespace Pipeline

open ClientLoom.Module (Built Makes Tidy firsts outline typeNames)

variable {s : Settings} {r r' : Registry} {m m' : Module} {taken : List Decl} {params : Module}
  {parts : List Load.Part} {u : Use}

/-! ### Parameter objects -/

/-- A parameter object: a struct, an enum or a function whose name has the ending. -/
def IsParam (s : Settings) (d : Decl) : Prop :=
  d.kind ∈ [.struct, .enum, .func] ∧
    ∃ n, d.ident? = some n ∧ Text.endsWith n s.paramsEnding = true

theorem nameEndsWith_iff {d : Decl} : d.nameEndsWith s.paramsEnding = true ↔ IsParam s d := by
  unfold IsParam
  cases d <;> simp [Decl.nameEndsWith, Decl.ident?, Decl.kind]

theorem isParam_bare {d : Decl} : IsParam s d.bare ↔ IsParam s d := by
  unfold IsParam
  cases d <;> exact Iff.rfl

theorem not_isParam_use : ¬ IsParam s (.use u) := fun h => by simp [IsParam, Decl.kind] at h

/-- What a run of pushes gives without imports and impl blocks. -/
theorem outline_of_params {items ds : List Decl} (h : Makes items ds)
    (hitems : ∀ d ∈ items, IsParam s d) : outline ds = firsts (outline items) := by
  have huse : (outline items).filter Decl.isUse = [] := by
    refine List.filter_eq_nil_iff.mpr fun d hd => ?_
    obtain ⟨e, he, rfl⟩ := List.mem_map.mp hd
    have hkind := (hitems e he).1
    cases e <;> simp_all [Decl.kind, Decl.isUse, Decl.bare]
  have hstands (names : List Ident) :
      (outline items).filter (Module.stands names) = outline items := by
    refine List.filter_eq_self.mpr fun d hd => ?_
    obtain ⟨e, he, rfl⟩ := List.mem_map.mp hd
    have hkind := (hitems e he).1
    cases e <;> simp_all [Decl.kind, Module.stands, Decl.bare]
  rw [h.outline_eq, Module.arrange, huse, hstands]
  rfl

/-- What the module of parameter objects holds when `taken` was taken out of operation modules. -/
structure Gathered (s : Settings) (taken : List Decl) (params : Module) : Prop where
  isParam : ∀ d ∈ params.decls, IsParam s d
  sorted : params.decls.Pairwise
    fun a b => Text.rank (a.ident?.getD "") ≤ Text.rank (b.ident?.getD "")
  typesDistinct : (typeNames params.decls).Nodup
  /-- every function is there, as often as it was taken -/
  funcs : (params.decls.filterMap Decl.func?).Perm (taken.filterMap Decl.func?)

theorem ident?_bare (d : Decl) : d.bare.ident? = d.ident? := by cases d <;> rfl

theorem func?_bare (d : Decl) : d.bare.func? = d.func? := by cases d <;> rfl

theorem gathered_of_paramsModule (h : paramsModule s taken = .ok params)
    (htaken : ∀ d ∈ taken, IsParam s d) : Gathered s taken params := by
  have hdistinct := nodup_typeNames_params h
  obtain ⟨ds, hds, rfl⟩ := Module.ofDecls_eq_ok_iff.mp h
  have hperm := List.mergeSort_perm taken byName
  have houtline := outline_of_params hds fun d hd => htaken d (hperm.mem_iff.mp hd)
  refine ⟨fun d hd => ?_, ?_, hdistinct, ?_⟩
  · have hbare : d.bare ∈ firsts (outline (taken.mergeSort byName)) :=
      houtline ▸ List.mem_map_of_mem hd
    obtain ⟨e, he, hed⟩ := List.mem_map.mp (Module.firsts_subset hbare)
    exact isParam_bare.mp (hed ▸ isParam_bare.mpr (htaken e (hperm.mem_iff.mp he)))
  · have hsorted : (outline (taken.mergeSort byName)).Pairwise fun a b =>
        Text.rank (a.ident?.getD "") ≤ Text.rank (b.ident?.getD "") := by
      refine List.pairwise_map.mpr ?_
      simp only [ident?_bare]
      exact (List.pairwise_mergeSort (key_le_trans fun d : Decl => Text.rank (d.ident?.getD ""))
        (key_le_total fun d : Decl => Text.rank (d.ident?.getD "")) taken).imp
          fun h => of_decide_eq_true h
    have hdecls := hsorted.sublist (Module.firsts_sublist _)
    rw [← houtline, outline, List.pairwise_map] at hdecls
    simpa only [ident?_bare] using hdecls
  · have hfuncs : ds.filterMap Decl.func? = (taken.mergeSort byName).filterMap Decl.func? := by
      have hslot (d : Decl) (hd : d.slot?.isSome) : d.func? = none := by
        cases d <;> first | rfl | cases hd
      rw [← Module.filterMap_outline func?_bare, houtline, Module.filterMap_firsts hslot,
        Module.filterMap_outline func?_bare]
    exact hfuncs ▸ hperm.filterMap Decl.func?

theorem isParam_of_parameterObjects {d : Decl} (h : d ∈ parameterObjects s r) : IsParam s d := by
  obtain ⟨m, -, hd⟩ := List.mem_flatMap.mp h
  exact nameEndsWith_iff.mp (List.mem_filter.mp hd).2

/-! ### Imports -/

/-- The imports of a module, in order. -/
def uses (m : Module) : List Use := m.decls.filterMap Decl.use?

theorem mem_use? {ds : List Decl} : u ∈ ds.filterMap Decl.use? ↔ .use u ∈ ds := by
  rw [List.mem_filterMap]
  constructor
  · rintro ⟨d, hd, hu⟩
    cases d with
    | use v => exact Option.some.inj hu ▸ hd
    | _ => cases hu
  · exact fun h => ⟨_, h, rfl⟩

theorem mem_uses : u ∈ uses m ↔ .use u ∈ m.decls := mem_use?

/-- A change of a module that leaves its imports alone. -/
structure SameUses (m m' : Module) : Prop where
  name_eq : m'.name = m.name
  uses_eq : uses m' = uses m
  built : Built m → Built m'

theorem SameUses.refl (m : Module) : SameUses m m := ⟨rfl, rfl, id⟩

theorem SameUses.trans {m'' : Module} (h : SameUses m m') (h' : SameUses m' m'') :
    SameUses m m'' :=
  ⟨h'.name_eq.trans h.name_eq, h'.uses_eq.trans h.uses_eq, h'.built ∘ h.built⟩

theorem filterMap_use?_filter {p : Decl → Bool} {ds : List Decl} (h : ∀ u, p (.use u) = true) :
    (ds.filter p).filterMap Decl.use? = ds.filterMap Decl.use? := by
  rw [List.filterMap_filter]
  congr 1
  funext d
  cases d with
  | use u => exact if_pos (h u)
  | _ => exact ite_self none

theorem uses_of_keeps (h : List.Forall₂ Decl.Keeps m.decls m'.decls) : uses m' = uses m :=
  Module.filterMap_eq_of_forall₂ h fun _ _ hkeeps => hkeeps.use

/-- A push of anything but an import leaves the imports alone. -/
theorem use?_of_pushDecl {ds es : List Decl} {d : Decl} (hd : d.isUse = false)
    (h : Module.pushDecl ds d = (es, .ok ())) :
    es.filterMap Decl.use? = ds.filterMap Decl.use? := by
  have hwaiting (n : Ident) (ds : List Decl) :
      (Module.notWaiting n ds).filterMap Decl.use? = ds.filterMap Decl.use? :=
    filterMap_use?_filter fun _ => rfl
  have hplace (ds : List Decl) :
      (Module.place ds d.bare).filterMap Decl.use? = ds.filterMap Decl.use? := by
    cases d with
    | use u => cases hd
    | func f => simp [Decl.bare, Module.place, Decl.use?]
    | verbatim text => simp [Decl.bare, Module.place, Decl.use?]
    | _ =>
        unfold Decl.bare Module.place
        dsimp only
        split <;> simp [hwaiting, Decl.use?]
  rw [← Module.filterMap_outline Decl.use?_bare, Module.outline_pushDecl h, hplace,
    Module.filterMap_outline Decl.use?_bare]

theorem Faceted.sameUses (h : Faceted s m m') : SameUses m m' := by
  refine ⟨h.kinds.1, ?_, fun hm => ?_⟩
  · rcases h with ⟨-, made, hmade⟩ | ⟨-, rfl⟩
    · obtain ⟨methods, hpush⟩ := generate_pushes hmade
      obtain ⟨ds, hstruct, rfl⟩ := Module.exists_of_pushAll_pair hpush
      have hrest : uses (m.without (Facade.isOperation (Facade.stem m.name s.facade.ending))) =
          uses m := filterMap_use?_filter fun _ => rfl
      have himpl (i : Impl) : Module.pushDecl ds (.impl i) = (Module.pushImpl ds i, .ok ()) := rfl
      exact (use?_of_pushDecl rfl (himpl _)).trans ((use?_of_pushDecl rfl hstruct).trans hrest)
    · rfl
  · rcases h with ⟨-, made, hmade⟩ | ⟨-, rfl⟩
    · have hstep := hm.step (.facade s.facade)
      rwa [hmade] at hstep
    · exact hm

theorem Pruned.sameUses (h : Pruned s m m') : SameUses m m' := by
  obtain ⟨stats, hrun⟩ := h
  obtain rfl := congrArg Prod.fst hrun
  refine ⟨Pruned.kinds ⟨stats, hrun⟩ |>.1, ?_, fun hm => hm.step (.prune s.prune)⟩
  rcases Module.prune_cases m s.prune with hsame | hpruned
  · rw [hsame]
  · have hrest : uses ((m.modifyStruct s.prune.struct (Prune.pruneStruct s.prune)).without
        (Prune.isAux s.prune.auxStructs)) =
          uses (m.modifyStruct s.prune.struct (Prune.pruneStruct s.prune)) :=
      filterMap_use?_filter fun _ => rfl
    rw [hpruned]
    exact hrest.trans (uses_of_keeps (Module.keeps_pruneStruct m s.prune))

/-! ### Dropped imports -/

/-- No import of a module starts with a path whose imports are to be dropped. -/
def Dropped (s : Settings) (m : Module) : Prop :=
  ∀ u ∈ uses m, ∀ lead ∈ s.plan.drop, u.path.startsWith lead = false

theorem mem_uses_foldl_dropStep {leads : List Path} {acc : Module × Strip.Stats}
    (h : u ∈ uses (leads.foldl Strip.dropStep acc).1) :
    u ∈ uses acc.1 ∧ ∀ lead ∈ leads, u.path.startsWith lead = false := by
  induction leads generalizing acc with
  | nil => exact ⟨h, by simp⟩
  | cons lead leads ih =>
      obtain ⟨hu, hleads⟩ := ih h
      obtain ⟨hmem, hlead⟩ := List.mem_filter.mp (mem_uses.mp hu)
      refine ⟨mem_uses.mpr hmem, List.forall_mem_cons.mpr ⟨?_, hleads⟩⟩
      simpa [Strip.importsFrom] using hlead

theorem uses_foldl_stripStep (leads : List Path) (acc : Module × Strip.Stats) :
    uses (leads.foldl Strip.stripStep acc).1 = uses acc.1 := by
  induction leads generalizing acc with
  | nil => rfl
  | cons lead leads ih =>
      rw [List.foldl_cons, ih]
      exact (uses_of_keeps (Module.keeps_stripBodies _ lead)).trans
        (uses_of_keeps (Module.keeps_stripDecls acc.1 lead))

theorem dropped_of_stripped (h : Stripped s m m') : Dropped s m' := by
  subst h
  intro u hu
  unfold Strip.Plan.apply at hu
  rw [uses_foldl_stripStep] at hu
  exact (mem_uses_foldl_dropStep hu).2

theorem Stripped.built (h : Stripped s m m') (hm : Built m) : Built m' := h ▸ hm.rewrite s.plan

/-! ### Giving parameter objects away -/

/-- What an operation module is on the way through a run. -/
structure Passage where
  /-- with its paths stripped -/
  rewritten : Module
  /-- before the parameter objects are taken -/
  before : Module
  /-- in the end -/
  after : Module

/-- What a run leaves of an operation module. -/
structure Passage.Left (s : Settings) (p : Passage) : Prop where
  names : p.rewritten.name = p.after.name ∧ p.before.name = p.after.name
  noParams : ∀ d ∈ p.after.decls, ¬ IsParam s d
  /-- what is lost are parameter objects -/
  kept : ∀ d ∈ p.before.decls, ¬ IsParam s d → d ∈ p.after.decls
  /-- the parameter objects are imported where one was taken, or where they were imported -/
  imports_iff : .use (paramsImport s) ∈ p.after.decls ↔
    (∃ d ∈ p.before.decls, IsParam s d) ∨ .use (paramsImport s) ∈ p.rewritten.decls
  /-- imports stand in front, each of them once -/
  leading : ∃ (us : List Use) (rest : List Decl), p.after.decls = us.map .use ++ rest ∧
    (∀ d ∈ rest, d.isUse = false) ∧ us.Nodup

/-- A pushed import is there beside what was there. -/
theorem mem_pushDecl_use {ds es : List Decl} (h : Module.pushDecl ds (.use u) = (es, .ok ()))
    (d : Decl) : d ∈ es ↔ d = .use u ∨ d ∈ ds := by
  obtain ⟨rfl, -⟩ := Prod.mk.inj h
  split
  · next hu =>
      refine (or_iff_right_of_imp ?_).symm
      rintro rfl
      exact mem_use?.mp (Module.hasUse_iff.mp hu)
  · exact (Module.insertUse_perm u ds).mem_iff.trans List.mem_cons

theorem mem_decls_of_takeParams {out : Module × List Decl} (h : takeParams s m = .ok out)
    (d : Decl) :
    d ∈ out.1.decls ↔
      d ∈ m.decls ∧ ¬ IsParam s d ∨ d = .use (paramsImport s) ∧ ∃ e ∈ m.decls, IsParam s e := by
  have hselect : m.select (Decl.nameEndsWith s.paramsEnding) = [] ↔
      ∀ e ∈ m.decls, ¬ IsParam s e := by
    simp only [Module.select, List.filter_eq_nil_iff, nameEndsWith_iff]
  have hrest : d ∈ (m.without (Decl.nameEndsWith s.paramsEnding)).decls ↔
      d ∈ m.decls ∧ ¬ IsParam s d := by
    rw [← nameEndsWith_iff]
    simp [Module.without]
  unfold takeParams at h
  dsimp only at h
  split at h
  · next hnil =>
      obtain rfl := Except.ok.inj h
      have hnone := hselect.mp hnil
      constructor
      · exact fun hd => .inl ⟨hd, hnone d hd⟩
      · rintro (⟨hd, -⟩ | ⟨-, e, he, hparam⟩)
        · exact hd
        · exact absurd hparam (hnone e he)
  · next hne =>
      obtain ⟨m', hpush, rfl⟩ := map_eq_ok_iff.mp h
      obtain ⟨es, hes, rfl⟩ := Module.push_eq_ok_iff.mp (settled_eq_ok_iff.mp hpush)
      have htaken : ∃ e ∈ m.decls, IsParam s e := by
        by_contra hnone
        exact hne (hselect.mpr fun e he hparam => hnone ⟨e, he, hparam⟩)
      rw [mem_pushDecl_use hes, hrest, or_comm]
      exact or_congr_right (and_iff_left htaken).symm

theorem built_of_takeParams {out : Module × List Decl} (h : takeParams s m = .ok out)
    (hm : Built m) : Built out.1 := by
  unfold takeParams at h
  dsimp only at h
  split at h
  · obtain rfl := Except.ok.inj h
    exact hm
  · obtain ⟨m', hpush, rfl⟩ := map_eq_ok_iff.mp h
    have hstep := (hm.step (.without (Decl.nameEndsWith s.paramsEnding))).step
      (.push (.use (paramsImport s)))
    rwa [settled_eq_ok_iff.mp hpush] at hstep

/-- Where only imports stand before an import, they are in front of everything else. -/
theorem exists_eq_use?_append {ds : List Decl} (h : ds.Pairwise fun a b => b.isUse → a.isUse) :
    ∃ rest, ds = (ds.filterMap Decl.use?).map .use ++ rest ∧ ∀ d ∈ rest, d.isUse = false := by
  induction ds with
  | nil => exact ⟨[], rfl, by simp⟩
  | cons d ds ih =>
      obtain ⟨hd, hds⟩ := List.pairwise_cons.mp h
      cases hu : d.isUse with
      | true =>
          obtain ⟨rest, hrest, hnone⟩ := ih hds
          cases d with
          | use u => exact ⟨rest, congrArg (.use u :: ·) hrest, hnone⟩
          | _ => cases hu
      | false =>
          have hnone : ∀ e ∈ d :: ds, e.isUse = false := by
            refine List.forall_mem_cons.mpr ⟨hu, fun e he => ?_⟩
            exact Bool.eq_false_iff.mpr fun heu => Bool.false_ne_true (hu.symm.trans (hd e he heu))
          have hnil : (d :: ds).filterMap Decl.use? = [] := by
            refine List.filterMap_eq_nil_iff.mpr fun e he => ?_
            rw [← Option.not_isSome_iff_eq_none, ← e.isUse_eq, hnone e he]
            exact Bool.false_ne_true
          exact ⟨d :: ds, by rw [hnil]; rfl, hnone⟩

/-- In a module that operations built, imports stand in front, and each of them once. -/
theorem leading_of_built (h : Built m) :
    ∃ (us : List Use) (rest : List Decl), m.decls = us.map .use ++ rest ∧
      (∀ d ∈ rest, d.isUse = false) ∧ us.Nodup := by
  have htidy := h.tidy_outline
  have hfirst : m.decls.Pairwise fun a b => b.isUse → a.isUse := by
    have := List.pairwise_map.mp htidy.usesFirst
    simpa only [Decl.isUse_bare] using this
  obtain ⟨rest, hdecls, hrest⟩ := exists_eq_use?_append hfirst
  have hdistinct := htidy.usesDistinct
  rw [Module.filterMap_outline Decl.use?_bare] at hdistinct
  exact ⟨_, rest, hdecls, hrest, hdistinct⟩

/-! ### Runs -/

/-- The registry once paths are stripped. -/
def rewritten (s : Settings) (parts : List Load.Part) : Logged Registry := do
  let r ← merge parts
  stripAll s r

theorem built_of_merged (h : Merged parts r) {g : String} (hm : m ∈ (r.group g).modules) :
    Built m := by
  obtain ⟨-, -, -, -, hmerge⟩ := h.mem_group_iff.mp hm
  exact .merge hmerge

theorem left_of_sameUses {before : Module} {out : Module × List Decl} (hsame : SameUses m before)
    (h : takeParams s before = .ok out) (hm : Built m) :
    Passage.Left s ⟨m, before, out.1⟩ := by
  have huse : .use (paramsImport s) ∈ before.decls ↔ .use (paramsImport s) ∈ m.decls := by
    rw [← mem_uses, hsame.uses_eq, mem_uses]
  have hname : out.1.name = before.name := (takeParams_kinds h).1
  refine ⟨⟨(hname.trans hsame.name_eq).symm, hname.symm⟩, fun d hd => ?_,
    fun d hd hnot => (mem_decls_of_takeParams h d).mpr (.inl ⟨hd, hnot⟩), ?_,
    leading_of_built (built_of_takeParams h (hsame.built hm))⟩
  · rcases (mem_decls_of_takeParams h d).mp hd with ⟨-, hnot⟩ | ⟨rfl, -⟩
    · exact hnot
    · exact not_isParam_use
  · rw [mem_decls_of_takeParams h, and_iff_left not_isParam_use, huse, and_iff_right rfl, or_comm]

/-- Two steps of modules, one after the other, are passages. -/
theorem exists_passages {R : Module → Module → Prop} {Q : Module → Module × List Decl → Prop}
    {ms ms' : List Module} {outs : List (Module × List Decl)} (h : List.Forall₂ R ms ms')
    (h' : List.Forall₂ Q ms' outs) :
    ∃ passages : List Passage, ms = passages.map Passage.rewritten ∧
      ms' = passages.map Passage.before ∧ outs.map Prod.fst = passages.map Passage.after ∧
      ∀ p ∈ passages, R p.rewritten p.before ∧ ∃ taken, Q p.before (p.after, taken) := by
  induction h generalizing outs with
  | nil =>
      obtain rfl := List.forall₂_nil_left_iff.mp h'
      exact ⟨[], rfl, rfl, rfl, by simp⟩
  | @cons m m' ms ms' hR _ ih =>
      obtain ⟨out, outs, hQ, hrest, rfl⟩ := List.forall₂_cons_left_iff.mp h'
      obtain ⟨passages, rfl, rfl, houts, hall⟩ := ih hrest
      exact ⟨⟨m, m', out.1⟩ :: passages, rfl, rfl, congrArg (out.1 :: ·) houts,
        List.forall_mem_cons.mpr ⟨⟨hR, out.2, hQ⟩, hall⟩⟩

/-- Whatever group is stripped, no dropped import is left in it. -/
theorem dropped_of_stripAll (h : (stripAll s r).result = .ok r') :
    (∀ m ∈ (r'.group s.modelsGroup).modules, Dropped s m) ∧
      ∀ m ∈ (r'.group s.apisGroup).modules, Dropped s m := by
  unfold stripAll at h
  rw [Logged.result_bind, bind_eq_ok_iff] at h
  obtain ⟨⟨r₁, models⟩, h₁, h⟩ := h
  rw [Logged.result_bind, bind_eq_ok_iff] at h
  obtain ⟨⟨r₂, apis⟩, h₂, h⟩ := h
  obtain rfl := Except.ok.inj h
  have hmodels := (stageOn_of_onGroup h₁).forall₂ (S := fun _ m' => Dropped s m')
    fun _ _ h => dropped_of_stripped (stripped_of_result h)
  have hapis := (stageOn_of_onGroup h₂).forall₂ (S := fun _ m' => Dropped s m')
    fun _ _ h => dropped_of_stripped (stripped_of_result h)
  have hkeeps := (stageOn_of_onGroup h₂).keeps (S := fun m m' => Dropped s m → Dropped s m')
    (fun _ => id) (fun _ _ h _ => dropped_of_stripped (stripped_of_result h)) s.modelsGroup
  refine ⟨fun m hm => ?_, fun m hm => ?_⟩
  · obtain ⟨m₁, hm₁, hdropped⟩ := exists_left_of_forall₂ hkeeps hm
    obtain ⟨-, -, hdropped₁⟩ := exists_left_of_forall₂ hmodels hm₁
    exact hdropped hdropped₁
  · obtain ⟨-, -, hdropped⟩ := exists_left_of_forall₂ hapis hm
    exact hdropped

/-- Facades and pruning leave the imports of all modules alone. -/
theorem sameUses_of_stages {r₂ : Registry} (h₂ : (facades s r).result = .ok r₂)
    (h₃ : (pruneAll s r₂).result = .ok r') (g : String) :
    List.Forall₂ SameUses (r.group g).modules (r'.group g).modules :=
  (forall₂_comp (keeps_of_facades .refl (fun _ _ h => h.sameUses) h₂ g)
    (keeps_of_pruneAll .refl (fun _ _ _ => .trans) (fun _ _ h => h.sameUses) h₃ g)).imp
      fun _ _ ⟨_, h, h'⟩ => h.trans h'

theorem built_of_stripAll (hmerged : Merged parts r) (h : (stripAll s r).result = .ok r')
    {g : String} (hm : m ∈ (r'.group g).modules) : Built m := by
  obtain ⟨m₀, hm₀, hkeeps⟩ := exists_left_of_forall₂
    (keeps_of_stripAll (S := fun m m' => Built m → Built m') (fun _ => id)
      (fun _ _ _ h h' => h' ∘ h) (fun _ _ h => h.built) h g) hm
  exact hkeeps (built_of_merged hmerged hm₀)

/-- The extraction brings no import but that of the parameter objects. -/
theorem dropped_of_extract {g : String} (h : (extract s r).result = .ok (r', taken))
    (hr : ∀ m ∈ (r.group g).modules, Dropped s m) (hm : m ∈ (r'.group g).modules)
    (hu : .use u ∈ m.decls) (hne : u ≠ paramsImport s) :
    ∀ lead ∈ s.plan.drop, u.path.startsWith lead = false := by
  obtain ⟨told, hstage, -⟩ := stageOn_of_extract h
  have hkeeps := hstage.keeps (S := fun m m' => ∀ u, .use u ∈ m'.decls → u ≠ paramsImport s →
    .use u ∈ m.decls) (fun _ _ hu _ => hu) (fun m out h u hu hne => by
      rcases (mem_decls_of_takeParams h _).mp hu with ⟨hu, -⟩ | ⟨hu, -⟩
      · exact hu
      · exact absurd (Decl.use.inj hu) hne) g
  obtain ⟨m₀, hm₀, huses⟩ := exists_left_of_forall₂ hkeeps hm
  exact hr m₀ hm₀ u (mem_uses.mpr (huses u hu hne))

theorem dropped_of_sameUses {ms ms' : List Module} (h : List.Forall₂ SameUses ms ms')
    (hms : ∀ m ∈ ms, Dropped s m) : ∀ m ∈ ms', Dropped s m := by
  intro m hm
  obtain ⟨m₀, hm₀, hsame⟩ := exists_left_of_forall₂ h hm
  intro u hu
  exact hms m₀ hm₀ u (hsame.uses_eq ▸ hu)

/-- Whatever the settings are, a successful run leaves in its module of parameter objects nothing
but structs, enums and functions whose names have the ending, in the order of their names: types of
distinct names, and every function that was taken out of an operation module.

No operation module retains one of these.  It imports the parameter objects exactly when one was
taken out of it or when it imported them once its paths were stripped; its imports stand in front,
each of them once.  Apart from that import, no import in the models or the operation modules starts
with a path whose imports are to be dropped. -/
theorem params_extracted {cancelled : Bool} {out : Output}
    (hrun : (run s cancelled parts).result = .ok out) :
    ∃ (r₁ r₃ : Registry) (params : Module) (passages : List Passage),
      (rewritten s parts).result = .ok r₁ ∧ (prepared s parts).result = .ok r₃ ∧
      out.params.modules = [params] ∧ Gathered s (parameterObjects s r₃) params ∧
      (r₁.group s.apisGroup).modules = passages.map Passage.rewritten ∧
      (r₃.group s.apisGroup).modules = passages.map Passage.before ∧
      out.apis.modules = passages.map Passage.after ∧ (∀ p ∈ passages, p.Left s) ∧
      ∀ m ∈ out.models.modules ++ out.apis.modules, ∀ u, .use u ∈ m.decls → u ≠ paramsImport s →
        ∀ lead ∈ s.plan.drop, u.path.startsWith lead = false := by
  obtain ⟨r₀, hmerged, hstages⟩ := result_run_eq_ok_iff.mp hrun
  obtain rfl := eq_false_of_stages hstages
  obtain ⟨r₁, h₁, r₂, h₂, r₃, h₃, r₄, taken, h₄, r₅, params, h₅, made, -, rfl⟩ :=
    result_stages_eq_ok_iff.mp hstages
  have hmerge := result_merge_eq_ok_iff.mpr hmerged
  have hrewritten : (rewritten s parts).result = .ok r₁ := by
    unfold rewritten
    rw [Logged.result_bind, bind_eq_ok_iff]
    exact ⟨r₀, hmerge, h₁⟩
  have hprepared : (prepared s parts).result = .ok r₃ := by
    unfold prepared
    simp only [Logged.result_bind, bind_eq_ok_iff]
    exact ⟨r₀, hmerge, r₁, h₁, r₂, h₂, h₃⟩
  have hsame := sameUses_of_stages h₂ h₃
  obtain ⟨told, hextract, -⟩ := stageOn_of_extract h₄
  obtain ⟨outs, houts, hmodules, -⟩ := hextract.changed
  obtain ⟨passages, hfirst, hbefore, hafter, hpassages⟩ := exists_passages (hsame s.apisGroup) houts
  refine ⟨r₁, r₃, params, passages, hrewritten, hprepared, rfl, ?_, hfirst, hbefore,
    hmodules.trans hafter, fun p hp => ?_, fun m hm u hu hne => ?_⟩
  · obtain rfl := taken_of_extract h₄
    exact gathered_of_paramsModule (paramsModule_of_putParams h₅)
      fun d hd => isParam_of_parameterObjects hd
  · obtain ⟨hsame, taken, htake⟩ := hpassages p hp
    exact left_of_sameUses hsame htake
      (built_of_stripAll hmerged h₁ (hfirst ▸ List.mem_map_of_mem hp))
  · obtain ⟨hmodels, hapis⟩ := dropped_of_stripAll h₁
    rcases List.mem_append.mp hm with hm | hm
    · exact dropped_of_extract h₄ (dropped_of_sameUses (hsame _) hmodels) hm hu hne
    · exact dropped_of_extract h₄ (dropped_of_sameUses (hsame _) hapis) hm hu hne

theorem params_extracted_shop : ∃ (out : Output) (r : Registry) (p : Passage),
    (run .usual false shopParts).result = .ok out ∧
      (prepared .usual shopParts).result = .ok r ∧ out.params.modules = [findParams] ∧
      Gathered .usual (parameterObjects .usual r) findParams ∧ p.after = findLeft ∧
      p.Left .usual := by
  obtain ⟨out, hout, -, hapis, hunit⟩ := exists_output_shop
  obtain ⟨-, r, params, passages, -, hr, hparams, hgathered, -, -, hafter, hleft, -⟩ :=
    params_extracted hout
  obtain rfl : params = findParams := List.singleton_inj.mp (hparams.symm.trans hunit)
  have hfind : findLeft ∈ passages.map Passage.after := by
    rw [← hafter, hapis]
    exact List.mem_singleton_self _
  obtain ⟨p, hp, hpafter⟩ := List.mem_map.mp hfind
  exact ⟨out, r, p, hout, hr, hunit, hgathered, hpafter, hleft p hp⟩

end Pipeline
end ClientLoom
