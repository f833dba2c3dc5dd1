import ClientLoom.Proofs.Builder.Generation
import ClientLoom.Proofs.Module.Pieces
import ClientLoom.Proofs.Module.Reachable
import ClientLoom.Proofs.Pipeline.ArrivalOrder
import ClientLoom.Proofs.Pipeline.Stages
import ClientLoom.Proofs.Registry.Calls

/-! # What becomes of the names of types

A run neither loses nor duplicates the name of a type (`type_names_kept`).  A type of the models is
declared once in the module that it came from.  A type of the operation modules is declared once,
in the module that it came from or, exactly when its name ends like those of parameter objects, in
the module of these.  The structs that pruning removes from the module it is for are the only
ones that are absent.

The kinds under which a name is declared (`Module.kindsOf`) are followed through the stages:
merging leaves one of them, stripping leaves them alone, a facade declares at most one new name,
pruning filters them, and taking the parameter objects moves all of them or none. -/

namespace ClientLoom

namespace Module

variable {ds : List Decl} {m m' : Module} {t : Ident}

/-! ### Rewriting and leaving out declarations -/

theorem kindsOf_map {f : Decl → Decl} (h : ∀ d, kindIf t (f d) = kindIf t d) :
    kindsOf (ds.map f) t = kindsOf ds t := by
  unfold kindsOf
  rw [List.filterMap_map]
  exact congrArg (fun g => ds.filterMap g) (funext h)

/-- Where the kind of a type decides whether it stays, its kinds are filtered. -/
theorem kindsOf_filter {p : Decl → Bool} {q : Kind → Bool}
    (h : ∀ d, d.typeName? = some t → p d = q d.kind) :
    kindsOf (ds.filter p) t = (kindsOf ds t).filter q := by
  induction ds with
  | nil => rfl
  | cons d ds ih =>
      have hcons (es : List Decl) : kindsOf (d :: es) t = (kindIf t d).toList ++ kindsOf es t := by
        rw [← kindsOf_singleton, ← kindsOf_append, List.singleton_append]
      by_cases ht : d.typeName? = some t
      · have hkind : kindIf t d = some d.kind := if_pos ht
        by_cases hp : p d = true
        · have hq : q d.kind = true := (h d ht).symm.trans hp
          rw [List.filter_cons_of_pos hp, hcons, hcons, ih, hkind, Option.toList_some,
            List.singleton_append, List.singleton_append, List.filter_cons_of_pos hq]
        · have hq : ¬ q d.kind = true := h d ht ▸ hp
          rw [List.filter_cons_of_neg hp, hcons, ih, hkind, Option.toList_some,
            List.singleton_append, List.filter_cons_of_neg hq]
      · have hkind : kindIf t d = none := if_neg ht
        rw [hcons, hkind, Option.toList_none, List.nil_append, ← ih]
        by_cases hp : p d = true
        · rw [List.filter_cons_of_pos hp, hcons, hkind, Option.toList_none, List.nil_append]
        · rw [List.filter_cons_of_neg hp]

/-- Where the name of a type decides whether it stays, all of its kinds stay or none. -/
theorem kindsOf_filter_of_name {p : Decl → Bool} {c : Bool}
    (h : ∀ d, d.typeName? = some t → p d = c) :
    kindsOf (ds.filter p) t = if c then kindsOf ds t else [] := by
  rw [kindsOf_filter (q := fun _ => c) h]
  cases c with
  | false => exact List.filter_false _
  | true => exact List.filter_true _

theorem mem_kindsOf_flatMap {α : Type} {f : α → List Decl} {xs : List α} {k : Kind} :
    k ∈ kindsOf (xs.flatMap f) t ↔ ∃ x ∈ xs, k ∈ kindsOf (f x) t := by
  simp only [mem_kindsOf, List.mem_flatMap]
  exact ⟨fun ⟨d, ⟨x, hx, hd⟩, h⟩ => ⟨x, hx, d, hd, h⟩, fun ⟨x, hx, d, hd, h⟩ => ⟨d, ⟨x, hx, hd⟩, h⟩⟩

/-! ### Stripping -/

/-- Modules of one name with the same types. -/
structure SameTypes (m m' : Module) : Prop where
  name_eq : m'.name = m.name
  kinds_eq : ∀ t, kindsOf m'.decls t = kindsOf m.decls t

theorem SameTypes.refl (m : Module) : SameTypes m m := ⟨rfl, fun _ => rfl⟩

theorem SameTypes.trans {m'' : Module} (h : SameTypes m m') (h' : SameTypes m' m'') :
    SameTypes m m'' :=
  ⟨h'.name_eq.trans h.name_eq, fun t => (h'.kinds_eq t).trans (h.kinds_eq t)⟩

theorem sameTypes_onDecls {f : Decl → Decl × Nat} (h : ∀ t d, kindIf t (f d).1 = kindIf t d)
    (m : Module) : SameTypes m (Strip.onDecls f m).1 where
  name_eq := rfl
  kinds_eq := fun t => by
    show kindsOf (mapCount f m.decls).1 t = _
    rw [mapCount_fst, kindsOf_map (h t)]

theorem kindIf_mapFuncs (f : Func → Func × Nat) (t : Ident) (d : Decl) :
    kindIf t (d.mapFuncs f).1 = kindIf t d := by
  cases d <;> rfl

theorem kindIf_mapTypes (f : Ty → Ty × Nat) (t : Ident) (d : Decl) :
    kindIf t (d.mapTypes f).1 = kindIf t d := by
  cases d <;> rfl

theorem sameTypes_dropStep (acc : Module × Strip.Stats) (lead : Path) :
    SameTypes acc.1 (Strip.dropStep acc lead).1 where
  name_eq := rfl
  kinds_eq := fun t => kindsOf_filter_of_name (c := true) fun d hd => by
    cases d with
    | use u => cases hd
    | _ => rfl

theorem sameTypes_stripStep (acc : Module × Strip.Stats) (lead : Path) :
    SameTypes acc.1 (Strip.stripStep acc lead).1 := by
  have hdecl (t : Ident) (d : Decl) : kindIf t (Strip.strippedDecl lead d).1 = kindIf t d := by
    unfold Strip.strippedDecl
    exact (kindIf_mapFuncs _ t _).trans (kindIf_mapTypes _ t d)
  have hbodies (t : Ident) (d : Decl) : kindIf t (Strip.strippedBodies lead d).1 = kindIf t d :=
    kindIf_mapFuncs _ t d
  exact (sameTypes_onDecls hdecl acc.1).trans (sameTypes_onDecls hbodies _)

theorem sameTypes_foldl {step : Module × Strip.Stats → Path → Module × Strip.Stats}
    (h : ∀ acc lead, SameTypes acc.1 (step acc lead).1) (leads : List Path)
    (acc : Module × Strip.Stats) : SameTypes acc.1 (leads.foldl step acc).1 := by
  induction leads generalizing acc with
  | nil => exact .refl _
  | cons lead leads ih => exact (h acc lead).trans (ih (step acc lead))

end Module

/-- Whether pruning leaves a type of the given name and kind in the module called `n`. -/
def Prune.Options.keeps (opts : Prune.Options) (n t : Ident) (k : Kind) : Bool :=
  !(n == opts.module && k == .struct && opts.auxStructs.contains t)

namespace Pipeline

open ClientLoom.Module (kindsOf kindIf Makes)

variable {s : Settings} {m m' : Module} {t n : Ident} {parts : List Load.Part} {r : Registry}
  {g : String} {p : Load.Part}

/-! ### The stages of one module -/

theorem Stripped.sameTypes (h : Stripped s m m') : m.SameTypes m' := by
  subst h
  exact (Module.sameTypes_foldl Module.sameTypes_dropStep s.plan.drop (m, {})).trans
    (Module.sameTypes_foldl Module.sameTypes_stripStep s.plan.strip _)

/-- The facade of the module called `n` is the struct called `t`. -/
def HasFacade (s : Settings) (n t : Ident) : Prop :=
  Facade.applies { name := n } s.facade = true ∧
    Facade.structName (Facade.stem n s.facade.ending) = t

/-- The kinds of a type once its module has a facade, if it gets one: they are the same, or the type
is the facade. -/
def KindsWithFacade (s : Settings) (m : Module) (t : Ident) (ks : List Kind) : Prop :=
  ks = kindsOf m.decls t ∨ kindsOf m.decls t = [] ∧ HasFacade s m.name t

/-- The facade brings no type that the module has already. -/
theorem KindsWithFacade.eq_of_declared {k : Kind} {ks : List Kind} (h : KindsWithFacade s m t ks)
    (hkinds : kindsOf m.decls t = [k]) : ks = [k] := by
  rcases h with rfl | ⟨hnil, -⟩
  · exact hkinds
  · rw [hkinds] at hnil
    cases hnil

theorem generate_pushes {opts : Facade.Options} {made : Facade.Result}
    (h : Facade.generate m opts = (m', .ok made)) :
    ∃ methods,
      (m.without (Facade.isOperation (Facade.stem m.name opts.ending))).pushAll
        [.struct (Facade.facadeStruct opts (Facade.stem m.name opts.ending)),
          .impl (Facade.facadeImpl opts (Facade.stem m.name opts.ending) methods)] =
        (m', .ok ()) := by
  unfold Facade.generate at h
  dsimp only at h
  split at h
  · cases (Prod.mk.inj h).2
  · split at h
    · cases (Prod.mk.inj h).2
    · next methods _ =>
        split at h
        · cases (Prod.mk.inj h).2
        · next heq => exact ⟨methods, (Prod.mk.inj h).1 ▸ heq⟩

/-- A facade keeps the types of its module; a new one is its own. -/
theorem Faceted.kinds (h : Faceted s m m') :
    m'.name = m.name ∧ ∀ t, KindsWithFacade s m t (kindsOf m'.decls t) := by
  rcases h with ⟨happlies, made, hmade⟩ | ⟨-, rfl⟩
  · obtain ⟨methods, hpush⟩ := generate_pushes hmade
    obtain ⟨ds, hstruct, rfl⟩ := Module.exists_of_pushAll_pair hpush
    refine ⟨rfl, fun t => ?_⟩
    have hrest : kindsOf (m.without
        (Facade.isOperation (Facade.stem m.name s.facade.ending))).decls t =
          kindsOf m.decls t :=
      Module.kindsOf_filter_of_name (c := true) fun d hd => by
        cases d with
        | func f => cases hd
        | _ => rfl
    show KindsWithFacade s m t (kindsOf (Module.pushImpl ds _) t)
    rw [Module.kindsOf_pushImpl, Module.kindsOf_pushDecl hstruct t, hrest]
    split
    · next hnil =>
        by_cases ht : Facade.structName (Facade.stem m.name s.facade.ending) = t
        · exact .inr ⟨hnil, happlies, ht⟩
        · have hother : kindIf t (.struct (Facade.facadeStruct s.facade
              (Facade.stem m.name s.facade.ending))) = none :=
            if_neg fun h => ht (Option.some.inj h)
          exact .inl (by rw [hother, hnil]; rfl)
    · exact .inl rfl
  · exact ⟨rfl, fun _ => .inl rfl⟩

/-- Pruning filters the kinds of types. -/
theorem Pruned.kinds (h : Pruned s m m') :
    m'.name = m.name ∧
      ∀ t, kindsOf m'.decls t = (kindsOf m.decls t).filter (s.prune.keeps m.name t) := by
  obtain ⟨stats, h⟩ := h
  unfold Prune.run at h
  split at h
  · next hne =>
      obtain ⟨rfl, -⟩ := Prod.mk.inj h
      have hkeeps : ∀ t, s.prune.keeps m.name t = fun _ => true := by
        intro t
        funext k
        simp [Prune.Options.keeps, hne]
      exact ⟨rfl, fun t => by rw [hkeeps, List.filter_true]⟩
  · next heq =>
      have heq : m.name = s.prune.module := not_not.mp heq
      split at h
      · cases h
      · split at h
        · cases h
        · cases h
        · obtain ⟨rfl, -⟩ := Prod.mk.inj h
          refine ⟨rfl, fun t => ?_⟩
          have hmodify : kindsOf (m.modifyStruct s.prune.struct
              (Prune.pruneStruct s.prune)).decls t = kindsOf m.decls t :=
            Module.kindsOf_modifyFirst fun d => by cases d <;> rfl
          rw [← hmodify]
          refine Module.kindsOf_filter fun d hd => ?_
          cases d with
          | struct st =>
              obtain rfl := Option.some.inj hd
              simp [Prune.Options.keeps, Prune.isAux, Decl.kind, heq]
          | enum e => simp [Prune.Options.keeps, Prune.isAux, Decl.kind]
          | _ => cases hd

theorem nameEndsWith_of_typeName? {d : Decl} {ending : String} (h : d.typeName? = some t) :
    Decl.nameEndsWith ending d = Text.endsWith t ending := by
  cases d with
  | struct st => rw [← Option.some.inj h]; rfl
  | enum e => rw [← Option.some.inj h]; rfl
  | _ => cases h

theorem kindsOf_select_ending (m : Module) (ending : String) (t : Ident) :
    kindsOf (m.select (Decl.nameEndsWith ending)) t =
      if Text.endsWith t ending then kindsOf m.decls t else [] :=
  Module.kindsOf_filter_of_name fun _ => nameEndsWith_of_typeName?

theorem kindsOf_without_ending (m : Module) (ending : String) (t : Ident) :
    kindsOf (m.without (Decl.nameEndsWith ending)).decls t =
      if Text.endsWith t ending then [] else kindsOf m.decls t := by
  have hnot : ∀ d : Decl, d.typeName? = some t →
      (!Decl.nameEndsWith ending d) = !Text.endsWith t ending :=
    fun _ hd => congrArg _ (nameEndsWith_of_typeName? hd)
  rw [Module.without, Module.kindsOf_filter_of_name hnot]
  cases Text.endsWith t ending <;> rfl

/-- Taking the parameter objects moves all types of a name or none. -/
theorem takeParams_kinds {taken : List Decl} (h : takeParams s m = .ok (m', taken)) :
    m'.name = m.name ∧ ∀ t,
      kindsOf m'.decls t = (if Text.endsWith t s.paramsEnding then [] else kindsOf m.decls t) ∧
      kindsOf taken t = (if Text.endsWith t s.paramsEnding then kindsOf m.decls t else []) := by
  unfold takeParams at h
  dsimp only at h
  split at h
  · next hnil =>
      obtain ⟨rfl, rfl⟩ := Prod.mk.inj (Except.ok.inj h)
      refine ⟨rfl, fun t => ?_⟩
      have hnone := kindsOf_select_ending m s.paramsEnding t
      rw [hnil] at hnone
      refine ⟨?_, hnone⟩
      split
      · next ht =>
          rw [if_pos ht] at hnone
          exact hnone.symm
      · rfl
  · obtain ⟨m₁, hm₁, hout⟩ := map_eq_ok_iff.mp h
    obtain ⟨rfl, rfl⟩ := Prod.mk.inj hout
    obtain ⟨ds, hds, rfl⟩ := Module.push_eq_ok_iff.mp (settled_eq_ok_iff.mp hm₁)
    refine ⟨rfl, fun t => ⟨?_, kindsOf_select_ending m s.paramsEnding t⟩⟩
    rw [← kindsOf_without_ending]
    show kindsOf ds t = _
    rw [Module.kindsOf_pushDecl hds t, Module.kindIf_of_typeName?_eq_none rfl]
    split
    · next hnil => exact hnil.symm
    · rfl

/-! ### All stages of one module -/

theorem ModelSteps.kinds (h : ModelSteps s m m') :
    m'.name = m.name ∧
      ∀ t, kindsOf m'.decls t = (kindsOf m.decls t).filter (s.prune.keeps m.name t) := by
  obtain ⟨m₁, hstrip, hprune⟩ := h
  obtain ⟨hname, hkinds⟩ := hstrip.sameTypes
  obtain ⟨hname', hkinds'⟩ := hprune.kinds
  refine ⟨hname'.trans hname, fun t => ?_⟩
  rw [hkinds', hkinds, hname]

/-- An operation module keeps the types of a name, or gives all of them away, whichever the end of
the name says. -/
theorem ApiSteps.kinds {out : Module × List Decl} (h : ApiSteps s m out) :
    out.1.name = m.name ∧ ∀ t, ∃ ks, KindsWithFacade s m t ks ∧
      kindsOf out.1.decls t = (if Text.endsWith t s.paramsEnding then []
        else ks.filter (s.prune.keeps m.name t)) ∧
      kindsOf out.2 t = (if Text.endsWith t s.paramsEnding then
        ks.filter (s.prune.keeps m.name t) else []) := by
  obtain ⟨m₁, m₂, m₃, hstrip, hfacade, hprune, htake⟩ := h
  obtain ⟨hname₁, hkinds₁⟩ := hstrip.sameTypes
  obtain ⟨hname₂, hkinds₂⟩ := hfacade.kinds
  obtain ⟨hname₃, hkinds₃⟩ := hprune.kinds
  obtain ⟨hname₄, hkinds₄⟩ := takeParams_kinds htake
  refine ⟨hname₄.trans (hname₃.trans (hname₂.trans hname₁)), fun t => ⟨kindsOf m₂.decls t, ?_, ?_⟩⟩
  · unfold KindsWithFacade
    rw [← hkinds₁, ← hname₁]
    exact hkinds₂ t
  · rw [← hname₁, ← hname₂, ← hkinds₃]
    exact hkinds₄ t

/-! ### Merged parts -/

theorem Merged.orderly (h : Merged parts r) : r.Orderly := by
  obtain ⟨r₀, hr₀, hmerge⟩ := h
  have horderly := (lookup_record (collect_eq_ok_iff.mp hr₀)).1
  have hall : r₀.mergeAll = (r, .ok ()) := horderly.mergeAll_eq_ok_iff.mpr hmerge
  have hmerged := horderly.mergeAll
  rwa [hall] at hmerged

theorem gathered?_of_mem (hgroups : GroupsAgree parts) (hp : p ∈ parts) :
    gathered? parts p.module.name =
      some { name := p.module.name
             group := some p.group
             parts := partsNamed parts p.module.name } := by
  unfold gathered?
  cases hfind : parts.find? (·.module.name == p.module.name) with
  | none =>
      have hnot := List.find?_eq_none.mp hfind p hp
      simp at hnot
  | some q =>
      have hname : q.module.name = p.module.name := by simpa using List.find?_some hfind
      have hgroup := hgroups q (List.mem_of_find?_eq_some hfind) p hp hname
      rw [Option.map_some, hgroup]

/-- The merged registry holds what was gathered, merged name by name. -/
theorem Merged.rel_lookup (h : Merged parts r) (n : Ident) :
    Option.Rel (fun b e => b.mergeParts = .ok e) (gathered? parts n) (r.lookup n) := by
  obtain ⟨r₀, hr₀, hmerge⟩ := h
  rw [← (lookup_record (collect_eq_ok_iff.mp hr₀)).2 n]
  exact Registry.rel_entryOf? (fun _ _ h => (Registry.Entry.name_of_mergeParts h).symm)
    (mapM_eq_ok_iff.mp hmerge) n

theorem Merged.groupsAgree (h : Merged parts r) : GroupsAgree parts := by
  obtain ⟨r₀, hr₀, -⟩ := h
  exact exists_record_iff.mp ⟨r₀, collect_eq_ok_iff.mp hr₀⟩

/-- Under the name of a part the registry holds the module merged from all parts of the name. -/
theorem Merged.lookup (h : Merged parts r) (hp : p ∈ parts) :
    ∃ m, Module.merge (partsNamed parts p.module.name) = .ok m ∧
      r.lookup p.module.name =
        some { name := p.module.name, group := some p.group, merged := some m } := by
  have hrel := h.rel_lookup p.module.name
  rw [gathered?_of_mem h.groupsAgree hp] at hrel
  generalize r.lookup p.module.name = e? at hrel ⊢
  cases hrel with
  | some hmerged =>
      obtain ⟨hnil, -⟩ | ⟨-, m, hm, rfl⟩ := Registry.Entry.mergeParts_cases hmerged
      · exact absurd hnil (partsNamed_ne_nil hp rfl)
      · exact ⟨m, hm, rfl⟩

theorem Merged.exists_part (h : Merged parts r) {e : Registry.Entry} (he : r.lookup n = some e) :
    ∃ q ∈ parts, q.module.name = n := by
  have hrel := h.rel_lookup n
  rw [he] at hrel
  generalize hb : gathered? parts n = b? at hrel
  cases hrel with
  | some _ =>
      obtain ⟨q, hq, -⟩ := Option.map_eq_some_iff.mp hb
      exact ⟨q, List.mem_of_find?_eq_some hq, by simpa using List.find?_some hq⟩

/-- The merged modules of a group are those of its parts. -/
theorem Merged.mem_group_iff (h : Merged parts r) :
    m ∈ (r.group g).modules ↔
      ∃ q ∈ parts, q.group = g ∧ q.module.name = m.name ∧
        Module.merge (partsNamed parts m.name) = .ok m := by
  rw [h.orderly.mem_group_iff, Registry.module?, Registry.tag?]
  constructor
  · rintro ⟨hm, hg⟩
    obtain ⟨e, he, -⟩ := Option.bind_eq_some_iff.mp hm
    obtain ⟨q, hq, hname⟩ := h.exists_part he
    obtain ⟨m₀, hmerge, hlookup⟩ := h.lookup hq
    rw [hname] at hmerge hlookup
    rw [hlookup] at hm hg
    obtain rfl : m₀ = m := Option.some.inj hm
    exact ⟨q, hq, Option.some.inj hg, hname, hmerge⟩
  · rintro ⟨q, hq, rfl, hname, hmerge⟩
    obtain ⟨m₀, hmerge₀, hlookup⟩ := h.lookup hq
    rw [hname] at hmerge₀ hlookup
    obtain rfl := Except.ok.inj (hmerge.symm.trans hmerge₀)
    rw [hlookup]
    exact ⟨rfl, rfl⟩

/-- What merging the parts of a name pushes is what the parts declare. -/
theorem mem_decls_partsNamed {d : Decl} :
    d ∈ ((partsNamed parts n).mergeSort Module.comesBefore).flatMap Module.decls ↔
      ∃ q ∈ parts, q.module.name = n ∧ d ∈ q.module.decls := by
  have hperm := (List.mergeSort_perm (partsNamed parts n) Module.comesBefore).flatMap_right
    Module.decls
  rw [hperm.mem_iff]
  simp [partsNamed, and_assoc]

/-- The types of a merged module are those of its parts. -/
theorem mem_kindsOf_merge {k : Kind} (hne : partsNamed parts n ≠ [])
    (h : Module.merge (partsNamed parts n) = .ok m) (hk : k ∈ kindsOf m.decls t) :
    ∃ q ∈ parts, q.module.name = n ∧ ∃ d ∈ q.module.decls, d.typeName? = some t := by
  obtain ⟨ds, hds, rfl⟩ :=
    (Module.merge_eq_ok_iff hne fun m hm => name_of_mem_partsNamed hm).mp h
  obtain ⟨d, hd, ht, -⟩ := Module.mem_kindsOf.mp (hds.mem_kindsOf_iff.mp hk)
  obtain ⟨q, hq, hname, hd⟩ := mem_decls_partsNamed.mp hd
  exact ⟨q, hq, hname, d, hd, ht⟩

/-- A type that a part declares is declared once, with the same kind, in the merged module. -/
theorem Merged.exists_kindsOf {d : Decl} (h : Merged parts r) (hp : p ∈ parts)
    (hd : d ∈ p.module.decls) (ht : d.typeName? = some t) :
    ∃ m ∈ (r.group p.group).modules, m.name = p.module.name ∧ kindsOf m.decls t = [d.kind] := by
  obtain ⟨m, hmerge, -⟩ := h.lookup hp
  have hname : m.name = p.module.name :=
    Module.name_of_merge (fun _ hq => name_of_mem_partsNamed hq) hmerge
  refine ⟨m, h.mem_group_iff.mpr ⟨p, hp, rfl, hname.symm, hname ▸ hmerge⟩, hname, ?_⟩
  obtain ⟨ds, hds, rfl⟩ :=
    (Module.merge_eq_ok_iff (partsNamed_ne_nil hp rfl) fun m hm =>
      name_of_mem_partsNamed hm).mp hmerge
  exact hds.kindsOf_of_mem (mem_decls_partsNamed.mpr ⟨p, hp, rfl, hd⟩) ht

/-- A type of a merged module is declared by a part of that module, which has the same group. -/
theorem Merged.exists_part_of_kind {k : Kind} (h : Merged parts r)
    (hm : m ∈ (r.group g).modules) (hk : k ∈ kindsOf m.decls t) :
    ∃ q ∈ parts, q.group = g ∧ q.module.name = m.name ∧
      ∃ d ∈ q.module.decls, d.typeName? = some t := by
  obtain ⟨q, hq, hgroup, hname, hmerge⟩ := h.mem_group_iff.mp hm
  have hne : partsNamed parts m.name ≠ [] := partsNamed_ne_nil hq hname
  obtain ⟨q', hq', hname', hdeclared⟩ := mem_kindsOf_merge hne hmerge hk
  have hgroup' : q'.group = g :=
    (h.groupsAgree q' hq' q hq (hname'.trans hname.symm)).trans hgroup
  exact ⟨q', hq', hgroup', hname', hdeclared⟩

/-! ### The module of parameter objects -/

/-- The module of parameter objects declares the types that were taken. -/
theorem mem_kindsOf_params {taken : List Decl} (h : paramsModule s taken = .ok m) {k : Kind} :
    k ∈ kindsOf m.decls t ↔ k ∈ kindsOf taken t := by
  obtain ⟨ds, hds, rfl⟩ := Module.ofDecls_eq_ok_iff.mp h
  have hperm := (List.mergeSort_perm taken byName).filterMap (kindIf t)
  rw [hds.mem_kindsOf_iff]
  exact hperm.mem_iff

theorem kindsOf_params {taken : List Decl} (h : paramsModule s taken = .ok m) {k : Kind}
    (hk : k ∈ kindsOf taken t) : kindsOf m.decls t = [k] := by
  obtain ⟨ds, hds, rfl⟩ := Module.ofDecls_eq_ok_iff.mp h
  obtain ⟨d, hd, ht, rfl⟩ := Module.mem_kindsOf.mp hk
  exact hds.kindsOf_of_mem ((List.mergeSort_perm taken byName).mem_iff.mpr hd) ht

/-! ### Whole runs -/

/-- An operation module other than `n` brings a type called `t`: one of its parts declares it, or
its facade is called so. -/
def BroughtByOther (s : Settings) (parts : List Load.Part) (n t : Ident) : Prop :=
  ∃ q ∈ parts, q.group = s.apisGroup ∧ q.module.name ≠ n ∧
    ((∃ d ∈ q.module.decls, d.typeName? = some t) ∨ HasFacade s q.module.name t)

theorem eq_of_name_eq {ms : List Module}
    (hms : ms.Pairwise fun a b => Text.rank a.name < Text.rank b.name) (hm : m ∈ ms)
    (hm' : m' ∈ ms) (h : m.name = m'.name) : m = m' := by
  have hnodup : (ms.map Module.name).Nodup :=
    List.pairwise_map.mpr (hms.imp Text.ne_of_rank_lt)
  exact List.inj_on_of_nodup_map hnodup hm hm' h

theorem filter_name_eq {ms : List Module}
    (hms : ms.Pairwise fun a b => Text.rank a.name < Text.rank b.name) (hm : m ∈ ms) :
    ms.filter (·.name == m.name) = [m] := by
  induction ms with
  | nil => cases hm
  | cons x xs ih =>
      obtain ⟨hx, hxs⟩ := List.pairwise_cons.mp hms
      rcases List.mem_cons.mp hm with rfl | hm
      · have hrest : xs.filter (·.name == m.name) = [] :=
          List.filter_eq_nil_iff.mpr fun y hy => by simpa using (Text.ne_of_rank_lt (hx y hy)).symm
        rw [List.filter_cons_of_pos (by simp), hrest]
      · rw [List.filter_cons_of_neg (by simpa using Text.ne_of_rank_lt (hx m hm)), ih hxs hm]

/-- A type among the parameter objects comes from an operation module, which gave it away. -/
theorem exists_source_of_params {outs : List (Module × List Decl)} {params : Module} {k : Kind}
    {ms : List Module} (houts : List.Forall₂ (ApiSteps s) ms outs)
    (hparams : paramsModule s (outs.flatMap Prod.snd) = .ok params)
    (hk : k ∈ kindsOf params.decls t) :
    Text.endsWith t s.paramsEnding = true ∧ ∃ m ∈ ms, ∃ ks,
      KindsWithFacade s m t ks ∧ k ∈ ks.filter (s.prune.keeps m.name t) := by
  obtain ⟨out, hout, hk⟩ := Module.mem_kindsOf_flatMap.mp ((mem_kindsOf_params hparams).mp hk)
  obtain ⟨m, hm, hsteps⟩ := exists_left_of_forall₂ houts hout
  obtain ⟨ks, hks, -, htaken⟩ := hsteps.kinds.2 t
  rw [htaken] at hk
  split at hk
  · next hends => exact ⟨hends, m, hm, ks, hks, hk⟩
  · cases hk

/-- Where a module has a type that pruning removes, another module brings a parameter object of
that name. -/
theorem Merged.broughtByOther {outs : List (Module × List Decl)} {params : Module} {k : Kind}
    (h : Merged parts r) (houts : List.Forall₂ (ApiSteps s) (r.group s.apisGroup).modules outs)
    (hparams : paramsModule s (outs.flatMap Prod.snd) = .ok params)
    (hm : m ∈ (r.group s.apisGroup).modules) (hkinds : kindsOf m.decls t = [k])
    (hpruned : s.prune.keeps m.name t k = false) (hne : kindsOf params.decls t ≠ []) :
    BroughtByOther s parts m.name t := by
  obtain ⟨k', hk'⟩ := List.exists_mem_of_ne_nil _ hne
  obtain ⟨-, m', hm', ks, hks, hk'⟩ := exists_source_of_params houts hparams hk'
  have hother : m'.name ≠ m.name := by
    intro hsame
    obtain rfl : m' = m := eq_of_name_eq (h.orderly.group_increasing s.apisGroup) hm' hm hsame
    obtain rfl := hks.eq_of_declared hkinds
    simp [hpruned] at hk'
  rcases hks with rfl | ⟨-, hfacade⟩
  · obtain ⟨q, hq, hgroup, hname, hdeclared⟩ :=
      h.exists_part_of_kind hm' (List.mem_of_mem_filter hk')
    exact ⟨q, hq, hgroup, hname ▸ hother, .inl hdeclared⟩
  · obtain ⟨q, hq, hgroup, hname, -⟩ := h.mem_group_iff.mp hm'
    exact ⟨q, hq, hgroup, hname ▸ hother, .inr (hname ▸ hfacade)⟩

/-- A module of the models is the only one of its name afterwards, and has the types that pruning
keeps. -/
theorem Journey.exists_model {out : Output} (h : Journey s r out)
    (hincreasing : (r.group s.modelsGroup).modules.Pairwise
      fun a b => Text.rank a.name < Text.rank b.name)
    (hm : m ∈ (r.group s.modelsGroup).modules) :
    ∃ m', out.models.modules.filter (·.name == m.name) = [m'] ∧
      ∀ t, kindsOf m'.decls t = (kindsOf m.decls t).filter (s.prune.keeps m.name t) := by
  obtain ⟨m', hm', hsteps⟩ := exists_right_of_forall₂ h.models hm
  obtain ⟨hname, hkinds⟩ := hsteps.kinds
  have hnames : out.models.modules.Pairwise fun a b => Text.rank a.name < Text.rank b.name :=
    pairwise_of_forall₂_eq (R := fun m n => Text.rank m < Text.rank n) hincreasing
      (h.models.imp fun _ _ h => h.kinds.1.symm)
  exact ⟨m', hname ▸ filter_name_eq hnames hm', hkinds⟩

/-- What an operation module becomes is the only module of its name afterwards. -/
theorem filter_name_of_apiSteps {ms : List Module} {outs : List (Module × List Decl)}
    {o : Module × List Decl} (houts : List.Forall₂ (ApiSteps s) ms outs)
    (hincreasing : ms.Pairwise fun a b => Text.rank a.name < Text.rank b.name) (ho : o ∈ outs)
    (hsteps : ApiSteps s m o) : (outs.map Prod.fst).filter (·.name == m.name) = [o.1] := by
  have hnames : (outs.map Prod.fst).Pairwise
      fun a b => Text.rank a.name < Text.rank b.name := by
    refine pairwise_of_forall₂_eq (R := fun m n => Text.rank m < Text.rank n) hincreasing ?_
    rw [List.forall₂_map_right_iff]
    exact houts.imp fun _ _ h => h.kinds.1.symm
  exact hsteps.kinds.1 ▸ filter_name_eq hnames (List.mem_map_of_mem ho)

/-- A run keeps the names of types.  A type that a part declares is declared once afterwards, with
the same kind, in one place: for a part of the models in the module of its name, and for an
operation module in that module or in the module of parameter objects, as the end of its name
says.  Only the structs that pruning removes from the module of the part are absent; one of them
may be among the parameter objects when another module brings it. -/
theorem type_names_kept {cancelled : Bool} {out : Output} {d : Decl}
    (hgroups : s.modelsGroup ≠ s.apisGroup) (hrun : (run s cancelled parts).result = .ok out)
    (hp : p ∈ parts) (hd : d ∈ p.module.decls) (ht : d.typeName? = some t) :
    (p.group = s.modelsGroup → ∃ m,
      out.models.modules.filter (·.name == p.module.name) = [m] ∧
      if s.prune.keeps p.module.name t d.kind then kindsOf m.decls t = [d.kind]
      else kindsOf m.decls t = []) ∧
    (p.group = s.apisGroup → ∃ m params,
      out.apis.modules.filter (·.name == p.module.name) = [m] ∧ out.params.modules = [params] ∧
      if s.prune.keeps p.module.name t d.kind then
        if Text.endsWith t s.paramsEnding then
          kindsOf m.decls t = [] ∧ kindsOf params.decls t = [d.kind]
        else kindsOf m.decls t = [d.kind] ∧ kindsOf params.decls t = []
      else
        kindsOf m.decls t = [] ∧
          (kindsOf params.decls t ≠ [] → BroughtByOther s parts p.module.name t)) := by
  obtain ⟨r, hmerged, hstages⟩ := result_run_eq_ok_iff.mp hrun
  have hjourney := journey_of_stages hgroups hstages
  have hincreasing := hmerged.orderly.group_increasing
  obtain ⟨m₀, hmem, hname₀, hkinds₀⟩ := hmerged.exists_kindsOf hp hd ht
  rw [← hname₀]
  refine ⟨fun hg => ?_, fun hg => ?_⟩
  · rw [hg] at hmem
    obtain ⟨m, hm, hkinds⟩ := hjourney.exists_model (hincreasing s.modelsGroup) hmem
    refine ⟨m, hm, ?_⟩
    rw [hkinds t, hkinds₀]
    split
    · next hkeeps => exact List.filter_cons_of_pos hkeeps
    · next hkeeps => exact List.filter_cons_of_neg hkeeps
  · rw [hg] at hmem
    obtain ⟨outs, houts, hmodules, params, hparams, hunit⟩ := hjourney.apis
    obtain ⟨o, ho, hsteps⟩ := exists_right_of_forall₂ houts hmem
    have honly := filter_name_of_apiSteps houts (hincreasing s.apisGroup) ho hsteps
    refine ⟨o.1, params, hmodules ▸ honly, hunit, ?_⟩
    obtain ⟨ks, hks, hstays, htaken⟩ := hsteps.kinds.2 t
    obtain rfl := hks.eq_of_declared hkinds₀
    split
    · next hkeeps =>
        have hfilter : [d.kind].filter (s.prune.keeps m₀.name t) = [d.kind] :=
          List.filter_cons_of_pos hkeeps
        rw [hfilter] at hstays htaken
        split
        · next hends =>
            rw [if_pos hends] at hstays htaken
            have hgiven : d.kind ∈ kindsOf o.2 t := htaken ▸ List.mem_singleton_self _
            exact ⟨hstays, kindsOf_params hparams
              (Module.mem_kindsOf_flatMap.mpr ⟨o, ho, hgiven⟩)⟩
        · next hends =>
            rw [if_neg hends] at hstays
            refine ⟨hstays, List.eq_nil_iff_forall_not_mem.mpr fun k hk => ?_⟩
            exact hends (exists_source_of_params houts hparams hk).1
    · next hkeeps =>
        have hfilter : [d.kind].filter (s.prune.keeps m₀.name t) = [] :=
          List.filter_cons_of_neg hkeeps
        rw [hfilter, ite_self] at hstays
        exact ⟨hstays, hmerged.broughtByOther houts hparams hmem hkinds₀
          (Bool.eq_false_iff.mpr hkeeps)⟩

/-- A struct among the models. -/
def petModels : Module :=
  { name := "pet", origin := "pet.yaml", decls := [.struct { name := "Pet" }] }

/-- An operation module with a type of its own and a parameter object. -/
def findApi : Module :=
  { name := "find"
    origin := "find.yaml"
    decls := [.enum { name := "FindError" }, .struct { name := "FindParams" }] }

def shopParts : List Load.Part := [⟨"models", petModels⟩, ⟨"apis", findApi⟩]

/-- What is left in the operation module. -/
def findLeft : Module :=
  { findApi with decls := [.use (paramsImport .usual), .enum { name := "FindError" }] }

/-- What was taken out of it. -/
def findParams : Module := { name := "params", decls := [.struct { name := "FindParams" }] }

/-- The entry of a merged module. -/
def mergedEntry (g : String) (m : Module) : Registry.Entry :=
  { name := m.name, group := some g, merged := some m }

theorem mergeParts_alone {g : String} {m : Module} (h : Module.merge [m] = .ok m) :
    Registry.Entry.mergeParts { name := m.name, group := some g, parts := [m] } =
      .ok (mergedEntry g m) :=
  Registry.Entry.mergeParts_of_merge (List.cons_ne_nil _ _) h

theorem exists_output_shop : ∃ out, (run .usual false shopParts).result = .ok out ∧
    out.models.modules = [petModels] ∧ out.apis.modules = [findLeft] ∧
      out.params.modules = [findParams] := by
  have hmerged : Merged shopParts ⟨[mergedEntry "apis" findApi, mergedEntry "models" petModels]⟩ :=
    ⟨_, rfl, mapM_eq_ok_iff.mpr (.cons (mergeParts_alone (Module.merge_singleton findApi))
      (.cons (mergeParts_alone (Module.merge_singleton petModels)) .nil))⟩
  have hparams : paramsModule .usual findParams.decls = .ok findParams :=
    paramsModule_of_sorted (List.pairwise_singleton _ _)
  have hput : (putParams .usual ⟨[mergedEntry "apis" findLeft, mergedEntry "models" petModels]⟩
      findParams.decls).result =
        .ok (⟨[mergedEntry "apis" findLeft, mergedEntry "params" findParams,
          mergedEntry "models" petModels]⟩, findParams) := by
    unfold putParams
    rw [hparams]
    rfl
  have hgenerate : Builder.generate Settings.usual.rules Settings.usual.builderEndings
      [findParams, petModels] = [{ name := "FindParams" }] :=
    Builder.generate_of_selected (s := { name := "FindParams" }) _ rfl
  have hbuilders : ∃ made, (builders .usual
      ⟨[mergedEntry "apis" findLeft, mergedEntry "params" findParams,
        mergedEntry "models" petModels]⟩ [findParams, petModels]).result = .ok made := by
    unfold builders
    rw [hgenerate]
    exact ⟨_, rfl⟩
  obtain ⟨made, hmade⟩ := hbuilders
  exact ⟨_, result_run_eq_ok_iff.mpr ⟨_, hmerged, result_stages_eq_ok_iff.mpr
    ⟨_, rfl, _, rfl, _, rfl, _, _, rfl, _, _, hput, _, hmade, rfl⟩⟩, rfl, rfl, rfl⟩

theorem type_names_kept_shop :
    Settings.usual.modelsGroup ≠ Settings.usual.apisGroup ∧
      ∃ out, (run .usual false shopParts).result = .ok out ∧
        (∃ m, out.models.modules.filter (·.name == "pet") = [m] ∧
          kindsOf m.decls "Pet" = [.struct]) ∧
        ∃ m params, out.apis.modules.filter (·.name == "find") = [m] ∧
          out.params.modules = [params] ∧ kindsOf m.decls "FindParams" = [] ∧
          kindsOf params.decls "FindParams" = [.struct] := by
  have hgroups : Settings.usual.modelsGroup ≠ Settings.usual.apisGroup := by decide
  obtain ⟨out, hout, -⟩ := exists_output_shop
  have hmodels : ⟨"models", petModels⟩ ∈ shopParts := List.mem_cons_self
  have hapis : ⟨"apis", findApi⟩ ∈ shopParts := List.mem_cons_of_mem _ List.mem_cons_self
  have hpet : Decl.struct { name := "Pet" } ∈ petModels.decls := List.mem_cons_self
  have hparams : Decl.struct { name := "FindParams" } ∈ findApi.decls :=
    List.mem_cons_of_mem _ List.mem_cons_self
  exact ⟨hgroups, out, hout, (type_names_kept hgroups hout hmodels hpet rfl).1 rfl,
    (type_names_kept hgroups hout hapis hparams rfl).2 rfl⟩

end Pipeline
end ClientLoom
