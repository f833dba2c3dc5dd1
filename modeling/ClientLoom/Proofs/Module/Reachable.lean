import ClientLoom.Dump.Decode
import ClientLoom.Facade
import ClientLoom.Module.Merge
import ClientLoom.Proofs.Module.Pushing
import ClientLoom.Proofs.Outcome
import ClientLoom.Prune
import ClientLoom.Strip

/-! # Reachable modules

`Module.Reachable` holds of the modules that decoding and the operations on modules can produce,
in any order and any number.  Every operation keeps a module well-formed: those that add
declarations because they push them, those that take declarations out because a part of a tidy
list is tidy, and those that rewrite declarations because each rewritten declaration can stand in
the place of the old one.  So every reachable module is well-formed
(`wellFormed_of_reachable`). -/

namespace ClientLoom

/-! ### Pushing -/

namespace Module

variable {m m' : Module}

theorem WellFormed.push {d : Decl} (h : m.WellFormed) (hd : d.TraitsDistinct) :
    (m.push d).1.WellFormed :=
  Tidy.pushDecl h hd rfl

/-- Declarations keep a module well-formed also when one of them is refused. -/
theorem WellFormed.pushAll {ds : List Decl} (h : m.WellFormed) (hds : ∀ d ∈ ds, d.TraitsDistinct) :
    (m.pushAll ds).1.WellFormed := by
  induction ds generalizing m with
  | nil => exact h
  | cons d ds ih =>
      obtain ⟨hd, hds⟩ := List.forall_mem_cons.mp hds
      have hm := h.push hd
      unfold Module.pushAll
      split
      · next hpush =>
          rw [hpush] at hm
          exact ih hm hds
      · next hpush =>
          rw [hpush] at hm
          exact hm

theorem WellFormed.without (h : m.WellFormed) (p : Decl → Bool) : (m.without p).WellFormed :=
  Tidy.filter h _

/-- A refused declaration leaves a module as it was, and the only reason to refuse it is that its
name is a type of another kind. -/
theorem eq_of_push_eq_error {d : Decl} {f : Failure} (h : m.push d = (m', .error f)) :
    m' = m ∧ f.cause = .kindClash := by
  obtain ⟨ds, -, hpush⟩ | ⟨g, hpush, hcause⟩ := push_cases m d
  · cases (Prod.mk.inj (hpush.symm.trans h)).2
  · obtain ⟨rfl, hg⟩ := Prod.mk.inj (hpush.symm.trans h)
    exact ⟨rfl, Except.error.inj hg ▸ hcause⟩

/-! ### Merging -/

theorem WellFormed.addPart {part : Module} (h : m.WellFormed) (hpart : part.WellFormed)
    (hp : m.addPart part = .ok m') : m'.WellFormed := by
  have hall : ({ m with attrs := m.attrs ++ part.attrs }.pushAll part.decls).1.WellFormed :=
    WellFormed.pushAll (m := { m with attrs := m.attrs ++ part.attrs }) h hpart.blocksDistinct
  rw [Module.addPart, locate_eq_ok_iff, settled_eq_ok_iff] at hp
  rwa [hp] at hall

theorem wellFormed_blank (name : Ident) (origin : String) (attrs : List Attr) :
    WellFormed { name := name, origin := origin, attrs := attrs } := tidy_nil

theorem wellFormed_merge {parts : List Module} (h : ∀ part ∈ parts, part.WellFormed)
    (hm : merge parts = .ok m) : m.WellFormed := by
  unfold merge at hm
  split at hm
  · cases hm
  · split at hm
    · cases hm
    · refine foldlM_induction (fun part hpart c c' hc hs => ?_) (wellFormed_blank _ _ _) hm
      exact hc.addPart (h part ((List.mergeSort_perm _ _).mem_iff.mp hpart)) hs

end Module

/-! ### Rewriting declarations -/

@[simp] theorem mapCount_fst {α : Type} (f : α → α × Nat) (xs : List α) :
    (mapCount f xs).1 = xs.map fun x => (f x).1 := by
  induction xs with
  | nil => rfl
  | cons x xs ih => simp only [mapCount, List.map_cons, ih]

namespace Decl

theorem Keeps.trans {a b c : Decl} (hab : a.Keeps b) (hbc : b.Keeps c) : a.Keeps c where
  use := hbc.use.trans hab.use
  typeName := hbc.typeName.trans hab.typeName
  waitKey := hbc.waitKey.trans hab.waitKey
  traits := hbc.traits ∘ hab.traits

theorem map_traitKey_implFuncs (f : Func → Func × Nat) (impls : List Impl) :
    ((mapCount (implFuncs f) impls).1).map Impl.traitKey = impls.map Impl.traitKey := by
  rw [mapCount_fst, List.map_map]
  rfl

/-- A change of functions moves no declaration. -/
theorem keeps_mapFuncs (f : Func → Func × Nat) (d : Decl) : d.Keeps (d.mapFuncs f).1 where
  use := by cases d <;> rfl
  typeName := by cases d <;> rfl
  waitKey := by cases d <;> rfl
  traits := by
    intro h
    cases d with
    | struct s =>
        show (((mapCount (implFuncs f) s.impls).1).map Impl.traitKey).Nodup
        rw [map_traitKey_implFuncs]
        exact h
    | enum e =>
        show (((mapCount (implFuncs f) e.impls).1).map Impl.traitKey).Nodup
        rw [map_traitKey_implFuncs]
        exact h
    | _ => exact List.nodup_nil

/-- A change of the types of fields and variants moves no declaration. -/
theorem keeps_mapTypes (f : Ty → Ty × Nat) (d : Decl) : d.Keeps (d.mapTypes f).1 where
  use := by cases d <;> rfl
  typeName := by cases d <;> rfl
  waitKey := by cases d <;> rfl
  traits := by
    intro h
    cases d <;> exact h

end Decl

namespace Module

variable {m m' : Module}

theorem keeps_onDecls {f : Decl → Decl × Nat} (hf : ∀ d : Decl, d.Keeps (f d).1) :
    List.Forall₂ Decl.Keeps m.decls (Strip.onDecls f m).1.decls := by
  show List.Forall₂ Decl.Keeps m.decls (mapCount f m.decls).1
  rw [mapCount_fst, List.forall₂_map_right_iff, List.forall₂_same]
  exact fun d _ => hf d

theorem keeps_stripDecls (m : Module) (lead : Path) :
    List.Forall₂ Decl.Keeps m.decls (Strip.stripDecls lead m).1.decls := by
  refine keeps_onDecls fun d => ?_
  have htypes := d.keeps_mapTypes (Strip.strippedTy lead)
  exact htypes.trans
    (Decl.keeps_mapFuncs (fun f => Strip.counted (f.replaceSignature (Strip.stripping lead) ())) _)

theorem keeps_stripBodies (m : Module) (lead : Path) :
    List.Forall₂ Decl.Keeps m.decls (Strip.stripBodies lead m).1.decls :=
  keeps_onDecls fun d => d.keeps_mapFuncs _

/-! ### Facades and pruning -/

/-- A facade leaves a module alone, or takes functions out of it and pushes the struct and its
block to the rest. -/
theorem facade_cases (m : Module) (opts : Facade.Options) :
    (Facade.generate m opts).1 = m ∨
      ∃ (p : Decl → Bool) (stem : String) (methods : List Func),
        (Facade.generate m opts).1 =
          ((m.without p).pushAll [.struct (Facade.facadeStruct opts stem),
            .impl (Facade.facadeImpl opts stem methods)]).1 := by
  unfold Facade.generate
  dsimp only
  split
  · exact .inl rfl
  · split
    · exact .inl rfl
    · next methods _ =>
        refine .inr ⟨Facade.isOperation (Facade.stem m.name opts.ending),
          Facade.stem m.name opts.ending, methods, ?_⟩
        split <;> next heq => rw [heq]

theorem WellFormed.facade (h : m.WellFormed) (opts : Facade.Options) :
    (Facade.generate m opts).1.WellFormed := by
  rcases facade_cases m opts with hsame | ⟨p, stem, methods, hpushed⟩
  · rwa [hsame]
  · rw [hpushed]
    refine (h.without p).pushAll fun d hd => ?_
    rcases List.mem_pair.mp hd with rfl | rfl <;> exact List.nodup_nil

theorem map_traitKey_modifyMember (s : Struct) (key : String) (name : Ident) (f : Func → Func) :
    (Prune.modifyMember s key name f).impls.map Impl.traitKey = s.impls.map Impl.traitKey := by
  apply map_modifyFirst
  intro i
  rfl

theorem map_traitKey_pruneStruct (opts : Prune.Options) (s : Struct) :
    (Prune.pruneStruct opts s).impls.map Impl.traitKey = s.impls.map Impl.traitKey := by
  unfold Prune.pruneStruct
  dsimp only
  rw [map_traitKey_modifyMember, map_traitKey_modifyMember]
  rfl

theorem keeps_modifyStruct {f : Struct → Struct} (m : Module) (name : Ident)
    (hname : ∀ s, (f s).name = s.name)
    (htraits : ∀ s, (f s).impls.map Impl.traitKey = s.impls.map Impl.traitKey) :
    List.Forall₂ Decl.Keeps m.decls (m.modifyStruct name f).decls := by
  refine forall₂_modifyFirst Decl.Keeps.refl ?_ m.decls
  intro d _
  cases d with
  | struct s =>
      refine ⟨rfl, congrArg some (hname s), rfl, fun ht => ?_⟩
      show ((f s).impls.map Impl.traitKey).Nodup
      rw [htraits]
      exact ht
  | _ => exact Decl.Keeps.refl _

/-- What pruning does to a module: nothing, or it changes one struct and takes others out. -/
theorem prune_cases (m : Module) (opts : Prune.Options) :
    (Prune.run m opts).1 = m ∨
      (Prune.run m opts).1 = (m.modifyStruct opts.struct (Prune.pruneStruct opts)).without
        (Prune.isAux opts.auxStructs) := by
  unfold Prune.run
  split
  · exact .inl rfl
  · split
    · exact .inl rfl
    · split
      · exact .inl rfl
      · exact .inl rfl
      · exact .inr rfl

theorem keeps_pruneStruct (m : Module) (opts : Prune.Options) :
    List.Forall₂ Decl.Keeps m.decls
      (m.modifyStruct opts.struct (Prune.pruneStruct opts)).decls :=
  keeps_modifyStruct m _ (fun _ => rfl) (map_traitKey_pruneStruct opts)

theorem WellFormed.prune (h : m.WellFormed) (opts : Prune.Options) :
    (Prune.run m opts).1.WellFormed := by
  rcases prune_cases m opts with hsame | hpruned
  · rwa [hsame]
  · rw [hpruned]
    exact WellFormed.without (Tidy.of_keeps h (keeps_pruneStruct m opts)) _

/-! ### Decoding -/

/-- A type that is decoded has no impl blocks; they are declarations of their own. -/
theorem impls_of_kindDeclOf {expr : Dump.ExprDecoder} {doc : Dump.DeclDoc} {attrs : List Attr}
    {d : Decl} (h : Dump.kindDeclOf expr doc attrs = .ok d) : d.impls = [] := by
  unfold Dump.kindDeclOf at h
  split at h
  · obtain ⟨p, -, h⟩ := bind_eq_ok_iff.mp h
    exact Except.ok.inj h ▸ rfl
  split at h
  · obtain ⟨fields, -, h⟩ := bind_eq_ok_iff.mp h
    exact Except.ok.inj h ▸ rfl
  split at h
  · obtain ⟨variants, -, h⟩ := bind_eq_ok_iff.mp h
    exact Except.ok.inj h ▸ rfl
  split at h
  · dsimp only at h
    split at h
    all_goals
      obtain ⟨trait, -, h⟩ := bind_eq_ok_iff.mp h
      obtain ⟨fns, -, h⟩ := bind_eq_ok_iff.mp h
      exact Except.ok.inj h ▸ rfl
  split at h
  · obtain ⟨f, -, h⟩ := map_eq_ok_iff.mp h
    exact h ▸ rfl
  · exact Except.ok.inj h ▸ rfl

theorem impls_of_declOf {expr : Dump.ExprDecoder} {doc : Dump.DeclDoc} {d : Decl}
    (h : Dump.declOf expr doc = .ok d) : d.impls = [] := by
  unfold Dump.declOf at h
  split at h
  · cases h
  split at h
  · cases h
  · obtain ⟨attrs, -, h⟩ := bind_eq_ok_iff.mp h
    exact impls_of_kindDeclOf h

/-- Declarations are decoded, each on its own, and pushed in order. -/
theorem addDecls_eq_ok_iff {expr : Dump.ExprDecoder} {place : String} {i : Nat}
    {docs : List Dump.DeclDoc} :
    Dump.addDecls expr place m i docs = .ok m' ↔
      ∃ items ds, docs.mapM (Dump.declOf expr) = .ok items ∧
        items.foldlM accepted m.decls = .ok ds ∧ { m with decls := ds } = m' := by
  induction docs generalizing m i with
  | nil =>
      constructor
      · intro h
        exact ⟨[], m.decls, rfl, rfl, Except.ok.inj h⟩
      · rintro ⟨items, ds, hitems, hds, rfl⟩
        obtain rfl := Except.ok.inj hitems
        obtain rfl := Except.ok.inj hds
        rfl
  | cons doc docs ih =>
      rw [Dump.addDecls, bind_eq_ok_iff, List.mapM_cons]
      simp only [locate_eq_ok_iff, Dump.addDecl, bind_eq_ok_iff, ih, settled_eq_ok_iff,
        push_eq_ok_iff]
      constructor
      · rintro ⟨_, ⟨d, hd, ds₁, hpush, rfl⟩, items, ds, hitems, hds, rfl⟩
        refine ⟨d :: items, ds, ⟨d, hd, items, hitems, rfl⟩, ?_, rfl⟩
        exact bind_eq_ok_iff.mpr ⟨ds₁, accepted_eq_ok_iff.mpr hpush, hds⟩
      · rintro ⟨_, ds, ⟨d, hd, items, hitems, hcons⟩, hds, rfl⟩
        obtain rfl := Except.ok.inj hcons
        obtain ⟨ds₁, hpush, hds⟩ := bind_eq_ok_iff.mp hds
        exact ⟨_, ⟨d, hd, ds₁, accepted_eq_ok_iff.mp hpush, rfl⟩, items, ds, hitems, hds, rfl⟩

theorem WellFormed.addDecls {expr : Dump.ExprDecoder} {place : String} {i : Nat}
    {docs : List Dump.DeclDoc} (h : m.WellFormed)
    (hd : Dump.addDecls expr place m i docs = .ok m') : m'.WellFormed := by
  obtain ⟨items, ds, hitems, hds, rfl⟩ := addDecls_eq_ok_iff.mp hd
  refine foldlM_induction (P := Tidy) (fun d hmem c c' hc hpush => ?_) h hds
  obtain ⟨doc, -, hdecl⟩ := exists_of_mem_mapM hitems hmem
  have htraits : d.TraitsDistinct := by
    rw [Decl.TraitsDistinct, impls_of_declOf hdecl]
    exact List.nodup_nil
  exact Tidy.pushDecl hc htraits (accepted_eq_ok_iff.mp hpush)

theorem wellFormed_decode {name text : String} (h : Dump.decode name text = .ok m) :
    m.WellFormed := by
  unfold Dump.decode at h
  split at h
  · obtain ⟨doc, -, h⟩ := bind_eq_ok_iff.mp h
    obtain ⟨attrs, -, h⟩ := bind_eq_ok_iff.mp h
    exact (wellFormed_blank _ _ _).addDecls h
  · cases h

/-! ### All of them -/

/-- The modules that a run of the operations can produce. -/
inductive Reachable : Module → Prop
  | new (name : Ident) : Reachable { name := name }
  | decode {name text : String} {m : Module} : Dump.decode name text = .ok m → Reachable m
  /-- a refused declaration also leaves a module behind -/
  | push {m : Module} {d : Decl} : Reachable m → d.TraitsDistinct → Reachable (m.push d).1
  /-- pushing a list also leaves a module behind when it stops early -/
  | pushAll {m : Module} {ds : List Decl} :
      Reachable m → (∀ d ∈ ds, d.TraitsDistinct) → Reachable (m.pushAll ds).1
  | without {m : Module} (p : Decl → Bool) : Reachable m → Reachable (m.without p)
  | merge {parts : List Module} {m : Module} :
      (∀ part ∈ parts, Reachable part) → Module.merge parts = .ok m → Reachable m
  | removeImports {m : Module} (lead : Path) :
      Reachable m → Reachable (Strip.removeImports lead m).1
  | stripDecls {m : Module} (lead : Path) : Reachable m → Reachable (Strip.stripDecls lead m).1
  | stripBodies {m : Module} (lead : Path) : Reachable m → Reachable (Strip.stripBodies lead m).1
  /-- facade generation leaves a module behind whether it fails or not -/
  | facade {m : Module} (opts : Facade.Options) :
      Reachable m → Reachable (Facade.generate m opts).1
  /-- pruning leaves a module behind whether it fails or not -/
  | prune {m : Module} (opts : Prune.Options) : Reachable m → Reachable (Prune.run m opts).1

/-- Every reachable module is well-formed, and a declaration that is refused, which happens only
for a clash of kinds, leaves the module as it was: a sequence of pushes that reaches `m` and goes
on with the refused declaration ends with `m`. -/
theorem wellFormed_of_reachable :
    (∀ m, Reachable m → m.WellFormed) ∧
      ∀ (m m' : Module) (d : Decl) (f : Failure), m.push d = (m', .error f) →
        m' = m ∧ f.cause = .kindClash ∧
          ∀ (m₀ : Module) (before rest : List Decl), m₀.pushAll before = (m, .ok ()) →
            m₀.pushAll (before ++ d :: rest) = (m, .error f) := by
  refine ⟨fun m h => ?_, fun m m' d f h => ?_⟩
  · induction h with
    | new name => exact wellFormed_blank name "" []
    | decode hm => exact wellFormed_decode hm
    | push _ hd ih => exact ih.push hd
    | pushAll _ hds ih => exact ih.pushAll hds
    | without p _ ih => exact ih.without p
    | merge _ hm ih => exact wellFormed_merge ih hm
    | removeImports lead _ ih => exact ih.without _
    | stripDecls lead _ ih => exact Tidy.of_keeps ih (keeps_stripDecls _ lead)
    | stripBodies lead _ ih => exact Tidy.of_keeps ih (keeps_stripBodies _ lead)
    | facade opts _ ih => exact ih.facade opts
    | prune opts _ ih => exact ih.prune opts
  · obtain ⟨rfl, hcause⟩ := eq_of_push_eq_error h
    exact ⟨rfl, hcause, fun m₀ before rest hm => pushAll_of_push_eq_error hm h rest⟩

/-- A run in which a block waits for its type, an import repeats and a facade takes a function. -/
def petRun : Module :=
  (Facade.generate
    (({ name := "pet_api" } : Module).pushAll
      [.impl { self := "Pet", fns := [{ name := "new" }] },
        .func { name := "pet_find", params := [⟨.ident false "config", .named "Config"⟩] },
        .use { path := .of "std" },
        .struct { name := "Pet" },
        .use { path := .of "std" }]).1
    .usual).1

theorem wellFormed_of_reachable_pet :
    (Reachable petRun ∧ petRun.decls.map Decl.kind = [.use, .struct, .struct] ∧
        petRun.WellFormed) ∧
      (({ name := "m" } : Module).pushAll [.enum { name := "A" }] =
          ({ name := "m", decls := [.enum { name := "A" }] }, .ok ()) ∧
        ({ name := "m" } : Module).pushAll
            ([.enum { name := "A" }] ++ .struct { name := "A" } :: [.verbatim "x"]) =
          ({ name := "m", decls := [.enum { name := "A" }] },
            .error (clash .struct "A" .enum))) := by
  have hreach : Reachable petRun := by
    refine .facade _ (.pushAll (.new _) ?_)
    intro d hd
    simp only [List.mem_cons, List.not_mem_nil, or_false] at hd
    rcases hd with rfl | rfl | rfl | rfl | rfl <;> exact List.nodup_nil
  have hpush : ({ name := "m", decls := [.enum { name := "A" }] } : Module).push
      (.struct { name := "A" }) =
        ({ name := "m", decls := [.enum { name := "A" }] }, .error (clash .struct "A" .enum)) := by
    rfl
  refine ⟨⟨hreach, by decide +kernel, wellFormed_of_reachable.1 _ hreach⟩, rfl, ?_⟩
  exact (wellFormed_of_reachable.2 _ _ _ _ hpush).2.2 _ _ _ rfl

end Module
end ClientLoom
