import ClientLoom.Proofs.Module.Reachable
import ClientLoom.Proofs.Module.Replay

/-! # Merging a module that is there already

A module can be merged on its own.  Its declarations are then pushed one by one, and that gives
them back when the outline is tidy (`makes_self`).  Here any declaration may have been pushed, so
that a type may bring several impl blocks for one trait and the module is not well-formed; the
outline, which leaves those blocks out, is tidy all the same.

Each operation on one module (`Step`) keeps the outline tidy, since it pushes, takes declarations
out, or puts others in their places (`Step.tidy_outline`), and so does every run of operations
(`Built.tidy_outline`).

Main statement: a module that operations built, and every merged module, is merged into itself
(`merge_idempotent`). -/

namespace ClientLoom

/-- What can stand in the place of a declaration can do so without impl blocks, too. -/
theorem Decl.Keeps.bare {d e : Decl} (h : d.Keeps e) : d.bare.Keeps e.bare where
  use := by rw [use?_bare, use?_bare, h.use]
  typeName := by rw [typeName?_bare, typeName?_bare, h.typeName]
  waitKey := by rw [waitKey?_bare, waitKey?_bare, h.waitKey]
  traits := fun _ => by simp [TraitsDistinct]

namespace Module

variable {m m' : Module} {ds es : List Decl}

/-! ### Tidy outlines -/

theorem tidy_outline_of_keeps (h : Tidy (outline ds)) (hkeeps : List.Forall₂ Decl.Keeps ds es) :
    Tidy (outline es) := by
  refine h.of_keeps ?_
  rw [outline, outline, List.forall₂_map_left_iff, List.forall₂_map_right_iff]
  exact hkeeps.imp fun _ _ => Decl.Keeps.bare

theorem tidy_outline_without (h : Tidy (outline m.decls)) (p : Decl → Bool) :
    Tidy (outline (m.without p).decls) :=
  h.sublist (List.filter_sublist.map _)

theorem tidy_outline_push (h : Tidy (outline m.decls)) (d : Decl) :
    Tidy (outline (m.push d).1.decls) := by
  rcases push_cases m d with ⟨ds, hds, hpush⟩ | ⟨f, hpush, -⟩
  · rw [hpush]
    exact tidy_outline_pushDecl h hds
  · rwa [hpush]

/-- Declarations keep the outline tidy also when one of them is refused. -/
theorem tidy_outline_pushAll (h : Tidy (outline m.decls)) (ds : List Decl) :
    Tidy (outline (m.pushAll ds).1.decls) := by
  induction ds generalizing m with
  | nil => exact h
  | cons d ds ih =>
      have hm := tidy_outline_push h d
      unfold Module.pushAll
      split
      · next hpush =>
          rw [hpush] at hm
          exact ih hm
      · next hpush =>
          rw [hpush] at hm
          exact hm

/-! ### Operations and their runs -/

/-- The operations on one module. -/
inductive Step (m : Module) : Module → Prop
  /-- a refused declaration also leaves a module behind -/
  | push (d : Decl) : Step m (m.push d).1
  /-- pushing a list also leaves a module behind when it stops early -/
  | pushAll (ds : List Decl) : Step m (m.pushAll ds).1
  | without (p : Decl → Bool) : Step m (m.without p)
  | removeImports (lead : Path) : Step m (Strip.removeImports lead m).1
  | stripDecls (lead : Path) : Step m (Strip.stripDecls lead m).1
  | stripBodies (lead : Path) : Step m (Strip.stripBodies lead m).1
  /-- facade generation leaves a module behind whether it fails or not -/
  | facade (opts : Facade.Options) : Step m (Facade.generate m opts).1
  /-- pruning leaves a module behind whether it fails or not -/
  | prune (opts : Prune.Options) : Step m (Prune.run m opts).1

/-- The modules that operations build, from whatever declarations and parts. -/
inductive Built : Module → Prop
  | new (name : Ident) : Built { name := name }
  | decode {name text : String} {m : Module} : Dump.decode name text = .ok m → Built m
  | merge {parts : List Module} {m : Module} : Module.merge parts = .ok m → Built m
  | step {m m' : Module} : Built m → Step m m' → Built m'

theorem Step.tidy_outline (h : Step m m') (hm : Tidy (outline m.decls)) :
    Tidy (outline m'.decls) := by
  cases h with
  | push d => exact tidy_outline_push hm d
  | pushAll ds => exact tidy_outline_pushAll hm ds
  | without p => exact tidy_outline_without hm p
  | removeImports lead => exact tidy_outline_without hm _
  | stripDecls lead => exact tidy_outline_of_keeps hm (keeps_stripDecls m lead)
  | stripBodies lead => exact tidy_outline_of_keeps hm (keeps_stripBodies m lead)
  | facade opts =>
      rcases facade_cases m opts with hsame | ⟨p, stem, methods, hpushed⟩
      · rwa [hsame]
      · rw [hpushed]
        exact tidy_outline_pushAll (tidy_outline_without hm p) _
  | prune opts =>
      rcases prune_cases m opts with hsame | hpruned
      · rwa [hsame]
      · rw [hpruned]
        exact tidy_outline_without (tidy_outline_of_keeps hm (keeps_pruneStruct m opts)) _

/-- Parts that can be merged have one name. -/
theorem exists_name_of_merge {parts : List Module} (h : merge parts = .ok m) :
    parts ≠ [] ∧ ∃ name, ∀ p ∈ parts, p.name = name := by
  cases parts with
  | nil => cases h
  | cons first rest =>
      refine ⟨List.cons_ne_nil _ _, first.name, List.forall_mem_cons.mpr ⟨rfl, ?_⟩⟩
      intro p hp
      unfold merge at h
      dsimp only at h
      split at h
      · cases h
      · next hnone => simpa using List.find?_eq_none.mp hnone p hp

theorem tidy_outline_merge {parts : List Module} (h : merge parts = .ok m) :
    Tidy (outline m.decls) := by
  obtain ⟨hne, name, hname⟩ := exists_name_of_merge h
  obtain ⟨ds, hds, rfl⟩ := (merge_eq_ok_iff hne hname).mp h
  exact hds.tidy_outline

/-- Whatever operations built a module, its outline is tidy. -/
theorem Built.tidy_outline (h : Built m) : Tidy (outline m.decls) := by
  induction h with
  | new name => exact tidy_nil
  | decode hm => exact Tidy.outline (wellFormed_decode hm)
  | merge hm => exact tidy_outline_merge hm
  | step _ hs ih => exact hs.tidy_outline ih

theorem Built.rewrite (h : Built m) (plan : Strip.Plan) : Built (plan.apply m).1 := by
  have hdrop : Built (plan.drop.foldl Strip.dropStep (m, {})).1 :=
    List.foldlRecOn (motive := fun acc => Built acc.1) plan.drop Strip.dropStep h
      fun _ hacc lead _ => hacc.step (.removeImports lead)
  exact List.foldlRecOn (motive := fun acc => Built acc.1) plan.strip Strip.stripStep hdrop
    fun _ hacc lead _ => (hacc.step (.stripDecls lead)).step (.stripBodies lead)

/-! ### Merging a single module -/

/-- A module with a tidy outline is merged into itself, with its origin and its attributes. -/
theorem merge_self (h : Tidy (outline m.decls)) : merge [m] = .ok m := by
  refine (merge_eq_ok_iff (List.cons_ne_nil _ _) (List.forall_mem_singleton.mpr rfl)).mpr
    ⟨m.decls, ?_, ?_⟩
  · rw [List.mergeSort_singleton, List.flatMap_singleton]
    exact makes_self h
  · rw [List.mergeSort_singleton, List.flatMap_singleton]
    rfl

/-- Merging is idempotent: every module that operations build is merged into itself, and so what
parts were merged into can be merged again without a change. -/
theorem merge_idempotent :
    (∀ m, Built m → merge [m] = .ok m) ∧
      ∀ parts m, merge parts = .ok m → merge [m] = .ok m :=
  ⟨fun _ h => merge_self h.tidy_outline, fun _ _ h => merge_self (Built.merge h).tidy_outline⟩

/-- A type that brings two inherent blocks, beside a block that waits for another type. -/
def crowdedPet : Module :=
  (({ name := "pet" } : Module).pushAll
    [.struct { name := "Pet", impls := [{ self := "Pet" }, { self := "Pet" }] },
      .impl { self := "Owner", fns := [{ name := "new" }] },
      .use { path := .of "std" }]).1

/-- A part that declares a type. -/
def earlierPart : Module :=
  { name := "pet", origin := "a.yaml", decls := [.struct { name := "Pet" }] }

/-- A part of a later origin that only imports. -/
def laterPart : Module :=
  { name := "pet", origin := "b.yaml", decls := [.use { path := .of "std" }] }

theorem merge_idempotent_pet :
    (Built crowdedPet ∧ merge [crowdedPet] = .ok crowdedPet) ∧
      ∃ m, merge [earlierPart, laterPart] = .ok m ∧
        m.decls = laterPart.decls ++ earlierPart.decls ∧ merge [m] = .ok m := by
  have hbuilt : Built crowdedPet := (Built.new "pet").step (.pushAll _)
  have hname : ∀ p ∈ [earlierPart, laterPart], p.name = "pet" := by
    simp [earlierPart, laterPart]
  have hmerge : merge [earlierPart, laterPart] =
      .ok { name := "pet", decls := laterPart.decls ++ earlierPart.decls } := by
    have horigin : Text.rank earlierPart.origin < Text.rank laterPart.origin := by decide
    rw [merge_eq_ok_iff (by simp) hname, mergeSort_of_origins (List.pairwise_pair.mpr horigin)]
    exact ⟨_, rfl, rfl⟩
  exact ⟨⟨hbuilt, merge_idempotent.1 _ hbuilt⟩, _, hmerge, rfl, merge_idempotent.2 _ _ hmerge⟩

end Module
end ClientLoom
