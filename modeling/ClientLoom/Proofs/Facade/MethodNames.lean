import Mathlib.Data.List.Nodup
import ClientLoom.Proofs.Facade.Conservation
import ClientLoom.Proofs.Text.Occurrence

/-! # The names of the methods of a facade

A method is called like its operation without the first `stem_`, and the constructor is called
`new`.  Nothing keeps these names apart: two operations may lose different parts of their names and
be left with the same, and one may be left with `new`.  Only a block that was there before sees to
it that a name is taken once, by letting go of the functions that come later.

Main statement: which names of operations give a block without repeated names
(`method_names_nodup_iff`).  Operations that are called `stem_` and then anything but `new` do. -/

namespace ClientLoom

/-! ### Blocks that absorb others -/

namespace Impl

theorem nodup_names_addFn_iff {i : Impl} {f : Func} :
    ((i.addFn f).fns.map Func.name).Nodup ↔ (i.fns.map Func.name).Nodup := by
  by_cases h : f.name ∈ i.fns.map Func.name
  · rw [addFn_of_mem h]
  · rw [addFn_of_not_mem h, List.map_append, List.map_singleton, ← List.concat_eq_append,
      List.nodup_concat]
    exact and_iff_right h

/-- What is absorbed does not repeat a name. -/
theorem nodup_names_absorb_iff {i other : Impl} :
    ((i.absorb other).fns.map Func.name).Nodup ↔ (i.fns.map Func.name).Nodup := by
  unfold absorb
  induction other.fns generalizing i with
  | nil => exact Iff.rfl
  | cons f fns ih => rw [List.foldl_cons, ih, nodup_names_addFn_iff]

end Impl

namespace Facade

variable (m : Module) (opts : Options)

/-! ### Names of operations -/

/-- No operation becomes a second constructor, and different operations become different methods. -/
structure NamesApart : Prop where
  notNew : ∀ f ∈ operations m opts, methodName f.name (stemOf m opts) ≠ "new"
  apart : ∀ f ∈ operations m opts, ∀ g ∈ operations m opts,
    methodName f.name (stemOf m opts) = methodName g.name (stemOf m opts) → f.name = g.name

/-- The name of an operation as it is usually formed: `stem_` and the name of a method. -/
def IsRegular (stem name : String) : Prop :=
  ∃ rest, rest ≠ "" ∧ rest ≠ "new" ∧ name = stem ++ "_" ++ rest

theorem methodName_regular (stem : String) {rest : String} (h : rest ≠ "") :
    methodName (stem ++ "_" ++ rest) stem = rest := by
  have hfirst : Text.FirstAt (stem ++ "_").toList (stem ++ "_" ++ rest).toList [] rest.toList := by
    have happend : (stem ++ "_" ++ rest).toList = (stem ++ "_").toList ++ rest.toList :=
      String.toList_append
    rw [happend]
    exact Text.firstAt_front _ _
  rw [methodName, Text.eraseFirst_of_firstAt hfirst, List.nil_append, String.ofList_toList]
  exact if_neg h

variable {m opts}

theorem namesApart_of_regular
    (h : ∀ f ∈ operations m opts, IsRegular (stemOf m opts) f.name) : NamesApart m opts where
  notNew := by
    intro f hf
    obtain ⟨rest, hne, hnew, hname⟩ := h f hf
    rw [hname, methodName_regular _ hne]
    exact hnew
  apart := by
    intro f hf g hg heq
    obtain ⟨rest, hne, -, hname⟩ := h f hf
    obtain ⟨rest', hne', -, hname'⟩ := h g hg
    rw [hname, hname', methodName_regular _ hne, methodName_regular _ hne'] at heq
    rw [hname, hname', heq]

theorem operations_sublist : (operations m opts).Sublist m.freeFuncs := by
  unfold operations Module.freeFuncs
  induction m.decls with
  | nil => exact .slnil
  | cons d ds ih =>
      cases d with
      | func f =>
          have hfunc : Decl.func? (.func f) = some f := rfl
          rw [List.filterMap_cons_some hfunc]
          cases hop : operation? (stemOf m opts) (.func f) with
          | none =>
              rw [List.filterMap_cons_none hop]
              exact ih.cons f
          | some g =>
              rw [List.filterMap_cons_some hop, ← Decl.func.inj (eq_func_of_operation? hop)]
              exact ih.cons_cons f
      | _ =>
          rw [List.filterMap_cons_none rfl, List.filterMap_cons_none rfl]
          exact ih

theorem nodup_addedNames_iff (hfree : (m.freeFuncs.map Func.name).Nodup) :
    (addedNames m opts).Nodup ↔ NamesApart m opts := by
  have hops : ((operations m opts).map Func.name).Nodup :=
    hfree.sublist (operations_sublist.map Func.name)
  have hmap : (operations m opts).map (fun f => methodName f.name (stemOf m opts)) =
      ((operations m opts).map Func.name).map (methodName · (stemOf m opts)) := by
    rw [List.map_map]
    rfl
  rw [addedNames, List.nodup_cons, hmap, List.nodup_map_iff_inj_on hops]
  constructor
  · rintro ⟨hnew, hinj⟩
    refine ⟨?_, ?_⟩
    · intro f hf heq
      exact hnew (List.mem_map.mpr ⟨f.name, List.mem_map_of_mem hf, heq⟩)
    · intro f hf g hg heq
      exact hinj f.name (List.mem_map_of_mem hf) g.name (List.mem_map_of_mem hg) heq
  · intro h
    constructor
    · intro hmem
      obtain ⟨name, hname, heq⟩ := List.mem_map.mp hmem
      obtain ⟨f, hf, rfl⟩ := List.mem_map.mp hname
      exact h.notNew f hf heq
    · intro x hx y hy heq
      obtain ⟨f, hf, rfl⟩ := List.mem_map.mp hx
      obtain ⟨g, hg, rfl⟩ := List.mem_map.mp hy
      exact h.apart f hf g hg heq

/-! ### The inherent block -/

/-- The struct of a facade has an inherent block afterwards: the one that was held, with what it
absorbs, and otherwise the generated one. -/
theorem exists_block_of_generate {m' : Module} {r : Result} (hm : m.WellFormed)
    (h : generate m opts = (m', .ok r)) :
    ∃ s b, m'.struct? (structName (stemOf m opts)) = some s ∧
      Impl.findKey? s.impls "" = some b ∧
      (∀ held, heldBlock? m opts = some held → ∃ other, b = held.absorb other) ∧
      (heldBlock? m opts = none → b.fns.map Func.name = addedNames m opts) := by
  obtain ⟨methods, hmethods, hpush⟩ := exists_methods_of_generate h
  obtain ⟨⟨s, hs, himpls⟩, -, -⟩ :=
    Module.pushAll_pair (hm.without (isOperation (stemOf m opts))) rfl rfl hpush
  rw [facadeStruct_name] at hs himpls
  rw [blocksFor_without] at himpls
  have hblock := Impl.findKey?_attach (Module.blocksFor m.decls (structName (stemOf m opts)))
    (facadeImpl opts (stemOf m opts) methods)
  have hheld : Impl.findKey? (Module.blocksFor m.decls (structName (stemOf m opts)))
      (facadeImpl opts (stemOf m opts) methods).traitKey = heldBlock? m opts := rfl
  rw [← himpls, hheld] at hblock
  refine ⟨s, _, hs, hblock, ?_, ?_⟩
  · intro held heq
    rw [heq]
    exact ⟨_, rfl⟩
  · intro hnone
    rw [hnone]
    exact map_name_facadeImpl opts (forall₂_isMethodOf m opts hmethods)

/-- Where free functions have different names and a facade is generated, the functions of its
inherent block have different names if and only if those did that the block had before, or, when
there was no block, if no operation becomes `new` and no two operations become one.  The usual
names of operations see to this. -/
theorem method_names_nodup_iff {m' : Module} {r : Result} (hm : m.WellFormed)
    (hfree : (m.freeFuncs.map Func.name).Nodup) (h : generate m opts = (m', .ok r)) :
    ∃ s b, m'.struct? (structName (stemOf m opts)) = some s ∧
      Impl.findKey? s.impls "" = some b ∧
      (∀ held, heldBlock? m opts = some held →
        ((b.fns.map Func.name).Nodup ↔ (held.fns.map Func.name).Nodup)) ∧
      (heldBlock? m opts = none → ((b.fns.map Func.name).Nodup ↔ NamesApart m opts)) ∧
      (heldBlock? m opts = none → (∀ f ∈ operations m opts, IsRegular (stemOf m opts) f.name) →
        (b.fns.map Func.name).Nodup) := by
  obtain ⟨s, b, hs, hb, hsome, hnone⟩ := exists_block_of_generate hm h
  have hiff : heldBlock? m opts = none → ((b.fns.map Func.name).Nodup ↔ NamesApart m opts) := by
    intro hheld
    rw [hnone hheld]
    exact nodup_addedNames_iff hfree
  refine ⟨s, b, hs, hb, ?_, hiff, ?_⟩
  · intro held hheld
    obtain ⟨other, rfl⟩ := hsome held hheld
    exact Impl.nodup_names_absorb_iff
  · intro hheld hregular
    exact (hiff hheld).mpr (namesApart_of_regular hregular)

/-- A module with one operation. -/
def petWith (operation : Ident) : Module where
  name := "pet_api"
  decls := [.func { name := operation, params := [⟨.ident false "config", .named "Config"⟩] }]

theorem wellFormed_petWith (operation : Ident) : (petWith operation).WellFormed :=
  Module.tidy_singleton List.nodup_nil

theorem method_names_nodup_find :
    ((petWith "pet_find").freeFuncs.map Func.name).Nodup ∧
      (generate (petWith "pet_find") .usual).2 = .ok ⟨"PetApi", ["find"]⟩ ∧
      ∃ s b, (generate (petWith "pet_find") .usual).1.struct? "PetApi" = some s ∧
        Impl.findKey? s.impls "" = some b ∧ (b.fns.map Func.name).Nodup := by
  have hok : (generate (petWith "pet_find") .usual).2 = .ok ⟨"PetApi", ["find"]⟩ := by
    decide +kernel
  obtain ⟨s, b, hs, hb, -, -, hregular⟩ :=
    method_names_nodup_iff (wellFormed_petWith "pet_find") (List.nodup_singleton "pet_find")
      (Prod.ext rfl hok)
  have hstruct : structName (stemOf (petWith "pet_find") .usual) = "PetApi" := by decide +kernel
  rw [hstruct] at hs
  have hops : (operations (petWith "pet_find") .usual).map Func.name = ["pet_find"] := by
    decide +kernel
  refine ⟨List.nodup_singleton "pet_find", hok, s, b, hs, hb, hregular rfl ?_⟩
  intro f hf
  have hname : f.name = "pet_find" := by
    have hmem := List.mem_map_of_mem (f := Func.name) hf
    rwa [hops, List.mem_singleton] at hmem
  exact ⟨"find", by decide, by decide, by rw [hname]; decide +kernel⟩

/-- The method for `pet_new` is called like the constructor. -/
theorem method_names_repeat_new :
    (petWith "pet_new").WellFormed ∧ ((petWith "pet_new").freeFuncs.map Func.name).Nodup ∧
      (generate (petWith "pet_new") .usual).2 = .ok ⟨"PetApi", ["new"]⟩ ∧
      ∃ s b, (generate (petWith "pet_new") .usual).1.struct? "PetApi" = some s ∧
        Impl.findKey? s.impls "" = some b ∧ ¬(b.fns.map Func.name).Nodup := by
  have hfound : ((generate (petWith "pet_new") .usual).1.struct? "PetApi").bind
      (fun s => (Impl.findKey? s.impls "").map (·.fns.map Func.name)) = some ["new", "new"] := by
    decide +kernel
  obtain ⟨s, hs, hblock⟩ := Option.bind_eq_some_iff.mp hfound
  obtain ⟨b, hb, hnames⟩ := Option.map_eq_some_iff.mp hblock
  refine ⟨wellFormed_petWith "pet_new", List.nodup_singleton "pet_new", ?_, s, b, hs, hb, ?_⟩
  · decide +kernel
  · rw [hnames]
    decide

end Facade
end ClientLoom
