import ClientLoom.Builder
import ClientLoom.Proofs.Module.FirstChange
import ClientLoom.Proofs.Registry.VisitOrder

/-! # Which builders are made

Builders are made of the structs whose names end with one of the given endings.  The selected
structs are sorted by name, and of each name the first is built.  Sorting keeps structs of one name
as they come, so that the first one is the first in the order of modules and declarations
(`find?_sources`).  Selected declarations are structs, so no build fails, and the builders come out
in strictly increasing order (`generated`). -/

namespace ClientLoom
namespace Builder

open ClientLoom.Module (structNamed?)

variable {rules : List Rule} {endings : List String} {ms : List Module} {ss : List Struct}
  {seen : List Ident} {n : Ident}

/-! ### Selected structs -/

theorem filter_hasEnding (endings : List String) (ds : List Decl) :
    ds.filter (hasEnding endings) = (ds.filterMap (source? endings)).map .struct := by
  induction ds with
  | nil => rfl
  | cons d ds ih =>
      cases d with
      | struct s =>
          by_cases hs : hasEnding endings (.struct s) = true
          · have hsource : source? endings (.struct s) = some s := if_pos hs
            rw [List.filter_cons_of_pos hs, List.filterMap_cons_some hsource, ih, List.map_cons]
          · have hsource : source? endings (.struct s) = none := if_neg hs
            rw [List.filter_cons_of_neg hs, List.filterMap_cons_none hsource, ih]
      | _ => exact ih

/-- The selected structs are those that are sorted. -/
theorem mergeSort_select_hasEnding (endings : List String) (ms : List Module) :
    ((ms.flatMap (·.select (hasEnding endings))).mergeSort
      fun a b => decide (Text.rank (a.ident?.getD "") ≤ Text.rank (b.ident?.getD ""))) =
        (sources endings ms).map .struct := by
  have hselect : ms.flatMap (·.select (hasEnding endings)) =
      (ms.flatMap fun m => m.decls.filterMap (source? endings)).map .struct := by
    rw [List.map_flatMap]
    exact List.flatMap_congr fun m _ => filter_hasEnding endings m.decls
  unfold sources
  rw [hselect, List.map_mergeSort]
  exact fun _ _ _ _ => rfl

/-- A struct that alone is selected is built. -/
theorem generate_of_selected {endings : List String} {ms : List Module} {s : Struct}
    (rules : List Rule) (h : ms.flatMap (fun m => m.decls.filterMap (source? endings)) = [s]) :
    generate rules endings ms = [buildStruct rules s] := by
  unfold generate sources
  rw [h, List.mergeSort_singleton]
  rfl

theorem find?_filterMap_source? (endings : List String) (ds : List Decl) (n : Ident) :
    (ds.filterMap (source? endings)).find? (·.name == n) =
      if endings.any (Text.endsWith n) then ds.findSome? (structNamed? n) else none := by
  induction ds with
  | nil => simp
  | cons d ds ih =>
      cases d with
      | struct s =>
          by_cases hs : endings.any (Text.endsWith s.name) = true
          · have hsource : source? endings (.struct s) = some s := if_pos hs
            rw [List.filterMap_cons_some hsource, List.find?_cons]
            by_cases hn : s.name = n
            · simp [hn ▸ hs, hn, structNamed?]
            · have hne : (s.name == n) = false := by simpa using hn
              simp [hne, structNamed?, ih]
          · have hsource : source? endings (.struct s) = none := if_neg hs
            rw [List.filterMap_cons_none hsource, ih]
            by_cases hn : s.name = n
            · simp [hn ▸ hs]
            · simp [structNamed?, hn]
      | _ => exact ih

theorem findSome?_flatMap {α β γ : Type} {f : α → List β} {g : β → Option γ} {xs : List α} :
    (xs.flatMap f).findSome? g = xs.findSome? fun x => (f x).findSome? g := by
  induction xs with
  | nil => rfl
  | cons x xs ih =>
      rw [List.flatMap_cons, List.findSome?_append, ih, List.findSome?_cons]
      cases (f x).findSome? g <;> rfl

/-- The first struct called `n`, in the order of modules and their declarations. -/
def firstStruct? (ms : List Module) (n : Ident) : Option Struct := ms.findSome? (·.struct? n)

theorem firstStruct?_cons (m : Module) (ms : List Module) (n : Ident) :
    firstStruct? (m :: ms) n = (m.struct? n).or (firstStruct? ms n) := by
  unfold firstStruct?
  rw [List.findSome?_cons]
  cases m.struct? n <;> rfl

theorem isSome_firstStruct? :
    (firstStruct? ms n).isSome ↔ ∃ m ∈ ms, ∃ s, .struct s ∈ m.decls ∧ s.name = n := by
  have hdecl (d : Decl) : (structNamed? n d).isSome ↔ ∃ s, d = .struct s ∧ s.name = n := by
    simp only [Option.isSome_iff_exists, Module.structNamed?_eq_some_iff]
  simp only [firstStruct?, Module.struct?, List.findSome?_isSome_iff, hdecl]
  refine exists_congr fun m => and_congr_right fun _ => ?_
  constructor
  · rintro ⟨d, hd, s, rfl, hn⟩
    exact ⟨s, hd, hn⟩
  · rintro ⟨s, hs, hn⟩
    exact ⟨_, hs, s, rfl, hn⟩

theorem name_of_firstStruct? {s : Struct} (h : firstStruct? ms n = some s) : s.name = n := by
  obtain ⟨m, -, hm⟩ := List.exists_of_findSome?_eq_some h
  obtain ⟨d, -, hd⟩ := List.exists_of_findSome?_eq_some hm
  exact (Module.structNamed?_eq_some_iff.mp hd).2

/-- Sorting does not change which struct of a name comes first. -/
theorem find?_sources (endings : List String) (ms : List Module) (n : Ident) :
    (sources endings ms).find? (·.name == n) =
      if endings.any (Text.endsWith n) then firstStruct? ms n else none := by
  unfold sources
  have hname (s : Struct) (hs : (s.name == n) = true) : Text.rank s.name = Text.rank n := by
    simpa using hs
  rw [← List.head?_filter, filter_mergeSort_key (fun s : Struct => Text.rank s.name) hname,
    List.head?_filter,
    ← List.filterMap_flatMap, find?_filterMap_source?]
  unfold firstStruct? Module.struct?
  rw [findSome?_flatMap]

/-! ### One struct of each name -/

theorem firstOfEachName_sublist (ss : List Struct) : (firstOfEachName ss).Sublist ss := by
  induction ss with
  | nil => exact .slnil
  | cons s ss ih => exact .cons_cons s (List.filter_sublist.trans ih)

theorem nodup_firstOfEachName (ss : List Struct) :
    (firstOfEachName ss).Pairwise fun a b => a.name ≠ b.name := by
  induction ss with
  | nil => exact .nil
  | cons s ss ih =>
      refine List.pairwise_cons.mpr ⟨fun b hb => ?_, ih.sublist List.filter_sublist⟩
      exact (bne_iff_ne.mp (List.mem_filter.mp hb).2).symm

/-- What is kept of a name is the first struct of that name. -/
theorem mem_firstOfEachName_iff {s : Struct} :
    s ∈ firstOfEachName ss ↔ ss.find? (·.name == s.name) = some s := by
  induction ss with
  | nil => simp [firstOfEachName]
  | cons t ss ih =>
      unfold firstOfEachName
      rw [List.mem_cons, List.mem_filter, ih, List.find?_cons]
      by_cases hname : t.name = s.name
      · simp [hname, eq_comm]
      · have hne : s ≠ t := fun h => hname (h ▸ rfl)
        have hother : (t.name == s.name) = false := by simpa using hname
        simp [hne, hother, Ne.symm hname]

/-! ### Building -/

theorem buildFirsts_cons_of_mem {d : Decl} {ds : List Decl} (h : d.ident?.getD "" ∈ seen) :
    buildFirsts rules seen (d :: ds) = buildFirsts rules seen ds :=
  if_pos (List.contains_iff_mem.mpr h)

theorem buildFirsts_struct_cons {s : Struct} {ds : List Decl} (h : s.name ∉ seen) :
    buildFirsts rules seen (.struct s :: ds) =
      (buildFirsts rules (s.name :: seen) ds).map (buildStruct rules s :: ·) := by
  have hnot : ¬ seen.contains ((Decl.struct s).ident?.getD "") = true :=
    fun hc => h (List.contains_iff_mem.mp hc)
  rw [buildFirsts, if_neg hnot]
  show (buildFirsts rules (s.name :: seen) ds >>= fun bs => pure (buildStruct rules s :: bs)) = _
  cases buildFirsts rules (s.name :: seen) ds <;> rfl

/-- Structs are built without failure: of each name that was not seen, the first. -/
theorem buildFirsts_structs (rules : List Rule) (seen : List Ident) (ss : List Struct) :
    buildFirsts rules seen (ss.map .struct) =
      .ok (((firstOfEachName ss).filter (·.name ∉ seen)).map (buildStruct rules)) := by
  induction ss generalizing seen with
  | nil => rfl
  | cons s ss ih =>
      unfold firstOfEachName
      rw [List.map_cons]
      by_cases hs : s.name ∈ seen
      · have hrest (t : Struct) :
            (decide (t.name ∉ seen) && t.name != s.name) = decide (t.name ∉ seen) := by
          by_cases ht : t.name = s.name
          · simp [ht, hs]
          · simp [ht]
        rw [buildFirsts_cons_of_mem hs, ih, List.filter_cons_of_neg (by simpa using hs),
          List.filter_filter]
        simp only [hrest]
      · have hrest (t : Struct) : (decide (t.name ∉ seen) && t.name != s.name) =
            decide (t.name ∉ s.name :: seen) := by
          by_cases ht : t.name = s.name
          · simp [ht]
          · simp [ht]
        rw [buildFirsts_struct_cons hs, ih, List.filter_cons_of_pos (by simpa using hs),
          List.filter_filter, List.map_cons]
        simp only [hrest]
        rfl

theorem generateSelected_hasEnding (rules : List Rule) (endings : List String)
    (ms : List Module) :
    generateSelected rules (hasEnding endings) ms = .ok (generate rules endings ms) := by
  unfold generateSelected generate
  rw [mergeSort_select_hasEnding, buildFirsts_structs]
  simp

/-- What is generated from modules: in strictly increasing order one builder for every name of a
struct with one of the endings, made of the first struct of that name. -/
structure Generated (rules : List Rule) (endings : List String) (ms : List Module)
    (out : List Struct) : Prop where
  increasing : out.Pairwise fun a b => Text.rank a.name < Text.rank b.name
  mem_names : ∀ n, n ∈ out.map Struct.name ↔
    endings.any (Text.endsWith n) = true ∧ ∃ m ∈ ms, ∃ s, .struct s ∈ m.decls ∧ s.name = n
  built : ∀ b ∈ out, ∃ s, firstStruct? ms b.name = some s ∧ build rules (.struct s) = .ok b

theorem generated (rules : List Rule) (endings : List String) (ms : List Module) :
    Generated rules endings ms (generate rules endings ms) := by
  have hsorted : (sources endings ms).Pairwise fun a b => Text.rank a.name ≤ Text.rank b.name :=
    (List.pairwise_mergeSort (key_le_trans fun s : Struct => Text.rank s.name)
      (key_le_total fun s : Struct => Text.rank s.name) _).imp fun h => of_decide_eq_true h
  have hstrict : (firstOfEachName (sources endings ms)).Pairwise
      fun a b => Text.rank a.name < Text.rank b.name :=
    (hsorted.sublist (firstOfEachName_sublist _)).imp₂ (fun _ _ => Text.rank_lt_of_le_of_ne)
      (nodup_firstOfEachName _)
  -- a built struct is the first of its name in the modules
  have hfirst {s : Struct} : s ∈ firstOfEachName (sources endings ms) ↔
      endings.any (Text.endsWith s.name) = true ∧ firstStruct? ms s.name = some s := by
    rw [mem_firstOfEachName_iff, find?_sources, Option.ite_none_right_eq_some]
  refine ⟨List.pairwise_map.mpr hstrict, fun n => ?_, fun b hb => ?_⟩
  · rw [← isSome_firstStruct?, Option.isSome_iff_exists]
    unfold generate
    rw [List.map_map]
    constructor
    · intro hn
      obtain ⟨s, hs, rfl⟩ := List.mem_map.mp hn
      obtain ⟨hends, hs⟩ := hfirst.mp hs
      exact ⟨hends, s, hs⟩
    · rintro ⟨hends, s, hs⟩
      obtain rfl := name_of_firstStruct? hs
      exact List.mem_map.mpr ⟨s, hfirst.mpr ⟨hends, hs⟩, rfl⟩
  · obtain ⟨s, hs, rfl⟩ := List.mem_map.mp hb
    exact ⟨s, (hfirst.mp hs).2, rfl⟩

end Builder
end ClientLoom
