import ClientLoom.Proofs.Module.WellFormed
import ClientLoom.Proofs.Strip.Exact

/-! # Stripping the same path again

One round of stripping takes a leading path away once, so that a path that began with it twice
still begins with it.  Stripping again finds exactly these paths (`strip_again_iff`): it reports
their number, and it does nothing if and only if there were none.  A module inside a module of the
same name has such paths. -/

namespace ClientLoom
namespace Path

/-- The path two times over. -/
def twice (lead : Path) : Path := lead.join lead.segments

variable {lead p : Path}

theorem goesOn_cut_iff : GoesOn lead (cut lead p) ↔ GoesOn lead.twice p := by
  constructor
  · intro h
    by_cases hp : GoesOn lead p
    · obtain ⟨hlead, rest, hrest, rfl⟩ := hp
      rw [cut_join hlead hrest] at h
      obtain ⟨-, rest', hrest', heq⟩ := h
      refine ⟨?_, rest', hrest', ?_⟩
      · simp [twice, join, hlead]
      · have hsegments : rest = lead.segments ++ rest' := congrArg Path.segments heq
        simp [twice, join, hsegments]
    · rw [cut_of_not_goesOn hp] at h
      exact absurd h hp
  · rintro ⟨hne, rest, hrest, rfl⟩
    have hlead : lead.segments ≠ [] := by
      intro hnil
      exact hne (by simp [twice, join, hnil])
    have hbehind : lead.segments ++ rest ≠ [] := List.append_ne_nil_of_left_ne_nil hlead rest
    have hjoin : lead.twice.join rest = lead.join (lead.segments ++ rest) := by
      simp [twice, join]
    rw [hjoin, cut_join hlead hbehind]
    exact ⟨hlead, rest, hrest, rfl⟩

theorem cut_cut_eq_iff : cut lead (cut lead p) = cut lead p ↔ ¬GoesOn lead.twice p := by
  rw [← goesOn_cut_iff]
  constructor
  · intro heq h
    obtain ⟨hlead, rest, hrest, hp⟩ := h
    rw [hp, cut_join hlead hrest] at heq
    have hsegments : rest = lead.segments ++ rest := congrArg Path.segments heq
    exact hlead (List.self_eq_append_left.mp hsegments)
  · exact cut_of_not_goesOn

end Path

namespace Strip

open ClientLoom.Path (GoesOn cut)

/-- One round of stripping: the declarations, then the bodies. -/
def stripBoth (lead : Path) (m : Module) : Module := (stripBodies lead (stripDecls lead m).1).1

/-- The numbers that a round of stripping reports. -/
def strippedCounts (lead : Path) (m : Module) : Nat × Nat :=
  ((stripDecls lead m).2, (stripBodies lead (stripDecls lead m).1).2)

/-- The paths that stripping looks at. -/
def strippable (m : Module) : List Path := m.declaredPaths ++ m.bodyPaths.map Prod.snd

variable (lead : Path) (m : Module)

theorem stripBoth_eq :
    stripBoth lead m = (m.mapDeclared (cut lead)).mapBodies fun _ => cut lead := by
  simp only [stripBoth, stripDecls_eq, stripBodies_eq]

theorem strippedCounts_eq :
    strippedCounts lead m =
      (m.declaredPaths.countP (GoesOn lead ·), m.bodyPaths.countP fun x => GoesOn lead x.2) := by
  simp only [strippedCounts, stripDecls_eq, stripBodies_eq, Module.bodyPaths_mapDeclared]

theorem declaredPaths_stripBoth :
    (stripBoth lead m).declaredPaths = m.declaredPaths.map (cut lead) := by
  rw [stripBoth_eq, Module.declaredPaths_mapBodies, Module.declaredPaths_mapDeclared]

theorem bodyPaths_stripBoth :
    (stripBoth lead m).bodyPaths = m.bodyPaths.map (Paths.change fun _ => cut lead) := by
  rw [stripBoth_eq, Module.bodyPaths_mapBodies, Module.bodyPaths_mapDeclared]

theorem strippedCounts_stripBoth :
    strippedCounts lead (stripBoth lead m) =
      (m.declaredPaths.countP (GoesOn lead.twice ·),
        m.bodyPaths.countP fun x => GoesOn lead.twice x.2) := by
  simp only [strippedCounts_eq, declaredPaths_stripBoth, bodyPaths_stripBoth, List.countP_map,
    Function.comp_def, Paths.change, Path.goesOn_cut_iff]

variable {lead m}

theorem stripBoth_eq_self (h : ∀ p ∈ strippable m, cut lead p = p) : stripBoth lead m = m := by
  simp only [strippable, List.forall_mem_append, List.forall_mem_map] at h
  rw [stripBoth_eq, Module.mapDeclared_eq_self h.1, Module.mapBodies_eq_self h.2]

theorem mem_strippable_stripBoth {p : Path} :
    p ∈ strippable (stripBoth lead m) ↔ ∃ q ∈ strippable m, cut lead q = p := by
  have hlist : strippable (stripBoth lead m) = (strippable m).map (cut lead) := by
    simp [strippable, declaredPaths_stripBoth, bodyPaths_stripBoth, Paths.change]
  rw [hlist, List.mem_map]

variable (lead m)

/-- A second round of stripping reports the numbers of the paths that began with the path twice,
and leaves the module as it is with no path reported if and only if there are no such paths. -/
theorem strip_again_iff :
    strippedCounts lead (stripBoth lead m) =
        (m.declaredPaths.countP (GoesOn lead.twice ·),
          m.bodyPaths.countP fun x => GoesOn lead.twice x.2) ∧
      ((stripBoth lead (stripBoth lead m) = stripBoth lead m ∧
          strippedCounts lead (stripBoth lead m) = (0, 0)) ↔
        ∀ p ∈ strippable m, ¬GoesOn lead.twice p) := by
  refine ⟨strippedCounts_stripBoth lead m, ?_⟩
  constructor
  · rintro ⟨-, hcounts⟩
    rw [strippedCounts_stripBoth, Prod.mk.injEq, List.countP_eq_zero,
      List.countP_eq_zero] at hcounts
    simp only [decide_eq_true_iff] at hcounts
    intro p hp
    rcases List.mem_append.mp hp with hdeclared | hbody
    · exact hcounts.1 p hdeclared
    · obtain ⟨x, hx, rfl⟩ := List.mem_map.mp hbody
      exact hcounts.2 x hx
  · intro h
    constructor
    · apply stripBoth_eq_self
      intro p hp
      obtain ⟨q, hq, rfl⟩ := mem_strippable_stripBoth.mp hp
      exact Path.cut_cut_eq_iff.mpr (h q hq)
    · rw [strippedCounts_stripBoth, Prod.mk.injEq, List.countP_eq_zero, List.countP_eq_zero]
      simp only [decide_eq_true_iff]
      constructor
      · intro p hp
        exact h p (List.mem_append_left _ hp)
      · intro x hx
        exact h x.2 (List.mem_append_right _ (List.mem_map_of_mem hx))

/-- A module that refers to a module inside another one of the same name. -/
def nestedPets : Module where
  name := "shop"
  decls := [.struct
    { name := "Shop"
      fields := [{ name := "pet", ty := .path (.of "models" ["models", "Pet"]) [] }] }]

theorem wellFormed_nestedPets : nestedPets.WellFormed :=
  Module.tidy_singleton List.nodup_nil

/-- The second round takes `models` away from `models::Pet`. -/
theorem strip_again_nestedPets :
    nestedPets.WellFormed ∧ (Path.of "models").segments ≠ [] ∧
      strippedCounts (.of "models") (stripBoth (.of "models") nestedPets) = (1, 0) ∧
      stripBoth (.of "models") (stripBoth (.of "models") nestedPets) ≠
        stripBoth (.of "models") nestedPets := by
  refine ⟨wellFormed_nestedPets, by decide, ?_, ?_⟩
  · rw [strippedCounts_stripBoth]
    decide
  · intro h
    have hpaths := congrArg Module.declaredPaths h
    simp only [declaredPaths_stripBoth] at hpaths
    exact absurd hpaths (by decide)

end Strip
end ClientLoom
