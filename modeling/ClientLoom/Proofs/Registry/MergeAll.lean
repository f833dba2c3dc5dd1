import ClientLoom.Proofs.Module.MergeOrder
import ClientLoom.Proofs.Registry.Orderly

/-! # Merging everything that waits

Groups are merged one after another, each as a whole.  Since an entry of an orderly registry belongs
to one group, and merging an entry twice is merging it once, all that counts in the end is that
every entry is merged: `mergeAll_eq_ok_iff`. -/

namespace ClientLoom
namespace Registry

variable {r r' : Registry} {e e' : Entry} {g : String} {gs : List String}

/-! ### One entry -/

namespace Entry

theorem mergeParts_of_parts_eq_nil (h : e.parts = []) : e.mergeParts = .ok e := by
  unfold mergeParts
  rw [h]
  rfl

theorem mergeParts_of_merge {m : Module} (hparts : e.parts ≠ [])
    (h : Module.merge (e.merged.toList ++ e.parts) = .ok m) :
    e.mergeParts = .ok { e with parts := [], merged := some m } := by
  have hempty : e.parts.isEmpty = false := by simpa using hparts
  unfold mergeParts sources
  simp only [hempty, Bool.false_eq_true, if_false, h]
  rfl

/-- All that merging an entry can do: nothing when nothing waits, and else to replace the waiting
parts by the merged module. -/
theorem mergeParts_cases (h : e.mergeParts = .ok e') :
    e.parts = [] ∧ e' = e ∨
      e.parts ≠ [] ∧ ∃ m, Module.merge (e.merged.toList ++ e.parts) = .ok m ∧
        e' = { e with parts := [], merged := some m } := by
  cases hparts : e.parts with
  | nil =>
      rw [mergeParts_of_parts_eq_nil hparts] at h
      exact .inl ⟨rfl, (Except.ok.inj h).symm⟩
  | cons p ps =>
      have hempty : e.parts.isEmpty = false := by rw [hparts]; rfl
      unfold mergeParts sources at h
      simp only [hempty, Bool.false_eq_true, if_false] at h
      obtain ⟨m, hm, rfl⟩ := map_eq_ok_iff.mp h
      exact .inr ⟨List.cons_ne_nil _ _, m, hparts ▸ hm, rfl⟩

theorem name_of_mergeParts (h : e.mergeParts = .ok e') : e'.name = e.name := by
  obtain ⟨-, rfl⟩ | ⟨-, m, -, rfl⟩ := mergeParts_cases h <;> rfl

theorem group_of_mergeParts (h : e.mergeParts = .ok e') : e'.group = e.group := by
  obtain ⟨-, rfl⟩ | ⟨-, m, -, rfl⟩ := mergeParts_cases h <;> rfl

theorem parts_of_mergeParts (h : e.mergeParts = .ok e') : e'.parts = [] := by
  obtain ⟨hparts, rfl⟩ | ⟨-, m, -, rfl⟩ := mergeParts_cases h
  · exact hparts
  · rfl

theorem Filed.mergeParts (he : e.Filed) (h : e.mergeParts = .ok e') : e'.Filed := by
  obtain ⟨-, rfl⟩ | ⟨-, m, hm, rfl⟩ := mergeParts_cases h
  · exact he
  · intro p hp
    obtain rfl : p = m := by simpa using hp
    exact Module.name_of_merge he hm

theorem mergeIn_cases (h : e.mergeIn g = .ok e') : e.mergeParts = .ok e' ∨ e' = e := by
  unfold mergeIn at h
  split at h
  · exact .inl h
  · exact .inr (Except.ok.inj h).symm

theorem name_of_mergeIn (h : e.mergeIn g = .ok e') : e'.name = e.name := by
  rcases mergeIn_cases h with h | rfl
  · exact name_of_mergeParts h
  · rfl

theorem group_of_mergeIn (h : e.mergeIn g = .ok e') : e'.group = e.group := by
  rcases mergeIn_cases h with h | rfl
  · exact group_of_mergeParts h
  · rfl

theorem Filed.mergeIn (he : e.Filed) (h : e.mergeIn g = .ok e') : e'.Filed := by
  rcases mergeIn_cases h with h | rfl
  · exact he.mergeParts h
  · exact he

/-- Merges the waiting parts of an entry of one of the given groups. -/
def mergeAmong (gs : List String) (e : Entry) : Except Failure Entry :=
  if ∃ g ∈ gs, e.group = some g then e.mergeParts else .ok e

/-- Merging the entries of one group and then those of others merges the entries of all: the
second merge has nothing left to do for an entry that the first has merged. -/
theorem mergeIn_bind_mergeAmong (g : String) (gs : List String) (e : Entry) :
    e.mergeIn g >>= mergeAmong gs = e.mergeAmong (g :: gs) := by
  unfold mergeIn mergeAmong
  by_cases hg : e.group = some g
  · rw [if_pos hg, if_pos ⟨g, List.mem_cons_self, hg⟩]
    cases h : e.mergeParts with
    | error f => rfl
    | ok e₁ =>
        have hagain := mergeParts_of_parts_eq_nil (parts_of_mergeParts h)
        show (if ∃ g ∈ gs, e₁.group = some g then e₁.mergeParts else .ok e₁) = .ok e₁
        rw [hagain, ite_self]
  · rw [if_neg hg]
    show (if ∃ g ∈ gs, e.group = some g then e.mergeParts else .ok e) = _
    simp [hg]

end Entry

/-! ### Groups -/

theorem mergeGroup_eq_ok_iff :
    r.mergeGroup g = .ok r' ↔ r.entries.mapM (Entry.mergeIn g) = .ok r'.entries := by
  unfold mergeGroup
  rw [map_eq_ok_iff]
  exact ⟨fun ⟨es, hes, h⟩ => h ▸ hes, fun h => ⟨r'.entries, h, rfl⟩⟩

theorem mergeGroups_eq_ok_iff :
    r.mergeGroups gs = (r', .ok ()) ↔ gs.foldlM mergeGroup r = .ok r' := by
  induction gs generalizing r with
  | nil => exact ⟨fun h => congrArg _ (Prod.mk.inj h).1, fun h => by rw [Except.ok.inj h]; rfl⟩
  | cons g gs ih =>
      rw [List.foldlM_cons, bind_eq_ok_iff]
      unfold mergeGroups
      cases h : r.mergeGroup g with
      | error f =>
          exact ⟨fun h => (nomatch (Prod.mk.inj h).2), fun ⟨_, h, _⟩ => (nomatch h)⟩
      | ok r₁ =>
          exact ih.trans ⟨fun h => ⟨r₁, rfl, h⟩, fun ⟨_, h₁, h⟩ => Except.ok.inj h₁ ▸ h⟩

/-- Merging groups one after another merges the entries of all of them. -/
theorem foldlM_mergeGroup_eq_ok_iff :
    gs.foldlM mergeGroup r = .ok r' ↔
      r.entries.mapM (Entry.mergeAmong gs) = .ok r'.entries := by
  induction gs generalizing r with
  | nil =>
      have hnone : r.entries.mapM (Entry.mergeAmong []) = .ok r.entries :=
        mapM_eq_ok_iff.mpr (List.forall₂_same.mpr fun _ _ => rfl)
      rw [hnone]
      exact ⟨fun h => congrArg _ (congrArg entries (Except.ok.inj h)),
        fun h => congrArg _ (congrArg Registry.mk (Except.ok.inj h))⟩
  | cons g gs ih =>
      have hboth : Entry.mergeAmong (g :: gs) = fun e => e.mergeIn g >>= Entry.mergeAmong gs :=
        funext fun e => (Entry.mergeIn_bind_mergeAmong g gs e).symm
      rw [List.foldlM_cons, bind_eq_ok_iff, hboth, ← exists_mapM_mapM_iff]
      simp only [ih, mergeGroup_eq_ok_iff]
      exact ⟨fun ⟨r₁, h₁, h⟩ => ⟨r₁.entries, h₁, h⟩, fun ⟨es, h₁, h⟩ => ⟨⟨es⟩, h₁, h⟩⟩

theorem mem_waitingGroups :
    g ∈ r.waitingGroups ↔ ∃ e ∈ r.entries, e.parts ≠ [] ∧ e.group = some g := by
  simp [waitingGroups, and_assoc]

/-- Everything that waits is merged when every entry can be merged. -/
theorem Orderly.mergeAll_eq_ok_iff (hr : r.Orderly) :
    r.mergeAll = (r', .ok ()) ↔ r.entries.mapM Entry.mergeParts = .ok r'.entries := by
  unfold mergeAll
  rw [mergeGroups_eq_ok_iff, foldlM_mergeGroup_eq_ok_iff]
  have hall : ∀ e ∈ r.entries, e.mergeAmong r.waitingGroups = e.mergeParts := by
    intro e he
    obtain ⟨g, hg⟩ := Option.isSome_iff_exists.mp (hr.grouped e he)
    unfold Entry.mergeAmong
    split
    · rfl
    · next hnone =>
        have hparts : e.parts = [] := by
          by_contra hparts
          exact hnone ⟨g, mem_waitingGroups.mpr ⟨e, he, hparts, hg⟩, hg⟩
        rw [Entry.mergeParts_of_parts_eq_nil hparts]
  rw [mapM_congr_left hall]

/-! ### What merging keeps -/

theorem Increasing.of_forall₂ {es es' : List Entry} (hes : Increasing es)
    (h : List.Forall₂ (fun e e' => e.name = e'.name) es es') : Increasing es' :=
  pairwise_of_forall₂_eq (R := fun m n => Text.rank m < Text.rank n) hes h

/-- Merging a group keeps a registry orderly. -/
theorem Orderly.mergeGroup (hr : r.Orderly) (h : r.mergeGroup g = .ok r') : r'.Orderly := by
  rw [mergeGroup_eq_ok_iff] at h
  refine ⟨hr.increasing.of_forall₂ ((mapM_eq_ok_iff.mp h).imp fun e e' he => ?_),
    fun e' he' => ?_, fun e' he' => ?_⟩
  · exact (Entry.name_of_mergeIn he).symm
  · obtain ⟨e, he, hmerge⟩ := exists_of_mem_mapM h he'
    exact (hr.filed e he).mergeIn hmerge
  · obtain ⟨e, he, hmerge⟩ := exists_of_mem_mapM h he'
    rw [Entry.group_of_mergeIn hmerge]
    exact hr.grouped e he

end Registry
end ClientLoom
