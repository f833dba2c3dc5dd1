import Mathlib.Data.String.Basic
import ClientLoom.Text.Order

/-! # The order of texts is linear

Ranks are ordered by bytes first and by characters then, so the order is linear and different texts
never have one rank (`rank_injective`). -/

namespace ClientLoom.Text

variable {a b c : Rank} {s t : String}

theorem Rank.lt_iff : a < b ↔ a.bytes < b.bytes ∨ a.bytes = b.bytes ∧ a.text < b.text := by
  change a.before b = true ↔ _
  simp [before]

theorem Rank.le_iff : a ≤ b ↔ ¬ b < a := by
  change b.before a = false ↔ ¬ b.before a = true
  rw [Bool.not_eq_true]

theorem Rank.lt_irrefl (a : Rank) : ¬ a < a := by
  rw [Rank.lt_iff]
  rintro (h | ⟨-, h⟩)
  · exact List.lt_irrefl _ h
  · exact String.lt_irrefl _ h

theorem Rank.lt_trans (hab : a < b) (hbc : b < c) : a < c := by
  rw [Rank.lt_iff] at hab hbc ⊢
  rcases hab with hab | ⟨hab, htext⟩
  · rcases hbc with hbc | ⟨hbc, -⟩
    · exact .inl (List.lt_trans hab hbc)
    · exact .inl (hbc ▸ hab)
  · rcases hbc with hbc | ⟨hbc, htext'⟩
    · exact .inl (hab ▸ hbc)
    · exact .inr ⟨hab.trans hbc, String.lt_trans htext htext'⟩

theorem Rank.lt_trichotomy (a b : Rank) : a < b ∨ a = b ∨ b < a := by
  obtain ⟨bs, s⟩ := a
  obtain ⟨cs, t⟩ := b
  rw [Rank.lt_iff, Rank.lt_iff]
  rcases Std.lt_trichotomy bs cs with h | rfl | h
  · exact .inl (.inl h)
  · rcases Std.lt_trichotomy s t with h | rfl | h
    · exact .inl (.inr ⟨rfl, h⟩)
    · exact .inr (.inl rfl)
    · exact .inr (.inr (.inr ⟨rfl, h⟩))
  · exact .inr (.inr (.inl h))

theorem Rank.lt_asymm (hab : a < b) : ¬ b < a := fun hba => Rank.lt_irrefl a (Rank.lt_trans hab hba)

instance : LinearOrder Rank where
  le_refl a := Rank.le_iff.mpr (Rank.lt_irrefl a)
  le_trans a b c hab hbc := by
    rw [Rank.le_iff] at hab hbc ⊢
    intro hca
    rcases Rank.lt_trichotomy a b with h | rfl | h
    · exact hbc (Rank.lt_trans hca h)
    · exact hbc hca
    · exact hab h
  le_antisymm a b hab hba := by
    rw [Rank.le_iff] at hab hba
    rcases Rank.lt_trichotomy a b with h | h | h
    · exact absurd h hba
    · exact h
    · exact absurd h hab
  le_total a b := by
    rw [Rank.le_iff, Rank.le_iff]
    rcases Rank.lt_trichotomy a b with h | rfl | h
    · exact .inl (Rank.lt_asymm h)
    · exact .inl (Rank.lt_irrefl a)
    · exact .inr (Rank.lt_asymm h)
  lt_iff_le_not_ge a b := by
    rw [Rank.le_iff, Rank.le_iff, not_not]
    exact ⟨fun h => ⟨Rank.lt_asymm h, h⟩, And.right⟩
  toDecidableLE := inferInstance

theorem rank_injective : Function.Injective rank := fun _ _ h => congrArg Rank.text h

@[simp] theorem rank_inj : rank s = rank t ↔ s = t := rank_injective.eq_iff

theorem ne_of_rank_lt (h : rank s < rank t) : s ≠ t := fun heq => lt_irrefl _ (heq ▸ h)

theorem rank_lt_of_le_of_ne (h : rank s ≤ rank t) (hne : s ≠ t) : rank s < rank t :=
  lt_of_le_of_ne h (rank_inj.not.mpr hne)

/-- Nothing comes before the empty text. -/
theorem rank_empty_lt (h : s ≠ "") : rank "" < rank s := by
  refine rank_lt_of_le_of_ne (not_lt.mp ?_) h.symm
  rw [Rank.lt_iff]
  rintro (hbytes | ⟨-, htext⟩)
  · exact List.not_lt_nil _ hbytes
  · exact List.not_lt_nil _ (String.lt_iff_toList_lt.mp htext)

end ClientLoom.Text
