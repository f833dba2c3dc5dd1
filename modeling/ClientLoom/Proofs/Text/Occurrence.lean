import ClientLoom.Text.Split

/-! # Occurrences in a text

`Text.cutAt?` looks for a text inside another one.  It finds the first place where the text stands
(`FirstAt`, `cutAt?_eq_some_iff`), and none only when there is none (`cutAt?_eq_none_iff`).  From
this come what `Text.contains` decides and what `Text.eraseFirst` leaves over. -/

namespace ClientLoom.Text

/-- `part` stands in `cs` between `before` and `after`, and nowhere further to the front. -/
structure FirstAt (part cs before after : List Char) : Prop where
  here : cs = before ++ (part ++ after)
  first : ∀ b a, cs = b ++ (part ++ a) → before.length ≤ b.length

variable {part cs before after : List Char}

theorem FirstAt.unique {before' after' : List Char} (h : FirstAt part cs before after)
    (h' : FirstAt part cs before' after') : before = before' ∧ after = after' := by
  have hlength : before.length = before'.length :=
    Nat.le_antisymm (h.first before' after' h'.here) (h'.first before after h.here)
  obtain ⟨hbefore, hrest⟩ := List.append_inj (h.here.symm.trans h'.here) hlength
  exact ⟨hbefore, List.append_cancel_left hrest⟩

theorem firstAt_front (part rest : List Char) : FirstAt part (part ++ rest) [] rest where
  here := rfl
  first := fun _ _ _ => Nat.zero_le _

theorem dropPrefix?_eq_some_iff {rest : List Char} :
    dropPrefix? part cs = some rest ↔ cs = part ++ rest := by
  induction part generalizing cs with
  | nil => simp [dropPrefix?]
  | cons p ps ih =>
      cases cs with
      | nil => simp [dropPrefix?]
      | cons c cs =>
          unfold dropPrefix?
          split
          · next h => simp [h, ih]
          · next h =>
              simp only [reduceCtorEq, List.cons_append, List.cons.injEq, false_iff]
              intro heq
              exact h heq.1.symm

/-- The text is not in front, so that it stands in the rest or nowhere. -/
theorem firstAt_cons {c : Char} (hfront : dropPrefix? part (c :: cs) = none) :
    FirstAt part (c :: cs) before after ↔
      ∃ b, before = c :: b ∧ FirstAt part cs b after := by
  -- so every occurrence begins behind `c`
  have hnot : ∀ a, c :: cs ≠ part ++ a := by
    intro a heq
    rw [dropPrefix?_eq_some_iff.mpr heq] at hfront
    cases hfront
  constructor
  · rintro ⟨hhere, hfirst⟩
    cases before with
    | nil => exact absurd hhere (hnot after)
    | cons d b =>
        obtain ⟨rfl, hcs⟩ := List.cons.inj hhere
        refine ⟨b, rfl, hcs, ?_⟩
        intro b' a' heq
        have hle := hfirst (c :: b') a' (congrArg (c :: ·) heq)
        exact Nat.le_of_succ_le_succ hle
  · rintro ⟨b, rfl, hhere, hfirst⟩
    refine ⟨congrArg (c :: ·) hhere, ?_⟩
    intro b' a' heq
    cases b' with
    | nil => exact absurd heq (hnot a')
    | cons d b' => exact Nat.succ_le_succ (hfirst b' a' (List.cons.inj heq).2)

theorem firstAt_front_iff {rest : List Char} :
    FirstAt part (part ++ rest) before after ↔ some ([], rest) = some (before, after) := by
  constructor
  · intro h
    obtain ⟨rfl, rfl⟩ := h.unique (firstAt_front part rest)
    rfl
  · intro h
    obtain ⟨rfl, rfl⟩ := Prod.mk.inj (Option.some.inj h)
    exact firstAt_front part rest

theorem cutAt?_eq_some_iff :
    cutAt? part cs = some (before, after) ↔ FirstAt part cs before after := by
  induction cs generalizing before with
  | nil =>
      unfold cutAt?
      cases h : dropPrefix? part [] with
      | some rest =>
          have hfront := @firstAt_front_iff part before after rest
          rw [← dropPrefix?_eq_some_iff.mp h] at hfront
          exact hfront.symm
      | none =>
          simp only [Option.map_none, reduceCtorEq, false_iff]
          intro hfirst
          have hnil := List.append_eq_nil_iff.mp hfirst.here.symm
          rw [dropPrefix?_eq_some_iff.mpr hnil.2.symm] at h
          cases h
  | cons c cs ih =>
      unfold cutAt?
      cases h : dropPrefix? part (c :: cs) with
      | some rest => rw [dropPrefix?_eq_some_iff.mp h, firstAt_front_iff]
      | none =>
          rw [firstAt_cons h]
          simp only [Option.map_eq_some_iff, Prod.mk.injEq, Prod.exists]
          constructor
          · rintro ⟨b, a, hcut, rfl, rfl⟩
            exact ⟨b, rfl, ih.mp hcut⟩
          · rintro ⟨b, rfl, hfirst⟩
            exact ⟨b, after, ih.mpr hfirst, rfl, rfl⟩

theorem cutAt?_eq_none_iff : cutAt? part cs = none ↔ ¬part <:+: cs := by
  constructor
  · intro hnone hinfix
    induction cs with
    | nil =>
        rw [List.infix_nil.mp hinfix] at hnone
        cases hnone
    | cons c cs ih =>
        unfold cutAt? at hnone
        cases h : dropPrefix? part (c :: cs) with
        | some rest =>
            rw [h] at hnone
            cases hnone
        | none =>
            rw [h, Option.map_eq_none_iff] at hnone
            rcases List.infix_cons_iff.mp hinfix with ⟨rest, hrest⟩ | htail
            · rw [dropPrefix?_eq_some_iff.mpr hrest.symm] at h
              cases h
            · exact ih hnone htail
  · intro h
    cases hcut : cutAt? part cs with
    | none => rfl
    | some found =>
        have hfirst : FirstAt part cs found.1 found.2 := cutAt?_eq_some_iff.mp hcut
        exact absurd ⟨found.1, found.2, by rw [List.append_assoc]; exact hfirst.here.symm⟩ h

theorem contains_iff_infix {s part : String} :
    contains s part = true ↔ part.toList <:+: s.toList := by
  rw [contains, containsChars, Option.isSome_iff_ne_none, Ne, cutAt?_eq_none_iff,
    Classical.not_not]

theorem eraseFirst_of_firstAt {s part : String}
    (h : FirstAt part.toList s.toList before after) :
    eraseFirst s part = String.ofList (before ++ after) := by
  rw [eraseFirst, cutAt?_eq_some_iff.mpr h]

theorem eraseFirst_of_not_infix {s part : String} (h : ¬part.toList <:+: s.toList) :
    eraseFirst s part = s := by
  rw [eraseFirst, cutAt?_eq_none_iff.mpr h]

end ClientLoom.Text
