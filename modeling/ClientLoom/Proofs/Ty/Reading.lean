import ClientLoom.Proofs.Outcome
import ClientLoom.Proofs.Ty.Grammar

/-! # What reading a type accepts

Reading refuses a text that is blank or whose brackets do not nest.  Every other text gives a type:
the one that the grammar derives from its tokens, if there is one, and otherwise the text itself,
without the blanks at its ends (`parse_follows_grammar`). -/

namespace ClientLoom.Ty

/-- A text denotes the type that the grammar derives from its tokens. -/
def Denotes (s : String) (t : Ty) : Prop := ∃ ts, Token.Spells s.toList ts ∧ Derives ts t

/-- A text of blanks only. -/
def Blank (s : String) : Prop := ∀ c ∈ s.toList, Text.isBlank c = true

instance (s : String) : Decidable (Blank s) :=
  List.decidableBAll (fun c => Text.isBlank c = true) s.toList

/-- A type that is not kept as text. -/
def Structured (t : Ty) : Prop := ∀ text, t ≠ .raw text

theorem Derives.structured {ts : List Token} {t : Ty} (h : Derives ts t) : Structured t := by
  rintro text rfl
  cases h

theorem Denotes.unique {s : String} {t u : Ty} (ht : Denotes s t) (hu : Denotes s u) : t = u := by
  obtain ⟨ts, hts, ht⟩ := ht
  obtain ⟨us, hus, hu⟩ := hu
  obtain rfl : ts = us := Option.some.inj (hts.scan?_eq.symm.trans hus.scan?_eq)
  exact ht.unique hu

/-- The brackets of a text that denotes a type nest. -/
theorem Denotes.balanced {s : String} {t : Ty} (h : Denotes s t) :
    Bracket.balanced s.toList = true := by
  obtain ⟨ts, hts, ht⟩ := h
  have hnests := ht.nests [] []
  rw [List.append_nil, ← hts.symbolsFrom_eq] at hnests
  exact hnests

theorem Denotes.not_blank {s : String} {t : Ty} (h : Denotes s t) : ¬ Blank s := by
  obtain ⟨ts, hts, ht⟩ := h
  intro hblank
  have hscan := Token.scan?_trimChars s.toList
  rw [Text.trimChars_eq_nil_iff.mpr hblank, hts.scan?_eq, Token.scan?_nil] at hscan
  obtain rfl := Option.some.inj hscan
  exact absurd ht.length_pos (Nat.lt_irrefl 0)

/-! ### The outcome of reading -/

theorem scan?_bind_ofTokens?_eq_some_iff {s : String} {t : Ty} :
    (Token.scan? s.toList).bind ofTokens? = some t ↔ Denotes s t := by
  simp only [Option.bind_eq_some_iff, Token.scan?_eq_some_iff, ofTokens?_eq_some_iff]
  rfl

/-- Reading decides on the blanks first, then on the brackets and then on the grammar. -/
theorem parse_eq (s : String) :
    parse s =
      if Blank s then .error .empty
      else if Bracket.balanced s.toList then
        .ok (((Token.scan? s.toList).bind ofTokens?).getD (.raw (Text.trim s)))
      else .error (.unbalanced (Text.trim s)) := by
  have hblank : (Text.trimChars s.toList).isEmpty = true ↔ Blank s := by
    rw [List.isEmpty_iff, Text.trimChars_eq_nil_iff]
    rfl
  have hbalanced : Bracket.balanced (Text.trimChars s.toList) = Bracket.balanced s.toList := by
    rw [Bracket.balanced, Bracket.symbols_trimChars]
    rfl
  unfold parse
  simp only [hblank, hbalanced, Token.scan?_trimChars]
  rfl

theorem exists_parse_eq_error_iff {s : String} :
    (∃ e, parse s = .error e) ↔ Blank s ∨ Bracket.balanced s.toList = false := by
  rw [parse_eq]
  split
  · next h => simp [h]
  · next h =>
    split
    · next hb => simp [h, hb]
    · next hb => simp [h, hb]

theorem parse_of_denotes {s : String} {t : Ty} (h : Denotes s t) : parse s = .ok t := by
  rw [parse_eq, if_neg h.not_blank, if_pos h.balanced, scan?_bind_ofTokens?_eq_some_iff.mpr h]
  rfl

/-- A text that is not refused and denotes no type is kept. -/
theorem parse_of_not_denotes {s : String} (hread : ¬ ∃ e, parse s = .error e)
    (h : ¬ ∃ t, Denotes s t) : parse s = .ok (.raw (Text.trim s)) := by
  rw [exists_parse_eq_error_iff, not_or, Bool.not_eq_false] at hread
  have hnone : (Token.scan? s.toList).bind ofTokens? = none :=
    Option.eq_none_iff_forall_ne_some.mpr
      fun t ht => h ⟨t, scan?_bind_ofTokens?_eq_some_iff.mp ht⟩
  rw [parse_eq, if_neg hread.1, if_pos hread.2, hnone]
  rfl

/-- What is read is derived or kept. -/
theorem denotes_or_raw_of_parse {s : String} {t : Ty} (h : parse s = .ok t) :
    Denotes s t ∨ t = .raw (Text.trim s) := by
  by_cases hd : ∃ u, Denotes s u
  · obtain ⟨u, hu⟩ := hd
    rw [parse_of_denotes hu] at h
    exact .inl (Except.ok.inj h ▸ hu)
  · rw [parse_of_not_denotes (by simp [h]) hd] at h
    exact .inr (Except.ok.inj h).symm

/-- A text is refused exactly when it is blank or its brackets do not nest; a type that is not kept
as text is read exactly from the texts that denote it; and every other text is kept, trimmed.  A
text denotes at most one type, and one that denotes a type is never refused for its brackets. -/
theorem parse_follows_grammar (s : String) :
    ((∃ e, parse s = .error e) ↔ Blank s ∨ Bracket.balanced s.toList = false) ∧
      (∀ t, Structured t → (parse s = .ok t ↔ Denotes s t)) ∧
      ((¬ ∃ e, parse s = .error e) → (¬ ∃ t, Denotes s t) → parse s = .ok (.raw (Text.trim s))) ∧
      (∀ t u, Denotes s t → Denotes s u → t = u) ∧
      (∀ t, Denotes s t → Structured t ∧ Bracket.balanced s.toList = true) := by
  refine ⟨exists_parse_eq_error_iff, fun t hstructured => ⟨fun h => ?_, parse_of_denotes⟩,
    parse_of_not_denotes, fun t u => Denotes.unique, fun t ht => ⟨?_, ht.balanced⟩⟩
  · rcases denotes_or_raw_of_parse h with hd | hraw
    · exact hd
    · exact absurd hraw (hstructured _)
  · obtain ⟨ts, -, hts⟩ := ht
    exact hts.structured

/-- A reference with a list in angle brackets and a comma too many is read; a trait object and an
arrow are kept; and brackets that cross are refused. -/
theorem parse_follows_grammar_samples :
    (∃ t, Denotes " & mut Vec < ( a::b , ) , > " t ∧ Structured t ∧
        parse " & mut Vec < ( a::b , ) , > " = .ok t ∧ t.text = "&mut Vec<(a::b,)>") ∧
      parse " dyn Fn(A) -> B " = .ok (.raw "dyn Fn(A) -> B") ∧
      (∃ e, parse "Vec<(A>)" = .error e) := by
  refine ⟨?_, ?_, ?_⟩
  · have htext : (parse " & mut Vec < ( a::b , ) , > ").map text = .ok "&mut Vec<(a::b,)>" := by
      decide +kernel
    have hsome : ((Token.scan? " & mut Vec < ( a::b , ) , > ".toList).bind ofTokens?).isSome := by
      decide +kernel
    obtain ⟨t, ht⟩ := Option.isSome_iff_exists.mp hsome
    have hd := scan?_bind_ofTokens?_eq_some_iff.mp ht
    have hstructured := ((parse_follows_grammar _).2.2.2.2 t hd).1
    have hparse := ((parse_follows_grammar _).2.1 t hstructured).mpr hd
    rw [hparse] at htext
    exact ⟨t, hd, hstructured, hparse, Except.ok.inj htext⟩
  · have hread : ¬ ∃ e, parse " dyn Fn(A) -> B " = .error e := by
      rw [(parse_follows_grammar _).1]
      rintro (hblank | hbalanced)
      · exact absurd (hblank 'd' (by decide)) (by decide)
      · exact absurd hbalanced (by decide +kernel)
    have hnone : (Token.scan? " dyn Fn(A) -> B ".toList).bind ofTokens? = none := by
      decide +kernel
    refine (parse_follows_grammar _).2.2.1 hread ?_
    rintro ⟨t, ht⟩
    rw [← scan?_bind_ofTokens?_eq_some_iff, hnone] at ht
    cases ht
  · exact (parse_follows_grammar _).1.mpr (.inr (by decide +kernel))

end ClientLoom.Ty
