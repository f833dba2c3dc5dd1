import Mathlib.Data.List.Forall2
import ClientLoom.Proofs.Ty.Reading

/-! # Types written and read again

The text of a type that was read is read as the same type (`parse_text_of_parse`).  For a type
that the grammar derives, the text spells tokens that derive the type again: those it was derived
from, up to the commas at the ends of lists and empty lists in angle brackets
(`Derives.exists_writes`).  A type that is kept as text is that text. -/

namespace ClientLoom.Ty

open Token (Spells WordEnds isName isWordChar isWordStart)

/-! ### Words and separators -/

/-- A word as the scanner takes it: a character that starts one and characters that go on. -/
def IsWord (w : List Char) : Prop :=
  ∃ c cs, w = c :: cs ∧ isWordStart c = true ∧ ∀ x ∈ cs, isWordChar x = true

/-- The words among tokens could be scanned. -/
def WordsProper (ts : List Token) : Prop := ∀ w, .word w ∈ ts → IsWord w

theorem wordsProper_of_spells {cs : List Char} {ts : List Token} (h : Spells cs ts) :
    WordsProper ts := by
  induction h with
  | nil => simp [WordsProper]
  | blank _ _ ih => exact ih
  | scope _ ih =>
      intro w hw
      rcases List.mem_cons.mp hw with hw | hw
      · cases hw
      · exact ih w hw
  | mark hc _ ih =>
      intro w hw
      rcases List.mem_cons.mp hw with rfl | hw
      · unfold Token.ofChar? at hc
        split at hc
        · cases hc
        · cases hc
        · obtain ⟨s, -, hs⟩ := Option.map_eq_some_iff.mp hc
          cases hs
      · exact ih w hw
  | word hc hw _ _ ih =>
      intro v hv
      rcases List.mem_cons.mp hv with hv | hv
      · exact ⟨_, _, Token.word.inj hv, hc, hw⟩
      · exact ih v hv

theorem WordsProper.subset {ts us : List Token} (h : WordsProper ts) (hsub : us ⊆ ts) :
    WordsProper us := fun w hw => h w (hsub hw)

theorem WordsProper.of_segments {w : List Char} {ws : List (List Char)}
    (h : WordsProper (.word w :: scopeTokens ws)) : ∀ v ∈ w :: ws, IsWord v := by
  intro v hv
  refine h v ?_
  rcases List.mem_cons.mp hv with rfl | hv
  · exact List.mem_cons_self
  · exact List.mem_cons_of_mem _ (List.mem_flatMap.mpr ⟨v, hv, by simp⟩)

theorem wordEnds_cons {c : Char} (h : isWordChar c = false) (cs : List Char) :
    WordEnds (c :: cs) := by
  intro x hx
  obtain rfl := Option.some.inj hx
  exact h

theorem IsWord.spells {w cs : List Char} {ts : List Token} (hw : IsWord w) (hends : WordEnds cs)
    (h : Spells cs ts) : Spells (w ++ cs) (.word w :: ts) := by
  obtain ⟨c, w, rfl, hc, hall⟩ := hw
  exact .word hc hall hends h

/-- A text spells tokens whatever is written behind it, unless that goes on with a word. -/
def Writes (text : List Char) (ts : List Token) : Prop :=
  ∀ (rest : List Char) (more : List Token), WordEnds rest → Spells rest more →
    Spells (text ++ rest) (ts ++ more)

theorem Writes.nil : Writes [] [] := fun _ _ _ h => h

/-- One text behind another; the second does not go on with a word of the first. -/
theorem Writes.append {a b : List Char} {ts us : List Token} (ha : Writes a ts) (hb : Writes b us)
    (hends : ∀ rest, WordEnds rest → WordEnds (b ++ rest)) : Writes (a ++ b) (ts ++ us) := by
  intro rest more hrest h
  rw [List.append_assoc, List.append_assoc]
  exact ha _ _ (hends rest hrest) (hb rest more hrest h)

theorem Writes.cons_mark {c : Char} {t : Token} {a : List Char} {ts : List Token}
    (hc : Token.ofChar? c = some t) (ha : Writes a ts) : Writes (c :: a) (t :: ts) :=
  fun rest more hrest h => .mark hc (ha rest more hrest h)

theorem wordEnds_mark {c : Char} {t : Token} (hc : Token.ofChar? c = some t) (cs : List Char) :
    WordEnds (c :: cs) := by
  refine wordEnds_cons ?_ cs
  rw [Bool.eq_false_iff]
  intro hword
  have := (Token.apart_of_ofChar? hc).1
  rw [Token.isWordStart_of_isWordChar hword] at this
  cases this

theorem Writes.enclose {o c : Char} {b : Bracket} {a : List Char} {ts : List Token}
    (ho : Token.ofChar? o = some (.bracket (.opening b)))
    (hc : Token.ofChar? c = some (.bracket (.closing b))) (ha : Writes a ts) :
    Writes (o :: (a ++ [c])) (enclose b ts) :=
  .cons_mark ho (ha.append (.cons_mark hc .nil) fun rest _ => wordEnds_mark hc rest)

/-- Segments joined by `::` spell a path. -/
theorem writes_segments {w : List Char} {ws : List (List Char)} (hw : IsWord w)
    (hws : ∀ v ∈ ws, IsWord v) :
    Writes ([':', ':'].intercalate (w :: ws)) (.word w :: scopeTokens ws) := by
  induction ws generalizing w with
  | nil =>
      intro rest more hrest h
      rw [List.intercalate_singleton]
      exact hw.spells hrest h
  | cons v ws ih =>
      obtain ⟨hv, hws⟩ := List.forall_mem_cons.mp hws
      intro rest more hrest h
      rw [List.intercalate_cons_cons, List.append_assoc, List.append_assoc]
      exact hw.spells (wordEnds_cons (by decide) _) (.scope (ih hv hws rest more hrest h))

/-! ### Types in a list -/

/-- Tokens derive a type, and its text spells them. -/
structure WritesAs (ts : List Token) (t : Ty) : Prop where
  derives : Derives ts t
  writes : Writes t.text.toList ts

theorem texts_eq_map (ts : List Ty) : texts ts = ts.map text := by
  induction ts with
  | nil => rfl
  | cons t ts ih => rw [texts, ih, List.map_cons]

section items

variable {tss : List (List Token)} {elems : List Ty}

theorem derivesItems_intercalate (h : List.Forall₂ WritesAs tss elems) :
    DerivesItems ([.comma].intercalate tss) elems := by
  induction h with
  | nil => exact .nil
  | cons ht hs ih =>
      cases hs with
      | nil =>
          rw [List.intercalate_singleton]
          exact .last ht.derives
      | cons _ _ =>
          rw [List.intercalate_cons_cons, List.append_assoc]
          exact .more ht.derives ih

/-- Texts joined by commas and blanks spell their types, joined by commas. -/
theorem writes_intercalate (h : List.Forall₂ WritesAs tss elems) :
    Writes (", ".intercalate (texts elems)).toList ([.comma].intercalate tss) := by
  rw [String.toList_intercalate, texts_eq_map, List.map_map]
  induction h with
  | nil => exact .nil
  | cons ht hs ih =>
      cases hs with
      | nil =>
          rw [List.map_singleton, List.intercalate_singleton, List.intercalate_singleton]
          exact ht.writes
      | @cons us u uss elems _ _ =>
          rw [List.map_cons, List.map_cons, List.intercalate_cons_cons, List.intercalate_cons_cons,
            List.append_assoc, List.append_assoc]
          refine ht.writes.append (.cons_mark rfl ?_) fun rest _ => wordEnds_mark rfl _
          exact fun rest more hrest h => .blank (by decide) (ih rest more hrest h)

end items

/-! ### Types -/

theorem text_ref (t : Ty) : (text (.ref false t)).toList = '&' :: t.text.toList := by
  simp [text]

theorem text_refMut (t : Ty) :
    (text (.ref true t)).toList = '&' :: (['m', 'u', 't'] ++ ' ' :: t.text.toList) := by
  simp [text]

theorem text_slice (t : Ty) : (text (.slice t)).toList = '[' :: (t.text.toList ++ [']']) := by
  simp [text]

/-- A single type in round brackets is written with a comma behind it. -/
theorem writesAs_tuple {tss : List (List Token)} {elems : List Ty}
    (h : List.Forall₂ WritesAs tss elems) :
    ∃ us, WritesAs (enclose .round us) (.tuple elems) := by
  by_cases hone : ∃ t, elems = [t]
  · obtain ⟨t, rfl⟩ := hone
    obtain ⟨us, -, hus, hnil, rfl⟩ := List.forall₂_cons_right_iff.mp h
    refine ⟨us ++ .comma :: [], .tuple (.more hus.derives .nil), ?_⟩
    have htext : (text (.tuple [t])).toList = '(' :: ((t.text.toList ++ [',']) ++ [')']) := by
      simp [text, texts, tupled]
    rw [htext]
    exact .enclose rfl rfl
      (hus.writes.append (.cons_mark rfl .nil) fun rest _ => wordEnds_mark rfl _)
  · refine ⟨_, .tuple (derivesItems_intercalate h), ?_⟩
    have htext : (text (.tuple elems)).toList =
        '(' :: ((", ".intercalate (texts elems)).toList ++ [')']) := by
      match elems with
      | [] => rfl
      | [t] => exact absurd ⟨t, rfl⟩ hone
      | t :: u :: more => simp [text, texts, tupled]
    rw [htext]
    exact .enclose rfl rfl (writes_intercalate h)

/-- A path with the words of its segments, and a list in angle brackets unless that is empty. -/
theorem writesAs_path {w : List Char} {ws : List (List Char)} {tss : List (List Token)}
    {args : List Ty} (hw : PathWords w ws) (hproper : ∀ v ∈ w :: ws, IsWord v)
    (h : List.Forall₂ WritesAs tss args) :
    ∃ us, WritesAs (.word w :: us) (.path (pathOfWords w ws) args) := by
  have hsegments : Writes (pathOfWords w ws).text.toList (.word w :: scopeTokens ws) := by
    have htext : (pathOfWords w ws).text.toList = [':', ':'].intercalate (w :: ws) := by
      simp [pathOfWords, Path.text, Function.comp_def]
    obtain ⟨hword, hwords⟩ := List.forall_mem_cons.mp hproper
    rw [htext]
    exact writes_segments hword hwords
  by_cases hnone : args = []
  · subst hnone
    refine ⟨scopeTokens ws, .path hw, ?_⟩
    rw [text, texts, angled, String.append_empty]
    exact hsegments
  · refine ⟨_, .generic hw (derivesItems_intercalate h), ?_⟩
    have htext : (text (.path (pathOfWords w ws) args)).toList =
        (pathOfWords w ws).text.toList ++
          '<' :: ((", ".intercalate (texts args)).toList ++ ['>']) := by
      match args with
      | [] => exact absurd rfl hnone
      | t :: more => simp [text, texts, angled]
    rw [htext]
    exact hsegments.append (.enclose rfl rfl (writes_intercalate h))
      fun rest _ => wordEnds_mark rfl _

mutual

/-- The text of a type that is derived spells tokens that derive it. -/
theorem Derives.exists_writes {ts : List Token} {t : Ty} : Derives ts t → WordsProper ts →
    ∃ us, WritesAs us t ∧ us.head? = ts.head?
  | @Derives.ref ts t h hmut, hproper => by
      obtain ⟨us, hus, hhead⟩ := h.exists_writes (hproper.subset (List.subset_cons_self _ _))
      refine ⟨.amp :: us, ⟨.ref hus.derives (hhead ▸ hmut), ?_⟩, rfl⟩
      rw [text_ref]
      exact .cons_mark rfl hus.writes
  | @Derives.refMut ts t h, hproper => by
      obtain ⟨us, hus, -⟩ := h.exists_writes
        (hproper.subset (List.subset_cons_of_subset _ (List.subset_cons_self _ _)))
      refine ⟨.amp :: mutMark :: us, ⟨.refMut hus.derives, ?_⟩, rfl⟩
      have hmut : IsWord ['m', 'u', 't'] := hproper _ (by simp [mutMark])
      rw [text_refMut]
      refine .cons_mark rfl fun rest more hrest h => ?_
      rw [List.append_assoc]
      exact hmut.spells (wordEnds_cons (by decide) _)
        (.blank (by decide) (hus.writes rest more hrest h))
  | @Derives.tuple ts elems h, hproper => by
      obtain ⟨uss, huss⟩ := h.exists_writes (hproper.subset (by simp [enclose]))
      obtain ⟨us, hus⟩ := writesAs_tuple huss
      exact ⟨_, hus, rfl⟩
  | @Derives.slice ts t h, hproper => by
      obtain ⟨us, hus, -⟩ := h.exists_writes (hproper.subset (by simp [enclose]))
      refine ⟨enclose .square us, ⟨.slice hus.derives, ?_⟩, rfl⟩
      rw [text_slice]
      exact hus.writes.enclose rfl rfl
  | @Derives.path w ws hw, hproper => by
      obtain ⟨us, hus⟩ := writesAs_path hw hproper.of_segments .nil
      exact ⟨_, hus, rfl⟩
  | @Derives.generic w ws ts args hw h, hproper => by
      have hitems : ts ⊆ .word w :: (scopeTokens ws ++ enclose .angle ts) := by
        intro k hk
        simp [enclose, hk]
      have hsegments : .word w :: scopeTokens ws ⊆
          .word w :: (scopeTokens ws ++ enclose .angle ts) :=
        List.cons_subset_cons _ (List.subset_append_left _ _)
      obtain ⟨uss, huss⟩ := h.exists_writes (hproper.subset hitems)
      obtain ⟨us, hus⟩ := writesAs_path hw (hproper.subset hsegments).of_segments huss
      exact ⟨_, hus, rfl⟩

theorem DerivesItems.exists_writes {ts : List Token} {elems : List Ty} :
    DerivesItems ts elems → WordsProper ts → ∃ uss, List.Forall₂ WritesAs uss elems
  | .nil, _ => ⟨[], .nil⟩
  | .last h, hproper => by
      obtain ⟨us, hus, -⟩ := h.exists_writes hproper
      exact ⟨[us], .cons hus .nil⟩
  | .more h hs, hproper => by
      obtain ⟨us, hus, -⟩ := h.exists_writes (hproper.subset (List.subset_append_left _ _))
      obtain ⟨uss, huss⟩ := hs.exists_writes (hproper.subset (by simp))
      exact ⟨us :: uss, .cons hus huss⟩

end

/-! ### Texts -/

/-- The text of a type that a text denotes denotes the same type. -/
theorem Denotes.text {s : String} {t : Ty} (h : Denotes s t) : Denotes t.text t := by
  obtain ⟨ts, hspells, hderives⟩ := h
  obtain ⟨us, hus, -⟩ := hderives.exists_writes (wordsProper_of_spells hspells)
  have hwritten := hus.writes [] [] (by simp [WordEnds]) .nil
  rw [List.append_nil, List.append_nil] at hwritten
  exact ⟨us, hwritten, hus.derives⟩

theorem parse_trim (s : String) : parse (Text.trim s) = parse s := by
  simp only [parse, Text.trim, String.toList_ofList, Text.trimChars_trimChars]

/-- The usual spelling of type text. -/
def respell (s : String) : Except Error String := (parse s).map text

/-- A type that was read is read from its text again, and so the usual spelling of a text is its
own usual spelling. -/
theorem parse_text_of_parse (s : String) :
    (∀ t, parse s = .ok t → parse t.text = .ok t) ∧
      ∀ x, respell s = .ok x → respell x = .ok x := by
  have hagain : ∀ t, parse s = .ok t → parse t.text = .ok t := by
    intro t h
    rcases denotes_or_raw_of_parse h with hd | rfl
    · exact parse_of_denotes hd.text
    · rw [text, parse_trim]
      exact h
  refine ⟨hagain, fun x hx => ?_⟩
  obtain ⟨t, ht, rfl⟩ := map_eq_ok_iff.mp hx
  exact map_eq_ok_iff.mpr ⟨t, hagain t ht, rfl⟩

/-- Blanks, an empty list and a comma at an end are not kept, the comma of a single type in round
brackets is; text of no supported form is kept. -/
theorem parse_text_of_parse_samples :
    (∃ t, parse "& mut a :: Vec<(B<>), [C,],>" = .ok t ∧ parse t.text = .ok t) ∧
      respell "& mut a :: Vec<(B<>), [C],>" = .ok "&mut a::Vec<(B,), [C]>" ∧
      respell "&mut a::Vec<(B,), [C]>" = .ok "&mut a::Vec<(B,), [C]>" := by
  have hread : (parse "& mut a :: Vec<(B<>), [C,],>").toOption.isSome = true := by decide +kernel
  have hrespell : respell "& mut a :: Vec<(B<>), [C],>" = .ok "&mut a::Vec<(B,), [C]>" := by
    decide +kernel
  obtain ⟨t, ht⟩ := Option.isSome_iff_exists.mp hread
  have ht := toOption_eq_some_iff.mp ht
  exact ⟨⟨t, ht, (parse_text_of_parse _).1 t ht⟩, hrespell, (parse_text_of_parse _).2 _ hrespell⟩

end ClientLoom.Ty
