import Mathlib.Data.List.Basic
import ClientLoom.Decl.Basic
import ClientLoom.Proofs.Text.Occurrence
import ClientLoom.Proofs.Ty.Lexical

/-! # Reading a path from its text again

A path that was read is written with `::` between its segments.  Reading that text finds the same
segments exactly when no segment but the last ends with a colon (`parse_text_iff`): the first
separator of the text stands where the first segment ends (`firstAt_scope`), unless a colon in front
of it makes an earlier one (`firstAt_scope_colon`).  Paths that are read again as they were have
different texts, and so the trait key of an impl block tells its trait (`rereading`).  A path with a
colon at the end of a segment may share its text with another path, or have a text that is refused
(`text_shared`). -/

namespace ClientLoom

/-! ### Trimming -/

namespace Text

variable {cs : List Char}

theorem trimChars_isInfix (cs : List Char) : trimChars cs <:+: cs := by
  have hright : trimRight (cs.dropWhile isBlank) <+: cs.dropWhile isBlank := by
    rw [trimRight, ← List.reverse_suffix, List.reverse_reverse]
    exact List.dropWhile_suffix _
  exact hright.isInfix.trans (List.dropWhile_suffix _).isInfix

/-- Trimming leaves alone what neither begins nor ends with a blank. -/
theorem trimChars_eq_self_iff :
    trimChars cs = cs ↔
      (∀ c ∈ cs.head?, isBlank c = false) ∧ ∀ c ∈ cs.getLast?, isBlank c = false := by
  constructor
  · intro h
    constructor
    · intro c hc
      obtain ⟨rest, rfl⟩ := List.head?_eq_some_iff.mp hc
      by_contra hb
      rw [trimChars_blank (Bool.not_eq_false _ ▸ hb)] at h
      have hlength := (trimChars_isInfix rest).length_le
      rw [h, List.length_cons] at hlength
      omega
    · intro c hc
      obtain ⟨front, rfl⟩ := List.getLast?_eq_some_iff.mp hc
      by_contra hb
      rw [trimChars_append_blank front (Bool.not_eq_false _ ▸ hb)] at h
      have hlength := (trimChars_isInfix front).length_le
      rw [h, List.length_append, List.length_singleton] at hlength
      omega
  · rintro ⟨hhead, hlast⟩
    have hleft : cs.dropWhile isBlank = cs := by
      cases cs with
      | nil => rfl
      | cons c rest => rw [List.dropWhile_cons_of_neg (by simp [hhead c rfl])]
    have hright : cs.reverse.dropWhile isBlank = cs.reverse := by
      cases h : cs.reverse with
      | nil => rfl
      | cons c rest =>
          have hc : c ∈ cs.getLast? := by
            rw [List.getLast?_eq_head?_reverse, h]
            rfl
          rw [List.dropWhile_cons_of_neg (by simp [hlast c hc])]
    rw [trimChars, hleft, trimRight, hright, List.reverse_reverse]

end Text

namespace Path

open Text (FirstAt trimChars)

variable {cs before after w : List Char} {ws : List (List Char)} {s : String} {p q : Path}

/-! ### Splitting -/

/-- What stands between two segments. -/
def scope : List Char := [':', ':']

/-- Splitting cuts at the first separator. -/
theorem splitScope_of_firstAt (h : FirstAt scope cs before after) :
    splitScope cs = before :: splitScope after := by
  induction before generalizing cs with
  | nil =>
      rw [h.here]
      rfl
  | cons c b ih =>
      obtain ⟨cs, rfl⟩ : ∃ cs', cs = c :: cs' := ⟨_, h.here⟩
      have hfront : Text.dropPrefix? scope (c :: cs) = none := by
        rw [Option.eq_none_iff_forall_ne_some]
        intro rest hrest
        have hstart : c :: cs = scope ++ rest := Text.dropPrefix?_eq_some_iff.mp hrest
        have hle := h.first [] rest hstart
        simp at hle
      obtain ⟨b', hb, hrest⟩ := (Text.firstAt_cons hfront).mp h
      obtain ⟨-, rfl⟩ := List.cons.inj hb
      rw [splitScope.eq_def]
      split
      · next hnil => cases hnil
      · next heq =>
          rw [heq] at hfront
          cases hfront
      · next heq =>
          obtain ⟨rfl, rfl⟩ := List.cons.inj heq
          rw [ih hrest]

theorem splitScope_of_whole (h : ¬ scope <:+: cs) : splitScope cs = [cs] := by
  induction cs with
  | nil => rfl
  | cons c cs ih =>
      have hrest : ¬ scope <:+: cs := fun hcs => h (List.infix_cons hcs)
      rw [splitScope.eq_def]
      split
      · next hnil => cases hnil
      · next heq => exact absurd ⟨[], _, heq.symm⟩ h
      · next heq =>
          obtain ⟨rfl, rfl⟩ := List.cons.inj heq
          rw [ih hrest]

/-- A text has no separator, or it is cut at the first one. -/
theorem not_infix_or_firstAt (cs : List Char) :
    ¬ scope <:+: cs ∨ ∃ before after, FirstAt scope cs before after := by
  cases h : Text.cutAt? scope cs with
  | none => exact .inl (Text.cutAt?_eq_none_iff.mp h)
  | some found => exact .inr ⟨found.1, found.2, Text.cutAt?_eq_some_iff.mp h⟩

theorem not_infix_of_firstAt (h : FirstAt scope cs before after) : ¬ scope <:+: before := by
  rintro ⟨front, back, rfl⟩
  have hle := h.first front (back ++ (scope ++ after)) (by rw [h.here]; simp)
  simp only [scope, List.length_append, List.length_cons] at hle
  omega

/-- The pieces of a text are parts of it without separators. -/
theorem mem_splitScope (h : w ∈ splitScope cs) : w <:+: cs ∧ ¬ scope <:+: w := by
  induction hn : cs.length using Nat.strong_induction_on generalizing cs with
  | _ n ih =>
    obtain hnone | ⟨before, after, hfirst⟩ := not_infix_or_firstAt cs
    · rw [splitScope_of_whole hnone, List.mem_singleton] at h
      rw [h]
      exact ⟨List.infix_rfl, hnone⟩
    · rw [splitScope_of_firstAt hfirst, List.mem_cons] at h
      have hhere := hfirst.here
      obtain rfl | h := h
      · exact ⟨⟨[], scope ++ after, hhere.symm⟩, not_infix_of_firstAt hfirst⟩
      · have hshort : after.length < n := by
          rw [← hn, hhere]
          simp only [scope, List.length_append, List.length_cons]
          omega
        obtain ⟨hin, hwhole⟩ := ih _ hshort h rfl
        refine ⟨hin.trans ⟨before ++ scope, [], ?_⟩, hwhole⟩
        rw [hhere, List.append_nil, List.append_assoc]

/-- The first separator stands behind a text that has none and does not end with a colon. -/
theorem firstAt_scope (hw : ¬ scope <:+: w) (hcolon : w.getLast? ≠ some ':') (rest : List Char) :
    FirstAt scope (w ++ (scope ++ rest)) w rest := by
  refine ⟨rfl, fun b a heq => ?_⟩
  by_contra hlt
  have hlt : b.length < w.length := Nat.lt_of_not_le hlt
  obtain ⟨more, rfl, -⟩ | ⟨more, rfl, hrest⟩ := List.append_eq_append_iff.mp heq
  · rw [List.length_append] at hlt
    omega
  -- so `w` goes on behind `b` with one colon or with two
  cases more with
  | nil => simp at hlt
  | cons c more =>
      obtain ⟨hc, hrest⟩ := List.cons.inj hrest
      cases more with
      | nil => exact hcolon (hc ▸ List.getLast?_concat)
      | cons d more =>
          obtain ⟨hd, -⟩ := List.cons.inj hrest
          subst hc hd
          exact hw ⟨b, more, by simp [scope]⟩

/-- A colon at the end of a text moves the separator behind it one place to the front. -/
theorem firstAt_scope_colon (hw : ¬ scope <:+: w ++ [':']) (rest : List Char) :
    FirstAt scope (w ++ [':'] ++ (scope ++ rest)) w (':' :: rest) := by
  have hwhole : ¬ scope <:+: w := fun h => hw (h.trans ⟨[], [':'], rfl⟩)
  have hcolon : w.getLast? ≠ some ':' := by
    intro h
    obtain ⟨front, rfl⟩ := List.getLast?_eq_some_iff.mp h
    exact hw ⟨front, [], by simp [scope]⟩
  have hsame : w ++ [':'] ++ (scope ++ rest) = w ++ (scope ++ (':' :: rest)) := by simp [scope]
  rw [hsame]
  exact firstAt_scope hwhole hcolon (':' :: rest)

/-! ### Joining -/

theorem mem_intercalate {c : Char} (h : c ∈ scope.intercalate ws) :
    c ∈ scope ∨ ∃ w ∈ ws, c ∈ w := by
  induction ws with
  | nil => cases h
  | cons w ws ih =>
      cases ws with
      | nil => exact .inr ⟨w, List.mem_cons_self, by simpa using h⟩
      | cons v ws =>
          rw [List.intercalate_cons_cons, List.mem_append, List.mem_append] at h
          obtain (h | h) | h := h
          · exact .inr ⟨w, List.mem_cons_self, h⟩
          · exact .inl h
          · exact (ih h).imp_right fun ⟨u, hu, hc⟩ => ⟨u, List.mem_cons_of_mem w hu, hc⟩

/-- Joined texts begin and end as the first and the last of them do. -/
theorem ends_intercalate {P : Char → Prop} (hne : ws ≠ [])
    (hws : ∀ w ∈ ws, w ≠ [] ∧ (∀ c ∈ w.head?, P c) ∧ ∀ c ∈ w.getLast?, P c) :
    scope.intercalate ws ≠ [] ∧ (∀ c ∈ (scope.intercalate ws).head?, P c) ∧
      ∀ c ∈ (scope.intercalate ws).getLast?, P c := by
  induction ws with
  | nil => exact absurd rfl hne
  | cons w ws ih =>
      obtain ⟨⟨hw, hhead, hlast⟩, hws⟩ := List.forall_mem_cons.mp hws
      cases ws with
      | nil =>
          rw [List.intercalate_singleton]
          exact ⟨hw, hhead, hlast⟩
      | cons v ws =>
          obtain ⟨hrest, -, hlast⟩ := ih (List.cons_ne_nil v ws) hws
          rw [List.intercalate_cons_cons, List.append_assoc,
            List.head?_append_of_ne_nil _ hw]
          refine ⟨List.append_ne_nil_of_left_ne_nil hw _, hhead, ?_⟩
          rw [List.getLast?_append_of_ne_nil _ (List.append_ne_nil_of_right_ne_nil _ hrest),
            List.getLast?_append_of_ne_nil _ hrest]
          exact hlast

/-! ### Segments -/

/-- What a segment of a path that was read looks like. -/
structure IsSegment (w : List Char) : Prop where
  ne_nil : w ≠ []
  trimmed : trimChars w = w
  whole : ¬ scope <:+: w

/-- The segments of a path as lists of characters. -/
def words (p : Path) : List (List Char) := p.segments.map String.toList

theorem toList_text (p : Path) : p.text.toList = scope.intercalate p.words :=
  String.toList_intercalate ..

theorem words_injective : Function.Injective words := by
  rintro ⟨segs⟩ ⟨segs'⟩ h
  have hinjective : Function.Injective String.toList := fun _ _ => String.toList_inj.mp
  exact congrArg Path.mk (List.map_injective_iff.mpr hinjective h)

/-- Reading cuts at the separators and trims the pieces, none of which may be empty. -/
theorem parse_eq_ok_iff :
    parse s = .ok p ↔
      (splitScope (trimChars s.toList)).map trimChars = p.words ∧ [] ∉ p.words := by
  have hofList (pieces : List (List Char)) : words ⟨pieces.map String.ofList⟩ = pieces := by
    simp [words, Function.comp_def]
  unfold parse
  simp only
  generalize hpieces : (splitScope (trimChars s.toList)).map trimChars = pieces
  split
  · next hblank =>
      rw [List.isEmpty_iff.mp hblank] at hpieces
      have hnil : [] ∈ pieces := hpieces ▸ List.mem_singleton_self _
      simp only [reduceCtorEq, false_iff, not_and, not_not]
      rintro rfl
      exact hnil
  · split
    · next hany =>
        simp only [List.any_eq_true, List.isEmpty_iff, exists_eq_right] at hany
        simp only [reduceCtorEq, false_iff, not_and, not_not]
        rintro rfl
        exact hany
    · next hany =>
        simp only [List.any_eq_true, List.isEmpty_iff, exists_eq_right] at hany
        constructor
        · rintro h
          obtain rfl := Except.ok.inj h
          rw [hofList]
          exact ⟨rfl, hany⟩
        · rintro ⟨rfl, -⟩
          exact congrArg Except.ok (words_injective (hofList p.words))

theorem isSegment_of_parse (h : parse s = .ok p) : ∀ w ∈ p.words, IsSegment w := by
  obtain ⟨hwords, hnil⟩ := parse_eq_ok_iff.mp h
  intro w hw
  obtain ⟨piece, hpiece, rfl⟩ := List.mem_map.mp (hwords ▸ hw)
  obtain ⟨-, hwhole⟩ := mem_splitScope hpiece
  exact ⟨fun hempty => hnil (hempty ▸ hw), Text.trimChars_trimChars piece,
    fun h => hwhole (h.trans (Text.trimChars_isInfix piece))⟩

theorem splitScope_ne_nil (cs : List Char) : splitScope cs ≠ [] := by
  obtain hnone | ⟨before, after, hfirst⟩ := not_infix_or_firstAt cs
  · rw [splitScope_of_whole hnone]
    exact List.cons_ne_nil _ _
  · rw [splitScope_of_firstAt hfirst]
    exact List.cons_ne_nil _ _

theorem words_ne_nil_of_parse (h : parse s = .ok p) : p.words ≠ [] := by
  rw [← (parse_eq_ok_iff.mp h).1, Ne, List.map_eq_nil_iff]
  exact splitScope_ne_nil _

/-- A path that was read has no characters but those of the text and colons. -/
theorem mem_text_of_parse (h : parse s = .ok p) {c : Char} (hc : c ∈ p.text.toList) :
    c = ':' ∨ c ∈ s.toList := by
  obtain hc | ⟨w, hw, hc⟩ := mem_intercalate (toList_text p ▸ hc)
  · exact .inl (by simpa [scope] using hc)
  · rw [← (parse_eq_ok_iff.mp h).1] at hw
    obtain ⟨piece, hpiece, rfl⟩ := List.mem_map.mp hw
    have hpart : trimChars piece <:+: s.toList :=
      (Text.trimChars_isInfix piece).trans
        ((mem_splitScope hpiece).1.trans (Text.trimChars_isInfix s.toList))
    exact .inr (hpart.subset hc)

/-! ### Reading again -/

/-- Segments joined by separators are found again unless one of them, the last apart, ends with a
colon. -/
theorem splitScope_intercalate_iff (hne : ws ≠ []) (hws : ∀ w ∈ ws, IsSegment w) :
    (splitScope (scope.intercalate ws)).map trimChars = ws ↔
      ∀ w ∈ ws.dropLast, w.getLast? ≠ some ':' := by
  induction ws with
  | nil => exact absurd rfl hne
  | cons w ws ih =>
      obtain ⟨hw, hws⟩ := List.forall_mem_cons.mp hws
      cases ws with
      | nil => simp [splitScope_of_whole hw.whole, hw.trimmed]
      | cons v ws =>
          rw [List.intercalate_cons_cons, List.append_assoc, List.dropLast_cons_cons,
            List.forall_mem_cons]
          by_cases hcolon : w.getLast? = some ':'
          · obtain ⟨front, rfl⟩ := List.getLast?_eq_some_iff.mp hcolon
            rw [splitScope_of_firstAt (firstAt_scope_colon hw.whole _)]
            simp only [hcolon, ne_eq, not_true_eq_false, false_and, iff_false]
            intro h
            -- the first piece is shorter than the first segment
            have hlength := (Text.trimChars_isInfix front).length_le
            rw [(List.cons.inj h).1, List.length_append, List.length_singleton] at hlength
            omega
          · rw [splitScope_of_firstAt (firstAt_scope hw.whole hcolon _), List.map_cons,
              hw.trimmed, List.cons_inj_right, ih (List.cons_ne_nil v ws) hws]
            simp [hcolon]

theorem trimChars_intercalate (hne : ws ≠ []) (hws : ∀ w ∈ ws, IsSegment w) :
    trimChars (scope.intercalate ws) = scope.intercalate ws :=
  Text.trimChars_eq_self_iff.mpr
    (ends_intercalate hne fun w hw =>
      ⟨(hws w hw).ne_nil, Text.trimChars_eq_self_iff.mp (hws w hw).trimmed⟩).2

/-- No segment but the last ends with a colon. -/
def Separates (p : Path) : Prop := ∀ w ∈ p.words.dropLast, w.getLast? ≠ some ':'

/-- A path that was read is read from its text again exactly when no segment but the last ends with
a colon. -/
theorem parse_text_iff (h : parse s = .ok p) : parse p.text = .ok p ↔ p.Separates := by
  have hsegments := isSegment_of_parse h
  have hne := words_ne_nil_of_parse h
  rw [parse_eq_ok_iff, toList_text, trimChars_intercalate hne hsegments,
    splitScope_intercalate_iff hne hsegments, Separates]
  exact and_iff_left fun hnil => (hsegments [] hnil).ne_nil rfl

/-! ### Texts as keys -/

theorem text_ne_empty_of_parse (h : parse s = .ok p) : p.text ≠ "" := by
  intro hempty
  have hnil : scope.intercalate p.words = [] := by rw [← toList_text, hempty]; rfl
  have hsegments := isSegment_of_parse h
  refine (ends_intercalate (P := fun _ => True) (words_ne_nil_of_parse h) fun w hw => ?_).1 hnil
  exact ⟨(hsegments w hw).ne_nil, fun _ _ => trivial, fun _ _ => trivial⟩

/-- A path that was read from some text and is read from its own text again. -/
def IsReread (p : Path) : Prop := ∃ s, parse s = .ok p ∧ p.Separates

theorem IsReread.parse_text (h : p.IsReread) : parse p.text = .ok p := by
  obtain ⟨s, hs, hseparates⟩ := h
  exact (parse_text_iff hs).mpr hseparates

theorem IsReread.text_eq_iff (hp : p.IsReread) (hq : q.IsReread) : p.text = q.text ↔ p = q := by
  constructor
  · intro h
    have hread := hp.parse_text
    rw [h] at hread
    exact Except.ok.inj (hread.symm.trans hq.parse_text)
  · exact congrArg text

end Path

theorem Impl.traitKey_eq_iff {i j : Impl} (hi : ∀ p ∈ i.trait, p.IsReread)
    (hj : ∀ p ∈ j.trait, p.IsReread) : i.traitKey = j.traitKey ↔ i.trait = j.trait := by
  have hne {p : Path} (hp : p.IsReread) : p.text ≠ "" := by
    obtain ⟨s, hs, -⟩ := hp
    exact Path.text_ne_empty_of_parse hs
  unfold traitKey
  cases hpi : i.trait with
  | none =>
      cases hpj : j.trait with
      | none => simp
      | some q => simpa using (hne (hj q hpj)).symm
  | some p =>
      cases hpj : j.trait with
      | none => simpa using hne (hi p hpi)
      | some q => simpa using (hi p hpi).text_eq_iff (hj q hpj)

namespace Path

/-- A path that was read is read from its text again exactly when no segment but the last ends with
a colon; impl blocks with such traits have the same key exactly when they have the same trait. -/
theorem rereading (h : parse s = .ok p) (i j : Impl) :
    (parse p.text = .ok p ↔ p.Separates) ∧
      ((∀ q ∈ i.trait, q.IsReread) → (∀ q ∈ j.trait, q.IsReread) →
        (i.traitKey = j.traitKey ↔ i.trait = j.trait)) :=
  ⟨parse_text_iff h, fun hi hj => Impl.traitKey_eq_iff hi hj⟩

/-- Single colons within a segment, in front of one and behind the last do no harm. -/
theorem rereading_colons :
    parse "a:b:: :c d ::e:" = .ok (of "a:b" [":c d", "e:"]) ∧
      parse (of "a:b" [":c d", "e:"]).text = .ok (of "a:b" [":c d", "e:"]) ∧
      (({ self := "Pet", trait := some (of "a:b" [":c d", "e:"]) } : Impl).traitKey =
        ({ self := "Pet" } : Impl).traitKey ↔ some (of "a:b" [":c d", "e:"]) = none) := by
  have hread : parse "a:b:: :c d ::e:" = .ok (of "a:b" [":c d", "e:"]) := by decide +kernel
  have hseparates : (of "a:b" [":c d", "e:"]).Separates := by
    unfold Separates
    decide +kernel
  obtain ⟨hagain, hkeys⟩ :=
    rereading hread { self := "Pet", trait := some (of "a:b" [":c d", "e:"]) } { self := "Pet" }
  refine ⟨hread, hagain.mpr hseparates, hkeys ?_ ?_⟩
  · rintro p ⟨⟩
    exact ⟨_, hread, hseparates⟩
  · rintro p ⟨⟩

/-- Two paths with one text, which is read as the second of them, so that impl blocks for different
traits have one key; and a path whose text is refused. -/
theorem text_shared :
    ∃ p q r : Path, parse "a: ::b" = .ok p ∧ parse "a:: :b" = .ok q ∧ p ≠ q ∧
      parse p.text = .ok q ∧
      ({ self := "Pet", trait := some p } : Impl).traitKey =
        ({ self := "Pet", trait := some q } : Impl).traitKey ∧
      parse ": ::b" = .ok r ∧ parse r.text = .error (.emptySegment ":::b") :=
  ⟨of "a:" ["b"], of "a" [":b"], of ":" ["b"], by decide +kernel⟩

end Path
end ClientLoom
