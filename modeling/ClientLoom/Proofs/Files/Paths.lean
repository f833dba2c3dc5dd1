import Mathlib.Data.List.Induction
import ClientLoom.SlashPath

/-! # Clean paths

The parts of a path are names, behind steps up where there is nothing to step up from
(`normal_parts`).  Such parts mean what they meant before when they are written and read again, so
a clean path has the parts of the path that it was made of (`parts_clean`), and cleaning it again
changes nothing (`clean_clean`).  Names that are joined are a clean path (`clean_join_names`). -/

namespace ClientLoom

namespace Text

theorem splitChar_eq_splitOn (sep : Char) (cs : List Char) :
    splitChar sep cs = cs.splitOn sep := by
  induction cs with
  | nil => rfl
  | cons c cs ih =>
      rw [splitChar, List.splitOn_cons_eq_if_modifyHead, ih]
      by_cases h : c = sep
      · simp [h]
      · cases hs : cs.splitOn sep with
        | nil => exact absurd hs (List.splitOn_ne_nil _ _)
        | cons piece rest => simp [h]

theorem split_eq (s : String) (sep : Char) :
    split s sep = (s.toList.splitOn sep).map String.ofList := by
  rw [split, splitChar_eq_splitOn]

/-- Pieces without the separator are found again between the separators. -/
theorem split_intercalate {pieces : List String} {sep : Char} (hne : pieces ≠ [])
    (h : ∀ piece ∈ pieces, sep ∉ piece.toList) :
    split ((String.singleton sep).intercalate pieces) sep = pieces := by
  have hpieces : ∀ cs ∈ pieces.map String.toList, sep ∉ cs := by
    intro cs hcs
    obtain ⟨piece, hpiece, rfl⟩ := List.mem_map.mp hcs
    exact h piece hpiece
  rw [split_eq, String.toList_intercalate, String.toList_singleton,
    List.splitOn_intercalate sep hpieces (by simpa using hne), List.map_map]
  simp

theorem split_append (a b : String) (sep : Char) :
    split (a ++ String.singleton sep ++ b) sep = split a sep ++ split b sep := by
  rw [split_eq, split_eq, split_eq, ← List.map_append, ← List.splitOn_append_cons_self]
  simp

theorem split_of_not_mem {s : String} {sep : Char} (h : sep ∉ s.toList) : split s sep = [s] := by
  rw [split_eq, List.splitOn_eq_singleton h]
  simp

/-- No piece contains the separator. -/
theorem not_mem_of_mem_split {s piece : String} {sep : Char} (h : piece ∈ split s sep) :
    sep ∉ piece.toList := by
  rw [split, List.mem_map] at h
  obtain ⟨cs, hcs, rfl⟩ := h
  rw [String.toList_ofList]
  have hall : ∀ l : List Char, ∀ cs ∈ splitChar sep l, sep ∉ cs := by
    intro l
    induction l with
    | nil => simp [splitChar]
    | cons c l ih =>
        rw [splitChar]
        split
        · simpa using ih
        · next hc =>
            cases hs : splitChar sep l with
            | nil => simpa using Ne.symm hc
            | cons first rest =>
                rw [hs] at ih
                obtain ⟨hfirst, hrest⟩ := List.forall_mem_cons.mp ih
                refine List.forall_mem_cons.mpr ⟨?_, hrest⟩
                simpa using ⟨Ne.symm hc, hfirst⟩
  exact hall s.toList cs hcs

end Text

namespace SlashPath

variable {p s : String} {rooted : Bool} {done names : List String}

/-- Whether a text can name a file or a directory within another. -/
def IsName (s : String) : Prop := s ≠ "" ∧ s ≠ "." ∧ s ≠ ".." ∧ '/' ∉ s.toList

theorem IsName.ne_empty (h : IsName s) : s ≠ "" := h.1

theorem IsName.ne_dots (h : IsName s) : s ≠ ".." := h.2.2.1

theorem IsName.no_slash (h : IsName s) : '/' ∉ s.toList := h.2.2.2

theorem IsName.ne_slash (h : IsName s) : s ≠ "/" := by
  rintro rfl
  exact h.no_slash (by decide)

/-- Parts, the last one first, none of which can be resolved against those before it. -/
def Normal (rooted : Bool) : List String → Prop
  | [] => True
  | s :: rest =>
      Normal rooted rest ∧ (IsName s ∨ s = ".." ∧ rooted = false ∧ ∀ x ∈ rest, x = "..")

theorem resolvePart_name (h : IsName s) : resolvePart rooted done s = s :: done := by
  obtain ⟨hempty, hdot, hdots, -⟩ := h
  simp [resolvePart, hempty, hdot, hdots]

/-- A part that cannot be resolved is added. -/
theorem resolvePart_normal (h : Normal rooted (s :: done)) :
    resolvePart rooted done s = s :: done := by
  obtain ⟨-, hname | ⟨rfl, hrooted, hups⟩⟩ := h
  · exact resolvePart_name hname
  · cases done with
    | nil => simp [resolvePart, hrooted]
    | cons top rest => simp [resolvePart, hups top List.mem_cons_self]

/-- Resolving a part leaves parts that cannot be resolved. -/
theorem Normal.resolvePart {part : String} (h : Normal rooted done) (hpart : '/' ∉ part.toList) :
    Normal rooted (resolvePart rooted done part) := by
  unfold SlashPath.resolvePart
  split
  · exact h
  next hskip =>
    split
    · next hup =>
        subst hup
        cases done with
        | nil =>
            cases rooted with
            | true => trivial
            | false => exact ⟨trivial, .inr ⟨rfl, rfl, fun _ hx => (nomatch hx)⟩⟩
        | cons top rest =>
            obtain ⟨hrest, htop⟩ := h
            dsimp only
            split
            · next hdots =>
                obtain hname | ⟨-, hrooted, hups⟩ := htop
                · exact absurd hdots hname.ne_dots
                · refine ⟨⟨hrest, .inr ⟨hdots, hrooted, hups⟩⟩, .inr ⟨rfl, hrooted, ?_⟩⟩
                  exact List.forall_mem_cons.mpr ⟨hdots, hups⟩
            · exact hrest
    · next hup =>
        have hnot : part ≠ "" ∧ part ≠ "." := by simpa using hskip
        obtain ⟨hempty, hdot⟩ := hnot
        exact ⟨h, .inl ⟨hempty, hdot, hup, hpart⟩⟩

theorem Normal.foldl_resolvePart {parts : List String} (h : Normal rooted done)
    (hparts : ∀ part ∈ parts, '/' ∉ part.toList) :
    Normal rooted (parts.foldl (SlashPath.resolvePart rooted) done) := by
  induction parts generalizing done with
  | nil => exact h
  | cons part parts ih =>
      obtain ⟨hpart, hparts⟩ := List.forall_mem_cons.mp hparts
      exact ih (h.resolvePart hpart) hparts

/-- Parts that cannot be resolved are read again as they are. -/
theorem Normal.foldl_reverse (h : Normal rooted done) :
    done.reverse.foldl (SlashPath.resolvePart rooted) [] = done := by
  induction done with
  | nil => rfl
  | cons s rest ih =>
      rw [List.reverse_cons, List.foldl_append, ih h.1]
      exact resolvePart_normal h

theorem normal_names (h : ∀ s ∈ names, IsName s) : Normal rooted names := by
  induction names with
  | nil => trivial
  | cons s rest ih =>
      obtain ⟨hs, hrest⟩ := List.forall_mem_cons.mp h
      exact ⟨ih hrest, .inl hs⟩

theorem Normal.of_append {more : List String} (h : Normal rooted (more ++ done)) :
    Normal rooted done := by
  induction more with
  | nil => exact h
  | cons s more ih => exact ih h.1

theorem Normal.ne_empty (h : Normal rooted done) (hs : s ∈ done) : s ≠ "" := by
  induction done with
  | nil => cases hs
  | cons top rest ih =>
      rcases List.mem_cons.mp hs with rfl | hs
      · obtain ⟨-, hname | ⟨rfl, -⟩⟩ := h
        · exact hname.ne_empty
        · decide
      · exact ih h.1 hs

theorem Normal.no_slash (h : Normal rooted done) (hs : s ∈ done) : '/' ∉ s.toList := by
  induction done with
  | nil => cases hs
  | cons top rest ih =>
      rcases List.mem_cons.mp hs with rfl | hs
      · obtain ⟨-, hname | ⟨rfl, -⟩⟩ := h
        · exact hname.no_slash
        · decide
      · exact ih h.1 hs

/-! ### Writing parts and reading them -/

/-- The path with the given parts. -/
def ofParts (rooted : Bool) (parts : List String) : String :=
  if rooted then "/" ++ "/".intercalate parts
  else if "/".intercalate parts = "" then "."
  else "/".intercalate parts

theorem clean_eq (p : String) : clean p = ofParts (isAbsolute p) (parts p) := rfl

theorem normal_parts (p : String) : Normal (isAbsolute p) (parts p).reverse := by
  rw [parts, List.reverse_reverse]
  have hempty : Normal (isAbsolute p) [] := trivial
  exact hempty.foldl_resolvePart fun _ => Text.not_mem_of_mem_split

theorem join_ne_empty (hne : names ≠ []) (h : ∀ s ∈ names, s ≠ "") :
    "/".intercalate names ≠ "" := by
  cases names with
  | nil => exact absurd rfl hne
  | cons s rest =>
      have hs : s ≠ "" := h s List.mem_cons_self
      cases rest with
      | nil => simpa using hs
      | cons s' rest =>
          rw [String.intercalate_cons_cons]
          simp [hs]

theorem isAbsolute_join (hne : names ≠ []) (hempty : ∀ s ∈ names, s ≠ "")
    (hslash : ∀ s ∈ names, '/' ∉ s.toList) : isAbsolute ("/".intercalate names) = false := by
  cases names with
  | nil => exact absurd rfl hne
  | cons s rest =>
      have hs := hempty s List.mem_cons_self
      have hhead := hslash s List.mem_cons_self
      obtain ⟨c, cs, hcs⟩ : ∃ c cs, s.toList = c :: cs := by
        cases h : s.toList with
        | nil => exact absurd (String.toList_eq_nil_iff.mp h) hs
        | cons c cs => exact ⟨c, cs, rfl⟩
      have hc : c ≠ '/' := by
        rintro rfl
        exact hhead (hcs ▸ List.mem_cons_self)
      cases rest with
      | nil => simp [isAbsolute, hcs, hc]
      | cons s' rest =>
          rw [String.intercalate_cons_cons]
          simp [isAbsolute, hcs, hc]

theorem isAbsolute_ofParts (h : Normal rooted done) :
    isAbsolute (ofParts rooted done.reverse) = rooted := by
  cases rooted with
  | true => simp [ofParts, isAbsolute]
  | false =>
      by_cases hnil : done = []
      · subst hnil
        decide
      · have hne : done.reverse ≠ [] := by simpa using hnil
        have hempty : ∀ s ∈ done.reverse, s ≠ "" := fun s hs => h.ne_empty (by simpa using hs)
        have hslash : ∀ s ∈ done.reverse, '/' ∉ s.toList := fun s hs =>
          h.no_slash (by simpa using hs)
        simp [ofParts, join_ne_empty hne hempty, isAbsolute_join hne hempty hslash]

/-- A path is split into its parts; an empty one stands before the first slash of a path that starts
at the root. -/
theorem split_ofParts (h : Normal rooted done) (hne : done ≠ []) :
    Text.split (ofParts rooted done.reverse) '/' =
      if rooted then "" :: done.reverse else done.reverse := by
  have hslash : ∀ s ∈ done.reverse, '/' ∉ s.toList := fun s hs => h.no_slash (by simpa using hs)
  have hreverse : done.reverse ≠ [] := by simpa using hne
  have hsplit : Text.split ("/".intercalate done.reverse) '/' = done.reverse :=
    Text.split_intercalate hreverse hslash
  cases rooted with
  | true =>
      have hroot := Text.split_append "" ("/".intercalate done.reverse) '/'
      rwa [hsplit, String.empty_append] at hroot
  | false =>
      have hempty : ∀ s ∈ done.reverse, s ≠ "" := fun s hs => h.ne_empty (by simpa using hs)
      have htext : ofParts false done.reverse = "/".intercalate done.reverse := by
        simp [ofParts, join_ne_empty hreverse hempty]
      rw [htext, hsplit]
      rfl

/-- Parts that cannot be resolved are the parts of their path. -/
theorem parts_ofParts (h : Normal rooted done) :
    parts (ofParts rooted done.reverse) = done.reverse := by
  rw [parts, isAbsolute_ofParts h]
  by_cases hnil : done = []
  · subst hnil
    cases rooted <;> rfl
  · rw [split_ofParts h hnil]
    cases rooted with
    | true =>
        have hskip : resolvePart true [] "" = [] := rfl
        rw [if_pos rfl, List.foldl_cons, hskip, h.foldl_reverse]
    | false => rw [if_neg Bool.false_ne_true, h.foldl_reverse]

theorem isAbsolute_clean (p : String) : isAbsolute (clean p) = isAbsolute p := by
  have h := isAbsolute_ofParts (normal_parts p)
  rwa [List.reverse_reverse] at h

/-- A clean path has the parts of the path that it was made of. -/
theorem parts_clean (p : String) : parts (clean p) = parts p := by
  have h := parts_ofParts (normal_parts p)
  rwa [List.reverse_reverse] at h

theorem clean_clean (p : String) : clean (clean p) = clean p := by
  rw [clean_eq (clean p), isAbsolute_clean, parts_clean, clean_eq p]

/-- Names that are joined are a clean path. -/
theorem clean_join_names (hne : names ≠ []) (h : ∀ s ∈ names, IsName s) :
    clean ("/".intercalate names) = "/".intercalate names := by
  have hreverse : Normal false names.reverse := normal_names fun s hs => h s (by simpa using hs)
  have htext : ofParts false names = "/".intercalate names := by
    simp [ofParts, join_ne_empty hne fun s hs => (h s hs).ne_empty]
  have hparts := parts_ofParts hreverse
  have habs := isAbsolute_ofParts hreverse
  rw [List.reverse_reverse, htext] at hparts habs
  rw [clean_eq, hparts, habs, htext]

end SlashPath
end ClientLoom
