import ClientLoom.Attr
import ClientLoom.Proofs.Outcome
import ClientLoom.Proofs.Path.Rereading

/-! # Reading an attribute from its text again

An attribute is read bare or in brackets, and written in brackets.  Whatever brackets, open or
closed, its text holds, reading the written form takes off exactly the brackets that were put on
(`parse_enclosed`) and ends the path where the arguments begin (`parseBody_append`).  So an
attribute is read again as it was exactly when its path is (`reread_iff`). -/

namespace ClientLoom.Attr

variable {s : String} {a : Attr} {inner : Bool} {lead body path args : List Char}

/-! ### Brackets -/

/-- The characters in front of an attribute. -/
def opening (inner : Bool) : List Char := if inner then ['#', '!', '['] else ['#', '[']

theorem between?_enclosed (lead body : List Char) :
    between? lead (lead ++ (body ++ [']'])) = some body := by
  have hlast : (lead ++ (body ++ [']'])).getLast? = some ']' := by
    rw [← List.append_assoc, List.getLast?_concat]
  simp only [between?, Text.dropPrefix?_eq_some_iff.mpr rfl, hlast, if_true, List.dropLast_concat]

/-- Brackets that do not begin with an exclamation mark are not taken for those that do. -/
theorem between?_outer (body : List Char) :
    between? ['#', '!', '['] (opening false ++ body) = none := rfl

theorem trimChars_enclosed (inner : Bool) (body : List Char) :
    Text.trimChars (opening inner ++ (body ++ [']'])) = opening inner ++ (body ++ [']']) := by
  refine Text.trimChars_eq_self_iff.mpr ⟨fun c hc => ?_, fun c hc => ?_⟩
  · have hhash : (opening inner ++ (body ++ [']'])).head? = some '#' := by cases inner <;> rfl
    obtain rfl := Option.some.inj (hhash.symm.trans hc)
    decide
  · rw [← List.append_assoc, List.getLast?_concat] at hc
    obtain rfl := Option.some.inj hc
    decide

/-- What was put into brackets is found between them. -/
theorem parse_enclosed (inner : Bool) (body : List Char) :
    parse (String.ofList (opening inner ++ (body ++ [']']))) = parseBody inner body := by
  unfold parse
  simp only [String.toList_ofList, trimChars_enclosed]
  cases inner with
  | true =>
      have hbetween : between? ['#', '!', '['] (opening true ++ (body ++ [']'])) = some body :=
        between?_enclosed ['#', '!', '['] body
      rw [hbetween]
  | false =>
      have hbetween : between? ['#', '['] (opening false ++ (body ++ [']'])) = some body :=
        between?_enclosed ['#', '['] body
      rw [between?_outer, hbetween]

/-! ### Path and arguments -/

theorem parseBody_eq_ok_iff :
    parseBody inner body = .ok a ↔
      Path.parse (String.ofList (body.takeWhile (!endsPath ·))) = .ok a.path ∧
        a.args.toList = body.dropWhile (!endsPath ·) ∧ a.inner = inner := by
  unfold parseBody
  cases Path.parse (String.ofList (body.takeWhile (!endsPath ·))) with
  | error e => simp
  | ok p =>
      obtain ⟨path, args, isInner⟩ := a
      simp only [Except.ok.injEq, mk.injEq, ← String.toList_inj, String.toList_ofList]
      exact and_congr_right fun _ => and_congr eq_comm eq_comm

/-- An attribute comes from the part between its brackets, or from a bare text. -/
theorem exists_body_of_parse (h : parse s = .ok a) : ∃ body, parseBody a.inner body = .ok a := by
  have hinner {inner : Bool} {body : List Char} (h : parseBody inner body = .ok a) :
      ∃ body, parseBody a.inner body = .ok a := by
    obtain ⟨-, -, rfl⟩ := parseBody_eq_ok_iff.mp h
    exact ⟨body, h⟩
  unfold parse at h
  simp only at h
  split at h
  · exact hinner h
  · split at h
    · exact hinner h
    · exact hinner h

/-- The path ends where the arguments begin. -/
theorem parseBody_append (hpath : ∀ c ∈ path, endsPath c = false)
    (hargs : ∀ c ∈ args.head?, endsPath c = true) :
    parseBody inner (path ++ args) = .ok a ↔
      Path.parse (String.ofList path) = .ok a.path ∧ a.args.toList = args ∧ a.inner = inner := by
  have hall : ∀ c ∈ path, (!endsPath c) = true := fun c hc => by rw [hpath c hc]; rfl
  have htake : args.takeWhile (!endsPath ·) = [] := by
    cases args with
    | nil => rfl
    | cons c rest => simp [hargs c rfl]
  have hdrop : args.dropWhile (!endsPath ·) = args := by
    cases args with
    | nil => rfl
    | cons c rest => simp [hargs c rfl]
  rw [parseBody_eq_ok_iff, List.takeWhile_append_of_pos hall, List.dropWhile_append_of_pos hall,
    htake, hdrop, List.append_nil]

/-- The path of an attribute that was read has no character that ends a path, and its arguments
begin with one. -/
theorem ends_of_parse (h : parse s = .ok a) :
    (∀ c ∈ a.path.text.toList, endsPath c = false) ∧
      ∀ c ∈ a.args.toList.head?, endsPath c = true := by
  obtain ⟨body, hbody⟩ := exists_body_of_parse h
  obtain ⟨hpath, hargs, -⟩ := parseBody_eq_ok_iff.mp hbody
  constructor
  · intro c hc
    obtain rfl | hc := Path.mem_text_of_parse hpath hc
    · rfl
    · rw [String.toList_ofList] at hc
      simpa using List.mem_takeWhile_imp hc
  · intro c hc
    rw [hargs] at hc
    have hnot := List.head?_dropWhile_not (!endsPath ·) body
    rw [Option.mem_def.mp hc] at hnot
    simpa using hnot

/-! ### Reading again -/

theorem toList_text (a : Attr) :
    a.text.toList = opening a.inner ++ ((a.path.text.toList ++ a.args.toList) ++ [']']) := by
  unfold text opening
  cases a.inner <;> simp

theorem parse_text_eq (a : Attr) :
    parse a.text = parseBody a.inner (a.path.text.toList ++ a.args.toList) := by
  rw [← parse_enclosed, ← toList_text, String.ofList_toList]

/-- An attribute that was read is read from its text again exactly when its path is, and then it is
written as before. -/
theorem reread_iff (h : parse s = .ok a) :
    (parse a.text = .ok a ↔ Path.parse a.path.text = .ok a.path) ∧
      (Path.parse a.path.text = .ok a.path → (parse a.text).map text = .ok a.text) := by
  obtain ⟨hpath, hargs⟩ := ends_of_parse h
  have hiff : parse a.text = .ok a ↔ Path.parse a.path.text = .ok a.path := by
    rw [parse_text_eq, parseBody_append hpath hargs, String.ofList_toList]
    simp
  refine ⟨hiff, fun hreread => ?_⟩
  rw [hiff.mpr hreread]
  rfl

/-- A bracket that is not closed belongs to a bare text, where it ends the path. -/
theorem reread_iff_unclosed :
    ∃ a, parse " #![cfg = \"]\" " = .ok a ∧ Path.parse a.path.text = .ok a.path ∧
      parse a.text = .ok a ∧ (parse a.text).map text = .ok "#[#![cfg = \"]\"]" := by
  obtain ⟨a, ha, hpath, htext⟩ : ∃ a, parse " #![cfg = \"]\" " = .ok a ∧
      Path.parse a.path.text = .ok a.path ∧ a.text = "#[#![cfg = \"]\"]" :=
    ⟨⟨Path.of "#!", "[cfg = \"]\"", false⟩, by decide +kernel⟩
  obtain ⟨hiff, hagain⟩ := reread_iff ha
  exact ⟨a, ha, hpath, hiff.mpr hpath, htext ▸ hagain hpath⟩

end ClientLoom.Attr
