import Mathlib.Data.List.Forall2
import ClientLoom.Expr.Printer

/-! # Indented lines

`indentLines` puts one unit of indentation in front of every line of a text.  A text is printed in
pieces, and what indentation does to a piece depends on whether a line begins with it.  So
`Indents start rest a b` says that the piece `a` becomes `b` when it is met at the start of a line
or within one (`start`), and that the next piece is met as `rest` says.  Pieces are put together by
`Indents.append` and `Indents.intercalate`; a text without line breaks is left alone within a line
(`OneLine.indents`), and the indentation of a line grows by one level (`Indents.line`). -/

namespace ClientLoom

/-! ### Lines -/

/-- A text without line breaks. -/
def OneLine (s : String) : Prop := '\n' ∉ s.toList

instance (s : String) : Decidable (OneLine s) := inferInstanceAs (Decidable ('\n' ∉ s.toList))

@[simp] theorem oneLine_append {a b : String} : OneLine (a ++ b) ↔ OneLine a ∧ OneLine b := by
  simp [OneLine, not_or]

theorem oneLine_intercalate {sep : String} {texts : List String} (hsep : OneLine sep)
    (h : ∀ t ∈ texts, OneLine t) : OneLine (sep.intercalate texts) := by
  induction texts with
  | nil => exact List.not_mem_nil
  | cons t texts ih =>
      obtain ⟨ht, hrest⟩ := List.forall_mem_cons.mp h
      cases texts with
      | nil => simpa using ht
      | cons u texts =>
          rw [String.intercalate_cons_cons]
          simp only [oneLine_append]
          exact ⟨⟨ht, hsep⟩, ih hrest⟩

/-- The characters of a text with a unit of indentation in front of every line; `start` tells
whether a line begins with the first character. -/
def indentFrom (start : Bool) : List Char → List Char
  | [] => []
  | c :: cs => (if start then indentUnit.toList else []) ++ c :: indentFrom (c == '\n') cs

/-- Whether a line begins behind a text. -/
def startsBehind (start : Bool) : List Char → Bool
  | [] => start
  | c :: cs => startsBehind (c == '\n') cs

/-- A text with one unit of indentation in front of every line. -/
def indentLines (s : String) : String := String.ofList (indentFrom true s.toList)

variable {start rest : Bool}

theorem indentFrom_append (start : Bool) (a b : List Char) :
    indentFrom start (a ++ b) = indentFrom start a ++ indentFrom (startsBehind start a) b := by
  induction a generalizing start with
  | nil => rfl
  | cons c a ih => simp [indentFrom, startsBehind, ih]

theorem startsBehind_append (start : Bool) (a b : List Char) :
    startsBehind start (a ++ b) = startsBehind (startsBehind start a) b := by
  induction a generalizing start with
  | nil => rfl
  | cons c a ih => exact ih _

theorem indentFrom_oneLine {a : List Char} (h : '\n' ∉ a) :
    indentFrom false a = a ∧ startsBehind false a = false := by
  induction a with
  | nil => exact ⟨rfl, rfl⟩
  | cons c a ih =>
      obtain ⟨hc, ha⟩ := List.ne_and_not_mem_of_not_mem_cons h
      have hc : (c == '\n') = false := beq_eq_false_iff_ne.mpr hc.symm
      obtain ⟨htext, hend⟩ := ih ha
      simp [indentFrom, startsBehind, hc, htext, hend]

/-! ### Pieces -/

/-- A piece of text becomes another one when lines are indented: it is met at the start of a line
or within one, and so is the next piece. -/
structure Indents (start rest : Bool) (a b : String) : Prop where
  text_eq : indentFrom start a.toList = b.toList
  rest_eq : startsBehind start a.toList = rest

variable {mid : Bool} {a a' b b' : String} {d : Int}

theorem Indents.eq_indentLines (h : Indents true rest a b) : b = indentLines a := by
  rw [indentLines, h.text_eq, String.ofList_toList]

theorem Indents.append (h : Indents start mid a b) (h' : Indents mid rest a' b') :
    Indents start rest (a ++ a') (b ++ b') where
  text_eq := by
    rw [String.toList_append, indentFrom_append, h.rest_eq, h.text_eq, h'.text_eq,
      String.toList_append]
  rest_eq := by rw [String.toList_append, startsBehind_append, h.rest_eq, h'.rest_eq]

theorem Indents.nil : Indents start start "" "" := ⟨rfl, rfl⟩

theorem OneLine.indents (h : OneLine a) : Indents false false a a :=
  ⟨(indentFrom_oneLine h).1, (indentFrom_oneLine h).2⟩

/-- Joined texts are indented one by one. -/
theorem Indents.intercalate {sep : String} {as bs : List String} (hsep : OneLine sep)
    (h : List.Forall₂ (Indents false false) as bs) :
    Indents false false (sep.intercalate as) (sep.intercalate bs) := by
  induction h with
  | nil => exact .nil
  | cons hab hrest ih =>
      cases hrest with
      | nil => simpa using hab
      | cons _ _ =>
          rw [String.intercalate_cons_cons, String.intercalate_cons_cons]
          exact (hab.append hsep.indents).append ih

/-- A line that is not left empty gets its unit in front of it. -/
theorem Indents.atStart (h : Indents false rest a b) (hne : a ≠ "") :
    Indents true rest a (indentUnit ++ b) := by
  obtain ⟨c, cs, hcs⟩ : ∃ c cs, a.toList = c :: cs :=
    List.exists_cons_of_ne_nil fun hnil => hne (String.toList_eq_nil_iff.mp hnil)
  obtain ⟨htext, hrest⟩ := h
  rw [hcs] at htext hrest
  constructor
  · rw [hcs, String.toList_append, ← htext]
    rfl
  · rw [hcs]
    exact hrest

/-! ### Indentation -/

theorem oneLine_indent (d : Int) : OneLine (indent d) := by
  unfold indent
  induction d.toNat with
  | zero => decide
  | succ n ih =>
      rw [List.replicate_succ, String.join_cons, oneLine_append]
      exact ⟨by decide, ih⟩

theorem indent_succ (hd : 0 ≤ d) : indent (d + 1) = indentUnit ++ indent d := by
  have hnat : (d + 1).toNat = d.toNat + 1 := by omega
  rw [indent, hnat, List.replicate_succ, String.join_cons, indent]

/-- What stands behind indentation stands there one level deeper. -/
theorem Indents.deeper (hd : 0 ≤ d) (h : Indents false rest a b) (hne : a ≠ "") :
    Indents true rest (indent d ++ a) (indent (d + 1) ++ b) := by
  have hline : Indents false rest (indent d ++ a) (indent d ++ b) :=
    (oneLine_indent d).indents.append h
  rw [indent_succ hd, String.append_assoc]
  exact hline.atStart fun hempty => hne (String.append_eq_empty_iff.mp hempty).2

theorem indents_break : Indents false true "\n" "\n" := ⟨rfl, rfl⟩

/-- A line, which may be empty, stands one level deeper. -/
theorem Indents.line (hd : 0 ≤ d) (h : Indents false false a b) :
    Indents true true (indent d ++ a ++ "\n") (indent (d + 1) ++ b ++ "\n") := by
  have hbreak : a ++ "\n" ≠ "" := fun hempty => by
    have hnot := (String.append_eq_empty_iff.mp hempty).2
    revert hnot
    decide
  rw [String.append_assoc, String.append_assoc]
  exact (h.append indents_break).deeper hd hbreak

end ClientLoom
