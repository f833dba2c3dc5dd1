import Mathlib.Data.List.Induction
import Mathlib.Data.List.TakeWhile
import ClientLoom.Ty.Token

/-! # How texts spell tokens

`Ty.Token.Spells` says which tokens a type text spells, without scanning: blanks may stand
anywhere between tokens, and a word goes on as far as its characters allow.  The scanner finds
exactly these tokens (`scan?_eq_some_iff`).  Blanks at the ends of a text change neither its
tokens (`scan?_trimChars`) nor its brackets (`Bracket.symbols_trimChars`), and a text that spells
tokens has the brackets of its tokens (`Spells.symbolsFrom_eq`). -/

namespace ClientLoom

/-! ### Kinds of characters -/

namespace Text

/-- The code points of the blanks. -/
def blankCodes : List Nat :=
  [9, 10, 11, 12, 13, 0x20, 0x85, 0xA0, 0x1680, 0x2000, 0x2001, 0x2002, 0x2003, 0x2004, 0x2005,
    0x2006, 0x2007, 0x2008, 0x2009, 0x200A, 0x2028, 0x2029, 0x202F, 0x205F, 0x3000]

theorem toNat_mem_blankCodes {c : Char} (h : isBlank c = true) : c.toNat ∈ blankCodes := by
  simp only [isBlank, Bool.or_eq_true, Bool.and_eq_true, decide_eq_true_eq, beq_iff_eq] at h
  simp only [blankCodes, List.mem_cons, List.not_mem_nil, or_false]
  omega

/-- What holds of every blank is checked code point by code point. -/
theorem forall_blank {P : Char → Prop} (h : ∀ n ∈ blankCodes, P (Char.ofNat n)) {c : Char}
    (hc : isBlank c = true) : P c := by
  have := h c.toNat (toNat_mem_blankCodes hc)
  rwa [Char.ofNat_toNat] at this

/-! ### Trimming -/

theorem trimRight_append_blank (cs : List Char) {b : Char} (hb : isBlank b = true) :
    trimRight (cs ++ [b]) = trimRight cs := by
  simp [trimRight, hb]

theorem trimChars_blank {b : Char} (hb : isBlank b = true) (cs : List Char) :
    trimChars (b :: cs) = trimChars cs := by
  simp [trimChars, hb]

theorem trimChars_append_blank (cs : List Char) {b : Char} (hb : isBlank b = true) :
    trimChars (cs ++ [b]) = trimChars cs := by
  unfold trimChars
  rw [List.dropWhile_append]
  split
  · next hnil => simp [List.isEmpty_iff.mp hnil, hb]
  · exact trimRight_append_blank _ hb

/-- What does not see a blank at either end does not see trimming. -/
theorem apply_trimChars {α : Type} {f : List Char → α}
    (hfront : ∀ b cs, isBlank b = true → f (b :: cs) = f cs)
    (hback : ∀ cs b, isBlank b = true → f (cs ++ [b]) = f cs) (cs : List Char) :
    f (trimChars cs) = f cs := by
  have hleft : f (cs.dropWhile isBlank) = f cs := by
    induction cs with
    | nil => rfl
    | cons c cs ih =>
        rw [List.dropWhile_cons]
        split
        · next hc => rw [ih, hfront c cs hc]
        · rfl
  have hright (ds : List Char) : f (trimRight ds) = f ds := by
    induction ds using List.reverseRecOn with
    | nil => rfl
    | append_singleton ds d ih =>
        by_cases hd : isBlank d = true
        · rw [trimRight_append_blank ds hd, ih, hback ds d hd]
        · simp [trimRight, hd]
  rw [trimChars, hright, hleft]

@[simp] theorem trimChars_trimChars (cs : List Char) : trimChars (trimChars cs) = trimChars cs :=
  apply_trimChars (fun _ cs hb => trimChars_blank hb cs)
    (fun cs _ hb => trimChars_append_blank cs hb) cs

theorem trimChars_eq_nil_iff {cs : List Char} :
    trimChars cs = [] ↔ ∀ c ∈ cs, isBlank c = true := by
  have hall : (∀ c ∈ trimChars cs, isBlank c = true) = ∀ c ∈ cs, isBlank c = true := by
    refine apply_trimChars (f := fun cs => ∀ c ∈ cs, isBlank c = true) ?_ ?_ cs
    · intro b cs hb
      simp [hb]
    · intro cs b hb
      simp [or_imp, forall_and, hb]
  constructor
  · intro h
    rw [← hall, h]
    simp
  · intro h
    rw [trimChars, List.dropWhile_eq_nil_iff.mpr h]
    rfl

end Text

namespace Ty.Token

open Text

/-- The characters that are tokens by themselves. -/
def markChars : List Char := [',', '&', '<', '>', '(', ')', '[', ']']

theorem mem_markChars {c : Char} {t : Token} (h : ofChar? c = some t) : c ∈ markChars := by
  unfold ofChar? at h
  split at h
  · decide
  · decide
  · obtain ⟨s, hs, -⟩ := Option.map_eq_some_iff.mp h
    unfold Bracket.symbol? at hs
    split at hs
    all_goals first | decide | cases hs

/-- Blanks are no part of tokens. -/
theorem plain_of_isBlank {c : Char} (h : isBlank c = true) :
    isWordStart c = false ∧ c ≠ ':' ∧ c ≠ '-' ∧ ofChar? c = none ∧ Bracket.symbol? c = none := by
  refine forall_blank (P := fun c => isWordStart c = false ∧ c ≠ ':' ∧ c ≠ '-' ∧
    ofChar? c = none ∧ Bracket.symbol? c = none) ?_ h
  decide +kernel

/-- A character that is a token goes into no word. -/
theorem apart_of_ofChar? {c : Char} {t : Token} (h : ofChar? c = some t) :
    isWordStart c = false ∧ isBlank c = false ∧ c ≠ ':' ∧ c ≠ '-' := by
  have hall : markChars.all fun c =>
      isWordStart c == false && isBlank c == false && c != ':' && c != '-' := by decide +kernel
  simpa [and_assoc] using List.all_eq_true.mp hall c (mem_markChars h)

theorem isWordStart_of_isWordChar {c : Char} (h : isWordChar c = true) : isWordStart c = true := by
  simp [isWordStart, h]

/-- Characters of words are nothing else. -/
theorem apart_of_isWordStart {c : Char} (h : isWordStart c = true) :
    isBlank c = false ∧ c ≠ ':' ∧ c ≠ '-' ∧ ofChar? c = none ∧ Bracket.symbol? c = none := by
  have hmark : ∀ t, ofChar? c ≠ some t := by
    intro t ht
    rw [(apart_of_ofChar? ht).1] at h
    cases h
  have hnone : ofChar? c = none := Option.eq_none_iff_forall_ne_some.mpr hmark
  refine ⟨?_, ?_, ?_, hnone, ?_⟩
  · rw [Bool.eq_false_iff]
    intro hb
    rw [(plain_of_isBlank hb).1] at h
    cases h
  · rintro rfl
    revert h
    decide +kernel
  · rintro rfl
    revert h
    decide +kernel
  · unfold ofChar? at hnone
    split at hnone
    · cases hnone
    · cases hnone
    · exact Option.map_eq_none_iff.mp hnone

/-! ### Spelling -/

/-- No word goes on at the front of a text. -/
def WordEnds (cs : List Char) : Prop := ∀ c ∈ cs.head?, isWordChar c = false

/-- A text spells tokens. -/
inductive Spells : List Char → List Token → Prop where
  | nil : Spells [] []
  | blank {c : Char} {cs : List Char} {ts : List Token} :
      isBlank c = true → Spells cs ts → Spells (c :: cs) ts
  | scope {cs : List Char} {ts : List Token} :
      Spells cs ts → Spells (':' :: ':' :: cs) (.scope :: ts)
  | mark {c : Char} {t : Token} {cs : List Char} {ts : List Token} :
      ofChar? c = some t → Spells cs ts → Spells (c :: cs) (t :: ts)
  | word {c : Char} {w cs : List Char} {ts : List Token} :
      isWordStart c = true → (∀ x ∈ w, isWordChar x = true) → WordEnds cs → Spells cs ts →
        Spells (c :: (w ++ cs)) (.word (c :: w) :: ts)

/-! ### Scanning -/

theorem scan?_nil : scan? [] = some [] := by
  rw [scan?.eq_def]

theorem scan?_scope (cs : List Char) :
    scan? (':' :: ':' :: cs) = (scan? cs).map (.scope :: ·) := by
  rw [scan?.eq_def]
  rfl

/-- A character is looked at by itself unless it is the first of two colons. -/
theorem scan?_cons {c : Char} {cs : List Char} (h : ∀ cs', c = ':' → cs ≠ ':' :: cs') :
    scan? (c :: cs) =
      if isBlank c then scan? cs
      else
        match ofChar? c with
        | some t => (scan? cs).map (t :: ·)
        | none =>
          if isWordStart c then
            (scan? (cs.dropWhile isWordChar)).map (.word (c :: cs.takeWhile isWordChar) :: ·)
          else none := by
  rw [scan?.eq_def]
  split
  · next hnil => cases hnil
  · next heq => exact absurd (List.cons.inj heq).2 (h _ (List.cons.inj heq).1)
  · next heq =>
    obtain ⟨rfl, rfl⟩ := List.cons.inj heq
    rfl

theorem scan?_blank {c : Char} (h : isBlank c = true) (cs : List Char) :
    scan? (c :: cs) = scan? cs := by
  rw [scan?_cons fun _ hc => absurd hc (plain_of_isBlank h).2.1, if_pos h]

theorem scan?_mark {c : Char} {t : Token} (h : ofChar? c = some t) (cs : List Char) :
    scan? (c :: cs) = (scan? cs).map (t :: ·) := by
  obtain ⟨-, hblank, hcolon, -⟩ := apart_of_ofChar? h
  rw [scan?_cons fun _ hc => absurd hc hcolon]
  simp only [hblank, Bool.false_eq_true, if_false, h]

theorem scan?_word {c : Char} (h : isWordStart c = true) (cs : List Char) :
    scan? (c :: cs) =
      (scan? (cs.dropWhile isWordChar)).map (.word (c :: cs.takeWhile isWordChar) :: ·) := by
  obtain ⟨hblank, hcolon, -, hmark, -⟩ := apart_of_isWordStart h
  rw [scan?_cons fun _ hc => absurd hc hcolon]
  simp only [hblank, Bool.false_eq_true, if_false, hmark, h, if_true]

theorem wordEnds_dropWhile (cs : List Char) : WordEnds (cs.dropWhile isWordChar) := by
  intro c hc
  have := List.head?_dropWhile_not isWordChar cs
  rw [Option.mem_def.mp hc] at this
  simpa using this

theorem takeWhile_append_of_wordEnds {w cs : List Char} (hw : ∀ x ∈ w, isWordChar x = true)
    (hcs : WordEnds cs) : (w ++ cs).takeWhile isWordChar = w := by
  rw [List.takeWhile_append_of_pos hw]
  cases cs with
  | nil => simp
  | cons c cs => simp [hcs c (by simp)]

theorem dropWhile_append_of_wordEnds {w cs : List Char} (hw : ∀ x ∈ w, isWordChar x = true)
    (hcs : WordEnds cs) : (w ++ cs).dropWhile isWordChar = cs := by
  rw [List.dropWhile_append_of_pos hw]
  cases cs with
  | nil => rfl
  | cons c cs => simp [hcs c (by simp)]

theorem Spells.scan?_eq {cs : List Char} {ts : List Token} (h : Spells cs ts) :
    scan? cs = some ts := by
  induction h with
  | nil => exact scan?_nil
  | blank hc _ ih => rw [scan?_blank hc, ih]
  | scope _ ih => rw [scan?_scope, ih, Option.map_some]
  | mark hc _ ih => rw [scan?_mark hc, ih, Option.map_some]
  | word hc hw hcs _ ih =>
      rw [scan?_word hc, dropWhile_append_of_wordEnds hw hcs, takeWhile_append_of_wordEnds hw hcs,
        ih, Option.map_some]

theorem spells_of_scan? {cs : List Char} {ts : List Token} (h : scan? cs = some ts) :
    Spells cs ts := by
  fun_induction scan? cs generalizing ts with
  | case1 =>
      obtain rfl := Option.some.inj h
      exact .nil
  | case2 cs ih =>
      obtain ⟨us, hus, rfl⟩ := Option.map_eq_some_iff.mp h
      exact .scope (ih hus)
  | case3 c cs _ hblank ih => exact .blank hblank (ih h)
  | case4 c cs _ _ t hmark ih =>
      obtain ⟨us, hus, rfl⟩ := Option.map_eq_some_iff.mp h
      exact .mark hmark (ih hus)
  | case5 c cs _ _ _ _ hword ih =>
      obtain ⟨us, hus, rfl⟩ := Option.map_eq_some_iff.mp h
      have hall : ∀ x ∈ cs.takeWhile isWordChar, isWordChar x = true :=
        List.all_eq_true.mp List.all_takeWhile
      have hspells := Spells.word hword hall (wordEnds_dropWhile cs) (ih hus)
      rwa [List.takeWhile_append_dropWhile] at hspells
  | case6 => cases h

/-- The scanner finds the tokens that a text spells. -/
theorem scan?_eq_some_iff {cs : List Char} {ts : List Token} : scan? cs = some ts ↔ Spells cs ts :=
  ⟨spells_of_scan?, Spells.scan?_eq⟩

/-! ### Blanks at the ends -/

theorem scan?_append_blank (cs : List Char) {b : Char} (hb : isBlank b = true) :
    scan? (cs ++ [b]) = scan? cs := by
  have hend : scan? [b] = some [] := by rw [scan?_blank hb, scan?_nil]
  have hword : isWordChar b = false := by
    rw [Bool.eq_false_iff]
    intro h
    have := (plain_of_isBlank hb).1
    rw [isWordStart_of_isWordChar h] at this
    cases this
  fun_induction scan? cs with
  | case1 => exact hend
  | case2 cs ih => rw [List.cons_append, List.cons_append, scan?_scope, ih]
  | case3 c cs _ hblank ih => rw [List.cons_append, scan?_blank hblank, ih]
  | case4 c cs _ _ t hmark ih => rw [List.cons_append, scan?_mark hmark, ih]
  | case5 c cs _ _ _ _ hstart ih =>
      rw [List.cons_append, scan?_word hstart]
      -- the word ends before the blank, whether or not it goes on to the end of the text
      have hdrop : (cs ++ [b]).dropWhile isWordChar = cs.dropWhile isWordChar ++ [b] := by
        rw [List.dropWhile_append]
        split
        · next hnil => simp [List.isEmpty_iff.mp hnil, hword]
        · rfl
      have htake : (cs ++ [b]).takeWhile isWordChar = cs.takeWhile isWordChar := by
        rw [List.takeWhile_append]
        split
        · next hall =>
            have := List.takeWhile_prefix isWordChar (l := cs)
            rw [this.eq_of_length hall]
            simp [hword]
        · rfl
      rw [hdrop, htake, ih]
  | case6 c cs hcolon hblank hmark hle hstart =>
      -- the character may be a colon alone, with the blank behind it
      have halone : ∀ cs', c = ':' → cs ++ [b] ≠ ':' :: cs' := by
        rintro cs' rfl hcs'
        cases cs with
        | nil =>
            obtain ⟨rfl, -⟩ := List.cons.inj hcs'
            exact (plain_of_isBlank hb).2.1 rfl
        | cons x xs =>
            obtain ⟨rfl, -⟩ := List.cons.inj hcs'
            exact hcolon xs rfl rfl
      rw [List.cons_append, scan?_cons halone]
      simp only [hblank, hmark, hstart, Bool.false_eq_true, if_false]

theorem scan?_trimChars (cs : List Char) : scan? (trimChars cs) = scan? cs :=
  apply_trimChars (fun _ cs hb => scan?_blank hb cs) (fun cs _ hb => scan?_append_blank cs hb) cs

/-! ### Brackets -/

/-- The bracket of a token that is one. -/
def bracket? : Token → Option BracketSymbol
  | .bracket s => some s
  | _ => none

/-- Characters that are neither bracket nor dash do not count. -/
theorem symbolsFrom_append_of_plain {w : List Char}
    (hw : ∀ c ∈ w, c ≠ '-' ∧ Bracket.symbol? c = none) (cs : List Char) :
    Bracket.symbolsFrom false (w ++ cs) = Bracket.symbolsFrom false cs := by
  induction w with
  | nil => rfl
  | cons c w ih =>
      obtain ⟨hdash, hsymbol⟩ := hw c List.mem_cons_self
      have hrest := ih fun x hx => hw x (List.mem_cons_of_mem _ hx)
      simp [Bracket.symbolsFrom, beq_false_of_ne hdash, hsymbol, hrest]

/-- The brackets of a text are those of the tokens it spells: no token has the head of an
arrow. -/
theorem Spells.symbolsFrom_eq {cs : List Char} {ts : List Token} (h : Spells cs ts) :
    Bracket.symbolsFrom false cs = ts.filterMap bracket? := by
  induction h with
  | nil => rfl
  | @blank c cs ts hc _ ih =>
      obtain ⟨-, -, hdash, -, hsymbol⟩ := plain_of_isBlank hc
      rw [← ih]
      exact symbolsFrom_append_of_plain (w := [c]) (by simp [hdash, hsymbol]) cs
  | @scope cs ts _ ih =>
      rw [List.filterMap_cons_none rfl, ← ih]
      exact symbolsFrom_append_of_plain (w := [':', ':']) (by simp [Bracket.symbol?]) cs
  | @mark c t cs ts hc _ ih =>
      obtain ⟨-, -, -, hdash⟩ := apart_of_ofChar? hc
      have hstep : Bracket.symbolsFrom false (c :: cs) =
          (Bracket.symbol? c).toList ++ Bracket.symbolsFrom false cs := by
        cases hs : Bracket.symbol? c <;> simp [Bracket.symbolsFrom, beq_false_of_ne hdash, hs]
      have htoken : (Bracket.symbol? c).toList = [t].filterMap bracket? := by
        unfold ofChar? at hc
        split at hc
        · obtain rfl := Option.some.inj hc
          rfl
        · obtain rfl := Option.some.inj hc
          rfl
        · obtain ⟨s, hs, rfl⟩ := Option.map_eq_some_iff.mp hc
          rw [hs]
          rfl
      rw [hstep, htoken, ih, ← List.filterMap_append]
      rfl
  | @word c w cs ts hc hw _ _ ih =>
      rw [List.filterMap_cons_none rfl, ← ih, ← List.cons_append]
      refine symbolsFrom_append_of_plain ?_ cs
      intro x hx
      have hx : isWordStart x = true := by
        rcases List.mem_cons.mp hx with rfl | hx
        · exact hc
        · exact isWordStart_of_isWordChar (hw x hx)
      obtain ⟨-, -, hdash, -, hsymbol⟩ := apart_of_isWordStart hx
      exact ⟨hdash, hsymbol⟩

end Ty.Token

namespace Bracket

open Text

theorem symbolsFrom_append_blank (dash : Bool) (cs : List Char) {b : Char}
    (hb : isBlank b = true) : symbolsFrom dash (cs ++ [b]) = symbolsFrom dash cs := by
  obtain ⟨-, -, -, -, hsymbol⟩ := Ty.Token.plain_of_isBlank hb
  have hhead : b ≠ '>' := by
    rintro rfl
    cases hsymbol
  induction cs generalizing dash with
  | nil => simp [symbolsFrom, hsymbol, hhead]
  | cons c cs ih => simp only [List.cons_append, symbolsFrom, ih]

theorem symbols_trimChars (cs : List Char) : symbols (trimChars cs) = symbols cs := by
  refine apply_trimChars (f := symbols) ?_ ?_ cs
  · intro b cs hb
    obtain ⟨-, -, hdash, -, hsymbol⟩ := Ty.Token.plain_of_isBlank hb
    exact Ty.Token.symbolsFrom_append_of_plain (w := [b]) (by simp [hdash, hsymbol]) cs
  · exact fun cs b hb => symbolsFrom_append_blank false cs hb

end Bracket
end ClientLoom
