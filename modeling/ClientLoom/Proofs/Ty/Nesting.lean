import ClientLoom.Proofs.Ty.Reading

/-! # Brackets that nest

`Bracket.word` keeps the brackets of a text and drops the heads of its arrows, and `Bracket.Dyck`
says which words of brackets are well nested: the empty word, two such words one behind the other,
and such a word between two brackets that match.

The stack decides just that (`balanced_iff_dyck`).  A well nested word leaves every stack as it
found it (`Dyck.leaves`); and a word that closes the brackets of a stack comes apart at the places
where it does so, with a well nested word in front of each of them (`closes_of_nests`).  Hence a
text that is not blank is refused as a type exactly when its brackets are not well nested
(`parse_eq_unbalanced_iff`). -/

namespace ClientLoom

namespace Bracket

/-! ### Words -/

/-- The character that opens a bracket. -/
def openingChar : Bracket → Char
  | .angle => '<'
  | .round => '('
  | .square => '['

/-- The character that closes a bracket. -/
def closingChar : Bracket → Char
  | .angle => '>'
  | .round => ')'
  | .square => ']'

/-- Well nested words. -/
inductive Dyck : List Char → Prop where
  | nil : Dyck []
  | append {u v : List Char} : Dyck u → Dyck v → Dyck (u ++ v)
  | enclose (b : Bracket) {w : List Char} :
      Dyck w → Dyck (b.openingChar :: (w ++ [b.closingChar]))

/-- Whether a character counts as a bracket, from the character right before it. -/
def counts (before : Option Char) (c : Char) : Bool :=
  ['<', '>', '(', ')', '[', ']'].contains c && !(c == '>' && before == some '-')

/-- The characters of a text that count, when `before` stands in front of it. -/
def wordBehind (before : Option Char) (cs : List Char) : List Char :=
  (((before :: cs.map some).zip cs).filter fun x => counts x.1 x.2).map Prod.snd

/-- The brackets of a text in order, without each `>` right behind a `-`. -/
def word (cs : List Char) : List Char := wordBehind none cs

theorem wordBehind_cons (before : Option Char) (c : Char) (cs : List Char) :
    wordBehind before (c :: cs) =
      (if counts before c then [c] else []) ++ wordBehind (some c) cs := by
  cases h : counts before c <;> simp [wordBehind, h]

end Bracket

/-! ### Symbols -/

/-- The character of a symbol. -/
def BracketSymbol.char : BracketSymbol → Char
  | .opening b => b.openingChar
  | .closing b => b.closingChar

namespace Bracket

theorem symbol?_eq_some_iff {c : Char} {s : BracketSymbol} : symbol? c = some s ↔ c = s.char := by
  constructor
  · intro h
    unfold symbol? at h
    split at h <;> cases h <;> rfl
  · rintro rfl
    rcases s with (_ | _ | _) | (_ | _ | _) <;> rfl

theorem char_injective {s t : BracketSymbol} (h : s.char = t.char) : s = t :=
  Option.some.inj <| (symbol?_eq_some_iff.mpr rfl).symm.trans (symbol?_eq_some_iff.mpr h)

theorem contains_iff_isSome_symbol? (c : Char) :
    ['<', '>', '(', ')', '[', ']'].contains c = (symbol? c).isSome := by
  unfold symbol?
  split <;> simp_all

/-- The symbols of a text are the characters of its word. -/
theorem wordBehind_eq (before : Option Char) (cs : List Char) :
    wordBehind before cs = (symbolsFrom (before == some '-') cs).map BracketSymbol.char := by
  induction cs generalizing before with
  | nil => rfl
  | cons c cs ih =>
      have hnext : (some c == some '-') = (c == '-') := rfl
      rw [wordBehind_cons, ih, hnext, symbolsFrom, counts, contains_iff_isSome_symbol?,
        Bool.and_comm (c == '>')]
      cases harrow : before == some '-' && c == '>' with
      | true => simp
      | false =>
          cases hs : symbol? c with
          | none => simp
          | some s => simp [symbol?_eq_some_iff.mp hs]

theorem word_eq (cs : List Char) : word cs = (symbols cs).map BracketSymbol.char :=
  wordBehind_eq none cs

/-! ### What the stack decides -/

/-- A word that closes the brackets of a stack from its top on, each behind a well nested word, and
is well nested where the stack has come to its end. -/
inductive Closes : List Bracket → List Char → Prop where
  | done {w : List Char} : Dyck w → Closes [] w
  | close {b : Bracket} {stack : List Bracket} {u v : List Char} :
      Dyck u → Closes stack v → Closes (b :: stack) (u ++ b.closingChar :: v)

theorem Closes.append {stack : List Bracket} {u v : List Char} (hu : Dyck u)
    (hv : Closes stack v) : Closes stack (u ++ v) := by
  cases hv with
  | done hv => exact .done (hu.append hv)
  | close hw hv =>
      rw [← List.append_assoc]
      exact .close (hu.append hw) hv

/-- A bracket that is opened is closed again in what follows, and the word from the one to the other
is well nested. -/
theorem Closes.opening {b : Bracket} {stack : List Bracket} {w : List Char}
    (h : Closes (b :: stack) w) : Closes stack (b.openingChar :: w) := by
  cases h with
  | @close _ _ u v hu hv =>
      have hword : b.openingChar :: (u ++ b.closingChar :: v) =
          b.openingChar :: (u ++ [b.closingChar]) ++ v := by simp
      rw [hword]
      exact .append (.enclose b hu) hv

theorem closes_of_nests {stack : List Bracket} {ss : List BracketSymbol}
    (h : nests stack ss = true) : Closes stack (ss.map BracketSymbol.char) := by
  fun_induction nests stack ss with
  | case1 stack =>
      obtain rfl := List.isEmpty_iff.mp h
      exact .done .nil
  | case2 stack b rest ih => exact (ih h).opening
  | case3 b rest => cases h
  | case4 top stack b rest ih =>
      rw [Bool.and_eq_true, beq_iff_eq] at h
      obtain ⟨rfl, h⟩ := h
      exact .close .nil (ih h)

/-- A well nested word leaves every stack as it found it. -/
theorem Dyck.leaves {w : List Char} (h : Dyck w) :
    ∀ ss : List BracketSymbol, ss.map BracketSymbol.char = w →
      ∀ stack more, nests stack (ss ++ more) = nests stack more := by
  induction h with
  | nil =>
      intro ss hss stack more
      obtain rfl := List.map_eq_nil_iff.mp hss
      rfl
  | append _ _ ihu ihv =>
      intro ss hss stack more
      obtain ⟨us, vs, rfl, hus, hvs⟩ := List.map_eq_append_iff.mp hss
      rw [List.append_assoc, ihu us hus, ihv vs hvs]
  | enclose b _ ih =>
      intro ss hss stack more
      obtain ⟨s, rest, rfl, hs, hrest⟩ := List.map_eq_cons_iff.mp hss
      obtain ⟨ws, last, rfl, hws, hlast⟩ := List.map_eq_append_iff.mp hrest
      obtain ⟨t, rfl, ht⟩ := List.map_eq_singleton_iff.mp hlast
      obtain rfl : s = .opening b := char_injective hs
      obtain rfl : t = .closing b := char_injective ht
      simp [nests, ih ws hws]

theorem nests_nil_iff_dyck {ss : List BracketSymbol} :
    nests [] ss = true ↔ Dyck (ss.map BracketSymbol.char) := by
  constructor
  · intro h
    cases closes_of_nests h with
    | done h => exact h
  · intro h
    have hleaves := h.leaves ss rfl [] []
    rw [List.append_nil] at hleaves
    exact hleaves.trans rfl

theorem balanced_eq_false_iff {cs : List Char} : balanced cs = false ↔ ¬ Dyck (word cs) := by
  rw [word_eq, ← nests_nil_iff_dyck, Bool.not_eq_true]
  rfl

/-- The bracket check accepts exactly the texts whose brackets, without the heads of arrows, are
well nested. -/
theorem balanced_iff_dyck (s : String) : balanced s.toList = true ↔ Dyck (word s.toList) := by
  rw [word_eq]
  exact nests_nil_iff_dyck

/-- An arrow between brackets does not close any; a second `>` behind it does. -/
example : balanced "Box<dyn Fn(u8) -> Vec<[u8]>>".toList = true ∧
    balanced "Box<dyn Fn(u8) -> Vec<[u8]>".toList = false ∧ balanced "<->>".toList = true := by
  decide +kernel

end Bracket

/-- A text is refused for its brackets exactly when it is not blank and they are not well nested. -/
theorem Ty.parse_eq_unbalanced_iff {s : String} :
    Ty.parse s = .error (.unbalanced (Text.trim s)) ↔
      ¬ Blank s ∧ ¬ Bracket.Dyck (Bracket.word s.toList) := by
  rw [parse_eq, ← Bracket.balanced_eq_false_iff]
  by_cases hblank : Blank s <;> cases hbalanced : Bracket.balanced s.toList <;>
    simp [hblank]

end ClientLoom
