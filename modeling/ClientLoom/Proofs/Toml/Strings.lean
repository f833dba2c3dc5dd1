import Mathlib.Algebra.Group.Nat.Defs
import Mathlib.Data.List.Induction
import ClientLoom.Toml.Text

/-! # Strings that are written and read again

A string that is written between double quotes is read as it was, whatever stands behind the closing
quote (`string?_quoted`), provided that it holds characters only and no byte that is no text.  Each
character is written as itself or as an escape, and `basic?_quotedChar` takes one of them off the
front of a string.  Control characters without a short escape are written as numbers, whose digits
are read by `hexNumber?_hexDigits`. -/

namespace ClientLoom

namespace Text

/-- Whether a text holds characters only, and none of those that count as bytes. -/
def IsPlain (s : String) : Prop := ∀ c ∈ s.toList, isRawByte c = false

instance (s : String) : Decidable (IsPlain s) :=
  decidable_of_iff (s.toList.all (!isRawByte ·) = true) (by simp [IsPlain])

/-! ### Hexadecimal digits -/

theorem length_hexDigits (width n : Nat) : (hexDigits width n).length = width := by
  induction width generalizing n with
  | zero => rfl
  | succ width ih => simp [hexDigits, ih]

theorem hexValue?_digitChar : ∀ m < 16, hexValue? (Nat.digitChar m) = some m := by decide

theorem foldlM_hexDigits (width n : Nat) :
    (hexDigits width n).foldlM (fun acc c => (hexValue? c).map (acc * 16 + ·)) 0 =
      some (n % 16 ^ width) := by
  induction width generalizing n with
  | zero => simp [hexDigits, Nat.mod_one]
  | succ width ih =>
      have hdigit := hexValue?_digitChar (n % 16) (Nat.mod_lt n (by decide))
      have hsum : n / 16 % 16 ^ width * 16 + n % 16 = n % 16 ^ (width + 1) := by
        rw [Nat.pow_succ', Nat.mod_mul, Nat.mul_comm, Nat.add_comm]
      rw [hexDigits, List.foldlM_append, ih]
      simp [hdigit, hsum]

/-- The last digits of a number are read as that number modulo a power of the base. -/
theorem hexNumber?_hexDigits (width n : Nat) (rest : List Char) :
    hexNumber? width (hexDigits width n ++ rest) = some (n % 16 ^ width) := by
  have htake : (hexDigits width n ++ rest).take width = hexDigits width n :=
    List.take_left' (length_hexDigits width n)
  rw [hexNumber?, htake, if_pos (length_hexDigits width n), foldlM_hexDigits]

end Text

namespace Toml

open Text (IsPlain isRawByte)

variable {d : Dialect} {cs rest : List Char} {c x : Char} {s : String}

/-! ### One character -/

theorem basic?_quote : basic? d ('"' :: rest) = some ([], rest) := by
  rw [basic?]

theorem basic?_escape (h : readEscape? d cs = some (x, rest)) :
    basic? d ('\\' :: cs) = (basic? d rest).map fun r => (x :: r.1, r.2) := by
  rw [basic?]
  split
  · next hnone => simp [hnone] at h
  · next y rest' hsome =>
      obtain ⟨rfl, rfl⟩ := Prod.mk.inj (Option.some.inj (hsome.symm.trans h))
      rfl

theorem basic?_plain (hline : isLineChar c = true) (hquote : c ≠ '"') (hslash : c ≠ '\\') :
    basic? d (c :: rest) = (basic? d rest).map fun r => (c :: r.1, r.2) := by
  rw [basic?]
  · exact if_pos hline
  · exact hquote
  · exact hslash

theorem readEscape?_short (h : escape? c = some x) :
    readEscape? d (c :: rest) = some (x, rest) := by
  simp [readEscape?, h]

theorem readEscape?_number {n : Nat} (h : n < 0x80) :
    readEscape? d ('u' :: (Text.hexDigits 4 n ++ rest)) = some (Char.ofNat n, rest) := by
  have hmod : n % 16 ^ 4 = n := Nat.mod_eq_of_lt (by omega)
  have hvalid : n.isValidChar := .inl (by omega)
  have hdrop : (Text.hexDigits 4 n ++ rest).drop 4 = rest :=
    List.drop_left' (Text.length_hexDigits 4 n)
  have hnumber := Text.hexNumber?_hexDigits 4 n rest
  rw [hmod] at hnumber
  simp [readEscape?, escape?, escapeDigits?, hnumber, Text.charOf?, hvalid, hdrop]

/-- Reading takes one written character off the front. -/
theorem basic?_quotedChar (h : isRawByte c = false) :
    basic? d (quotedChar c ++ rest) = (basic? d rest).map fun r => (c :: r.1, r.2) := by
  have hc : Char.ofNat c.toNat = c := Char.ofNat_toNat c
  unfold quotedChar
  dsimp only
  split
  · next hmark =>
      rcases (by simpa using hmark : c = '"' ∨ c = '\\') with rfl | rfl
      · exact basic?_escape (readEscape?_short rfl)
      · exact basic?_escape (readEscape?_short rfl)
  next hmark =>
    obtain ⟨hquote, hslash⟩ : c ≠ '"' ∧ c ≠ '\\' := by simpa using hmark
    have hshort {n : Nat} {y : Char} (hn : (c.toNat == n) = true)
        (hy : escape? y = some (Char.ofNat n)) :
        basic? d (['\\', y] ++ rest) = (basic? d rest).map fun r => (c :: r.1, r.2) := by
      rw [← beq_iff_eq.mp hn, hc] at hy
      exact basic?_escape (readEscape?_short hy)
    split
    · next hn => exact hshort hn rfl
    split
    · next hn => exact hshort hn rfl
    split
    · next hn => exact hshort hn rfl
    split
    · next hn => exact hshort hn rfl
    split
    · next hn => exact hshort hn rfl
    split
    · next hn =>
        have hsmall : c.toNat < 0x80 := by
          simp only [Bool.or_eq_true, decide_eq_true_eq, beq_iff_eq] at hn
          omega
        have hescape : readEscape? d ('u' :: (Text.hexDigits 4 c.toNat ++ rest)) =
            some (Char.ofNat c.toNat, rest) := readEscape?_number hsmall
        rw [hc] at hescape
        exact basic?_escape hescape
    · next hn =>
        have hline : isLineChar c = true := by
          obtain ⟨hlow, hdel⟩ : 0x20 ≤ c.toNat ∧ c.toNat ≠ 0x7F := by simpa using hn
          simp [isLineChar, hlow, hdel, h]
        exact basic?_plain hline hquote hslash

/-! ### Whole strings -/

theorem basic?_quoted {xs : List Char} (h : ∀ c ∈ xs, isRawByte c = false) :
    basic? d (xs.flatMap quotedChar ++ '"' :: rest) = some (xs, rest) := by
  induction xs with
  | nil => exact basic?_quote
  | cons c xs ih =>
      obtain ⟨hc, hxs⟩ := List.forall_mem_cons.mp h
      rw [List.flatMap_cons, List.append_assoc, basic?_quotedChar hc, ih hxs]
      rfl

/-- Only the end of a string is written as a quote. -/
theorem exists_cons_quotedChar (c : Char) : ∃ x xs, quotedChar c = x :: xs ∧ x ≠ '"' := by
  unfold quotedChar
  dsimp only
  split
  · exact ⟨_, _, rfl, by decide⟩
  next hmark =>
    have hquote : c ≠ '"' := by
      rintro rfl
      exact hmark rfl
    repeat (split; exact ⟨_, _, rfl, by decide⟩)
    exact ⟨c, [], rfl, hquote⟩

theorem string?_basic (h : ∀ more, cs ≠ '"' :: '"' :: more) :
    string? d ('"' :: cs) = (basic? d cs).map fun r => (String.ofList r.1, r.2) := by
  unfold string?
  split
  · next more heq => exact absurd (List.cons.inj heq).2 (h _)
  · next heq => rw [(List.cons.inj heq).2]
  · next heq => cases heq
  · next heq => cases heq
  · next hnone _ _ => exact (hnone cs rfl).elim

/-- A written string is read as it was. -/
theorem string?_quoted (h : IsPlain s) (hrest : rest.head? ≠ some '"') :
    string? d (quoted s ++ rest) = some (s, rest) := by
  have hsingle : ∀ more, s.toList.flatMap quotedChar ++ '"' :: rest ≠ '"' :: '"' :: more := by
    intro more heq
    cases hs : s.toList with
    | nil =>
        rw [hs] at heq
        exact hrest (by rw [(List.cons.inj heq).2]; rfl)
    | cons c cs =>
        obtain ⟨x, xs, hx, hne⟩ := exists_cons_quotedChar c
        rw [hs, List.flatMap_cons, hx] at heq
        exact hne (List.cons.inj heq).1
  have hbasic : basic? d (s.toList.flatMap quotedChar ++ '"' :: rest) = some (s.toList, rest) :=
    basic?_quoted h
  have hwhole : quoted s ++ rest = '"' :: (s.toList.flatMap quotedChar ++ '"' :: rest) := by
    simp [quoted]
  rw [hwhole, string?_basic hsingle, hbasic, Option.map_some, String.ofList_toList]

end Toml
end ClientLoom
