import Mathlib.Data.List.TakeWhile
import ClientLoom.Toml.Scalar

/-! # Integers that are written and read again

A value without quotes is tried as a truth value, a point in time, an integer and a decimal number,
in this order.  The decimal numeral of an integer is none of the first two (`isTime_digits`,
`isTime_minus`), and it is read as that integer if it fits into 64 bits (`read?_numeral`). -/

namespace ClientLoom.Toml.Scalar

variable {d : Dialect} {cs rest : List Char} {c : Char} {n : Nat}

/-! ### Digits -/

/-- Whether a text holds decimal digits only. -/
def AreDigits (cs : List Char) : Prop := ∀ c ∈ cs, c.isDigit = true

theorem areDigits_toDigits (n : Nat) : AreDigits (Nat.toDigits 10 n) :=
  fun _ => Nat.isDigit_of_mem_toDigits (by decide) (by decide)

theorem isDigit_iff_toNat : c.isDigit = true ↔ 48 ≤ c.toNat ∧ c.toNat ≤ 57 := by
  simp only [Char.isDigit, Bool.and_eq_true, decide_eq_true_eq, ge_iff_le, UInt32.le_iff_toNat_le]
  rfl

theorem hexValue?_digit (h : c.isDigit = true) : Text.hexValue? c = some (c.toNat - '0'.toNat) := by
  simp only [Char.isDigit, Bool.and_eq_true, decide_eq_true_eq] at h
  exact if_pos h

theorem ungroup?_digits (hne : cs ≠ []) (h : AreDigits cs) : ungroup? cs = some cs := by
  have hmark {c : Char} (hc : c.isDigit = true) : (c == '_') = false := by
    rw [beq_eq_false_iff_ne]
    rintro rfl
    cases hc
  induction cs with
  | nil => exact absurd rfl hne
  | cons c cs ih =>
      obtain ⟨hc, hcs⟩ := List.forall_mem_cons.mp h
      cases cs with
      | nil => simp [ungroup?, hmark hc]
      | cons e cs =>
          have he := hmark (hcs e List.mem_cons_self)
          have hne : e ≠ '_' := beq_eq_false_iff_ne.mp he
          rw [ungroup?.eq_4 c e cs (fun _ _ h _ => hne h), hmark hc, he,
            ih (by simp) hcs]
          rfl

theorem inBase?_digits (hne : cs ≠ []) (h : AreDigits cs) :
    inBase? 10 cs = some (Nat.ofDigitChars 10 cs 0) := by
  rw [inBase?, ungroup?_digits hne h]
  show cs.foldlM _ 0 = _
  generalize 0 = acc
  induction cs generalizing acc with
  | nil => rfl
  | cons c cs ih =>
      obtain ⟨hc, hcs⟩ := List.forall_mem_cons.mp h
      have hsmall : c.toNat - '0'.toNat < 10 := by
        have := isDigit_iff_toNat.mp hc
        show c.toNat - 48 < 10
        omega
      rw [List.foldlM_cons, hexValue?_digit hc, Nat.ofDigitChars_cons, Nat.mul_comm 10 acc]
      simp only [Option.bind_some, hsmall, if_true, Option.bind_eq_bind]
      cases cs with
      | nil => rfl
      | cons e cs => exact ih (by simp) hcs _

/-- Only the numeral of zero starts with a zero. -/
theorem toDigits_cons_zero (h : Nat.toDigits 10 n = '0' :: cs) : cs = [] := by
  induction n using Nat.strongRecOn generalizing cs with
  | _ n ih =>
    rw [Nat.toDigits_eq_if (by decide)] at h
    split at h
    · exact (List.cons.inj h).2.symm
    · next hn =>
        obtain ⟨c, ds, hds⟩ :=
          List.exists_cons_of_ne_nil (Nat.toDigits_ne_nil (b := 10) (n := n / 10))
        rw [hds, List.cons_append] at h
        obtain ⟨rfl, -⟩ := List.cons.inj h
        obtain rfl := ih (n / 10) (by omega) hds
        have hvalue := Nat.ofDigitChars_ten_toDigits (n := n / 10)
        rw [hds] at hvalue
        have hzero : n / 10 = 0 := hvalue.symm
        omega

theorem whole?_toDigits (n : Nat) : whole? (Nat.toDigits 10 n) = some n := by
  unfold whole?
  split
  · next h => cases toDigits_cons_zero h
  · rw [inBase?_digits Nat.toDigits_ne_nil (areDigits_toDigits n), Nat.ofDigitChars_ten_toDigits]

/-! ### No points in time -/

theorem behind?_digits (h : AreDigits cs) (hc : c.isDigit = false) : behind? c cs = none := by
  cases cs with
  | nil => rfl
  | cons x cs =>
      have hx : x ≠ c := by
        rintro rfl
        rw [h x List.mem_cons_self] at hc
        cases hc
      exact if_neg hx

theorem digits?_eq_some {k : Nat} {r : Nat × List Char} (h : digits? k cs = some r) :
    r.2 = cs.drop k := by
  simp only [digits?] at h
  split at h
  · rw [← Option.some.inj h]
  · cases h

theorem areDigits_drop (h : AreDigits cs) (k : Nat) : AreDigits (cs.drop k) :=
  fun c hc => h c (List.mem_of_mem_drop hc)

/-- Behind leading digits a point in time goes on with another character. -/
theorem isTime_digits (h : AreDigits cs) : isTime d cs = false := by
  have hdate : date? cs = none := by
    unfold date?
    cases hdigits : digits? 4 cs with
    | none => rfl
    | some r =>
        have hnone : behind? '-' r.2 = none :=
          digits?_eq_some hdigits ▸ behind?_digits (areDigits_drop h 4) (by decide)
        simp [hnone]
  have hclock : clock? d cs = none := by
    unfold clock?
    cases hdigits : digits? 2 cs with
    | none => rfl
    | some r =>
        have hnone : behind? ':' r.2 = none :=
          digits?_eq_some hdigits ▸ behind?_digits (areDigits_drop h 2) (by decide)
        simp [hnone]
  simp [isTime, hdate, hclock]

theorem isTime_minus : isTime d ('-' :: cs) = false := by
  have hdigits (k : Nat) : digits? (k + 1) ('-' :: cs) = none := by
    simp [digits?]
  have hdate : date? ('-' :: cs) = none := by
    rw [date?, hdigits 3]
    rfl
  have hclock : clock? d ('-' :: cs) = none := by
    rw [clock?, hdigits 1]
    rfl
  simp [isTime, hdate, hclock]

/-! ### Integers -/

theorem fitting?_of_fits {i : Int} (h : Width.fits i = true) : fitting? i = some (.integer i) := by
  rw [fitting?, if_pos h]

theorem integer?_toDigits (h : Width.fits n = true) :
    integer? (Nat.toDigits 10 n) = some (.integer n) := by
  have hsign : sign (Nat.toDigits 10 n) = (false, Nat.toDigits 10 n) := by
    have hdigits := areDigits_toDigits n
    unfold sign
    split
    · next heq => cases hdigits '-' (heq ▸ List.mem_cons_self)
    · next heq => cases hdigits '+' (heq ▸ List.mem_cons_self)
    · rfl
  unfold integer?
  split
  · next heq => cases toDigits_cons_zero heq
  · next heq => cases toDigits_cons_zero heq
  · next heq => cases toDigits_cons_zero heq
  · rw [hsign]
    show (whole? (Nat.toDigits 10 n)).bind _ = _
    rw [whole?_toDigits, Option.bind_some, if_neg Bool.false_ne_true, fitting?_of_fits h]

theorem integer?_minus (h : Width.fits (-(n : Int)) = true) :
    integer? ('-' :: Nat.toDigits 10 n) = some (.integer (-(n : Int))) := by
  simp [integer?, sign, whole?_toDigits, fitting?_of_fits h]

/-- The digits of an integer, behind its sign. -/
def numeral (i : Int) : List Char :=
  if 0 ≤ i then Nat.toDigits 10 i.toNat else '-' :: Nat.toDigits 10 (-i).toNat

theorem toList_toString (i : Int) : (toString i).toList = numeral i := by
  rw [Int.toString_eq_repr, Int.repr_eq_if, numeral]
  split
  · exact Nat.toList_repr
  · rw [String.toList_append, Nat.toList_repr]
    rfl

theorem ofToken?_numeral {i : Int} (h : Width.fits i = true) :
    ofToken? d (numeral i) = some (.integer i) := by
  have hword {word : List Char}
      (hfirst : word.head?.all (fun c => c != '-' && !c.isDigit) = true) (hne : word ≠ []) :
      (numeral i == word) = false := by
    obtain ⟨c, word, rfl⟩ := List.exists_cons_of_ne_nil hne
    obtain ⟨hminus, hdigit⟩ : c ≠ '-' ∧ c.isDigit = false := by simpa using hfirst
    rw [beq_eq_false_iff_ne, numeral]
    split
    · intro heq
      have := areDigits_toDigits i.toNat c (heq ▸ List.mem_cons_self)
      rw [hdigit] at this
      cases this
    · exact fun heq => hminus (List.cons.inj heq).1.symm
  have htrue : (numeral i == "true".toList) = false := hword (by decide) (by decide)
  have hfalse : (numeral i == "false".toList) = false := hword (by decide) (by decide)
  have htime : isTime d (numeral i) = false := by
    unfold numeral
    split
    · exact isTime_digits (areDigits_toDigits _)
    · exact isTime_minus
  have hinteger : integer? (numeral i) = some (.integer i) := by
    unfold numeral
    split
    · next hi =>
        have hnat : (i.toNat : Int) = i := Int.toNat_of_nonneg hi
        rw [integer?_toDigits (hnat.symm ▸ h), hnat]
    · next hi =>
        have hnat : -((-i).toNat : Int) = i := by omega
        rw [integer?_minus (hnat.symm ▸ h), hnat]
  rw [ofToken?, htrue, hfalse, htime, hinteger]
  rfl

theorem not_endsToken_of_mem_numeral {i : Int} (hc : c ∈ numeral i) : endsToken c = false := by
  have hdigit (h : c.isDigit = true) : endsToken c = false := by
    have := isDigit_iff_toNat.mp h
    simp only [endsToken, isSpace, isGap, Bool.or_eq_false_iff, beq_eq_false_iff_ne]
    refine ⟨⟨⟨⟨⟨⟨⟨?_, ?_⟩, ?_⟩, ?_⟩, ?_⟩, ?_⟩, ?_⟩, ?_⟩ <;> rintro rfl <;> cases h
  unfold numeral at hc
  split at hc
  · exact hdigit (areDigits_toDigits _ c hc)
  · rcases List.mem_cons.mp hc with rfl | hc
    · decide
    · exact hdigit (areDigits_toDigits _ c hc)

/-- A written integer is read as it was, up to the end of its line. -/
theorem read?_numeral {i : Int} (h : Width.fits i = true) :
    read? d (numeral i ++ '\n' :: rest) = some (.integer i, '\n' :: rest) := by
  have htoken : (numeral i ++ '\n' :: rest).takeWhile (!endsToken ·) = numeral i := by
    rw [List.takeWhile_append_of_pos fun c hc => by simp [not_endsToken_of_mem_numeral hc]]
    simp [show endsToken '\n' = true from rfl]
  have hrest : (numeral i ++ '\n' :: rest).dropWhile (!endsToken ·) = '\n' :: rest := by
    rw [List.dropWhile_append_of_pos fun c hc => by simp [not_endsToken_of_mem_numeral hc]]
    simp [show endsToken '\n' = true from rfl]
  rw [read?, htoken, hrest, ofToken?_numeral h]
  split
  · next heq => cases (List.cons.inj heq).1
  · rfl

end ClientLoom.Toml.Scalar
