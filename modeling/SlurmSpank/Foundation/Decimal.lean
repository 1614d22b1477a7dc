import Mathlib.Algebra.Group.Nat.Defs
import Mathlib.Data.List.Basic
import Mathlib.Data.List.TakeWhile
import Mathlib.Tactic.IntervalCases

/-! # Decimal numerals as C reads and writes them

Numerals are lists of characters. Writing is that of the `%u` and `%d` conversions, and
scanning that of `strtol` and of the `%d` conversion of `scanf`: white space, a sign and
digits, with whatever follows left over.
-/

namespace SlurmSpank.Foundation

/-- The numeral of a natural number. -/
def decimal (n : Nat) : List Char := Nat.toDigits 10 n

/-- The numeral of an integer, with a minus sign in front of a negative one. -/
def signedDecimal (z : Int) : List Char :=
  if z < 0 then '-' :: decimal z.natAbs else decimal z.natAbs

theorem decimal_ne_nil (n : Nat) : decimal n ≠ [] := Nat.toDigits_ne_nil

theorem isDigit_of_mem_decimal {n : Nat} {c : Char} (hc : c ∈ decimal n) : c.isDigit = true :=
  Nat.isDigit_of_mem_toDigits (by decide) (by decide) hc

theorem decimal_injective : Function.Injective decimal := by
  intro n m heq
  have hvalue := congrArg (fun digits => Nat.ofDigitChars 10 digits 0) heq
  simpa [decimal] using hvalue

theorem decimal_length_pos (n : Nat) : 0 < (decimal n).length :=
  List.length_pos_of_ne_nil (decimal_ne_nil n)

/-- A number below a power of ten has no more digits than the exponent. -/
theorem decimal_length_le {n k : Nat} (hk : 0 < k) (hn : n < 10 ^ k) : (decimal n).length ≤ k :=
  (Nat.length_toDigits_le_iff (by decide) hk).mpr hn

@[simp] theorem signedDecimal_natCast (n : Nat) : signedDecimal n = decimal n := by
  simp [signedDecimal]

theorem signedDecimal_ne_nil (z : Int) : signedDecimal z ≠ [] := by
  unfold signedDecimal
  split
  · exact List.cons_ne_nil _ _
  · exact decimal_ne_nil _

/-- A numeral starts with a minus sign or a digit, and goes on in digits. -/
theorem mem_signedDecimal {z : Int} {c : Char} (hc : c ∈ signedDecimal z) :
    c = '-' ∨ c.isDigit = true := by
  unfold signedDecimal at hc
  split at hc
  · exact (List.mem_cons.mp hc).imp_right isDigit_of_mem_decimal
  · exact Or.inr (isDigit_of_mem_decimal hc)

theorem minus_notMem_decimal (n : Nat) : '-' ∉ decimal n := fun hmem =>
  absurd (isDigit_of_mem_decimal hmem) (by decide)

theorem signedDecimal_injective : Function.Injective signedDecimal := by
  intro a b heq
  unfold signedDecimal at heq
  split at heq <;> split at heq
  next =>
    have habs := decimal_injective (List.cons.inj heq).2
    omega
  next =>
    refine absurd ?_ (minus_notMem_decimal b.natAbs)
    exact heq ▸ List.mem_cons_self
  next =>
    refine absurd ?_ (minus_notMem_decimal a.natAbs)
    exact heq ▸ List.mem_cons_self
  next =>
    have habs := decimal_injective heq
    omega

theorem signedDecimal_length_le {z : Int} {k : Nat} (hk : 0 < k) (hz : z.natAbs < 10 ^ k) :
    (signedDecimal z).length ≤ k + 1 := by
  have hlen := decimal_length_le hk hz
  unfold signedDecimal
  split
  · rw [List.length_cons]
    omega
  · omega

/-! ## Scanning -/

/-- The characters that `isspace` accepts. -/
def isSpace (c : Char) : Bool :=
  c = ' ' || c = '\t' || c = '\n' || c = '\r' || c.toNat = 11 || c.toNat = 12

/-- The sign in front of a numeral. -/
def scanSign : List Char → Bool × List Char
  | '-' :: rest => (true, rest)
  | '+' :: rest => (false, rest)
  | rest => (false, rest)

/-- Scan one integer, or fail when there is no digit where it must start. -/
def scanInt (input : List Char) : Option (Int × List Char) :=
  let (negative, rest) := scanSign (input.dropWhile isSpace)
  let digits := rest.takeWhile Char.isDigit
  if digits = [] then none
  else
    let value : Int := Nat.ofDigitChars 10 digits 0
    some (if negative then -value else value, rest.dropWhile Char.isDigit)

/-- `strtol` in base 10: the number, kept within a `long`, and what is left over. -/
def strtol (input : List Char) : Int × List Char :=
  match scanInt input with
  | none => (0, input)
  | some (value, rest) => (max (-2 ^ 63) (min (2 ^ 63 - 1) value), rest)

/-- `strtoul` in base 10: the number as an `unsigned long`, and what is left over. -/
def strtoul (input : List Char) : Nat × List Char :=
  match scanInt input with
  | none => (0, input)
  | some (value, rest) =>
      (if 2 ^ 64 ≤ value.natAbs then 2 ^ 64 - 1 else (value % 2 ^ 64).toNat, rest)

theorem isSpace_of_isDigit {c : Char} (hc : c.isDigit = true) : isSpace c = false := by
  have hrange : 48 ≤ c.toNat ∧ c.toNat ≤ 57 := by
    simpa [Char.isDigit, UInt32.le_iff_toNat_le] using hc
  have hne : ∀ other : Char, other.toNat < 48 → c ≠ other := by
    rintro other hlt rfl
    omega
  have htoNat : c.toNat ≠ 11 ∧ c.toNat ≠ 12 := by omega
  simp [isSpace, hne ' ' (by decide), hne '\t' (by decide), hne '\n' (by decide),
    hne '\r' (by decide), htoNat]

theorem scanSign_of_isDigit {c : Char} {rest : List Char} (hc : c.isDigit = true) :
    scanSign (c :: rest) = (false, c :: rest) := by
  unfold scanSign
  split
  next heq =>
    obtain ⟨rfl, -⟩ := List.cons.inj heq
    exact absurd hc (by decide)
  next heq =>
    obtain ⟨rfl, -⟩ := List.cons.inj heq
    exact absurd hc (by decide)
  next => rfl

/-- A character that is neither blank nor part of a numeral ends the scan. -/
def endsNumeral (c : Char) : Bool :=
  !isSpace c && !c.isDigit && c ≠ '-' && c ≠ '+'

theorem dropWhile_append_stop {p : Char → Bool} {c : Char} (hc : p c = false) (u v : List Char) :
    (u ++ c :: v).dropWhile p = u.dropWhile p ++ c :: v := by
  induction u with
  | nil => exact List.dropWhile_cons_of_neg (by simp [hc])
  | cons d u ih =>
      rw [List.cons_append, List.dropWhile_cons, List.dropWhile_cons]
      split
      · exact ih
      · rfl

theorem takeWhile_append_stop {p : Char → Bool} {c : Char} (hc : p c = false) (u v : List Char) :
    (u ++ c :: v).takeWhile p = u.takeWhile p := by
  induction u with
  | nil => exact List.takeWhile_cons_of_neg (by simp [hc])
  | cons d u ih =>
      rw [List.cons_append, List.takeWhile_cons, List.takeWhile_cons]
      split
      · rw [ih]
      · rfl

theorem scanSign_append_stop {c : Char} (hminus : c ≠ '-') (hplus : c ≠ '+') (u v : List Char) :
    scanSign (u ++ c :: v) = ((scanSign u).1, (scanSign u).2 ++ c :: v) := by
  cases u with
  | nil =>
      rw [List.nil_append]
      unfold scanSign
      split
      next heq => exact absurd (List.cons.inj heq).1 hminus
      next heq => exact absurd (List.cons.inj heq).1 hplus
      next => rfl
  | cons d u =>
      rw [List.cons_append]
      by_cases hd : d = '-'
      · subst hd
        rfl
      · by_cases hd' : d = '+'
        · subst hd'
          rfl
        · have hother : ∀ rest, scanSign (d :: rest) = (false, d :: rest) := by
            intro rest
            unfold scanSign
            split
            next heq => exact absurd (List.cons.inj heq).1 hd
            next heq => exact absurd (List.cons.inj heq).1 hd'
            next => rfl
          rw [hother, hother]
          rfl

/-- What is scanned in front of such a character does not depend on what is behind. -/
theorem scanInt_append_stop {c : Char} (hends : endsNumeral c = true) (u v : List Char) :
    scanInt (u ++ c :: v) = (scanInt u).map fun scanned => (scanned.1, scanned.2 ++ c :: v) := by
  have hc : isSpace c = false ∧ c.isDigit = false ∧ c ≠ '-' ∧ c ≠ '+' := by
    simpa [endsNumeral, and_assoc] using hends
  obtain ⟨hspace, hdigit, hminus, hplus⟩ := hc
  unfold scanInt
  rw [dropWhile_append_stop hspace, scanSign_append_stop hminus hplus]
  dsimp only
  rw [takeWhile_append_stop hdigit, dropWhile_append_stop hdigit]
  split
  · rfl
  · rfl

/-- Digits are scanned as the number that they stand for, up to the first character that is
none. -/
theorem scanInt_digits {digits rest : List Char} (hne : digits ≠ [])
    (hdigits : ∀ c ∈ digits, c.isDigit = true) (hrest : ∀ c ∈ rest.head?, c.isDigit = false) :
    scanInt (digits ++ rest) = some (((Nat.ofDigitChars 10 digits 0 : Nat) : Int), rest) := by
  obtain ⟨c, more, hcons⟩ := List.exists_cons_of_ne_nil hne
  have hc : c.isDigit = true := hdigits c (hcons ▸ List.mem_cons_self)
  have hspace : (digits ++ rest).dropWhile isSpace = digits ++ rest := by
    rw [hcons, List.cons_append, List.dropWhile_cons_of_neg (by simp [isSpace_of_isDigit hc])]
  have hsign : scanSign (digits ++ rest) = (false, digits ++ rest) := by
    rw [hcons, List.cons_append, scanSign_of_isDigit hc]
  have hstop : rest.takeWhile Char.isDigit = [] ∧ rest.dropWhile Char.isDigit = rest := by
    cases rest with
    | nil => exact ⟨rfl, rfl⟩
    | cons d tail =>
        have hd := hrest d rfl
        exact ⟨List.takeWhile_cons_of_neg (by simp [hd]), List.dropWhile_cons_of_neg (by simp [hd])⟩
  have htake : (digits ++ rest).takeWhile Char.isDigit = digits := by
    rw [List.takeWhile_append_of_pos hdigits, hstop.1, List.append_nil]
  have hdrop : (digits ++ rest).dropWhile Char.isDigit = rest := by
    rw [List.dropWhile_append_of_pos hdigits, hstop.2]
  simp [scanInt, hspace, hsign, htake, hdrop, hne]

/-- A written numeral is scanned as the number, up to the first character that is no digit. -/
theorem scanInt_decimal (n : Nat) {rest : List Char}
    (hrest : ∀ c ∈ rest.head?, c.isDigit = false) :
    scanInt (decimal n ++ rest) = some ((n : Int), rest) := by
  rw [scanInt_digits (decimal_ne_nil n) (fun c hc => isDigit_of_mem_decimal hc) hrest]
  simp [decimal]

theorem strtoul_decimal {n : Nat} (hn : n < 2 ^ 64) {rest : List Char}
    (hrest : ∀ c ∈ rest.head?, c.isDigit = false) : strtoul (decimal n ++ rest) = (n, rest) := by
  rw [strtoul, scanInt_decimal n hrest]
  dsimp only
  rw [Int.natAbs_natCast, if_neg (Nat.not_le.mpr hn), Int.emod_eq_of_lt (by omega) (by omega),
    Int.toNat_natCast]

/-- No numeral but that of zero starts with a zero. -/
theorem decimal_head?_ne_zero {n : Nat} (hn : n ≠ 0) : (decimal n).head? ≠ some '0' := by
  induction n using Nat.strong_induction_on with
  | _ n ih =>
      unfold decimal at ih ⊢
      by_cases hlt : n < 10
      · rw [Nat.toDigits_of_lt_base hlt]
        interval_cases n <;> first | contradiction | decide
      · have hbase : 10 ≤ n := Nat.not_lt.mp hlt
        rw [Nat.toDigits_of_base_le (by decide) hbase,
          List.head?_append_of_ne_nil _ Nat.toDigits_ne_nil]
        exact ih (n / 10) (Nat.div_lt_self (by omega) (by decide))
          (Nat.div_pos hbase (by decide)).ne'

end SlurmSpank.Foundation
