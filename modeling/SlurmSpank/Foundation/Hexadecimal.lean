import Mathlib.Data.List.Basic
import Mathlib.Data.Nat.Bitwise
import Mathlib.Tactic.IntervalCases

/-! # Hexadecimal numerals of a fixed width

The numerals of the `%0*x` conversions, and their digits as groups of four bits.
-/

namespace SlurmSpank.Foundation

/-- The numeral that `%0*x` writes, with zeros in front up to the given width. -/
def hexPadded (width n : Nat) : List Char := (Nat.toDigits 16 n).leftpad width '0'

/-- The digits of a number as numbers, the last digit first. -/
def nibbles : Nat → Nat → List Nat
  | 0, _ => []
  | width + 1, n => n % 16 :: nibbles width (n / 16)

@[simp] theorem nibbles_length (width n : Nat) : (nibbles width n).length = width := by
  induction width generalizing n with
  | zero => rfl
  | succ width ih => simp [nibbles, ih]

theorem lt_of_mem_nibbles {width n d : Nat} (hd : d ∈ nibbles width n) : d < 16 := by
  induction width generalizing n with
  | zero => simp [nibbles] at hd
  | succ width ih =>
      rcases List.mem_cons.mp hd with rfl | hd
      · exact Nat.mod_lt n (by decide)
      · exact ih hd

theorem nibbles_zero (width : Nat) : nibbles width 0 = List.replicate width 0 := by
  induction width with
  | zero => rfl
  | succ width ih => simp [nibbles, ih, List.replicate_succ]

theorem leftpad_append_singleton {α : Type} (width : Nat) (a c : α) (l : List α) :
    (l ++ [c]).leftpad (width + 1) a = l.leftpad width a ++ [c] := by
  simp [List.leftpad]

/-- A number that fits the width is written digit by digit. -/
theorem hexPadded_eq {width n : Nat} (hwidth : 0 < width) (hn : n < 16 ^ width) :
    hexPadded width n = ((nibbles width n).map Nat.digitChar).reverse := by
  induction width generalizing n with
  | zero => exact absurd hwidth (Nat.lt_irrefl 0)
  | succ width ih =>
      rw [nibbles, List.map_cons, List.reverse_cons]
      by_cases hlt : n < 16
      · have hzero : n / 16 = 0 := Nat.div_eq_of_lt hlt
        have happend : hexPadded (width + 1) n = [].leftpad width '0' ++ [n.digitChar] := by
          rw [← leftpad_append_singleton, hexPadded, Nat.toDigits_of_lt_base hlt, List.nil_append]
        rw [happend, Nat.mod_eq_of_lt hlt, hzero, nibbles_zero]
        simp [List.leftpad]
      · have hbase : 16 ≤ n := Nat.not_lt.mp hlt
        have hpow : 0 < width := by
          by_contra hzero
          obtain rfl : width = 0 := by omega
          exact hlt hn
        have hdiv : n / 16 < 16 ^ width := by
          rw [Nat.div_lt_iff_lt_mul (by decide), ← pow_succ]
          exact hn
        rw [← ih hpow hdiv, hexPadded, Nat.toDigits_of_base_le (by decide) hbase,
          leftpad_append_singleton, hexPadded]

/-- The digits make up the number. -/
theorem foldl_nibbles {width n : Nat} (hn : n < 16 ^ width) :
    (nibbles width n).reverse.foldl (fun value digit => 16 * value + digit) 0 = n := by
  induction width generalizing n with
  | zero =>
      obtain rfl : n = 0 := by omega
      rfl
  | succ width ih =>
      have hdiv : n / 16 < 16 ^ width := by
        rw [Nat.div_lt_iff_lt_mul (by decide), ← pow_succ]
        exact hn
      rw [nibbles, List.reverse_cons, List.foldl_append, ih hdiv]
      exact Nat.div_add_mod n 16

/-- The last digit holds the lowest four bits. -/
theorem testBit_mod_16 {n j : Nat} (hj : j < 4) : (n % 16).testBit j = n.testBit j := by
  have hmod := Nat.testBit_mod_two_pow n 4 j
  rw [decide_eq_true hj, Bool.true_and] at hmod
  exact hmod

/-- The other digits hold the other bits. -/
theorem testBit_div_16 (n j : Nat) : (n / 16).testBit j = n.testBit (4 + j) := by
  have hdiv := @Nat.testBit_div_two_pow 4 n j
  rw [Nat.add_comm j 4] at hdiv
  exact hdiv

end SlurmSpank.Foundation
