import Mathlib.Data.Int.GCD
import Mathlib.Data.Int.ModEq
import Mathlib.Data.Nat.ModEq
import Mathlib.Tactic.Ring

/-! # Arithmetic progressions modulo a number

An arithmetic progression modulo `m` takes the values that agree with its first one modulo the
greatest common divisor of `m` and the difference. The largest of these is known. What is not
found among its first `m` values is not found at all.
-/

namespace SlurmSpank.Foundation

universe u

variable {a b s m x : Nat}

theorem progression_modEq (a s m k : Nat) : (a + k * s) % m ≡ a [MOD Nat.gcd s m] := by
  have hwhole : (a + k * s) % m ≡ a + k * s [MOD Nat.gcd s m] :=
    (Nat.mod_modEq (a + k * s) m).of_dvd (Nat.gcd_dvd_right s m)
  have hstep : k * s ≡ 0 [MOD Nat.gcd s m] :=
    (Nat.modEq_zero_iff_dvd).mpr (Dvd.dvd.mul_left (Nat.gcd_dvd_left s m) k)
  exact hwhole.trans (hstep.add_left a)

/-- Every value that agrees with the first one modulo the divisor is taken. -/
theorem exists_progression_eq (hx : x < m) (hmod : x ≡ a [MOD Nat.gcd s m]) :
    ∃ k, (a + k * s) % m = x := by
  obtain ⟨t, ht⟩ := (Nat.modEq_iff_dvd.mp hmod.symm)
  have hbezout := Nat.gcd_eq_gcd_ab s m
  generalize Nat.gcdA s m = u at hbezout
  generalize Nat.gcdB s m = v at hbezout
  have hm : (0 : Int) < m := by exact_mod_cast Nat.zero_lt_of_lt hx
  refine ⟨(u * t % m).toNat, ?_⟩
  have hk : ((u * t % m).toNat : Int) = u * t % m :=
    Int.toNat_of_nonneg (Int.emod_nonneg _ hm.ne')
  have hvalue : (((a + (u * t % m).toNat * s : Nat)) : Int) ≡ x [ZMOD m] :=
    calc
      (((a + (u * t % m).toNat * s : Nat)) : Int) = a + u * t % m * s := by
        push_cast
        rw [hk]
      _ ≡ a + u * t * s [ZMOD m] := ((Int.mod_modEq (u * t) m).mul_right s).add_left a
      _ = x + m * (-(v * t)) := by
        have hx : (x : Int) = a + (s * u + m * v) * t := by
          rw [← hbezout, ← ht]
          ring
        rw [hx]
        ring
      _ ≡ x [ZMOD m] := Int.modEq_add_fac_self
  have hnat := (Int.natCast_modEq_iff).mp hvalue
  rw [hnat, Nat.mod_eq_of_lt hx]

/-- A progression exceeds a bound exactly if the largest of its values does. -/
theorem exists_progression_gt_iff (hm : 0 < m) :
    (∃ k, b < (a + k * s) % m) ↔ b < m - Nat.gcd s m + a % Nat.gcd s m := by
  obtain ⟨p, hp⟩ := Nat.gcd_dvd_right s m
  have hgcd : 0 < Nat.gcd s m := Nat.gcd_pos_of_pos_right s hm
  have hp0 : 0 < p := by
    rcases Nat.eq_zero_or_pos p with rfl | hpos
    · rw [Nat.mul_zero] at hp
      omega
    · exact hpos
  have hrest : a % Nat.gcd s m < Nat.gcd s m := Nat.mod_lt a hgcd
  have htop : m - Nat.gcd s m = Nat.gcd s m * (p - 1) := by
    calc
      m - Nat.gcd s m = Nat.gcd s m * p - Nat.gcd s m := by rw [← hp]
      _ = Nat.gcd s m * (p - 1) := by rw [Nat.mul_sub, Nat.mul_one]
  constructor
  · rintro ⟨k, hk⟩
    refine Nat.lt_of_lt_of_le hk ?_
    have hmod := progression_modEq a s m k
    have hlt : (a + k * s) % m < m := Nat.mod_lt _ hm
    have hsplit := Nat.div_add_mod ((a + k * s) % m) (Nat.gcd s m)
    have hquot : (a + k * s) % m / Nat.gcd s m ≤ p - 1 := by
      have hless := Nat.div_lt_of_lt_mul (hlt.trans_eq hp)
      omega
    have hmul := Nat.mul_le_mul_left (Nat.gcd s m) hquot
    rw [Nat.ModEq] at hmod
    rw [htop]
    omega
  · intro hlt
    have hle : Nat.gcd s m ≤ m := Nat.gcd_le_right s hm
    obtain ⟨k, hk⟩ := @exists_progression_eq a s m (m - Nat.gcd s m + a % Nat.gcd s m)
      (by omega) (by
        rw [htop, Nat.ModEq, Nat.mul_add_mod, Nat.mod_mod])
    exact ⟨k, hk ▸ hlt⟩

theorem progression_mod (a s m k : Nat) : (a + k % m * s) % m = (a + k * s) % m :=
  ((Nat.mod_modEq k m).mul_right s).add_left a

/-! ## Searching through the indices -/

section Search

variable {α : Type u} {f : Nat → Option α} {n : Nat} {r : α}

/-- A longer search finds what a shorter one has found. -/
theorem findSome_range_mono (hle : m ≤ n) (hfound : (List.range m).findSome? f = some r) :
    (List.range n).findSome? f = some r := by
  obtain ⟨k, rfl⟩ := Nat.exists_eq_add_of_le hle
  rw [List.range_add, List.findSome?_append, hfound]
  rfl

/-- A search finds what is at the first index where there is something. -/
theorem findSome_range_eq_some_iff :
    (List.range n).findSome? f = some r ↔ ∃ k < n, f k = some r ∧ ∀ j < k, f j = none := by
  induction n with
  | zero => exact iff_of_false (by simp) fun ⟨k, hk, _⟩ => Nat.not_lt_zero k hk
  | succ n ih =>
      rw [List.range_succ, List.findSome?_append, Option.or_eq_some_iff, ih,
        List.findSome?_eq_none_iff, List.findSome?_singleton]
      constructor
      · rintro (⟨k, hk, hfound⟩ | ⟨hnone, hlast⟩)
        · exact ⟨k, Nat.lt_succ_of_lt hk, hfound⟩
        · exact ⟨n, Nat.lt_succ_self n, hlast, fun j hj => hnone j (List.mem_range.mpr hj)⟩
      · rintro ⟨k, hk, hfound, hnone⟩
        rcases Nat.lt_succ_iff_lt_or_eq.mp hk with hlt | rfl
        · exact Or.inl ⟨k, hlt, hfound, hnone⟩
        · exact Or.inr ⟨fun j hj => hnone j (List.mem_range.mp hj), hfound⟩

/-- What is found at periodic indices is found in the first period. -/
theorem findSome_range_period (hm : 0 < m) (hperiod : ∀ k, (f (k % m)).isSome = (f k).isSome)
    (hfound : (List.range n).findSome? f = some r) : (List.range m).findSome? f = some r := by
  have hsome : ((List.range n).findSome? f).isSome := hfound ▸ rfl
  obtain ⟨k, -, hk⟩ := List.findSome?_isSome_iff.mp hsome
  have hearly : ((List.range m).findSome? f).isSome :=
    List.findSome?_isSome_iff.mpr
      ⟨k % m, List.mem_range.mpr (Nat.mod_lt k hm), (hperiod k).trans hk⟩
  obtain ⟨r', hr'⟩ := Option.isSome_iff_exists.mp hearly
  have hsame : some r' = some r :=
    (findSome_range_mono (Nat.le_max_left m n) hr').symm.trans
      (findSome_range_mono (Nat.le_max_right m n) hfound)
  exact hr'.trans hsame

end Search

end SlurmSpank.Foundation
