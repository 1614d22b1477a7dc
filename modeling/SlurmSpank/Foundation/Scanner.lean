import SlurmSpank.Foundation.Regex

/-! # Rules of a scanner

A scanner takes the rule with the longest match, counting the character of a trailing
context, and of several such rules the first. The trailing context stays in the input.
-/

namespace SlurmSpank.Foundation

universe u v

/-- A pattern, the class of a character that must follow it, and an action. -/
structure ScanRule (α : Type u) (β : Type v) where
  pattern : Regex α
  context : Option (α → Bool)
  action : β

namespace ScanRule

variable {α : Type u} {β : Type v}

/-- The pattern with its trailing context. -/
def full (rule : ScanRule α β) : Regex α :=
  match rule.context with
  | none => rule.pattern
  | some p => .seq rule.pattern (.cls p)

/-- How much of a match is taken from the input. -/
def width (rule : ScanRule α β) (n : Nat) : Nat :=
  match rule.context with
  | none => n
  | some _ => n - 1

/-- The rule that applies at the start of an input, with the length of its match. -/
def scan : List (ScanRule α β) → List α → Option (ScanRule α β × Nat)
  | [], _ => none
  | rule :: rules, s =>
      match rule.full.longest s, scan rules s with
      | none, best => best
      | some n, none => some (rule, n)
      | some n, some (other, m) => if m ≤ n then some (rule, n) else some (other, m)

variable {rules : List (ScanRule α β)} {rule : ScanRule α β} {s : List α} {n : Nat}

/-- The rule that applies is one of the rules, with its longest match. -/
theorem of_scan (hscan : scan rules s = some (rule, n)) :
    rule ∈ rules ∧ rule.full.longest s = some n := by
  induction rules generalizing rule n with
  | nil => exact absurd hscan (by simp [scan])
  | cons first rules ih =>
      rw [scan] at hscan
      split at hscan
      next =>
        obtain ⟨hmem, hlongest⟩ := ih hscan
        exact ⟨List.mem_cons_of_mem first hmem, hlongest⟩
      next m hm _ =>
        obtain ⟨rfl, rfl⟩ := Prod.mk.inj (Option.some_inj.mp hscan)
        exact ⟨List.mem_cons_self, hm⟩
      next m other k hm hother =>
        split at hscan
        · obtain ⟨rfl, rfl⟩ := Prod.mk.inj (Option.some_inj.mp hscan)
          exact ⟨List.mem_cons_self, hm⟩
        · obtain ⟨hmem, hlongest⟩ := ih (hother.trans hscan)
          exact ⟨List.mem_cons_of_mem first hmem, hlongest⟩

/-- Where a rule matches, one applies, with a match that is at least as long. -/
theorem exists_scan (hmem : rule ∈ rules) (hlongest : rule.full.longest s = some n) :
    ∃ best m, scan rules s = some (best, m) ∧ n ≤ m := by
  induction rules with
  | nil => exact absurd hmem List.not_mem_nil
  | cons first rules ih =>
      rw [scan]
      rcases List.mem_cons.mp hmem with rfl | hmem
      · rw [hlongest]
        cases scan rules s with
        | none => exact ⟨rule, n, rfl, Nat.le_refl n⟩
        | some best =>
            dsimp only
            split
            · exact ⟨rule, n, rfl, Nat.le_refl n⟩
            next hgt => exact ⟨best.1, best.2, rfl, Nat.le_of_lt (Nat.not_le.mp hgt)⟩
      · obtain ⟨best, m, hscan, hle⟩ := ih hmem
        rw [hscan]
        cases first.full.longest s with
        | none => exact ⟨best, m, rfl, hle⟩
        | some k =>
            dsimp only
            split
            next hk => exact ⟨first, k, rfl, Nat.le_trans hle hk⟩
            next => exact ⟨best, m, rfl, hle⟩

/-- Where a rule matches the whole input, the one that applies does, too. -/
theorem scan_whole (hmem : rule ∈ rules) (haccepts : rule.full.accepts s = true) :
    ∃ best, scan rules s = some (best, s.length) ∧ best ∈ rules ∧
      best.full.accepts s = true := by
  obtain ⟨n, hlongest, hn⟩ := @Regex.le_longest _ rule.full s s.length (Nat.le_refl _)
    (by rwa [List.take_length])
  obtain ⟨best, m, hscan, hm⟩ := exists_scan hmem hlongest
  obtain ⟨hbest, hwhole⟩ := of_scan hscan
  obtain rfl : m = s.length := Nat.le_antisymm (Regex.longest_le hwhole) (Nat.le_trans hn hm)
  have htaken := Regex.accepts_longest hwhole
  rw [List.take_length] at htaken
  exact ⟨best, hscan, hbest, htaken⟩

/-- The first rule applies where it matches the whole input. -/
theorem scan_first (hlongest : rule.full.longest s = some s.length) :
    scan (rule :: rules) s = some (rule, s.length) := by
  rw [scan, hlongest]
  cases hscan : scan rules s with
  | none => rfl
  | some best =>
      obtain ⟨-, hbest⟩ := of_scan hscan
      exact if_pos (Regex.longest_le hbest)

/-- The choice depends on the matches only. -/
theorem scan_congr {t : List α}
    (hsame : ∀ rule ∈ rules, rule.full.longest s = rule.full.longest t) :
    scan rules s = scan rules t := by
  induction rules with
  | nil => rfl
  | cons first rules ih =>
      rw [scan, scan, hsame first List.mem_cons_self,
        ih fun rule hrule => hsame rule (List.mem_cons_of_mem first hrule)]

/-- A rule whose pattern is not empty takes something from the input, but not more than there
is. -/
theorem width_of_scan (hproper : ∀ rule ∈ rules, rule.pattern.nullable = false)
    (hscan : scan rules s = some (rule, n)) : 0 < rule.width n ∧ rule.width n ≤ s.length := by
  obtain ⟨hmem, hlongest⟩ := of_scan hscan
  have hnullable := hproper rule hmem
  have hle := Regex.longest_le hlongest
  unfold full at hlongest
  unfold width
  split at hlongest
  next =>
    exact ⟨Regex.longest_pos hnullable hlongest, hle⟩
  next p =>
    refine ⟨?_, Nat.le_trans (Nat.sub_le n 1) hle⟩
    obtain ⟨u, v, htake, hu, hv⟩ := Regex.accepts_seq (Regex.accepts_longest hlongest)
    obtain ⟨c, -, rfl⟩ := Regex.accepts_cls.mp hv
    have hlength : (s.take n).length = u.length + 1 := by rw [htake, List.length_append]; rfl
    have hu' : u ≠ [] := by
      rintro rfl
      rw [Regex.accepts_nil, hnullable] at hu
      exact Bool.false_ne_true hu
    have hpos := List.length_pos_iff.mpr hu'
    rw [List.length_take] at hlength
    change 0 < n - 1
    omega

end ScanRule

end SlurmSpank.Foundation
