import SlurmSpank.AutoAffinity.CpuList
import SlurmSpank.Foundation.Progression

/-! # CPU lists that are read to their end

A range is walked in `unsigned int`, so its walk is an arithmetic progression modulo a power of
two. It ends where the progression exceeds the end of the range. With a stride of zero it never
does, and behind the largest number there is none.
-/

namespace SlurmSpank.AutoAffinity

open Foundation

/-! ## The walk along a range -/

/-- What a range has come to after so many turns. -/
def rangeTurn (a s k : Nat) : Nat := (a + k * s) % 2 ^ 32

/-- The end of a range is below the largest number that its walk comes to. -/
abbrev RangeEnds (a b s : Nat) : Prop := b < 2 ^ 32 - Nat.gcd s (2 ^ 32) + a % Nat.gcd s (2 ^ 32)

variable {a b s : Nat}

theorem rangeTurn_zero (ha : a < 2 ^ 32) : rangeTurn a s 0 = a := by
  unfold rangeTurn
  rw [Nat.zero_mul, Nat.add_zero, Nat.mod_eq_of_lt ha]

theorem rangeTurn_succ (a s k : Nat) :
    rangeTurn ((a + s) % 2 ^ 32) s k = rangeTurn a s (k + 1) := by
  unfold rangeTurn
  rw [Nat.mod_add_mod, Nat.add_assoc, Nat.add_mul, Nat.one_mul, Nat.add_comm s]

/-- The loop of `cstr_count` looks for the first turn behind the end. -/
theorem countRange_eq (ha : a < 2 ^ 32) (turns count : Nat) :
    countRange b s turns a count = (List.range turns).findSome? fun k =>
      if rangeTurn a s k ≤ b then none else some (count + k) := by
  induction turns generalizing a count with
  | zero => rfl
  | succ turns ih =>
      rw [countRange, List.range_succ_eq_map, List.findSome?_cons, List.findSome?_map,
        rangeTurn_zero ha]
      split
      · rw [ih (Nat.mod_lt _ (by decide))]
        congr 1
        funext k
        rw [rangeTurn_succ, Function.comp_apply, Nat.add_assoc, Nat.add_comm 1 k]
      · rfl

/-- The loop of `cstr_to_cpu_id` looks for the first turn behind the end or at the index. -/
theorem seekRange_eq (ha : a < 2 ^ 32) (n : Int) (turns index : Nat) :
    seekRange b s n turns a index = (List.range turns).findSome? fun k =>
      if rangeTurn a s k ≤ b then
        if wrapInt (index + k) = n then some (.inl (rangeTurn a s k)) else none
      else some (.inr (index + k)) := by
  induction turns generalizing a index with
  | zero => rfl
  | succ turns ih =>
      rw [seekRange, List.range_succ_eq_map, List.findSome?_cons, List.findSome?_map,
        rangeTurn_zero ha, Nat.add_zero index]
      by_cases hle : a ≤ b
      · rw [if_pos hle, if_pos hle]
        by_cases hn : wrapInt index = n
        · rw [if_pos hn, if_pos hn]
        · rw [if_neg hn, if_neg hn, ih (Nat.mod_lt _ (by decide))]
          congr 1
          funext k
          rw [rangeTurn_succ, Function.comp_apply, Nat.add_assoc, Nat.add_comm 1 k]
      · rw [if_neg hle, if_neg hle]

theorem wrapInt_period (index k : Nat) : wrapInt (index + k % 2 ^ 32) = wrapInt (index + k) := by
  unfold wrapInt
  rw [← Int.emod_bmod, ← @Int.emod_bmod (index + k : Nat)]
  congr 1
  omega

theorem countRange_period (ha : a < 2 ^ 32) {turns count r : Nat}
    (hcount : countRange b s turns a count = some r) :
    countRange b s (2 ^ 32) a count = some r := by
  rw [countRange_eq ha] at hcount ⊢
  refine findSome_range_period (by decide) ?_ hcount
  intro k
  unfold rangeTurn
  rw [progression_mod]
  split <;> rfl

theorem seekRange_period (ha : a < 2 ^ 32) {n : Int} {turns index : Nat} {r : Nat ⊕ Nat}
    (hseek : seekRange b s n turns a index = some r) :
    seekRange b s n (2 ^ 32) a index = some r := by
  rw [seekRange_eq ha] at hseek ⊢
  refine findSome_range_period (by decide) ?_ hseek
  intro k
  unfold rangeTurn
  rw [progression_mod, wrapInt_period]
  split
  · split <;> rfl
  · rfl

/-- The walk ends exactly if it exceeds the end of the range at some time. -/
theorem countRange_isSome_iff (ha : a < 2 ^ 32) (count : Nat) :
    (∃ turns, (countRange b s turns a count).isSome) ↔ RangeEnds a b s := by
  rw [RangeEnds, ← exists_progression_gt_iff (by decide : 0 < 2 ^ 32)]
  constructor
  · rintro ⟨turns, hturns⟩
    rw [countRange_eq ha] at hturns
    obtain ⟨k, -, hk⟩ := List.findSome?_isSome_iff.mp hturns
    refine ⟨k, Nat.lt_of_not_le fun hle => ?_⟩
    rw [rangeTurn, if_pos hle] at hk
    exact absurd hk (by decide)
  · rintro ⟨k, hk⟩
    refine ⟨k + 1, ?_⟩
    rw [countRange_eq ha]
    refine List.findSome?_isSome_iff.mpr ⟨k, List.mem_range.mpr (Nat.lt_succ_self k), ?_⟩
    rw [rangeTurn, if_neg (Nat.not_le.mpr hk)]
    rfl

/-- A walk that ends for one loop ends for the other. -/
theorem seekRange_isSome (ha : a < 2 ^ 32) (hends : RangeEnds a b s) (n : Int) (index : Nat) :
    (seekRange b s n (2 ^ 32) a index).isSome := by
  obtain ⟨k, hk⟩ := (exists_progression_gt_iff (by decide : 0 < 2 ^ 32)).mpr hends
  rw [seekRange_eq ha]
  refine List.findSome?_isSome_iff.mpr
    ⟨k % 2 ^ 32, List.mem_range.mpr (Nat.mod_lt k (by decide)), ?_⟩
  rw [rangeTurn, progression_mod, if_neg (Nat.not_le.mpr hk)]
  rfl

/-! ## The walk along a list -/

/-- The ranges that are walked end. Nothing is walked from the first element on that is none. -/
def AllEnd : List Text → Prop
  | [] => True
  | p :: rest =>
      match readElement p with
      | .unread => True
      | .broken => True
      | .range a b s => RangeEnds a b s ∧ AllEnd rest

/-- What is counted in any number of turns is counted in as many as there are values. -/
theorem cstrCountLoop_period {turns : Nat} {ps : List Text} {count : Nat} {r : Int}
    (hcount : cstrCountLoop turns ps count = some r) :
    cstrCountLoop (2 ^ 32) ps count = some r := by
  induction ps generalizing count with
  | nil => exact hcount
  | cons p rest ih =>
      rw [cstrCountLoop] at hcount ⊢
      cases hp : readElement p with
      | unread =>
          rw [hp] at hcount
          exact hcount
      | broken =>
          rw [hp] at hcount
          exact hcount
      | range a b s =>
          rw [hp] at hcount
          obtain ⟨hle, hlt⟩ := readElement_range hp
          obtain ⟨count', hrange, hrest⟩ := Option.bind_eq_some_iff.mp hcount
          exact Option.bind_eq_some_iff.mpr
            ⟨count', countRange_period (Nat.lt_of_le_of_lt hle hlt) hrange, ih hrest⟩

theorem cstrToCpuIdLoop_period {turns : Nat} {n : Int} {ps : List Text} {index : Nat} {r : Int}
    (hid : cstrToCpuIdLoop turns n ps index = some r) :
    cstrToCpuIdLoop (2 ^ 32) n ps index = some r := by
  induction ps generalizing index with
  | nil => exact hid
  | cons p rest ih =>
      rw [cstrToCpuIdLoop] at hid ⊢
      cases hp : readElement p with
      | unread =>
          rw [hp] at hid
          exact hid
      | broken =>
          rw [hp] at hid
          exact hid
      | range a b s =>
          rw [hp] at hid
          obtain ⟨hle, hlt⟩ := readElement_range hp
          obtain ⟨found, hrange, hrest⟩ := Option.bind_eq_some_iff.mp hid
          refine Option.bind_eq_some_iff.mpr
            ⟨found, seekRange_period (Nat.lt_of_le_of_lt hle hlt) hrange, ?_⟩
          cases found with
          | inl found => exact hrest
          | inr index => exact ih hrest

/-- `cstr_count` returns what its loop returns in any number of turns. -/
theorem cstrCount_eq_some_iff {str : Text} {r : Int} :
    cstrCount str = some r ↔ ∃ turns, cstrCountWithin turns str = some r :=
  ⟨fun hcount => ⟨2 ^ 32, hcount⟩, fun ⟨_, hcount⟩ => cstrCountLoop_period hcount⟩

/-- `cstr_to_cpu_id` returns what its loop returns in any number of turns. -/
theorem cstrToCpuId_eq_some_iff {str : Text} {n r : Int} :
    cstrToCpuId str n = some r ↔ ∃ turns, cstrToCpuIdWithin turns str n = some r :=
  ⟨fun hid => ⟨2 ^ 32, hid⟩, fun ⟨_, hid⟩ => cstrToCpuIdLoop_period hid⟩

theorem cstrCountLoop_isSome_iff (ps : List Text) (count : Nat) :
    (cstrCountLoop (2 ^ 32) ps count).isSome ↔ AllEnd ps := by
  induction ps generalizing count with
  | nil => exact iff_of_true rfl trivial
  | cons p rest ih =>
      rw [cstrCountLoop, AllEnd]
      cases hp : readElement p with
      | unread => exact iff_of_true rfl trivial
      | broken => exact iff_of_true rfl trivial
      | range a b s =>
          obtain ⟨hle, hlt⟩ := readElement_range hp
          have ha : a < 2 ^ 32 := Nat.lt_of_le_of_lt hle hlt
          dsimp only
          rw [← countRange_isSome_iff ha count]
          constructor
          · intro hsome
            obtain ⟨r, hr⟩ := Option.isSome_iff_exists.mp hsome
            obtain ⟨count', hrange, hrest⟩ := Option.bind_eq_some_iff.mp hr
            exact ⟨⟨2 ^ 32, hrange ▸ rfl⟩, (ih count').mp (hrest ▸ rfl)⟩
          · rintro ⟨⟨turns, hturns⟩, hrest⟩
            obtain ⟨count', hrange⟩ := Option.isSome_iff_exists.mp hturns
            rw [countRange_period ha hrange]
            exact (ih count').mpr hrest

theorem cstrToCpuIdLoop_isSome {ps : List Text} (hends : AllEnd ps) (n : Int) (index : Nat) :
    (cstrToCpuIdLoop (2 ^ 32) n ps index).isSome := by
  induction ps generalizing index with
  | nil => rfl
  | cons p rest ih =>
      rw [cstrToCpuIdLoop]
      rw [AllEnd] at hends
      cases hp : readElement p with
      | unread => rfl
      | broken => rfl
      | range a b s =>
          rw [hp] at hends
          obtain ⟨hle, hlt⟩ := readElement_range hp
          have hseek := seekRange_isSome (Nat.lt_of_le_of_lt hle hlt) hends.1 n index
          obtain ⟨found, hfound⟩ := Option.isSome_iff_exists.mp hseek
          dsimp only
          rw [hfound]
          cases found with
          | inl found => rfl
          | inr index => exact ih hends.2 index

/-- Both functions come back from a list, whatever the index, exactly if every range that is
walked ends. -/
theorem cpu_list_ends_iff (str : Text) :
    ((∃ turns, (cstrCountWithin turns str).isSome) ∧
      ∀ n : Int, ∃ turns, (cstrToCpuIdWithin turns str n).isSome) ↔ AllEnd (places str) := by
  constructor
  · rintro ⟨⟨turns, hturns⟩, -⟩
    obtain ⟨r, hr⟩ := Option.isSome_iff_exists.mp hturns
    have hsome : (cstrCountLoop (2 ^ 32) (places str) 0).isSome :=
      cstrCountLoop_period hr ▸ rfl
    exact (cstrCountLoop_isSome_iff _ 0).mp hsome
  · intro hends
    exact ⟨⟨2 ^ 32, (cstrCountLoop_isSome_iff _ 0).mpr hends⟩, fun n =>
      ⟨2 ^ 32, cstrToCpuIdLoop_isSome hends n 0⟩⟩

/-- With a stride of zero the first CPU of a range is counted over and over, and no CPU but that
one is found. -/
theorem zero_stride_not_counted :
    ¬ ((∃ turns, (cstrCountWithin turns "0-3:0".toList).isSome) ∧
      ∀ n : Int, ∃ turns, (cstrToCpuIdWithin turns "0-3:0".toList n).isSome) := by
  rintro ⟨⟨turns, hturns⟩, -⟩
  obtain ⟨r, hr⟩ := Option.isSome_iff_exists.mp hturns
  have hsome : (cstrCountLoop (2 ^ 32) (places "0-3:0".toList) 0).isSome :=
    cstrCountLoop_period hr ▸ rfl
  have hends : RangeEnds 0 3 0 ∧ True := (cstrCountLoop_isSome_iff _ 0).mp hsome
  exact absurd hends.1 (by decide)

end SlurmSpank.AutoAffinity
