import Mathlib.Data.List.Basic

/-! # A sweep over a changing set

A cursor goes up through the numbers below a bound. Each turn finds the first member that is not
below the cursor and leaves the cursor behind it. The set may be another one at each turn.
-/

namespace SlurmSpank.Foundation

/-- The first member from a number on. -/
def firstFrom (size : Nat) (has : Nat → Bool) (cursor : Nat) : Option Nat :=
  (List.range' cursor (size - cursor)).find? has

/-- What the turns find, given the set at each of them. -/
def sweep (size : Nat) : Nat → List (Nat → Bool) → List (Option Nat)
  | _, [] => []
  | cursor, has :: rest =>
      match firstFrom size has cursor with
      | some found => some found :: sweep size (found + 1) rest
      | none => none :: sweep size size rest

section Sweep

variable {size : Nat}

/-- The numbers in front of the first member are none. -/
theorem firstFrom_eq_some {has : Nat → Bool} {cursor found : Nat}
    (hfound : firstFrom size has cursor = some found) :
    cursor ≤ found ∧ found < size ∧ has found = true ∧
      ∀ n, cursor ≤ n → n < found → has n = false := by
  rw [firstFrom, List.find?_range'_eq_some] at hfound
  obtain ⟨hhas, hrange, hbefore⟩ := hfound
  have hbounds := List.mem_range'_1.mp hrange
  refine ⟨hbounds.1, by omega, hhas, ?_⟩
  intro n hle hlt
  simpa using hbefore n hle hlt

theorem firstFrom_eq_none {has : Nat → Bool} {cursor : Nat} :
    firstFrom size has cursor = none ↔ ∀ n, cursor ≤ n → n < size → has n = false := by
  rw [firstFrom, List.find?_range'_eq_none]
  constructor
  · intro hnone n hle hlt
    simpa using hnone n hle (by omega)
  · intro hnone n hle hlt
    simpa using hnone n hle (by omega)

/-- Behind the bound nothing is found. -/
theorem sweep_of_le {cursor : Nat} (hle : size ≤ cursor) (sets : List (Nat → Bool)) :
    sweep size cursor sets = List.replicate sets.length none := by
  induction sets generalizing cursor with
  | nil => rfl
  | cons has rest ih =>
      have hnone : firstFrom size has cursor = none :=
        firstFrom_eq_none.mpr fun n hn hlt => absurd hlt (by omega)
      rw [sweep, hnone, List.length_cons, List.replicate_succ]
      simp only
      rw [ih (Nat.le_refl size)]

theorem sweep_length (cursor : Nat) (sets : List (Nat → Bool)) :
    (sweep size cursor sets).length = sets.length := by
  induction sets generalizing cursor with
  | nil => rfl
  | cons has rest ih =>
      rw [sweep]
      cases firstFrom size has cursor with
      | none => rw [List.length_cons, ih, List.length_cons]
      | some found => rw [List.length_cons, ih, List.length_cons]

theorem bounds_of_mem_sweep {cursor found : Nat} {sets : List (Nat → Bool)}
    (hmem : some found ∈ sweep size cursor sets) : cursor ≤ found ∧ found < size := by
  induction sets generalizing cursor with
  | nil => exact absurd hmem List.not_mem_nil
  | cons has rest ih =>
      rw [sweep] at hmem
      cases hfirst : firstFrom size has cursor with
      | none =>
          rw [hfirst] at hmem
          have hrest := ih ((List.mem_cons.mp hmem).resolve_left nofun)
          exact absurd hrest.1 (Nat.not_le_of_lt hrest.2)
      | some first =>
          rw [hfirst] at hmem
          have hspec := firstFrom_eq_some hfirst
          rcases List.mem_cons.mp hmem with heq | hrest
          · cases heq
            exact ⟨hspec.1, hspec.2.1⟩
          · have hbounds := ih hrest
            exact ⟨by omega, hbounds.2⟩

/-- What is found goes up, and after a turn that finds nothing no turn finds anything. -/
def InOrder (first second : Option Nat) : Prop :=
  ∀ later ∈ second, ∃ earlier ∈ first, earlier < later

theorem sweep_inOrder (cursor : Nat) (sets : List (Nat → Bool)) :
    (sweep size cursor sets).Pairwise InOrder := by
  induction sets generalizing cursor with
  | nil => exact List.Pairwise.nil
  | cons has rest ih =>
      rw [sweep]
      cases hfirst : firstFrom size has cursor with
      | none =>
          refine List.pairwise_cons.mpr ⟨?_, ih size⟩
          intro other hother later hlater
          cases hlater
          have hbounds := bounds_of_mem_sweep hother
          exact absurd hbounds.1 (Nat.not_le_of_lt hbounds.2)
      | some found =>
          refine List.pairwise_cons.mpr ⟨?_, ih (found + 1)⟩
          intro other hother later hlater
          cases hlater
          exact ⟨found, rfl, (bounds_of_mem_sweep hother).1⟩

/-- What is found is a member at that turn. -/
theorem sweep_has (cursor : Nat) (sets : List (Nat → Bool)) :
    List.Forall₂ (fun has result => ∀ found ∈ result, has found = true) sets
      (sweep size cursor sets) := by
  induction sets generalizing cursor with
  | nil => exact List.Forall₂.nil
  | cons has rest ih =>
      rw [sweep]
      cases hfirst : firstFrom size has cursor with
      | none => exact List.Forall₂.cons (fun found hfound => nomatch hfound) (ih size)
      | some first =>
          refine List.Forall₂.cons ?_ (ih (first + 1))
          intro found hfound
          cases hfound
          exact (firstFrom_eq_some hfirst).2.2.1

/-- The turn came to a number, or went past it. -/
def Reaches (n : Nat) (result : Option Nat) : Prop := ∀ found ∈ result, n ≤ found

/-- A number that is a member at every turn is found when the cursor comes to it. -/
theorem mem_sweep_of_reaches {cursor n : Nat} {sets : List (Nat → Bool)} (hle : cursor ≤ n)
    (hlt : n < size) (hhas : ∀ has ∈ sets, has n = true)
    (hreached : ∃ result ∈ sweep size cursor sets, Reaches n result) :
    some n ∈ sweep size cursor sets := by
  induction sets generalizing cursor with
  | nil =>
      obtain ⟨result, hresult, _⟩ := hreached
      exact absurd hresult List.not_mem_nil
  | cons has rest ih =>
      obtain ⟨hfirst, hrest⟩ := List.forall_mem_cons.mp hhas
      rw [sweep] at hreached ⊢
      cases hfound : firstFrom size has cursor with
      | none => exact absurd hfirst (by simp [firstFrom_eq_none.mp hfound n hle hlt])
      | some found =>
          rw [hfound] at hreached
          have hspec := firstFrom_eq_some hfound
          -- the member is not passed over: it would have been found
          have hnot : found ≤ n := by
            by_contra hlater
            exact absurd hfirst (by simp [hspec.2.2.2 n hle (by omega)])
          rcases Nat.eq_or_lt_of_le hnot with heq | hbefore
          · rw [heq]
            exact List.mem_cons_self
          · apply List.mem_cons_of_mem
            apply ih hbefore hrest
            obtain ⟨result, hresult, hreaches⟩ := hreached
            rcases List.mem_cons.mp hresult with rfl | hlater
            · exact absurd (hreaches found rfl) (Nat.not_le_of_lt hbefore)
            · exact ⟨result, hlater, hreaches⟩

end Sweep

/-! ## Visits

A visit of a member may change the set, and may end the sweep with an error.
-/

section Visits

universe u v

variable {State : Type u} {Error : Type v} (has : State → Nat → Bool)
  (visit : Nat → State → Except Error State)

/-- Visit the members among some numbers, one number after another. -/
def scan : List Nat → State → Except Error State
  | [], state => .ok state
  | n :: rest, state => if has state n then (visit n state).bind (scan rest) else scan rest state

/-- Visit the members by going from one to the next, in a number of turns. -/
def leap (size : Nat) : Nat → Nat → State → Option (Except Error State)
  | 0, _, _ => none
  | turns + 1, cursor, state =>
      match firstFrom size (has state) cursor with
      | none => some (.ok state)
      | some found =>
          match visit found state with
          | .error e => some (.error e)
          | .ok state => leap size turns (found + 1) state

/-- What is in front of the first member is passed over. -/
theorem scan_of_firstFrom {size cursor found : Nat} {state : State}
    (hfound : firstFrom size (has state) cursor = some found) :
    scan has visit (List.range' cursor (size - cursor)) state =
      (visit found state).bind
        (scan has visit (List.range' (found + 1) (size - (found + 1)))) := by
  obtain ⟨hle, hlt, hhas, hbefore⟩ := firstFrom_eq_some hfound
  obtain ⟨gap, rfl⟩ := Nat.exists_eq_add_of_le hle
  clear hfound hle
  induction gap generalizing cursor with
  | zero =>
      rw [Nat.add_zero] at hlt hhas ⊢
      have hsize : size - cursor = size - (cursor + 1) + 1 := by omega
      rw [hsize, List.range'_succ, scan, if_pos hhas]
  | succ gap ih =>
      have hfirst : has state cursor = false := hbefore cursor (Nat.le_refl cursor) (by omega)
      have hsize : size - cursor = size - (cursor + 1) + 1 := by omega
      rw [hsize, List.range'_succ, scan, hfirst, if_neg Bool.false_ne_true]
      have hmove : cursor + (gap + 1) = cursor + 1 + gap := by omega
      rw [hmove] at hlt hhas hbefore ⊢
      exact ih hlt hhas fun n hn hbound => hbefore n (by omega) hbound

theorem scan_of_none {size cursor : Nat} {state : State}
    (hnone : firstFrom size (has state) cursor = none) :
    scan has visit (List.range' cursor (size - cursor)) state = .ok state := by
  have hall : ∀ n ∈ List.range' cursor (size - cursor), has state n = false := by
    intro n hn
    have hbounds := List.mem_range'_1.mp hn
    exact firstFrom_eq_none.mp hnone n hbounds.1 (by omega)
  generalize List.range' cursor (size - cursor) = numbers at hall
  induction numbers with
  | nil => rfl
  | cons n rest ih =>
      obtain ⟨hfirst, hrest⟩ := List.forall_mem_cons.mp hall
      rw [scan, hfirst, if_neg Bool.false_ne_true, ih hrest]

/-- Both ways of going through a set that changes visit the same members, when there are turns
enough for all numbers. -/
theorem leap_eq_scan {size turns cursor : Nat} (hturns : size - cursor < turns) (state : State) :
    leap has visit size turns cursor state =
      some (scan has visit (List.range' cursor (size - cursor)) state) := by
  induction turns generalizing cursor state with
  | zero => exact absurd hturns (Nat.not_lt_zero _)
  | succ turns ih =>
      rw [leap]
      cases hfirst : firstFrom size (has state) cursor with
      | none => rw [scan_of_none has visit hfirst]
      | some found =>
          have hbounds := firstFrom_eq_some hfirst
          rw [scan_of_firstFrom has visit hfirst]
          simp only
          cases visit found state with
          | error e => rfl
          | ok next =>
              have hrest : size - (found + 1) < turns := by omega
              exact ih hrest next

end Visits

end SlurmSpank.Foundation
