import Mathlib.Data.List.Basic

/-! # Taking items from sources

A number of items is taken from sources, one source after the other: a source gives items only
when those in front of it have none left.
-/

namespace SlurmSpank.Foundation

universe u

variable {α : Type u}

/-- The first items of all sources. -/
def greedy (sources : List (List α)) (n : Nat) : List α := sources.flatten.take n

@[simp] theorem greedy_nil (n : Nat) : greedy ([] : List (List α)) n = [] := List.take_nil

theorem greedy_cons (source : List α) (sources : List (List α)) (n : Nat) :
    greedy (source :: sources) n = source.take n ++ greedy sources (n - source.length) := by
  rw [greedy, List.flatten_cons, List.take_append]
  rfl

/-- When a source gives an item, the sources in front of it gave all of theirs. -/
theorem greedy_exhausts {sources : List (List α)} (hdisjoint : sources.Pairwise List.Disjoint)
    (n : Nat) : sources.Pairwise fun earlier later =>
      (∃ item ∈ later, item ∈ greedy sources n) → ∀ item ∈ earlier, item ∈ greedy sources n := by
  induction sources generalizing n with
  | nil => exact List.Pairwise.nil
  | cons source sources ih =>
      obtain ⟨hsource, hsources⟩ := List.pairwise_cons.mp hdisjoint
      rw [greedy_cons]
      refine List.pairwise_cons.mpr ⟨?_, ?_⟩
      · intro later hlater hgiven item hitem
        obtain ⟨other, hother, hmem⟩ := hgiven
        have hrest : other ∈ greedy sources (n - source.length) := by
          refine (List.mem_append.mp hmem).resolve_left fun htake => ?_
          exact hsource later hlater (List.mem_of_mem_take htake) hother
        -- something was left for the sources behind this one
        have hlt : source.length < n := by
          by_contra hge
          rw [Nat.sub_eq_zero_of_le (Nat.le_of_not_lt hge), greedy, List.take_zero] at hrest
          exact absurd hrest List.not_mem_nil
        rw [List.take_of_length_le (Nat.le_of_lt hlt)]
        exact List.mem_append_left _ hitem
      · have hmem : ∀ other ∈ sources, ∀ item ∈ other,
            item ∈ source.take n ++ greedy sources (n - source.length) →
              item ∈ greedy sources (n - source.length) := by
          intro other hother item hitem htaken
          refine (List.mem_append.mp htaken).resolve_left fun htake => ?_
          exact hsource other hother (List.mem_of_mem_take htake) hitem
        refine (ih hsources (n - source.length)).imp_of_mem ?_
        intro earlier later _ hlater hgives hgiven item hitem
        obtain ⟨other, hother, htaken⟩ := hgiven
        exact List.mem_append_right _
          (hgives ⟨other, hother, hmem later hlater other hother htaken⟩ item hitem)

end SlurmSpank.Foundation
