import Mathlib.Data.Finset.Basic
import SlurmSpank.Foundation.Run

/-! # Pools that hand out disjoint sets

The abstract purpose of an allocator: its state is the set of items in use, a granted
request adds a set of items none of which was in use, and a refused one changes nothing.
-/

namespace SlurmSpank.Foundation.Pool

universe u

variable {Item : Type u}

/-- The sets granted along a sequence of answers. -/
def granted (answers : List (Option (Finset Item))) : List (Finset Item) :=
  answers.filterMap id

@[simp] theorem granted_nil : granted ([] : List (Option (Finset Item))) = [] := rfl

@[simp] theorem granted_append_none (answers : List (Option (Finset Item))) :
    granted (answers ++ [none]) = granted answers := by
  simp [granted, List.filterMap_append]

@[simp] theorem granted_append_some (answers : List (Option (Finset Item)))
    (given : Finset Item) : granted (answers ++ [some given]) = granted answers ++ [given] := by
  simp [granted, List.filterMap_append]

variable [DecidableEq Item]

/-- One request: refused, or granted a set of unused items. -/
inductive Step : Finset Item → Option (Finset Item) → Finset Item → Prop
  | refuse (used : Finset Item) : Step used none used
  | grant (used given : Finset Item) (hfree : Disjoint given used) :
      Step used (some given) (used ∪ given)

/-- Everything granted so far is in use. -/
theorem granted_subset_used {start used : Finset Item} {answers : List (Option (Finset Item))}
    (run : Run Step start answers used) : ∀ given ∈ granted answers, given ⊆ used := by
  induction run with
  | start => simp
  | extend prior last ih =>
      cases last with
      | refuse => simpa using ih
      | grant given _ =>
          intro other hother
          rw [granted_append_some, List.mem_append, List.mem_singleton] at hother
          rcases hother with hold | rfl
          · exact (ih other hold).trans Finset.subset_union_left
          · exact Finset.subset_union_right

/-- The sets granted along a run are pairwise disjoint. -/
theorem granted_pairwise_disjoint {start used : Finset Item}
    {answers : List (Option (Finset Item))} (run : Run Step start answers used) :
    (granted answers).Pairwise Disjoint := by
  induction run with
  | start => simp
  | extend prior last ih =>
      cases last with
      | refuse => simpa using ih
      | grant given hfree =>
          rw [granted_append_some]
          refine List.pairwise_append.mpr ⟨ih, List.pairwise_singleton _ _, ?_⟩
          intro old hold new hnew
          rw [List.mem_singleton] at hnew
          subst new
          exact (hfree.mono_right (granted_subset_used prior old hold)).symm

end SlurmSpank.Foundation.Pool
