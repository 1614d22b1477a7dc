import Mathlib.Algebra.BigOperators.Group.Finset.Basic
import Mathlib.Algebra.Order.BigOperators.Group.Finset
import Mathlib.Data.Finset.Max
import Mathlib.Order.Interval.Finset.Nat

/-! # Contiguous blocks and the spread of a set

A set of numbers is addressed by its least element and its size when it is contiguous.
The spread of a set is what this addressing reaches in general. A disjoint family is
covered by its own spreads only if every member is contiguous.
-/

namespace SlurmSpank.Foundation

/-- A nonempty contiguous block of numbers. -/
def IsBlock (members : Finset Nat) : Prop :=
  ∃ lo len, 0 < len ∧ members = Finset.Ico lo (lo + len)

/-- As many consecutive numbers as a set has members, from its least member on. -/
def spread (members : Finset Nat) : Finset Nat :=
  if hne : members.Nonempty then
    Finset.Ico (members.min' hne) (members.min' hne + members.card)
  else ∅

theorem IsBlock.nonempty {members : Finset Nat} (hblock : IsBlock members) :
    members.Nonempty := by
  obtain ⟨lo, len, hlen, rfl⟩ := hblock
  exact Finset.nonempty_Ico.mpr (by omega)

@[simp] theorem card_spread (members : Finset Nat) : (spread members).card = members.card := by
  unfold spread
  split
  next => simp
  next hempty => simp [Finset.not_nonempty_iff_eq_empty.mp hempty]

/-- Below any member outside the spread lies the whole spread. -/
theorem lt_of_mem_spread {members : Finset Nat} {item other : Nat} (hitem : item ∈ members)
    (hout : item ∉ spread members) (hother : other ∈ spread members) : other < item := by
  have hne : members.Nonempty := ⟨item, hitem⟩
  rw [spread, dif_pos hne, Finset.mem_Ico] at hout hother
  have hmin := members.min'_le item hitem
  omega

/-- A nonempty set is its own spread exactly when it is contiguous. -/
theorem spread_eq_self_iff {members : Finset Nat} (hne : members.Nonempty) :
    spread members = members ↔ IsBlock members := by
  rw [spread, dif_pos hne]
  constructor
  · intro hself
    exact ⟨_, members.card, Finset.card_pos.mpr hne, hself.symm⟩
  · rintro ⟨lo, len, hlen, hmembers⟩
    have hcard : members.card = len := by simp [hmembers]
    have hlo : lo ∈ members := by
      rw [hmembers, Finset.mem_Ico]
      omega
    have hmin : members.min' hne = lo := by
      have hle := members.min'_le lo hlo
      have hmem := (Finset.ext_iff.mp hmembers _).mp (members.min'_mem hne)
      rw [Finset.mem_Ico] at hmem
      omega
    rw [hmin, hcard]
    exact hmembers.symm

section Cover

variable {Index : Type*} [DecidableEq Index] {family : Finset Index} {own : Index → Finset Nat}

/-- Sets whose union is as large as their sizes allow do not meet. -/
theorem disjoint_of_card_biUnion {part : Index → Finset Nat}
    (hcard : ∑ index ∈ family, (part index).card ≤ (family.biUnion part).card)
    {left right : Index} (hleft : left ∈ family) (hright : right ∈ family)
    (hne : left ≠ right) : Disjoint (part left) (part right) := by
  refine Finset.disjoint_left.mpr fun item hinLeft hinRight => ?_
  have hcover : family.biUnion part ⊆
      ((family.erase left).biUnion part) ∪ (part left).erase item := by
    intro other hother
    obtain ⟨index, hindex, hmem⟩ := Finset.mem_biUnion.mp hother
    rw [Finset.mem_union]
    by_cases hcase : index = left
    · subst index
      by_cases heq : other = item
      · left
        exact Finset.mem_biUnion.mpr
          ⟨right, Finset.mem_erase.mpr ⟨hne.symm, hright⟩, heq ▸ hinRight⟩
      · exact Or.inr (Finset.mem_erase.mpr ⟨heq, hmem⟩)
    · exact Or.inl (Finset.mem_biUnion.mpr ⟨index, Finset.mem_erase.mpr ⟨hcase, hindex⟩, hmem⟩)
  have hle := (Finset.card_le_card hcover).trans (Finset.card_union_le _ _)
  have hrest : ((family.erase left).biUnion part).card ≤
      ∑ index ∈ family.erase left, (part index).card := Finset.card_biUnion_le
  have hsum := Finset.add_sum_erase family (fun index => (part index).card) hleft
  have herase := Finset.card_erase_of_mem hinLeft
  have hpos : 0 < (part left).card := Finset.card_pos.mpr ⟨item, hinLeft⟩
  omega

/-- A disjoint family covered by its spreads consists of its spreads. The least member
that its own spread misses would have below it a spread that belongs to other sets. -/
theorem spread_eq_of_cover
    (hdisj : ∀ left ∈ family, ∀ right ∈ family, left ≠ right → Disjoint (own left) (own right))
    (hcover : family.biUnion own ⊆ family.biUnion fun index => spread (own index)) :
    ∀ index ∈ family, spread (own index) = own index := by
  have hcard : ∑ index ∈ family, (spread (own index)).card ≤
      (family.biUnion fun index => spread (own index)).card := by
    simp only [card_spread]
    rw [← Finset.card_biUnion fun left hleft right hright => hdisj left hleft right hright]
    exact Finset.card_le_card hcover
  have hall : (family.biUnion fun index => spread (own index)) = family.biUnion own := by
    refine (Finset.eq_of_subset_of_card_le hcover ?_).symm
    refine Finset.card_biUnion_le.trans (le_of_eq ?_)
    simp only [card_spread]
    rw [Finset.card_biUnion fun left hleft right hright => hdisj left hleft right hright]
  have hmem : ∀ item, ∀ index ∈ family, item ∈ own index → item ∈ spread (own index) := by
    intro item
    induction item using Nat.strong_induction_on with
    | _ item ih =>
        intro index hindex hitem
        by_contra hout
        have hsub : spread (own index) ⊆ own index := by
          intro other hother
          have hlt := lt_of_mem_spread hitem hout hother
          have hin : other ∈ family.biUnion own :=
            hall ▸ Finset.mem_biUnion.mpr ⟨index, hindex, hother⟩
          obtain ⟨owner, howner, hown⟩ := Finset.mem_biUnion.mp hin
          by_cases hcase : owner = index
          · exact hcase ▸ hown
          · have happart := disjoint_of_card_biUnion hcard howner hindex hcase
            exact absurd hother (Finset.disjoint_left.mp happart (ih other hlt owner howner hown))
        have heq := Finset.eq_of_subset_of_card_le hsub (card_spread _).ge
        exact hout (heq.symm ▸ hitem)
  intro index hindex
  exact (Finset.eq_of_subset_of_card_le (fun item hitem => hmem item index hindex hitem)
    (card_spread _).le).symm

end Cover

end SlurmSpank.Foundation
