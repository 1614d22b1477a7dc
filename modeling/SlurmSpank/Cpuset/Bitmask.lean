import Mathlib.Data.Finset.Max
import Mathlib.Order.Interval.Finset.Nat

/-! # Bit masks of CPUs

The masks of libbitmask, as its documentation describes them: a mask has a fixed
number of bits, reading a bit past the end gives zero, and writing one is ignored.
-/

namespace SlurmSpank.Cpuset

/-- A mask of `size` bits. The set bits are carried with their bound, so that no
mask has a bit past its end. -/
structure Bitmask where
  size : Nat
  bits : Finset Nat
  bits_lt : ∀ bit ∈ bits, bit < size

namespace Bitmask

@[ext] theorem ext {left right : Bitmask} (hsize : left.size = right.size)
    (hbits : left.bits = right.bits) : left = right := by
  cases left
  cases right
  cases hsize
  cases hbits
  rfl

instance : DecidableEq Bitmask := fun left right =>
  decidable_of_iff (left.size = right.size ∧ left.bits = right.bits)
    ⟨fun heq => ext heq.1 heq.2, fun heq => heq ▸ ⟨rfl, rfl⟩⟩

/-- `bitmask_alloc`: a mask of the given size with no bit set. -/
def alloc (size : Nat) : Bitmask := ⟨size, ∅, by simp⟩

/-- The mask of the given size whose bits are the members of a set that fit. -/
def ofFinset (size : Nat) (bits : Finset Nat) : Bitmask :=
  ⟨size, bits.filter (· < size), by simp⟩

/-- `bitmask_isbitset`. -/
def isbitset (mask : Bitmask) (bit : Nat) : Bool := decide (bit ∈ mask.bits)

/-- `bitmask_setbit`. -/
def setbit (mask : Bitmask) (bit : Nat) : Bitmask :=
  if hbit : bit < mask.size then
    ⟨mask.size, insert bit mask.bits, by
      intro other hother
      rcases Finset.mem_insert.mp hother with rfl | hmem
      · exact hbit
      · exact mask.bits_lt other hmem⟩
  else mask

/-- `bitmask_weight`. -/
def weight (mask : Bitmask) : Nat := mask.bits.card

/-- `bitmask_first`: the lowest set bit, or the size of a mask without one. -/
def first (mask : Bitmask) : Nat :=
  if hbits : mask.bits.Nonempty then mask.bits.min' hbits else mask.size

/-- `bitmask_clearall`. -/
def clearall (mask : Bitmask) : Bitmask := alloc mask.size

/-- `bitmask_or (mask, left, right)`: the destination keeps its own size. -/
def or (mask left right : Bitmask) : Bitmask := ofFinset mask.size (left.bits ∪ right.bits)

/-- `bitmask_complement (mask, source)`. -/
def complement (mask source : Bitmask) : Bitmask :=
  ofFinset mask.size (Finset.range mask.size \ source.bits)

/-- `bitmask_copy (mask, source)`. -/
def copy (mask source : Bitmask) : Bitmask := ofFinset mask.size source.bits

/-- The mask with all bits of a set added that fit. -/
def add (mask : Bitmask) (extra : Finset Nat) : Bitmask :=
  ofFinset mask.size (mask.bits ∪ extra)

@[simp] theorem alloc_size (size : Nat) : (alloc size).size = size := rfl

@[simp] theorem alloc_bits (size : Nat) : (alloc size).bits = ∅ := rfl

@[simp] theorem ofFinset_size (size : Nat) (bits : Finset Nat) :
    (ofFinset size bits).size = size := rfl

@[simp] theorem mem_ofFinset {size bit : Nat} {bits : Finset Nat} :
    bit ∈ (ofFinset size bits).bits ↔ bit ∈ bits ∧ bit < size := Finset.mem_filter

theorem ofFinset_bits_of_lt {size : Nat} {bits : Finset Nat} (hlt : ∀ bit ∈ bits, bit < size) :
    (ofFinset size bits).bits = bits := Finset.filter_true_of_mem hlt

@[simp] theorem isbitset_eq_true {mask : Bitmask} {bit : Nat} :
    mask.isbitset bit = true ↔ bit ∈ mask.bits := by simp [isbitset]

@[simp] theorem setbit_size (mask : Bitmask) (bit : Nat) : (mask.setbit bit).size = mask.size := by
  unfold setbit
  split <;> rfl

theorem setbit_bits {mask : Bitmask} {bit : Nat} (hbit : bit < mask.size) :
    (mask.setbit bit).bits = insert bit mask.bits := by
  simp [setbit, hbit]

@[simp] theorem add_size (mask : Bitmask) (extra : Finset Nat) :
    (mask.add extra).size = mask.size := rfl

theorem add_bits {mask : Bitmask} {extra : Finset Nat} (hextra : ∀ bit ∈ extra, bit < mask.size) :
    (mask.add extra).bits = mask.bits ∪ extra := by
  refine ofFinset_bits_of_lt fun bit hbit => ?_
  rcases Finset.mem_union.mp hbit with hmem | hmem
  · exact mask.bits_lt bit hmem
  · exact hextra bit hmem

@[simp] theorem add_empty (mask : Bitmask) : mask.add ∅ = mask :=
  ext rfl (by rw [add_bits (by simp), Finset.union_empty])

@[simp] theorem add_add (mask : Bitmask) (first second : Finset Nat) :
    (mask.add first).add second = mask.add (first ∪ second) := by
  refine ext rfl ?_
  ext bit
  simp only [add, mem_ofFinset, Finset.mem_union, ofFinset_size]
  tauto

theorem setbit_eq_add {mask : Bitmask} {bit : Nat} (hbit : bit < mask.size) :
    mask.setbit bit = mask.add {bit} :=
  ext (by simp) (by
    rw [setbit_bits hbit, add_bits (by simpa using hbit), Finset.insert_eq, Finset.union_comm])

theorem bits_subset_range (mask : Bitmask) : mask.bits ⊆ Finset.range mask.size :=
  fun bit hbit => Finset.mem_range.mpr (mask.bits_lt bit hbit)

theorem weight_le_size (mask : Bitmask) : mask.weight ≤ mask.size := by
  simpa [weight] using Finset.card_le_card mask.bits_subset_range

/-- Every set bit is at or after the first one. -/
theorem first_le {mask : Bitmask} {bit : Nat} (hbit : bit ∈ mask.bits) : mask.first ≤ bit := by
  rw [first, dif_pos ⟨bit, hbit⟩]
  exact Finset.min'_le _ _ hbit

theorem first_mem {mask : Bitmask} (hbits : mask.bits.Nonempty) : mask.first ∈ mask.bits := by
  rw [first, dif_pos hbits]
  exact Finset.min'_mem _ _

theorem first_eq_of_bits {mask : Bitmask} {lo len : Nat} (hlen : 0 < len)
    (hbits : mask.bits = Finset.Ico lo (lo + len)) : mask.first = lo := by
  have hlo : lo ∈ mask.bits := by
    rw [hbits, Finset.mem_Ico]
    omega
  have hle := first_le hlo
  have hmem := first_mem ⟨lo, hlo⟩
  rw [hbits, Finset.mem_Ico] at hmem
  omega

/-- All set bits lie between the first one and the end, so that the `weight` positions
from the first bit on are within the mask. -/
theorem first_add_weight_le (mask : Bitmask) : mask.first + mask.weight ≤ mask.size := by
  by_cases hbits : mask.bits.Nonempty
  · have hsub : mask.bits ⊆ Finset.Ico mask.first mask.size := fun bit hbit =>
      Finset.mem_Ico.mpr ⟨first_le hbit, mask.bits_lt bit hbit⟩
    have hcard := Finset.card_le_card hsub
    rw [Nat.card_Ico] at hcard
    have hfirst := mask.bits_lt _ (first_mem hbits)
    unfold weight
    omega
  · rw [Finset.not_nonempty_iff_eq_empty] at hbits
    simp [first, weight, hbits]

end Bitmask

end SlurmSpank.Cpuset
