import Mathlib.Data.Finset.Card
import Mathlib.Order.Interval.Finset.Nat

/-! # CPU sets of the C library

The `cpu_set_t` that the affinity plugins work on, with the macros that they use.
-/

namespace SlurmSpank.Lib

/-- `CPU_SETSIZE`. -/
def cpuSetSize : Nat := 1024

/-- `cpu_set_t`. -/
structure CpuSet where
  cpus : Finset Nat
  cpus_lt : ∀ cpu ∈ cpus, cpu < cpuSetSize

namespace CpuSet

@[ext] theorem ext {left right : CpuSet} (hcpus : left.cpus = right.cpus) : left = right := by
  cases left
  cases right
  cases hcpus
  rfl

instance : DecidableEq CpuSet := fun left right =>
  decidable_of_iff (left.cpus = right.cpus) ⟨ext, congrArg cpus⟩

/-- `CPU_ZERO`. -/
def zero : CpuSet := ⟨∅, by simp⟩

/-- `CPU_SET`, which ignores a CPU that does not fit the set. -/
def set (cpu : Nat) (setp : CpuSet) : CpuSet :=
  if hcpu : cpu < cpuSetSize then
    ⟨insert cpu setp.cpus, by
      intro other hother
      rcases Finset.mem_insert.mp hother with rfl | hold
      · exact hcpu
      · exact setp.cpus_lt other hold⟩
  else setp

/-- `CPU_ISSET`. -/
def isset (cpu : Nat) (setp : CpuSet) : Bool := cpu ∈ setp.cpus

/-- `CPU_CLR`. -/
def clear (cpu : Nat) (setp : CpuSet) : CpuSet :=
  ⟨setp.cpus.erase cpu, fun other hother => setp.cpus_lt other (Finset.mem_of_mem_erase hother)⟩

/-- The CPUs of either set. -/
def union (left right : CpuSet) : CpuSet :=
  ⟨left.cpus ∪ right.cpus, fun cpu hcpu =>
    (Finset.mem_union.mp hcpu).elim (left.cpus_lt cpu) (right.cpus_lt cpu)⟩

/-- The CPUs of both sets. -/
def inter (left right : CpuSet) : CpuSet :=
  ⟨left.cpus ∩ right.cpus, fun cpu hcpu => left.cpus_lt cpu (Finset.mem_inter.mp hcpu).1⟩

/-- The CPUs of the left set only. -/
def diff (left right : CpuSet) : CpuSet :=
  ⟨left.cpus \ right.cpus, fun cpu hcpu => left.cpus_lt cpu (Finset.mem_sdiff.mp hcpu).1⟩

/-- One bit of a set, written by `CPU_SET` or `CPU_CLR`. -/
def putBit (cpu : Nat) (bit : Bool) (setp : CpuSet) : CpuSet :=
  if bit then setp.set cpu else setp.clear cpu

@[simp] theorem zero_cpus : zero.cpus = ∅ := rfl

@[simp] theorem isset_eq_true {cpu : Nat} {setp : CpuSet} :
    setp.isset cpu = true ↔ cpu ∈ setp.cpus := by
  simp [isset]

theorem set_cpus {cpu : Nat} (hcpu : cpu < cpuSetSize) (setp : CpuSet) :
    (setp.set cpu).cpus = insert cpu setp.cpus := by
  rw [set, dif_pos hcpu]

theorem ext_isset {left right : CpuSet}
    (hbits : ∀ cpu < cpuSetSize, left.isset cpu = right.isset cpu) : left = right := by
  apply ext
  ext cpu
  rw [← isset_eq_true, ← isset_eq_true]
  by_cases hcpu : cpu < cpuSetSize
  · rw [hbits cpu hcpu]
  · have houtside : ∀ setp : CpuSet, ¬ setp.isset cpu = true := fun setp hset =>
      hcpu (setp.cpus_lt cpu (isset_eq_true.mp hset))
    exact iff_of_false (houtside left) (houtside right)

theorem isset_putBit {cpu : Nat} (hcpu : cpu < cpuSetSize) (bit : Bool) (setp : CpuSet)
    (other : Nat) :
    (setp.putBit cpu bit).isset other = if other = cpu then bit else setp.isset other := by
  cases bit with
  | true =>
      rw [putBit, if_pos rfl, isset, set_cpus hcpu]
      by_cases heq : other = cpu
      · simp [heq]
      · simp [heq, isset]
  | false =>
      rw [putBit, if_neg Bool.false_ne_true, isset, clear]
      by_cases heq : other = cpu
      · simp [heq]
      · simp [heq, isset]

/-- Writing a bit as it is changes nothing. -/
theorem putBit_isset {cpu : Nat} (hcpu : cpu < cpuSetSize) (setp : CpuSet) :
    setp.putBit cpu (setp.isset cpu) = setp := by
  apply ext_isset
  intro other _
  rw [isset_putBit hcpu]
  split
  next heq => rw [heq]
  next => rfl

@[simp] theorem isset_union (left right : CpuSet) (cpu : Nat) :
    (left.union right).isset cpu = (left.isset cpu || right.isset cpu) := by
  simp [isset, union]

@[simp] theorem isset_inter (left right : CpuSet) (cpu : Nat) :
    (left.inter right).isset cpu = (left.isset cpu && right.isset cpu) := by
  simp [isset, inter]

@[simp] theorem isset_diff (left right : CpuSet) (cpu : Nat) :
    (left.diff right).isset cpu = (left.isset cpu && !right.isset cpu) := by
  simp [isset, diff]

end CpuSet

end SlurmSpank.Lib
