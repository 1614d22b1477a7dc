import Mathlib.Data.Finset.Card
import Mathlib.Data.List.Nodup
import SlurmSpank.AutoAffinity.Mask

/-! # The tasks share out the CPUs

The generators walk through positions. A walk gives its task one CPU for each position it
visits as long as every position stands for an available CPU, and then no two positions stand
for the same one.
-/

namespace SlurmSpank.AutoAffinity.Affinity

open Lib

variable {a : Affinity}

/-! ## The CPU at a position -/

/-- The available CPUs in the order in which `mask_to_available` counts them. -/
def available (a : Affinity) : List Nat := (List.range a.ncpus).filter (a.cpusAvailable.isset ·)

/-- The CPU that a position stands for. -/
def cpuAt (a : Affinity) (pos : Nat) : Option Nat := (a.cpuPositionToId pos).bind a.maskToAvailable

/-- The CPUs at the given positions, set one after the other. -/
def setPositions (a : Affinity) : List Nat → CpuSet → Option (Int × CpuSet)
  | [], setp => some (0, setp)
  | pos :: rest, setp => do
      let (rc, setp) ← a.setPosition pos setp
      if rc < 0 then some (-1, setp) else setPositions a rest setp

/-- What the plugin has found out about the node before it generates masks. -/
structure Detected (a : Affinity) : Prop where
  map : a.cpuPositionMap.Perm (List.range a.ncpus)
  online : ∀ cpu ∈ a.cpusAvailable.cpus, cpu < a.ncpus
  count : a.cpusAvailable.cpus.card = a.ncpusAvailable

theorem maskToAvailableLoop_eq {cpu j : Nat} (hj : j ≤ cpu) (ids : List Nat) :
    a.maskToAvailableLoop cpu ids j = (ids.filter (a.cpusAvailable.isset ·))[cpu - j]? := by
  induction ids generalizing j with
  | nil => rfl
  | cons i rest ih =>
      unfold maskToAvailableLoop
      split
      next hset =>
        rw [List.filter_cons, if_pos hset]
        split
        next heq =>
          subst heq
          simp
        next hne =>
          have hstep : cpu - j = cpu - (j + 1) + 1 := by omega
          rw [ih (by omega), hstep, List.getElem?_cons_succ]
      next hset => rw [List.filter_cons, if_neg hset, ih hj]

/-- `mask_to_available` selects by rank. -/
theorem maskToAvailable_eq (cpu : Nat) : a.maskToAvailable cpu = a.available[cpu]? :=
  maskToAvailableLoop_eq (Nat.zero_le cpu) _

theorem mem_of_cpuAt {pos cpu : Nat} (hcpu : a.cpuAt pos = some cpu) :
    cpu ∈ a.cpusAvailable.cpus := by
  obtain ⟨id, -, hrank⟩ := Option.bind_eq_some_iff.mp hcpu
  rw [maskToAvailable_eq] at hrank
  simpa using (List.mem_filter.mp (List.mem_of_getElem? hrank)).2

namespace Detected

theorem mapLength (hdet : a.Detected) : a.cpuPositionMap.length = a.ncpus := by
  rw [hdet.map.length_eq, List.length_range]

theorem availableLength (hdet : a.Detected) : a.available.length = a.ncpusAvailable := by
  have hset : a.available.toFinset = a.cpusAvailable.cpus := by
    ext cpu
    simpa [available] using hdet.online cpu
  have hnodup : a.available.Nodup := List.nodup_range.filter _
  rw [← hdet.count, ← hset, List.toFinset_card_of_nodup hnodup]

theorem ncpusAvailable_le (hdet : a.Detected) : a.ncpusAvailable ≤ a.ncpus := by
  rw [← hdet.availableLength]
  exact (List.length_filter_le _ _).trans List.length_range.le

/-- A position stands for a CPU exactly if the id it maps to is a rank of the available set. -/
theorem cpuAt_isSome_iff (hdet : a.Detected) {pos : Nat} (hpos : pos < a.ncpus) :
    (a.cpuAt pos).isSome ↔ ∀ id ∈ a.cpuPositionMap[pos]?, id < a.ncpusAvailable := by
  have hlength : pos < a.cpuPositionMap.length := by rwa [hdet.mapLength]
  simp [cpuAt, cpuPositionToId, List.getElem?_eq_getElem hlength, maskToAvailable_eq,
    hdet.availableLength]

/-- No two positions stand for the same CPU. -/
theorem cpuAt_injective (hdet : a.Detected) {first second cpu : Nat}
    (hfirst : a.cpuAt first = some cpu) (hsecond : a.cpuAt second = some cpu) :
    first = second := by
  obtain ⟨id, hid, hrank⟩ := Option.bind_eq_some_iff.mp hfirst
  obtain ⟨other, hother, hrank'⟩ := Option.bind_eq_some_iff.mp hsecond
  rw [maskToAvailable_eq] at hrank hrank'
  have hsame : id = other := by
    obtain ⟨hbound, -⟩ := List.getElem?_eq_some_iff.mp hrank
    exact (List.getElem?_inj hbound (List.nodup_range.filter _)).mp (hrank.trans hrank'.symm)
  subst hsame
  obtain ⟨hbound, -⟩ := List.getElem?_eq_some_iff.mp hid
  have hnodup : a.cpuPositionMap.Nodup := hdet.map.nodup_iff.mpr List.nodup_range
  exact (List.getElem?_inj hbound hnodup).mp (hid.trans hother.symm)

end Detected

/-! ## Walks -/

theorem setPosition_eq_some_zero {pos : Nat} {setp mask : CpuSet} :
    a.setPosition pos setp = some (0, mask) ↔
      ∃ cpu, a.cpuAt pos = some cpu ∧ mask = setp.set cpu := by
  unfold setPosition cpuAt
  cases a.cpuPositionToId pos with
  | none => simp
  | some id => cases hbit : a.maskToAvailable id <;> simp [hbit, eq_comm]

theorem setPosition_of_not_isSome {pos : Nat} {setp mask : CpuSet} {rc : Int}
    (hcpu : a.cpuAt pos = none) (hset : a.setPosition pos setp = some (rc, mask)) : rc = -1 := by
  unfold setPosition at hset
  unfold cpuAt at hcpu
  cases hid : a.cpuPositionToId pos with
  | none => simp [hid] at hset
  | some id =>
      rw [hid, Option.bind_some] at hcpu
      simp_all

/-- A walk succeeds exactly if each of its positions stands for a CPU, and sets these CPUs. -/
theorem setPositions_eq_some_zero {positions : List Nat} {setp mask : CpuSet} :
    a.setPositions positions setp = some (0, mask) ↔
      (∀ pos ∈ positions, (a.cpuAt pos).isSome) ∧
        mask.cpus = setp.cpus ∪ (positions.filterMap a.cpuAt).toFinset := by
  induction positions generalizing setp with
  | nil =>
      rw [setPositions, Option.some_inj, Prod.mk.injEq, CpuSet.ext_iff]
      simpa using eq_comm
  | cons pos rest ih =>
      rw [setPositions]
      cases hcpu : a.cpuAt pos with
      | none =>
          have hfail : ∀ result, a.setPosition pos setp = some result → result.1 = -1 :=
            fun result hset => setPosition_of_not_isSome hcpu hset
          cases hset : a.setPosition pos setp with
          | none => simp [hcpu]
          | some result => simp [hcpu, hfail result hset]
      | some cpu =>
          have hset : a.setPosition pos setp = some (0, setp.set cpu) :=
            setPosition_eq_some_zero.mpr ⟨cpu, hcpu, rfl⟩
          have hbit : cpu < cpuSetSize := a.cpusAvailable.cpus_lt cpu (mem_of_cpuAt hcpu)
          simp [hset, ih, hcpu, CpuSet.set_cpus hbit, Finset.insert_union]

/-- The CPUs that positions stand for. -/
def cpusAt (a : Affinity) (positions : List Nat) : CpuSet where
  cpus := (positions.filterMap a.cpuAt).toFinset
  cpus_lt := by
    intro cpu hcpu
    obtain ⟨pos, -, hat⟩ := List.mem_filterMap.mp (List.mem_toFinset.mp hcpu)
    exact a.cpusAvailable.cpus_lt cpu (mem_of_cpuAt hat)

theorem cpusAt_subset (positions : List Nat) :
    (a.cpusAt positions).cpus ⊆ a.cpusAvailable.cpus := by
  intro cpu hcpu
  obtain ⟨pos, -, hat⟩ := List.mem_filterMap.mp (List.mem_toFinset.mp hcpu)
  exact mem_of_cpuAt hat

/-- Positions without repetition that stand for CPUs stand for as many of them. -/
theorem cpusAt_card (hdet : a.Detected) {positions : List Nat} (hnodup : positions.Nodup)
    (hsome : ∀ pos ∈ positions, (a.cpuAt pos).isSome) :
    (a.cpusAt positions).cpus.card = positions.length := by
  have hcpus : (positions.filterMap a.cpuAt).Nodup :=
    hnodup.filterMap fun first second cpu => hdet.cpuAt_injective
  rw [cpusAt, List.toFinset_card_of_nodup hcpus]
  exact List.filterMap_length_eq_length.mpr hsome

theorem setPositions_zero {positions : List Nat}
    (hsome : ∀ pos ∈ positions, (a.cpuAt pos).isSome) :
    a.setPositions positions .zero = some (0, a.cpusAt positions) :=
  setPositions_eq_some_zero.mpr ⟨hsome, (Finset.empty_union _).symm⟩

/-! ## Assignments -/

/-- Every task gets a mask of `get_cpus_per_task` available CPUs, and no two tasks share one. -/
structure Assigns (a : Affinity) (generate : CpuSet → Nat → Option (Int × CpuSet)) : Prop where
  mask : ∀ localid < a.ntasks, ∃ mask, generate .zero localid = some (0, mask) ∧
    mask.cpus ⊆ a.cpusAvailable.cpus ∧ mask.cpus.card = a.getCpusPerTask
  disjoint : ∀ first < a.ntasks, ∀ second < a.ntasks, first ≠ second → ∀ left right,
    generate .zero first = some (0, left) → generate .zero second = some (0, right) →
      Disjoint left.cpus right.cpus

/-- The part of a walk that belongs to a task. -/
def stretch (a : Affinity) (walk : Nat → Nat) (localid : Nat) : List Nat :=
  (List.range a.getCpusPerTask).map fun i => walk (localid * a.getCpusPerTask + i)

@[simp] theorem length_stretch {walk : Nat → Nat} {localid : Nat} :
    (a.stretch walk localid).length = a.getCpusPerTask := by
  simp [stretch]

theorem mem_stretch {walk : Nat → Nat} {localid pos : Nat} :
    pos ∈ a.stretch walk localid ↔
      ∃ i < a.getCpusPerTask, walk (localid * a.getCpusPerTask + i) = pos := by
  simp [stretch]

/-- The generator gives each task its own stretch of one walk, which visits no position twice. -/
structure Walks (a : Affinity) (generate : CpuSet → Nat → Option (Int × CpuSet))
    (walk : Nat → Nat) : Prop where
  generate_eq : ∀ localid < a.ntasks,
    generate .zero localid = a.setPositions (a.stretch walk localid) .zero
  injOn : Set.InjOn walk (Set.Iio (a.ntasks * a.getCpusPerTask))

theorem step_lt {localid ntasks i width : Nat} (hlocalid : localid < ntasks) (hi : i < width) :
    localid * width + i < ntasks * width :=
  calc
    localid * width + i < localid * width + width := Nat.add_lt_add_left hi _
    _ = (localid + 1) * width := (Nat.succ_mul localid width).symm
    _ ≤ ntasks * width := Nat.mul_le_mul_right width hlocalid

/-- The stretches of distinct tasks have no step in common. -/
theorem eq_of_step_eq {first second i j width : Nat} (hi : i < width) (hj : j < width)
    (heq : first * width + i = second * width + j) : first = second := by
  have hdiv : ∀ localid k, k < width → (localid * width + k) / width = localid := by
    intro localid k hk
    rw [Nat.mul_comm, Nat.mul_add_div (by omega), Nat.div_eq_of_lt hk, Nat.add_zero]
  calc
    first = (first * width + i) / width := (hdiv first i hi).symm
    _ = (second * width + j) / width := by rw [heq]
    _ = second := hdiv second j hj

namespace Walks

variable {generate : CpuSet → Nat → Option (Int × CpuSet)} {walk : Nat → Nat}

theorem nodup_stretch (hwalks : a.Walks generate walk) {localid : Nat}
    (hlocalid : localid < a.ntasks) : (a.stretch walk localid).Nodup := by
  refine List.Nodup.map_on ?_ List.nodup_range
  intro i hi j hj heq
  have hstep := hwalks.injOn (step_lt hlocalid (List.mem_range.mp hi))
    (step_lt hlocalid (List.mem_range.mp hj)) heq
  exact Nat.add_left_cancel hstep

/-- What a task's mask holds. -/
theorem mask_iff (hwalks : a.Walks generate walk) {localid : Nat} (hlocalid : localid < a.ntasks)
    {mask : CpuSet} :
    generate .zero localid = some (0, mask) ↔
      (∀ i < a.getCpusPerTask, (a.cpuAt (walk (localid * a.getCpusPerTask + i))).isSome) ∧
        ∀ cpu, cpu ∈ mask.cpus ↔
          ∃ i < a.getCpusPerTask, a.cpuAt (walk (localid * a.getCpusPerTask + i)) = some cpu := by
  rw [hwalks.generate_eq localid hlocalid, setPositions_eq_some_zero, Finset.ext_iff]
  simp [stretch]

/-- A walk assigns CPUs exactly if each of its positions stands for one. -/
theorem assigns_iff (hwalks : a.Walks generate walk) (hdet : a.Detected) :
    a.Assigns generate ↔ ∀ k < a.ntasks * a.getCpusPerTask, (a.cpuAt (walk k)).isSome := by
  constructor
  · intro hassigns k hk
    have hwidth : 0 < a.getCpusPerTask := Nat.pos_of_mul_pos_left (Nat.zero_lt_of_lt hk)
    have hlocalid : k / a.getCpusPerTask < a.ntasks := (Nat.div_lt_iff_lt_mul hwidth).mpr hk
    obtain ⟨mask, hmask, -⟩ := hassigns.mask _ hlocalid
    have hstep := ((hwalks.mask_iff hlocalid).mp hmask).1 _ (Nat.mod_lt k hwidth)
    rwa [Nat.mul_comm, Nat.div_add_mod] at hstep
  · intro hsome
    constructor
    · intro localid hlocalid
      have hstretch : ∀ pos ∈ a.stretch walk localid, (a.cpuAt pos).isSome := by
        intro pos hpos
        obtain ⟨i, hi, rfl⟩ := mem_stretch.mp hpos
        exact hsome _ (step_lt hlocalid hi)
      have hcard := cpusAt_card hdet (hwalks.nodup_stretch hlocalid) hstretch
      refine ⟨a.cpusAt (a.stretch walk localid), ?_, cpusAt_subset _, by simpa using hcard⟩
      rw [hwalks.generate_eq localid hlocalid, setPositions_zero hstretch]
    · intro first hfirst second hsecond hne left right hleft hright
      rw [Finset.disjoint_left]
      intro cpu hcpu hcpu'
      obtain ⟨i, hi, hat⟩ := ((hwalks.mask_iff hfirst).mp hleft).2 cpu |>.mp hcpu
      obtain ⟨j, hj, hat'⟩ := ((hwalks.mask_iff hsecond).mp hright).2 cpu |>.mp hcpu'
      have hstep := hwalks.injOn (step_lt hfirst hi) (step_lt hsecond hj)
        (hdet.cpuAt_injective hat hat')
      exact hne (eq_of_step_eq hi hj hstep)

end Walks

end SlurmSpank.AutoAffinity.Affinity
