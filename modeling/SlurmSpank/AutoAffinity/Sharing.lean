import Mathlib.Data.Nat.ModEq
import SlurmSpank.AutoAffinity.Assignment

/-! # Affinity inside a cpuset and on a whole node

The upward and the downward walk of the generators. On a whole node every position stands for
a CPU, so the tasks partition the node. Inside a cpuset a walk reaches positions whose CPU id is
no rank of the available set, and the task there gets no mask.
-/

namespace SlurmSpank.AutoAffinity.Affinity

open Lib

variable {a : Affinity}

/-- The positions of `generate_mask`. -/
def upward (a : Affinity) (k : Nat) : Nat := (k + a.startcpu) % a.ncpusAvailable

/-- The positions of `generate_mask_reverse`. -/
def downward (a : Affinity) (k : Nat) : Nat :=
  a.ncpusAvailable - 1 - (k + a.startcpu) % a.ncpusAvailable

theorem upward_lt (hn : 0 < a.ncpusAvailable) (k : Nat) : a.upward k < a.ncpusAvailable :=
  Nat.mod_lt _ hn

theorem downward_lt (hn : 0 < a.ncpusAvailable) (k : Nat) : a.downward k < a.ncpusAvailable := by
  unfold downward
  omega

theorem upward_succ (k : Nat) : (a.upward k + 1) % a.ncpusAvailable = a.upward (k + 1) := by
  unfold upward
  rw [Nat.mod_add_mod, Nat.add_right_comm]

/-- The wrap by hand counts down what the remainder counts up. -/
theorem downward_succ (hn : 0 < a.ncpusAvailable) (k : Nat) :
    (if 1 ≤ a.downward k then a.downward k - 1 else a.ncpusAvailable - 1) =
      a.downward (k + 1) := by
  have hlt := upward_lt hn k
  have hsucc := upward_succ (a := a) k
  unfold downward
  change (if 1 ≤ a.ncpusAvailable - 1 - a.upward k then a.ncpusAvailable - 1 - a.upward k - 1
    else a.ncpusAvailable - 1) = a.ncpusAvailable - 1 - a.upward (k + 1)
  split
  next hmore =>
    rw [Nat.mod_eq_of_lt (by omega)] at hsucc
    omega
  next hwrap =>
    have hlast : a.upward k + 1 = a.ncpusAvailable := by omega
    rw [hlast, Nat.mod_self] at hsucc
    omega

theorem upward_injOn : Set.InjOn a.upward (Set.Iio a.ncpusAvailable) := by
  intro first hfirst second hsecond heq
  have hmod : first ≡ second [MOD a.ncpusAvailable] := Nat.ModEq.add_right_cancel' a.startcpu heq
  exact Nat.ModEq.eq_of_lt_of_lt hmod hfirst hsecond

theorem downward_injOn : Set.InjOn a.downward (Set.Iio a.ncpusAvailable) := by
  intro first hfirst second hsecond heq
  have hn : 0 < a.ncpusAvailable := Nat.zero_lt_of_lt hfirst
  refine upward_injOn hfirst hsecond ?_
  have hlt := upward_lt hn first
  have hlt' := upward_lt hn second
  unfold downward at heq
  unfold upward at hlt hlt' ⊢
  omega

/-! ## The generators walk -/

theorem generateLoop_eq {next : Nat → Nat} (walk : Nat → Nat)
    (hnext : ∀ k, next (walk k) = walk (k + 1))
    (n k : Nat) (setp : CpuSet) :
    a.generateLoop next n (walk k) setp =
      a.setPositions ((List.range n).map fun i => walk (k + i)) setp := by
  induction n generalizing k setp with
  | zero => rfl
  | succ n ih =>
      have hstretch : (List.range (n + 1)).map (fun i => walk (k + i)) =
          walk k :: (List.range n).map fun i => walk (k + 1 + i) := by
        rw [List.range_succ_eq_map, List.map_cons, List.map_map]
        congr 2
        funext i
        exact congrArg walk (by omega)
      rw [hstretch, generateLoop, setPositions, hnext]
      congr 1
      funext result
      simp only [ih]

theorem setPositions_singleton (pos : Nat) (setp : CpuSet) :
    a.setPositions [pos] setp = a.setPosition pos setp := by
  unfold setPositions setPositions setPosition
  cases a.cpuPositionToId pos with
  | none => rfl
  | some id => cases hbit : a.maskToAvailable id <;> simp [hbit]

/-- `generate_mask` walks upward, except that a task of one CPU ignores the wrap. -/
theorem generateMask_walks (hfit : a.ntasks * a.getCpusPerTask ≤ a.ncpusAvailable)
    (hwrap : a.getCpusPerTask = 1 → a.startcpu = 0) : a.Walks a.generateMask a.upward where
  injOn := upward_injOn.mono (Set.Iio_subset_Iio hfit)
  generate_eq := by
    intro localid hlocalid
    dsimp only [generateMask]
    split
    next hone =>
      have hlt : localid < a.ncpusAvailable := by
        rw [hone, Nat.mul_one] at hfit
        omega
      have hpos : a.stretch a.upward localid = [localid + a.startcpu] := by
        simp [stretch, hone, upward, hwrap hone, Nat.mod_eq_of_lt hlt]
      rw [hpos, setPositions_singleton]
    next hone =>
      apply generateLoop_eq a.upward
      exact upward_succ

/-- `generate_mask_reverse` walks downward. -/
theorem generateMaskReverse_walks (hfit : a.ntasks * a.getCpusPerTask ≤ a.ncpusAvailable)
    (hwidth : 0 < a.getCpusPerTask) : a.Walks a.generateMaskReverse a.downward where
  injOn := downward_injOn.mono (Set.Iio_subset_Iio hfit)
  generate_eq := by
    intro localid hlocalid
    have hn : 0 < a.ncpusAvailable :=
      Nat.lt_of_lt_of_le (Nat.mul_pos (Nat.zero_lt_of_lt hlocalid) hwidth) hfit
    dsimp only [generateMaskReverse]
    split
    next hone =>
      have hpos : a.stretch a.downward localid =
          [a.ncpusAvailable - 1 - (localid + a.startcpu) % a.ncpusAvailable] := by
        simp [stretch, hone, downward]
      rw [hpos, setPositions_singleton]
    next hone =>
      apply generateLoop_eq a.downward
      exact downward_succ hn

/-! ## Inside a cpuset -/

/-- Within a cpuset the tasks share out the available CPUs exactly if every position that they
use, from the first one up and from the last one down, maps to an id below the number of
available CPUs. -/
theorem assigns_iff_ids_lt (hdet : a.Detected) (hstart : a.startcpu = 0)
    (hwidth : 1 ≤ a.getCpusPerTask) (hfit : a.ntasks * a.getCpusPerTask ≤ a.ncpusAvailable) :
    (a.Assigns a.generateMask ∧ a.Assigns a.generateMaskReverse) ↔
      ∀ k < a.ntasks * a.getCpusPerTask,
        (∀ id ∈ a.cpuPositionMap[k]?, id < a.ncpusAvailable) ∧
          ∀ id ∈ a.cpuPositionMap[a.ncpusAvailable - 1 - k]?, id < a.ncpusAvailable := by
  have hforward := generateMask_walks hfit fun _ => hstart
  have hreverse := generateMaskReverse_walks hfit hwidth
  rw [hforward.assigns_iff hdet, hreverse.assigns_iff hdet, ← forall₂_and]
  refine forall₂_congr fun k hk => ?_
  have hlt : k < a.ncpusAvailable := Nat.lt_of_lt_of_le hk hfit
  have hup : a.upward k = k := by rw [upward, hstart, Nat.add_zero, Nat.mod_eq_of_lt hlt]
  have hdown : a.downward k = a.ncpusAvailable - 1 - k := by
    rw [downward, hstart, Nat.add_zero, Nat.mod_eq_of_lt hlt]
  have honline := hdet.ncpusAvailable_le
  rw [hup, hdown, hdet.cpuAt_isSome_iff (by omega), hdet.cpuAt_isSome_iff (by omega)]

/-- Two cores on each of two sockets, numbered in blocks, with a cpuset of CPUs 1 and 3. -/
def blockedSockets : Affinity where
  ncpus := 4
  ntasks := 2
  requestedCpusPerTask := 1
  startcpu := 0
  cpusAvailable := CpuSet.zero.set 1 |>.set 3
  ncpusAvailable := 2
  cpuPositionMap := [0, 1, 2, 3]

theorem assigns_blockedSockets :
    blockedSockets.Assigns blockedSockets.generateMask ∧
      blockedSockets.Assigns blockedSockets.generateMaskReverse := by
  refine (assigns_iff_ids_lt ⟨by decide, by decide, by decide⟩ rfl (by decide) (by decide)).mpr ?_
  decide

/-- Two cores on each of two sockets, numbered in turn, with a cpuset of the first two CPUs. -/
def interleavedSockets : Affinity where
  ncpus := 4
  ntasks := 2
  requestedCpusPerTask := 1
  startcpu := 0
  cpusAvailable := CpuSet.zero.set 0 |>.set 1
  ncpusAvailable := 2
  cpuPositionMap := [0, 2, 1, 3]

/-- The second task gets no mask. -/
theorem interleavedSockets_not_assigns :
    createCpuPositionMap (fun id => (id % 2, id / 2)) 4 = some interleavedSockets.cpuPositionMap ∧
      interleavedSockets.Detected ∧ interleavedSockets.startcpu = 0 ∧
      1 ≤ interleavedSockets.getCpusPerTask ∧
      interleavedSockets.ntasks * interleavedSockets.getCpusPerTask ≤
        interleavedSockets.ncpusAvailable ∧
      interleavedSockets.generateMask .zero 1 = some (-1, .zero) ∧
      ¬ interleavedSockets.Assigns interleavedSockets.generateMask := by
  have hfail : interleavedSockets.generateMask .zero 1 = some (-1, .zero) := by decide
  refine ⟨by decide, ⟨by decide, by decide, by decide⟩, rfl, by decide, by decide, hfail, ?_⟩
  intro hassigns
  obtain ⟨mask, hmask, -⟩ := hassigns.mask 1 (by decide)
  rw [hfail] at hmask
  exact absurd hmask (by simp)

/-! ## On a whole node -/

/-- The tasks share out the CPUs, and leave none over when they ask for all of them. -/
structure Partitions (a : Affinity) (generate : CpuSet → Nat → Option (Int × CpuSet)) :
    Prop where
  assigns : a.Assigns generate
  union : a.ntasks * a.getCpusPerTask = a.ncpus → ∀ cpu < a.ncpus,
    ∃ localid < a.ntasks, ∃ mask, generate .zero localid = some (0, mask) ∧ cpu ∈ mask.cpus

theorem pushCpus_ids {topology : Nat → Int × Int} {n : Nat} {cpus : List CpuInfo}
    (hpush : pushCpus topology n = some cpus) :
    (cpus.map CpuInfo.id).Perm (List.range n) := by
  induction n generalizing cpus with
  | zero => simp [pushCpus] at hpush; simp [← hpush]
  | succ n ih =>
      obtain ⟨rest, hrest, hcpu⟩ := Option.bind_eq_some_iff.mp hpush
      obtain ⟨cpu, hcreate, hcpus⟩ := Option.bind_eq_some_iff.mp hcpu
      have hid : cpu.id = n := by
        dsimp only [cpuInfoCreate] at hcreate
        split at hcreate
        · exact absurd hcreate (by simp)
        · split at hcreate
          · exact absurd hcreate (by simp)
          · rw [← Option.some_inj.mp hcreate]
      rw [← Option.some_inj.mp hcpus, listPush, List.map_cons, hid, List.range_succ]
      exact ((ih hrest).cons n).trans (List.perm_append_singleton n _).symm

/-- The map is a permutation of the CPU ids. -/
theorem createCpuPositionMap_perm {topology : Nat → Int × Int} {ncpus : Nat} {map : List Nat}
    (hmap : createCpuPositionMap topology ncpus = some map) : map.Perm (List.range ncpus) := by
  obtain ⟨cpus, hpush, rfl⟩ := Option.map_eq_some_iff.mp hmap
  exact ((listSort_perm cpuInfoCmp cpus).map CpuInfo.id).trans (pushCpus_ids hpush)

/-- A walk over a whole node finds a CPU at every position. -/
theorem Walks.partitions {generate : CpuSet → Nat → Option (Int × CpuSet)} {walk : Nat → Nat}
    (hwalks : a.Walks generate walk) (hdet : a.Detected) (hwhole : a.ncpusAvailable = a.ncpus)
    (hwalk : ∀ k < a.ntasks * a.getCpusPerTask, walk k < a.ncpusAvailable) :
    a.Partitions generate := by
  have hsome : ∀ k < a.ntasks * a.getCpusPerTask, (a.cpuAt (walk k)).isSome := by
    intro k hk
    refine (hdet.cpuAt_isSome_iff (hwhole ▸ hwalk k hk)).mpr ?_
    intro id hid
    rw [hwhole]
    exact List.mem_range.mp (hdet.map.mem_iff.mp (List.mem_of_getElem? hid))
  have hassigns := (hwalks.assigns_iff hdet).mpr hsome
  refine ⟨hassigns, ?_⟩
  intro hall cpu hcpu
  -- The steps of the walk inject into the CPUs, and there are as many of one as of the other.
  have hmaps : Set.MapsTo (fun k => (a.cpuAt (walk k)).getD 0) (Finset.range a.ncpus)
      (Finset.range a.ncpus) := by
    intro k hk
    obtain ⟨found, hfound⟩ := Option.isSome_iff_exists.mp (hsome k (by simpa [hall] using hk))
    simpa [hfound] using hdet.online found (mem_of_cpuAt hfound)
  have hinj : Set.InjOn (fun k => (a.cpuAt (walk k)).getD 0) (Finset.range a.ncpus) := by
    intro first hfirst second hsecond heq
    have hfirst' : first < a.ntasks * a.getCpusPerTask := by simpa [hall] using hfirst
    have hsecond' : second < a.ntasks * a.getCpusPerTask := by simpa [hall] using hsecond
    obtain ⟨cpu, hcpu⟩ := Option.isSome_iff_exists.mp (hsome first hfirst')
    obtain ⟨other, hother⟩ := Option.isSome_iff_exists.mp (hsome second hsecond')
    have hsame : cpu = other := by simpa [hcpu, hother] using heq
    subst hsame
    exact hwalks.injOn hfirst' hsecond' (hdet.cpuAt_injective hcpu hother)
  obtain ⟨k, hk, hat⟩ := Finset.surjOn_of_injOn_of_card_le _ hmaps hinj le_rfl
    (Finset.mem_coe.mpr (Finset.mem_range.mpr hcpu))
  have hk' : k < a.ntasks * a.getCpusPerTask := by simpa [hall] using hk
  obtain ⟨found, hfound⟩ := Option.isSome_iff_exists.mp (hsome k hk')
  have hwidth : 0 < a.getCpusPerTask := Nat.pos_of_mul_pos_left (Nat.zero_lt_of_lt hk')
  have hlocalid : k / a.getCpusPerTask < a.ntasks := (Nat.div_lt_iff_lt_mul hwidth).mpr hk'
  obtain ⟨mask, hmask, -⟩ := hassigns.mask _ hlocalid
  refine ⟨_, hlocalid, mask, hmask, ?_⟩
  refine ((hwalks.mask_iff hlocalid).mp hmask).2 cpu |>.mpr
    ⟨k % a.getCpusPerTask, Nat.mod_lt k hwidth, ?_⟩
  rw [Nat.mul_comm, Nat.div_add_mod, hfound]
  simpa [hfound] using hat

/-- On a whole node the masks of the tasks partition the CPUs, except that a forward allocation
of single CPUs does not wrap around at the last one. -/
theorem partitions_wholeNode {topology : Nat → Int × Int}
    (hmap : createCpuPositionMap topology a.ncpus = some a.cpuPositionMap)
    (havailable : a.cpusAvailable.cpus = Finset.range a.ncpus)
    (hcount : a.ncpusAvailable = a.ncpus) (hwidth : 1 ≤ a.getCpusPerTask)
    (hfit : a.ntasks * a.getCpusPerTask ≤ a.ncpus) :
    (2 ≤ a.getCpusPerTask → a.Partitions a.generateMask) ∧
      a.Partitions a.generateMaskReverse := by
  have hdet : a.Detected := by
    refine ⟨createCpuPositionMap_perm hmap, ?_, ?_⟩
    · simp [havailable]
    · rw [havailable, Finset.card_range, hcount]
  have hfit' : a.ntasks * a.getCpusPerTask ≤ a.ncpusAvailable := hcount ▸ hfit
  have hn : ∀ k < a.ntasks * a.getCpusPerTask, 0 < a.ncpusAvailable := by omega
  constructor
  · intro hwide
    refine (generateMask_walks hfit' (by omega)).partitions hdet hcount ?_
    exact fun k hk => upward_lt (hn k hk) k
  · refine (generateMaskReverse_walks hfit' hwidth).partitions hdet hcount ?_
    exact fun k hk => downward_lt (hn k hk) k

/-- Two tasks of two CPUs on two sockets, starting at the last position. -/
def wholeSockets : Affinity where
  ncpus := 4
  ntasks := 2
  requestedCpusPerTask := 2
  startcpu := 3
  cpusAvailable := CpuSet.zero.set 0 |>.set 1 |>.set 2 |>.set 3
  ncpusAvailable := 4
  cpuPositionMap := [0, 2, 1, 3]

theorem partitions_wholeSockets :
    wholeSockets.Partitions wholeSockets.generateMask ∧
      wholeSockets.Partitions wholeSockets.generateMaskReverse := by
  have hboth := @partitions_wholeNode wholeSockets (fun id => (id % 2, id / 2)) (by decide)
    (by decide) rfl (by decide) (by decide)
  exact ⟨hboth.1 (by decide), hboth.2⟩

end SlurmSpank.AutoAffinity.Affinity
