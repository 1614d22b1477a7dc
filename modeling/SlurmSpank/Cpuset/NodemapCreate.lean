import SlurmSpank.Cpuset.NodemapAllocate
import SlurmSpank.Foundation.Block

/-! # Maps built by `nodemap_create`

A fresh map is sound and its nodes are exact on every layout of the machine. What the
layout decides is whether the CPUs that a node can reach are its own.
-/

namespace SlurmSpank.Cpuset

open Lib Foundation

namespace Node

/-- A node reaches the spread of its own CPUs. -/
theorem window_eq_spread {n : Node} (hncpus : n.ncpus = n.localcpus.weight) :
    n.window = spread n.localcpus.bits := by
  unfold spread
  split
  next hne =>
    have hfirst : n.localcpus.first = n.localcpus.bits.min' hne := by
      rw [Bitmask.first, dif_pos hne]
    ext cpu
    simp only [mem_window, nodeCpuToGlobal, Finset.mem_Ico, hncpus, Bitmask.weight, hfirst]
    constructor
    · rintro ⟨i, hi, rfl⟩
      omega
    · rintro ⟨hle, hlt⟩
      exact ⟨cpu - n.localcpus.bits.min' hne, by omega, by omega⟩
  next hempty =>
    rw [Finset.not_nonempty_iff_eq_empty] at hempty
    simp [window, hncpus, Bitmask.weight, hempty]

end Node

/-! ## Fresh nodes and maps -/

theorem foldl_setbit_bits (used : Bitmask) (offset : Nat) (order : List Nat) (mask : Bitmask)
    (horder : ∀ i ∈ order, i < mask.size) :
    let result := order.foldl
      (fun acc i => if used.isbitset (offset + i) then acc.setbit i else acc) mask
    result.size = mask.size ∧
      ∀ i, i ∈ result.bits ↔ i ∈ mask.bits ∨ i ∈ order ∧ offset + i ∈ used.bits := by
  induction order generalizing mask with
  | nil => simp
  | cons j rest ih =>
      have hj := horder j List.mem_cons_self
      rw [List.foldl_cons]
      by_cases hused : offset + j ∈ used.bits
      · have hset : used.isbitset (offset + j) = true := Bitmask.isbitset_eq_true.mpr hused
        obtain ⟨hsize, hbits⟩ := ih (mask.setbit j)
          (fun i hi => by simpa using horder i (List.mem_cons_of_mem _ hi))
        simp only [hset, ↓reduceIte]
        refine ⟨by simpa using hsize, fun i => ?_⟩
        rw [hbits i, Bitmask.setbit_bits hj, Finset.mem_insert, List.mem_cons]
        constructor
        · rintro ((rfl | hmem) | ⟨hmem, hi⟩)
          · exact Or.inr ⟨Or.inl rfl, hused⟩
          · exact Or.inl hmem
          · exact Or.inr ⟨Or.inr hmem, hi⟩
        · rintro (hmem | ⟨rfl | hmem, hi⟩)
          · exact Or.inl (Or.inr hmem)
          · exact Or.inl (Or.inl rfl)
          · exact Or.inr ⟨hmem, hi⟩
      · have hset : used.isbitset (offset + j) = false := by
          simpa [Bitmask.isbitset] using hused
        obtain ⟨hsize, hbits⟩ := ih mask (fun i hi => horder i (List.mem_cons_of_mem _ hi))
        simp only [hset, Bool.false_eq_true, ↓reduceIte]
        refine ⟨hsize, fun i => ?_⟩
        rw [hbits i, List.mem_cons]
        constructor
        · rintro (hmem | ⟨hmem, hi⟩)
          · exact Or.inl hmem
          · exact Or.inr ⟨Or.inr hmem, hi⟩
        · rintro (hmem | ⟨rfl | hmem, hi⟩)
          · exact Or.inl hmem
          · exact absurd hi hused
          · exact Or.inr ⟨hmem, hi⟩

section Create

variable {numa : Numa} {map m : Nodemap} {id : Nat} {conf : CpusetConf} {usage cpus : Bitmask}

@[simp] theorem nodeCreate_localcpus :
    (nodeCreate numa map id).localcpus = Bitmask.ofFinset numa.cpumaskSize (numa.localcpus id) :=
  rfl

theorem nodeCreate_ncpus :
    (nodeCreate numa map id).ncpus = (nodeCreate numa map id).localcpus.weight := rfl

theorem nodeCreate_used :
    (nodeCreate numa map id).usedcpus.size = (nodeCreate numa map id).ncpus ∧
      ∀ i, i ∈ (nodeCreate numa map id).usedcpus.bits ↔ i < (nodeCreate numa map id).ncpus ∧
        nodeCpuToGlobal (nodeCreate numa map id) i ∈ map.usedcpus.bits := by
  obtain ⟨hsize, hbits⟩ := foldl_setbit_bits map.usedcpus
    (Bitmask.ofFinset numa.cpumaskSize (numa.localcpus id)).first
    (List.range (Bitmask.ofFinset numa.cpumaskSize (numa.localcpus id)).weight)
    (Bitmask.alloc (Bitmask.ofFinset numa.cpumaskSize (numa.localcpus id)).weight)
    (fun i hi => List.mem_range.mp hi)
  refine ⟨hsize, fun i => (hbits i).trans ?_⟩
  rw [Bitmask.alloc_bits, List.mem_range]
  exact or_iff_right (Finset.notMem_empty i)

theorem nodeCreate_ok (hsize : map.usedcpus.size = numa.cpumaskSize) :
    (nodeCreate numa map id).Ok map.usedcpus where
  ncpus_eq := rfl
  local_size := hsize.symm
  used_size := nodeCreate_used.1
  navail_eq := rfl
  used_global i hi := ((nodeCreate_used.2 i).mp hi).2

theorem nodeCreate_exact : (nodeCreate numa map id).Exact map.usedcpus.bits :=
  fun i hi => (nodeCreate_used.2 i).trans (and_iff_right hi)

/-- The nodes that `nodemap_create` lists. -/
def listedNodes (numa : Numa) (cpus : Bitmask) : List Nat :=
  (List.range numa.memmaskSize).filter fun id =>
    match numa.localmems cpus.bits with
    | none => true
    | some mems => decide (id ∈ mems ∧ id < numa.memmaskSize)

theorem foldl_push_filter {α β : Type*} (p : α → Bool) (f : α → β) (items : List α)
    (acc : List β) :
    items.foldl (fun nodes i => if p i then listPush nodes (f i) else nodes) acc =
      ((items.filter p).map f).reverse ++ acc := by
  induction items generalizing acc with
  | nil => rfl
  | cons item rest ih =>
      rw [List.foldl_cons, ih]
      by_cases hp : p item
      · simp [hp, listPush]
      · simp [hp]

/-- A map built from the current usage lists the nodes of `listedNodes`, last first. -/
theorem nodemapCreate_eq (hcreate : nodemapCreate numa conf none (some usage) cpus = some m) :
    m.policy = policyOf conf ∧ m.ncpus = numa.cpumaskSize ∧ m.usedcpus = usage ∧
      m.navail = m.ncpus - m.usedcpus.weight ∧
      ∃ map : Nodemap, map.usedcpus = usage ∧
        m.nodelist = ((listedNodes numa cpus).map (nodeCreate numa map)).reverse := by
  simp only [nodemapCreate, Option.some.injEq] at hcreate
  subst m
  refine ⟨rfl, rfl, rfl, rfl,
    { policy := defaultPolicy, nnodes := numa.memmaskSize, ncpus := numa.cpumaskSize,
      navail := 0, usedcpus := usage, cpus := cpus, nodelist := [] }, rfl, ?_⟩
  simp only [nodemapPolicyUpdate]
  rw [foldl_push_filter, List.append_nil]
  rfl

theorem nodemapCreate_ok (husage : usage.size = numa.cpumaskSize)
    (hcreate : nodemapCreate numa conf none (some usage) cpus = some m) :
    m.Ok ∧ ∀ n ∈ m.nodelist, n.Exact m.usedcpus.bits := by
  obtain ⟨-, hncpus, hused, hnavail, map, hmap, hnodes⟩ := nodemapCreate_eq hcreate
  have hmem : ∀ n ∈ m.nodelist, ∃ id, nodeCreate numa map id = n := by
    intro n hn
    rw [hnodes, List.mem_reverse, List.mem_map] at hn
    obtain ⟨id, -, hid⟩ := hn
    exact ⟨id, hid⟩
  refine ⟨⟨?_, hnavail, ?_⟩, ?_⟩
  · rw [hused, hncpus, husage]
  · intro n hn
    obtain ⟨id, rfl⟩ := hmem n hn
    rw [hused, ← hmap]
    exact nodeCreate_ok (hmap ▸ husage)
  · intro n hn
    obtain ⟨id, rfl⟩ := hmem n hn
    rw [hused, ← hmap]
    exact nodeCreate_exact

end Create

end SlurmSpank.Cpuset
