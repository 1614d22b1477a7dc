import Mathlib.Algebra.Order.Ring.Int
import Mathlib.Data.List.Nodup
import SlurmSpank.Cpuset.Nodemap

/-! # What taking CPUs does to the map

The scan of one node takes the first free local CPUs in scan order, and this file says
which ones. Every traversal of the allocator is a chain of such visits and of reorderings
of the node list, so that an invariant needs to be checked for these two steps only.
-/

namespace SlurmSpank.Cpuset

open Lib

/-! ## Nodes and the CPUs they can reach -/

namespace Node

/-- The global CPUs that the local numbers of a node stand for. -/
def window (n : Node) : Finset Nat := (Finset.range n.ncpus).image (nodeCpuToGlobal n)

/-- A node with a set of local CPUs charged to it. -/
def take (n : Node) (locals : Finset Nat) : Node :=
  { n with usedcpus := n.usedcpus.add locals, navail := n.navail - locals.card }

/-- What no allocation changes about a node. -/
def shape (n : Node) : Nat × Nat × Bitmask := (n.nodeid, n.ncpus, n.localcpus)

@[simp] theorem take_ncpus (n : Node) (locals : Finset Nat) : (n.take locals).ncpus = n.ncpus := rfl

@[simp] theorem take_localcpus (n : Node) (locals : Finset Nat) :
    (n.take locals).localcpus = n.localcpus := rfl

@[simp] theorem take_shape (n : Node) (locals : Finset Nat) : (n.take locals).shape = n.shape := rfl

@[simp] theorem take_empty (n : Node) : n.take ∅ = n := by simp [take]

theorem take_take (n : Node) {first second : Finset Nat} (hdisj : Disjoint first second) :
    (n.take first).take second = n.take (first ∪ second) := by
  simp only [take, Bitmask.add_add, Finset.card_union_of_disjoint hdisj, Nat.cast_add]
  congr 1
  omega

theorem nodeCpuToGlobal_injective (n : Node) : Function.Injective (nodeCpuToGlobal n) :=
  fun _ _ heq => Nat.add_left_cancel heq

@[simp] theorem nodeCpuToGlobal_take (n : Node) (locals : Finset Nat) :
    nodeCpuToGlobal (n.take locals) = nodeCpuToGlobal n := rfl

theorem mem_window {n : Node} {cpu : Nat} :
    cpu ∈ n.window ↔ ∃ i < n.ncpus, nodeCpuToGlobal n i = cpu := by
  simp [window]

@[simp] theorem window_take (n : Node) (locals : Finset Nat) : (n.take locals).window = n.window :=
  rfl

theorem card_window (n : Node) : n.window.card = n.ncpus := by
  rw [window, Finset.card_image_of_injective _ n.nodeCpuToGlobal_injective, Finset.card_range]

/-- Nodes of one shape reach the same CPUs. -/
theorem window_eq_of_shape {n m : Node} (hshape : n.shape = m.shape) : n.window = m.window := by
  simp only [shape, Prod.mk.injEq] at hshape
  obtain ⟨-, hncpus, hlocal⟩ := hshape
  unfold window nodeCpuToGlobal
  rw [hncpus, hlocal]

/-- The sizes and the counter of a node are right, and a CPU charged to it is in use. -/
structure Ok (n : Node) (used : Bitmask) : Prop where
  ncpus_eq : n.ncpus = n.localcpus.weight
  local_size : n.localcpus.size = used.size
  used_size : n.usedcpus.size = n.ncpus
  navail_eq : n.navail = n.ncpus - n.usedcpus.weight
  used_global : ∀ i ∈ n.usedcpus.bits, nodeCpuToGlobal n i ∈ used.bits

/-- The node's mask of used CPUs says exactly which CPUs of its window are in use. -/
def Exact (n : Node) (used : Finset Nat) : Prop :=
  ∀ i < n.ncpus, i ∈ n.usedcpus.bits ↔ nodeCpuToGlobal n i ∈ used

/-- The local CPUs the scan can take, in the order in which it meets them. -/
def freeLocals (n : Node) (used : Finset Nat) (reverse : Bool) : List Nat :=
  (scanOrder reverse n.ncpus).filter (nodeCpuToGlobal n · ∉ used)

end Node

theorem scanOrder_nodup (reverse : Bool) (ncpus : Nat) : (scanOrder reverse ncpus).Nodup := by
  cases reverse
  · exact List.nodup_range
  · exact List.nodup_reverse.mpr List.nodup_range

@[simp] theorem mem_scanOrder {reverse : Bool} {ncpus cpu : Nat} :
    cpu ∈ scanOrder reverse ncpus ↔ cpu < ncpus := by
  cases reverse <;> simp [scanOrder]

namespace Node.Ok

variable {n : Node} {used : Bitmask}

theorem local_lt (hok : n.Ok used) {i : Nat} (hi : i < n.ncpus) :
    nodeCpuToGlobal n i < used.size := by
  have hbound := n.localcpus.first_add_weight_le
  rw [← hok.ncpus_eq, hok.local_size] at hbound
  unfold nodeCpuToGlobal
  omega

theorem window_lt (hok : n.Ok used) {cpu : Nat} (hcpu : cpu ∈ n.window) : cpu < used.size := by
  obtain ⟨i, hi, rfl⟩ := mem_window.mp hcpu
  exact hok.local_lt hi

theorem card_local_free (hok : n.Ok used) :
    (Finset.range n.ncpus \ n.usedcpus.bits).card = n.ncpus - n.usedcpus.weight := by
  rw [Finset.card_sdiff_of_subset (hok.used_size ▸ n.usedcpus.bits_subset_range), Finset.card_range]
  rfl

/-- The local CPUs not in use are among those the node counts as available. -/
theorem card_free_le_navail (hok : n.Ok used) :
    ((n.window \ used.bits).card : Int) ≤ n.navail := by
  have hsub : n.window \ used.bits ⊆
      (Finset.range n.ncpus \ n.usedcpus.bits).image (nodeCpuToGlobal n) := by
    intro cpu hcpu
    obtain ⟨hwindow, hfree⟩ := Finset.mem_sdiff.mp hcpu
    obtain ⟨i, hi, rfl⟩ := mem_window.mp hwindow
    refine Finset.mem_image_of_mem _ (Finset.mem_sdiff.mpr ⟨Finset.mem_range.mpr hi, ?_⟩)
    exact fun hused => hfree (hok.used_global i hused)
  have hcard := (Finset.card_le_card hsub).trans Finset.card_image_le
  rw [hok.card_local_free] at hcard
  have hle : n.usedcpus.weight ≤ n.ncpus := hok.used_size ▸ n.usedcpus.weight_le_size
  rw [hok.navail_eq]
  omega

/-- An exact node counts as available precisely its CPUs that are not in use. -/
theorem card_free_eq_navail (hok : n.Ok used) (hexact : n.Exact used.bits) :
    ((n.window \ used.bits).card : Int) = n.navail := by
  have heq : n.window \ used.bits =
      (Finset.range n.ncpus \ n.usedcpus.bits).image (nodeCpuToGlobal n) := by
    ext cpu
    simp only [Finset.mem_sdiff, mem_window, Finset.mem_image, Finset.mem_range]
    constructor
    · rintro ⟨⟨i, hi, rfl⟩, hfree⟩
      exact ⟨i, ⟨hi, fun hused => hfree ((hexact i hi).mp hused)⟩, rfl⟩
    · rintro ⟨i, ⟨hi, hfree⟩, rfl⟩
      exact ⟨⟨i, hi, rfl⟩, fun hused => hfree ((hexact i hi).mpr hused)⟩
  have hcard := congrArg Finset.card heq
  rw [Finset.card_image_of_injective _ n.nodeCpuToGlobal_injective, hok.card_local_free] at hcard
  have hle : n.usedcpus.weight ≤ n.ncpus := hok.used_size ▸ n.usedcpus.weight_le_size
  rw [hok.navail_eq, hcard]
  omega

/-- Other CPUs coming into use leave a node sound. -/
theorem add_used (hok : n.Ok used) (extra : Finset Nat) : n.Ok (used.add extra) where
  ncpus_eq := hok.ncpus_eq
  local_size := hok.local_size
  used_size := hok.used_size
  navail_eq := hok.navail_eq
  used_global i hi := by
    have hmem := hok.used_global i hi
    simp [Bitmask.add, hmem, used.bits_lt _ hmem]

/-- A node stays sound when free local CPUs are charged to it and the global CPUs they
stand for come into use. -/
theorem take (hok : n.Ok used) {locals : Finset Nat}
    (hlocals : ∀ i ∈ locals, i < n.ncpus ∧ nodeCpuToGlobal n i ∉ used.bits) :
    (n.take locals).Ok (used.add (locals.image (nodeCpuToGlobal n))) where
  ncpus_eq := hok.ncpus_eq
  local_size := hok.local_size
  used_size := hok.used_size
  navail_eq := by
    have hfree : Disjoint n.usedcpus.bits locals := Finset.disjoint_left.mpr
      fun i hused hi => (hlocals i hi).2 (hok.used_global i hused)
    have hbits : (n.usedcpus.add locals).bits = n.usedcpus.bits ∪ locals :=
      Bitmask.add_bits fun i hi => hok.used_size.symm ▸ (hlocals i hi).1
    have hnavail := hok.navail_eq
    simp only [Node.take, Bitmask.weight, hbits, Finset.card_union_of_disjoint hfree] at hnavail ⊢
    omega
  used_global i hi := by
    rw [Node.take, Bitmask.add_bits fun j hj => hok.used_size.symm ▸ (hlocals j hj).1,
      Finset.mem_union] at hi
    rw [nodeCpuToGlobal_take, Bitmask.add, Bitmask.mem_ofFinset, Finset.mem_union]
    rcases hi with hold | hnew
    · exact ⟨Or.inl (hok.used_global i hold), used.bits_lt _ (hok.used_global i hold)⟩
    · exact ⟨Or.inr (Finset.mem_image_of_mem _ hnew), hok.local_lt (hlocals i hnew).1⟩

/-- The scan meets each free CPU of the window once. -/
theorem freeLocals_length (n : Node) (used : Finset Nat) (reverse : Bool) :
    (n.freeLocals used reverse).length = (n.window \ used).card := by
  have hnodup : (n.freeLocals used reverse).Nodup := (scanOrder_nodup _ _).filter _
  rw [← List.toFinset_card_of_nodup hnodup,
    ← Finset.card_image_of_injective _ n.nodeCpuToGlobal_injective]
  congr 1
  ext cpu
  simp only [Finset.mem_image, List.mem_toFinset, Node.freeLocals, List.mem_filter, mem_scanOrder,
    decide_eq_true_eq, Finset.mem_sdiff, Node.mem_window]
  constructor
  · rintro ⟨i, ⟨hi, hfree⟩, rfl⟩
    exact ⟨⟨i, hi, rfl⟩, hfree⟩
  · rintro ⟨⟨i, hi, rfl⟩, hfree⟩
    exact ⟨i, ⟨hi, hfree⟩, rfl⟩

end Node.Ok

namespace Node.Exact

variable {n : Node} {used : Finset Nat}

/-- A node stays exact when the CPUs charged to it are those that come into use. -/
theorem take (hexact : n.Exact used) {locals : Finset Nat} (hsize : n.usedcpus.size = n.ncpus)
    (hlocals : ∀ i ∈ locals, i < n.ncpus) :
    (n.take locals).Exact (used ∪ locals.image (nodeCpuToGlobal n)) := by
  intro i hi
  have hbits : (n.take locals).usedcpus.bits = n.usedcpus.bits ∪ locals :=
    Bitmask.add_bits fun j hj => hsize.symm ▸ hlocals j hj
  rw [hbits, Finset.mem_union, nodeCpuToGlobal_take, Finset.mem_union, hexact i hi,
    n.nodeCpuToGlobal_injective.mem_finset_image]

/-- A node stays exact when CPUs outside its window come into use. -/
theorem add_used (hexact : n.Exact used) {extra : Finset Nat} (hdisj : Disjoint n.window extra) :
    n.Exact (used ∪ extra) := by
  intro i hi
  have hnot : nodeCpuToGlobal n i ∉ extra :=
    Finset.disjoint_left.mp hdisj (mem_window.mpr ⟨i, hi, rfl⟩)
  rw [hexact i hi, Finset.mem_union, or_iff_left hnot]

end Node.Exact

/-! ## Allocations -/

namespace Allocation

/-- An allocation, and the map behind it, after a set of global CPUs is taken. -/
def take (a : Allocation) (cpus : Finset Nat) : Allocation :=
  { a with
    nleft := a.nleft - cpus.card
    allocatedCpus := a.allocatedCpus.add cpus
    map :=
      { a.map with
        usedcpus := a.map.usedcpus.add cpus
        navail := a.map.navail - cpus.card } }

@[simp] theorem take_empty (a : Allocation) : a.take ∅ = a := by simp [take]

theorem take_take (a : Allocation) {first second : Finset Nat} (hdisj : Disjoint first second) :
    (a.take first).take second = a.take (first ∪ second) := by
  simp only [take, Bitmask.add_add, Finset.card_union_of_disjoint hdisj, Nat.cast_add]
  congr 1
  · omega
  · congr 1
    omega

/-- The sizes and the counter of the map agree, its nodes are sound, and the count left
to take is not negative. -/
structure Ok (a : Allocation) : Prop where
  used_size : a.map.usedcpus.size = a.map.ncpus
  mask_size : a.allocatedCpus.size = a.map.ncpus
  navail_eq : a.map.navail = a.map.ncpus - a.map.usedcpus.weight
  nleft_nonneg : 0 ≤ a.nleft
  nodes : ∀ n ∈ a.map.nodelist, n.Ok a.map.usedcpus

end Allocation

/-! ## The scan of one node -/

theorem tryAlloc_of_used {n : Node} {a : Allocation} {cpu : Nat}
    (hused : nodeCpuToGlobal n cpu ∈ a.map.usedcpus.bits) : tryAlloc n a cpu = none := by
  simp [tryAlloc, nodeAllocateCpu, hused]

theorem tryAlloc_of_free {n : Node} {a : Allocation} {cpu : Nat}
    (hok : n.Ok a.map.usedcpus) (hmask : a.allocatedCpus.size = a.map.usedcpus.size)
    (hcpu : cpu < n.ncpus) (hfree : nodeCpuToGlobal n cpu ∉ a.map.usedcpus.bits) :
    tryAlloc n a cpu = some (n.take {cpu}, a.take {nodeCpuToGlobal n cpu}) := by
  have hlocal : cpu ∉ n.usedcpus.bits := fun hmem => hfree (hok.used_global cpu hmem)
  have hglobal := hok.local_lt hcpu
  simp [tryAlloc, nodeAllocateCpu, allocationAddCpu, hlocal, hfree, Node.take, Allocation.take,
    Bitmask.setbit_eq_add hglobal, Bitmask.setbit_eq_add (hok.used_size.symm ▸ hcpu),
    Bitmask.setbit_eq_add (hmask.symm ▸ hglobal)]

/-- The loop takes the first free local CPUs in the order given, as many as both the
allocation and the bound on this node allow. -/
theorem nodeAllocateLoop_eq (count : Int) {order : List Nat} (hnodup : order.Nodup)
    {n : Node} {a : Allocation} (horder : ∀ i ∈ order, i < n.ncpus) (hok : n.Ok a.map.usedcpus)
    (hmask : a.allocatedCpus.size = a.map.usedcpus.size) (nalloc : Int)
    {locals : List Nat}
    (hlocals : locals = (order.filter (nodeCpuToGlobal n · ∉ a.map.usedcpus.bits)).take
      (min a.nleft (count - nalloc)).toNat) (hleft : 0 ≤ a.nleft) :
    nodeAllocateLoop count order n a nalloc =
      (n.take locals.toFinset, a.take (locals.toFinset.image (nodeCpuToGlobal n)),
        nalloc + locals.length) := by
  induction order generalizing n a nalloc locals with
  | nil => simp [hlocals, nodeAllocateLoop]
  | cons i rest ih =>
      obtain ⟨hnot, hrest⟩ := List.nodup_cons.mp hnodup
      unfold nodeAllocateLoop
      split
      next hcontinue =>
        by_cases hused : nodeCpuToGlobal n i ∈ a.map.usedcpus.bits
        · rw [tryAlloc_of_used hused]
          refine ih hrest (fun j hj => horder j (List.mem_cons_of_mem _ hj)) hok hmask nalloc ?_
            hleft
          simpa [List.filter_cons, hused] using hlocals
        · have hi := horder i List.mem_cons_self
          have hglobal := hok.local_lt hi
          rw [tryAlloc_of_free hok hmask hi hused]
          have hfree : ∀ j ∈ ({i} : Finset Nat),
              j < n.ncpus ∧ nodeCpuToGlobal n j ∉ a.map.usedcpus.bits := by simp [hi, hused]
          have hok' : (n.take {i}).Ok (a.take {nodeCpuToGlobal n i}).map.usedcpus := by
            simpa [Allocation.take] using hok.take hfree
          have hbits : (a.take {nodeCpuToGlobal n i}).map.usedcpus.bits =
              a.map.usedcpus.bits ∪ {nodeCpuToGlobal n i} :=
            Bitmask.add_bits (by simpa using hglobal)
          -- later local numbers stand for other CPUs, so they are free as before
          have hfilter : rest.filter (nodeCpuToGlobal n · ∉
              (a.take {nodeCpuToGlobal n i}).map.usedcpus.bits) =
              rest.filter (nodeCpuToGlobal n · ∉ a.map.usedcpus.bits) := by
            refine List.filter_congr fun j hj => ?_
            have hne : nodeCpuToGlobal n j ≠ nodeCpuToGlobal n i := fun heq =>
              hnot (n.nodeCpuToGlobal_injective heq ▸ hj)
            simp [hbits, hne]
          obtain ⟨more, hmore⟩ : ∃ more,
              more = (rest.filter (nodeCpuToGlobal n · ∉ a.map.usedcpus.bits)).take
                (min (a.nleft - 1) (count - (nalloc + 1))).toNat := ⟨_, rfl⟩
          have hcons : locals = i :: more := by
            have hsucc : (min a.nleft (count - nalloc)).toNat =
                (min (a.nleft - 1) (count - (nalloc + 1))).toNat + 1 := by omega
            rw [hlocals, List.filter_cons_of_pos (by simpa using hused), hsucc,
              List.take_succ_cons, hmore]
          have himore : i ∉ more := fun hmem =>
            hnot (List.mem_of_mem_filter (List.mem_of_mem_take (hmore ▸ hmem)))
          have hdisj : Disjoint {i} more.toFinset := by simpa using himore
          refine (@ih hrest (n.take {i}) (a.take {nodeCpuToGlobal n i})
            (fun j hj => horder j (List.mem_cons_of_mem _ hj)) hok' hmask (nalloc + 1)
            more ?_ ?_).trans ?_
          · rw [Node.nodeCpuToGlobal_take, hfilter, hmore]
            simp [Allocation.take]
          · simp only [Allocation.take, Finset.card_singleton]
            omega
          · have himage : ({nodeCpuToGlobal n i} : Finset Nat) ∪
                more.toFinset.image (nodeCpuToGlobal n) =
                (i :: more).toFinset.image (nodeCpuToGlobal n) := by
              rw [List.toFinset_cons, Finset.image_insert, Finset.insert_eq]
            rw [n.take_take hdisj, Node.nodeCpuToGlobal_take, a.take_take, himage, hcons]
            · simp only [List.toFinset_cons, Finset.insert_eq, List.length_cons, Nat.cast_add]
              congr 2
              omega
            · rw [← Finset.image_singleton, Finset.disjoint_image n.nodeCpuToGlobal_injective]
              exact hdisj
      next hstop =>
        have hzero : (min a.nleft (count - nalloc)).toNat = 0 := by omega
        simp [hlocals, hzero]

/-- The local CPUs that `node_allocate_n` takes. -/
def Node.picks (n : Node) (a : Allocation) (count : Int) : Finset Nat :=
  ((n.freeLocals a.map.usedcpus.bits a.map.policy.reverse).take
    (min a.nleft (if count < 0 then n.navail else count)).toNat).toFinset

theorem Node.picks_free {n : Node} {a : Allocation} {count : Int} :
    ∀ i ∈ n.picks a count, i < n.ncpus ∧ nodeCpuToGlobal n i ∉ a.map.usedcpus.bits := by
  intro i hi
  have hmem := List.mem_of_mem_take (List.mem_toFinset.mp hi)
  simpa [Node.freeLocals] using hmem

theorem Node.card_picks (n : Node) (a : Allocation) (count : Int) :
    (n.picks a count).card = min (min a.nleft (if count < 0 then n.navail else count)).toNat
      (n.window \ a.map.usedcpus.bits).card := by
  have hnodup : (n.freeLocals a.map.usedcpus.bits a.map.policy.reverse).Nodup :=
    (scanOrder_nodup _ _).filter _
  rw [Node.picks, List.toFinset_card_of_nodup hnodup.take, List.length_take,
    Node.Ok.freeLocals_length]

theorem Node.card_picks_le (n : Node) {a : Allocation} (count : Int) (hleft : 0 ≤ a.nleft) :
    ((n.picks a count).card : Int) ≤ a.nleft := by
  rw [n.card_picks a count]
  omega

theorem nodeAllocateN_eq {n : Node} {a : Allocation} (count : Int) (hok : n.Ok a.map.usedcpus)
    (hmask : a.allocatedCpus.size = a.map.usedcpus.size) (hleft : 0 ≤ a.nleft) :
    nodeAllocateN n a count =
      (n.take (n.picks a count), a.take ((n.picks a count).image (nodeCpuToGlobal n)),
        ((n.picks a count).card : Int)) := by
  unfold nodeAllocateN
  split
  next hzero =>
    have hnone : n.picks a count = ∅ := by
      rw [← Finset.card_eq_zero, n.card_picks a count]
      omega
    simp [hnone]
  next hpos =>
    have hnodup : (n.freeLocals a.map.usedcpus.bits a.map.policy.reverse).Nodup :=
      (scanOrder_nodup _ _).filter _
    rw [nodeAllocateLoop_eq _ (scanOrder_nodup _ _) (fun i hi => mem_scanOrder.mp hi) hok hmask 0
      rfl hleft]
    simp only [Int.sub_zero, zero_add]
    rw [← Node.freeLocals, Node.picks, List.toFinset_card_of_nodup hnodup.take]

end SlurmSpank.Cpuset
