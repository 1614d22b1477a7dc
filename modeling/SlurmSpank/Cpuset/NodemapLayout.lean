import SlurmSpank.Cpuset.NodemapRun

/-! # Machines whose nodes are not contiguous

The local numbering of a node counts up from its lowest CPU. On a node whose CPUs are not
contiguous it reaches CPUs that are not the node's own, and CPUs at the top of the machine
are reached by no node at all, so that a request for all CPUs is not met.
-/

namespace SlurmSpank.Cpuset

open Foundation

/-! ## Requests that are met -/

/-- A call returns a mask with as many CPUs as asked for. -/
def Succeeds (m : Nodemap) (ncpus : Int) : Prop :=
  ∃ mask m', Returns m ncpus (some mask) m' ∧ (mask.weight : Int) = ncpus

section Requests

variable {m : Nodemap} {conf : CpusetConf} {ncpus : Int}

theorem Succeeds.le_reachable (hok : m.Ok) (hpolicy : m.policy = policyOf conf)
    (hncpus : 0 ≤ ncpus) (hle : ncpus ≤ m.navail) (hcall : Succeeds m ncpus) :
    ncpus ≤ m.reachable.card := by
  obtain ⟨mask, m', ⟨fuel, hfuel⟩, hweight⟩ := hcall
  obtain ⟨given, hanswer, hgranted, -⟩ := nodemapAllocate_grants hok hpolicy hncpus hle hfuel
  obtain rfl := Option.some.inj hanswer
  have hcard : mask.weight ≤ m.reachable.card := Finset.card_le_card hgranted.subset
  omega

/-- Best and first fit meet a request exactly when that many CPUs can be reached. -/
theorem succeeds_iff_le_reachable (hok : m.Ok) (hpolicy : m.policy = policyOf conf)
    (hfit : conf.policy ≠ .worstFit) (hncpus : 0 ≤ ncpus) (hle : ncpus ≤ m.navail) :
    Succeeds m ncpus ↔ ncpus ≤ m.reachable.card := by
  refine ⟨fun hcall => hcall.le_reachable hok hpolicy hncpus hle, fun hreach => ?_⟩
  obtain ⟨answer, m', hcall⟩ := @nodemapAllocate_returns m ncpus 0 conf hok hpolicy hncpus hle
    fun hworst => absurd hworst hfit
  obtain ⟨mask, rfl, -, hweight⟩ := nodemapAllocate_grants hok hpolicy hncpus hle hcall
  refine ⟨mask, m', ⟨0, hcall⟩, ?_⟩
  rw [hweight, if_neg hfit]
  omega

/-- Worst fit does not return from a request for more CPUs than can be reached. -/
theorem not_returns_of_worstFit (hok : m.Ok) (hpolicy : m.policy = policyOf conf)
    (hfit : conf.policy = .worstFit) (hncpus : 0 ≤ ncpus) (hle : ncpus ≤ m.navail)
    (hgt : (m.reachable.card : Int) < ncpus) {answer : Option Bitmask} {m' : Nodemap} :
    ¬ Returns m ncpus answer m' := by
  rintro ⟨fuel, hfuel⟩
  obtain ⟨mask, -, hgranted, hweight⟩ := nodemapAllocate_grants hok hpolicy hncpus hle hfuel
  rw [if_pos hfit] at hweight
  have hcard : mask.weight ≤ m.reachable.card := Finset.card_le_card hgranted.subset
  omega

end Requests

section Layouts

variable {numa : Numa} {cpus : Bitmask}

/-- If a request for all CPUs of an idle machine is met then all nodes are contiguous. -/
theorem Layout.isBlock_of_succeeds {conf : CpusetConf} {m : Nodemap}
    (hlayout : Layout numa cpus)
    (hcreate : nodemapCreate numa conf none (some (Bitmask.ofFinset numa.cpumaskSize ∅)) cpus =
      some m)
    (hcall : Succeeds m m.ncpus) :
    ∀ id ∈ listedNodes numa cpus, IsBlock (numa.localcpus id) := by
  obtain ⟨hok, hncpus, hused⟩ := nodemapCreate_ofFinset_ok hcreate
  obtain ⟨hpolicy, -, -, -⟩ := nodemapCreate_eq hcreate
  have hidle : m.usedcpus.bits = ∅ := by
    refine Finset.eq_empty_of_forall_notMem fun cpu hcpu => ?_
    have hlt := hok.used_size ▸ m.usedcpus.bits_lt cpu hcpu
    exact absurd ((hused cpu hlt).mp hcpu) (Finset.notMem_empty cpu)
  have hnavail : m.navail = m.ncpus := by
    rw [hok.navail_eq, Bitmask.weight, hidle, Finset.card_empty]
    omega
  have hreach := hcall.le_reachable hok hpolicy (by omega) hnavail.ge
  have hsub : m.reach ⊆ Finset.range m.ncpus := by
    intro cpu hcpu
    obtain ⟨n, hn, hwindow⟩ := Nodemap.mem_reach.mp hcpu
    exact Finset.mem_range.mpr (hok.used_size ▸ (hok.nodes n hn).window_lt hwindow)
  have hall : m.reach = Finset.range m.ncpus := by
    refine Finset.eq_of_subset_of_card_le hsub ?_
    rw [Nodemap.reachable, hidle, Finset.sdiff_empty] at hreach
    rw [Finset.card_range]
    omega
  intro id hid
  refine (spread_eq_self_iff (hlayout.nonempty id hid)).mp ?_
  refine spread_eq_of_cover
    (fun left hleft right hright hne => hlayout.disjoint left (List.mem_toFinset.mp hleft) right
      (List.mem_toFinset.mp hright) hne) ?_ id (List.mem_toFinset.mpr hid)
  rw [← hlayout.reach_eq hcreate, hall]
  intro cpu hcpu
  obtain ⟨owner, howner, hlocal⟩ := Finset.mem_biUnion.mp hcpu
  rw [Finset.mem_range, hncpus]
  exact hlayout.inside owner (List.mem_toFinset.mp howner) cpu hlocal

/-- Under each policy, the requests that a map counts as possible are all met on the
machines whose nodes are contiguous and on no other. Under best and first fit, a single
request is met exactly when that many CPUs can be reached. -/
theorem nodemapAllocate_succeeds_iff (conf : CpusetConf) (hlayout : Layout numa cpus)
    (hcovers : ∀ cpu < numa.cpumaskSize,
      ∃ id ∈ listedNodes numa cpus, cpu ∈ numa.localcpus id) :
    ((∀ usage m ncpus, nodemapCreate numa conf none
        (some (Bitmask.ofFinset numa.cpumaskSize usage)) cpus = some m →
      0 ≤ ncpus → ncpus ≤ m.navail → Succeeds m ncpus) ↔
        ∀ id ∈ listedNodes numa cpus, IsBlock (numa.localcpus id)) ∧
      (conf.policy ≠ .worstFit → ∀ usage m ncpus, nodemapCreate numa conf none
        (some (Bitmask.ofFinset numa.cpumaskSize usage)) cpus = some m →
      0 ≤ ncpus → ncpus ≤ m.navail → (Succeeds m ncpus ↔ ncpus ≤ m.reachable.card)) := by
  refine ⟨⟨fun hall => ?_, fun hblocks => ?_⟩, ?_⟩
  · obtain ⟨m, hcreate⟩ : ∃ m, nodemapCreate numa conf none
      (some (Bitmask.ofFinset numa.cpumaskSize ∅)) cpus = some m := ⟨_, rfl⟩
    refine hlayout.isBlock_of_succeeds hcreate (hall ∅ m m.ncpus hcreate (by omega) ?_)
    obtain ⟨-, -, hused, hnavail, -⟩ := nodemapCreate_eq hcreate
    rw [hnavail, hused]
    simp [Bitmask.weight, Bitmask.ofFinset]
  · intro usage m ncpus hcreate hncpus hle
    have hsound := nodemapCreate_sound hlayout hblocks (fun cpu hcpu _ => hcovers cpu hcpu) hcreate
    obtain ⟨answer, m', hcall⟩ := hsound.returns hncpus
    obtain ⟨mask, rfl, -, hweight⟩ := hsound.grants hncpus hle hcall
    exact ⟨mask, m', hcall, hweight⟩
  · intro hfit usage m ncpus hcreate hncpus hle
    exact succeeds_iff_le_reachable (nodemapCreate_ofFinset_ok hcreate).1
      (nodemapCreate_eq hcreate).1 hfit hncpus hle

end Layouts

theorem nodemapAllocate_succeeds_iff_twoNodes :
    (∀ usage m ncpus, nodemapCreate (twoNodes {0, 1} {2, 3}) cpusetConfCreate none
        (some (Bitmask.ofFinset 4 usage)) (Bitmask.ofFinset 4 {0, 1, 2, 3}) = some m →
      0 ≤ ncpus → ncpus ≤ m.navail → Succeeds m ncpus) ↔
        ∀ id ∈ listedNodes (twoNodes {0, 1} {2, 3}) (Bitmask.ofFinset 4 {0, 1, 2, 3}),
          IsBlock ((twoNodes {0, 1} {2, 3}).localcpus id) :=
  (nodemapAllocate_succeeds_iff cpusetConfCreate
    (twoNodes_layout _ (by decide) (by decide) (by decide) (by decide)) (by decide)).1

/-- The default configuration with another policy. -/
def confWith (policy : FitPolicy) : CpusetConf := { cpusetConfCreate with policy := policy }

/-- On two nodes with interleaved CPUs, the idle map counts four CPUs as available. Best fit
grants three of them, and worst fit does not return. -/
theorem interleaved_request_not_met :
    Layout (twoNodes {0, 2} {1, 3}) (Bitmask.ofFinset 4 {0, 1, 2, 3}) ∧
    (∃ m, nodemapCreate (twoNodes {0, 2} {1, 3}) (confWith .bestFit) none
        (some (Bitmask.ofFinset 4 ∅)) (Bitmask.ofFinset 4 {0, 1, 2, 3}) = some m ∧
      m.navail = 4 ∧ ¬ Succeeds m 4 ∧ ∃ m', Returns m 4 (some (Bitmask.ofFinset 4 {0, 1, 2})) m') ∧
    ∃ m, nodemapCreate (twoNodes {0, 2} {1, 3}) (confWith .worstFit) none
        (some (Bitmask.ofFinset 4 ∅)) (Bitmask.ofFinset 4 {0, 1, 2, 3}) = some m ∧
      m.navail = 4 ∧ ∀ answer m', ¬ Returns m 4 answer m' := by
  refine ⟨twoNodes_layout _ (by decide) (by decide) (by decide) (by decide), ?_, ?_⟩
  · have htrace : (nodemapCreate (twoNodes {0, 2} {1, 3}) (confWith .bestFit) none
        (some (Bitmask.ofFinset 4 ∅)) (Bitmask.ofFinset 4 {0, 1, 2, 3})).bind (fun m =>
          (nodemapAllocate 0 m 4).map fun call => (m.navail, call.1)) =
        some (4, some (Bitmask.ofFinset 4 {0, 1, 2})) := by decide +kernel
    obtain ⟨m, hcreate, htrace⟩ := Option.bind_eq_some_iff.mp htrace
    obtain ⟨⟨answer, m'⟩, hcall, htrace⟩ := Option.map_eq_some_iff.mp htrace
    obtain ⟨hnavail, rfl⟩ := Prod.mk.inj htrace
    have hreturns : Returns m 4 (some (Bitmask.ofFinset 4 {0, 1, 2})) m' := ⟨0, hcall⟩
    refine ⟨m, hcreate, hnavail, ?_, m', hreturns⟩
    rintro ⟨mask, other, hother, hweight⟩
    obtain ⟨heq, -⟩ := hreturns.unique hother
    obtain rfl := Option.some.inj heq
    exact absurd hweight (by decide)
  · have hfacts : (nodemapCreate (twoNodes {0, 2} {1, 3}) (confWith .worstFit) none
        (some (Bitmask.ofFinset 4 ∅)) (Bitmask.ofFinset 4 {0, 1, 2, 3})).map (fun m =>
          (m.navail, m.reachable.card)) = some (4, 3) := by decide +kernel
    obtain ⟨m, hcreate, hfacts⟩ := Option.map_eq_some_iff.mp hfacts
    obtain ⟨hnavail, hcard⟩ := Prod.mk.inj hfacts
    refine ⟨m, hcreate, hnavail, fun answer m' => ?_⟩
    have hfresh : nodemapCreate (twoNodes {0, 2} {1, 3}) (confWith .worstFit) none
      (some (Bitmask.ofFinset (twoNodes {0, 2} {1, 3}).cpumaskSize ∅))
      (Bitmask.ofFinset 4 {0, 1, 2, 3}) = some m := hcreate
    exact not_returns_of_worstFit (nodemapCreate_ofFinset_ok hfresh).1
      (nodemapCreate_eq hfresh).1 rfl (by decide) hnavail.ge (by omega)

/-! ## Local numbers and local CPUs -/

/-- The number of local CPUs below a CPU: its place among the CPUs of its node. -/
def localRank (numa : Numa) (id cpu : Nat) : Nat := ((numa.localcpus id).filter (· < cpu)).card

/-- The local numbers of a node stand for its own CPUs, one each; its mask starts out with
the usage of these; and no allocation takes other CPUs from it. -/
structure NumbersOwnCpus (numa : Numa) (cpus : Bitmask) (id : Nat) : Prop where
  enumerates : ∀ map, (Finset.range (nodeCreate numa map id).ncpus).image
    (nodeCpuToGlobal (nodeCreate numa map id)) = numa.localcpus id
  once : ∀ map, ∀ i < (nodeCreate numa map id).ncpus, ∀ j < (nodeCreate numa map id).ncpus,
    nodeCpuToGlobal (nodeCreate numa map id) i = nodeCpuToGlobal (nodeCreate numa map id) j → i = j
  usage : ∀ map : Nodemap, ∀ cpu ∈ numa.localcpus id,
    localRank numa id cpu ∈ (nodeCreate numa map id).usedcpus.bits ↔ cpu ∈ map.usedcpus.bits
  charges : ∀ conf usage start calls m, nodemapCreate numa conf none
      (some (Bitmask.ofFinset numa.cpumaskSize usage)) cpus = some start →
    Run AllocateCall start calls m →
    ∀ n : Node, n.shape ∈ m.nodelist.map Node.shape → n.nodeid = id → ∀ a count,
      (nodeAllocateN n a count).2.1.allocatedCpus.bits ⊆ a.allocatedCpus.bits ∪ numa.localcpus id

theorem setbit_bits_subset (mask : Bitmask) (bit : Nat) :
    (mask.setbit bit).bits ⊆ insert bit mask.bits := by
  unfold Bitmask.setbit
  split
  · rfl
  · exact Finset.subset_insert _ _

theorem tryAlloc_allocated {n n' : Node} {a a' : Allocation} {cpu : Nat}
    (htry : tryAlloc n a cpu = some (n', a')) : n'.shape = n.shape ∧
      a'.allocatedCpus.bits ⊆ insert (nodeCpuToGlobal n cpu) a.allocatedCpus.bits := by
  unfold tryAlloc nodeAllocateCpu at htry
  split at htry
  next => cases htry
  next global taken map hcpu =>
    dsimp only at hcpu
    split_ifs at hcpu
    simp only [Option.some.injEq, Prod.mk.injEq] at hcpu htry
    obtain ⟨rfl, rfl, rfl⟩ := hcpu
    obtain ⟨rfl, rfl⟩ := htry
    exact ⟨rfl, setbit_bits_subset _ _⟩

/-- Whatever the state of a traversal, a visit to a node takes CPUs in its reach only. -/
theorem nodeAllocateLoop_allocated (count : Int) {order : List Nat} {n : Node} {a : Allocation}
    (nalloc : Int) (horder : ∀ i ∈ order, i < n.ncpus) :
    (nodeAllocateLoop count order n a nalloc).2.1.allocatedCpus.bits ⊆
      a.allocatedCpus.bits ∪ n.window := by
  induction order generalizing n a nalloc with
  | nil => exact Finset.subset_union_left
  | cons i rest ih =>
      have hrest : ∀ j ∈ rest, j < n.ncpus := fun j hj => horder j (List.mem_cons_of_mem _ hj)
      unfold nodeAllocateLoop
      split
      next =>
        split
        next => exact ih nalloc hrest
        next taken b htry =>
          obtain ⟨hshape, hbits⟩ := tryAlloc_allocated htry
          have hncpus : taken.ncpus = n.ncpus := congrArg (fun shape => shape.2.1) hshape
          refine (ih (nalloc + 1) (hncpus ▸ hrest)).trans ?_
          rw [Node.window_eq_of_shape hshape]
          refine Finset.union_subset (hbits.trans ?_) Finset.subset_union_right
          refine Finset.insert_subset ?_ Finset.subset_union_left
          exact Finset.mem_union_right _ (Node.mem_window.mpr ⟨i, horder i List.mem_cons_self, rfl⟩)
      next => exact Finset.subset_union_left

theorem nodeAllocateN_allocated (n : Node) (a : Allocation) (count : Int) :
    (nodeAllocateN n a count).2.1.allocatedCpus.bits ⊆ a.allocatedCpus.bits ∪ n.window := by
  unfold nodeAllocateN
  split
  · exact Finset.subset_union_left
  · exact nodeAllocateLoop_allocated _ 0 fun i hi => mem_scanOrder.mp hi

/-- On every layout, calls change neither the policy nor the nodes of a map but in their
bookkeeping. -/
theorem allocateCalls_shapes {conf : CpusetConf} {start m : Nodemap} (hok : start.Ok)
    (hpolicy : start.policy = policyOf conf) {calls : List (Int × Option Bitmask)}
    (hrun : Run AllocateCall start calls m) : m.Ok ∧ m.policy = policyOf conf ∧
      (m.nodelist.map Node.shape).Perm (start.nodelist.map Node.shape) := by
  refine hrun.invariant (fun m => m.Ok ∧ m.policy = policyOf conf ∧
    (m.nodelist.map Node.shape).Perm (start.nodelist.map Node.shape))
    (fun before call after hbefore hcall => ?_) ⟨hok, hpolicy, .refl _⟩
  obtain ⟨hok, hpolicy, hshapes⟩ := hbefore
  obtain ⟨hncpus, fuel, hfuel⟩ := hcall
  by_cases hle : call.1 ≤ before.navail
  · obtain ⟨mask, -, hgranted, -⟩ := nodemapAllocate_grants hok hpolicy hncpus hle hfuel
    exact ⟨hgranted.ok, hgranted.policy_eq.trans hpolicy, hgranted.shapes.trans hshapes⟩
  · rw [nodemapAllocate_refuses (by omega)] at hfuel
    obtain ⟨-, rfl⟩ := Prod.mk.inj (Option.some.inj hfuel)
    exact ⟨hok, hpolicy, hshapes⟩

theorem localRank_of_block {numa : Numa} {id lo len cpu : Nat}
    (hblock : numa.localcpus id = Finset.Ico lo (lo + len)) (hcpu : cpu ∈ numa.localcpus id) :
    lo + localRank numa id cpu = cpu := by
  rw [hblock, Finset.mem_Ico] at hcpu
  have hbelow : (Finset.Ico lo (lo + len)).filter (· < cpu) = Finset.Ico lo cpu := by
    ext other
    simp only [Finset.mem_filter, Finset.mem_Ico]
    omega
  rw [localRank, hblock, hbelow, Nat.card_Ico]
  omega

/-- The local numbers of a listed node stand for its own CPUs exactly when the node is
contiguous. -/
theorem numbersOwnCpus_iff {numa : Numa} {cpus : Bitmask} (hlayout : Layout numa cpus)
    {id : Nat} (hid : id ∈ listedNodes numa cpus) :
    NumbersOwnCpus numa cpus id ↔ IsBlock (numa.localcpus id) := by
  rw [← spread_eq_self_iff (hlayout.nonempty id hid)]
  constructor
  · intro hnumbers
    obtain ⟨map, -⟩ : ∃ map : Nodemap, map.ncpus = 0 :=
      ⟨⟨defaultPolicy, 0, 0, 0, Bitmask.alloc 0, Bitmask.alloc 0, []⟩, rfl⟩
    rw [← hlayout.window_eq hid map]
    exact hnumbers.enumerates map
  · intro hspread
    have hwindow : ∀ map, (nodeCreate numa map id).window = numa.localcpus id := fun map =>
      (hlayout.window_eq hid map).trans hspread
    refine ⟨hwindow, fun map i _ j _ heq => Node.nodeCpuToGlobal_injective _ heq, ?_, ?_⟩
    · intro map cpu hcpu
      obtain ⟨lo, len, hlen, hblock⟩ := (spread_eq_self_iff (hlayout.nonempty id hid)).mp hspread
      have hrank := localRank_of_block hblock hcpu
      have hfirst : (nodeCreate numa map id).localcpus.first = lo := by
        refine Bitmask.first_eq_of_bits hlen ?_
        rw [hlayout.localcpus_bits hid, hblock]
      have hlt : localRank numa id cpu < (nodeCreate numa map id).ncpus := by
        rw [nodeCreate_ncpus, Bitmask.weight, hlayout.localcpus_bits hid]
        unfold localRank
        exact Finset.card_lt_card (Finset.filter_ssubset.mpr ⟨cpu, hcpu, lt_irrefl cpu⟩)
      rw [nodeCreate_exact _ hlt, nodeCpuToGlobal, hfirst, hrank]
    · intro conf usage start calls m hcreate hrun n hn hnodeid a count
      obtain ⟨hpolicy, -, -, -, map, -, hnodes⟩ := nodemapCreate_eq hcreate
      obtain ⟨-, -, hshapes⟩ :=
        allocateCalls_shapes (nodemapCreate_ofFinset_ok hcreate).1 hpolicy hrun
      obtain ⟨first, hfirst, hshape⟩ := List.mem_map.mp (hshapes.mem_iff.mp hn)
      rw [hnodes, List.mem_reverse, List.mem_map] at hfirst
      obtain ⟨listed, -, rfl⟩ := hfirst
      obtain rfl : listed = id := (congrArg Prod.fst hshape).trans hnodeid
      rw [← hwindow map, Node.window_eq_of_shape hshape]
      exact nodeAllocateN_allocated n a count

theorem numbersOwnCpus_iff_twoNodes :
    NumbersOwnCpus (twoNodes {0, 1} {2, 3}) (Bitmask.ofFinset 4 {0, 1, 2, 3}) 1 ↔
      IsBlock ((twoNodes {0, 1} {2, 3}).localcpus 1) :=
  numbersOwnCpus_iff (twoNodes_layout _ (by decide) (by decide) (by decide) (by decide)) (by decide)

/-- On two nodes with interleaved CPUs, the second local CPU of the first node, CPU 2, is
taken for CPU 1 of the other node: its usage is misread, and it is not what an allocation
takes from the node. -/
theorem interleaved_numbering_not_own :
    Layout (twoNodes {0, 2} {1, 3}) (Bitmask.ofFinset 4 {0, 1, 2, 3}) ∧
    ¬ NumbersOwnCpus (twoNodes {0, 2} {1, 3}) (Bitmask.ofFinset 4 {0, 1, 2, 3}) 0 ∧
    ∃ m n, nodemapCreate (twoNodes {0, 2} {1, 3}) cpusetConfCreate none
        (some (Bitmask.ofFinset 4 {2})) (Bitmask.ofFinset 4 {0, 1, 2, 3}) = some m ∧
      n ∈ m.nodelist ∧ n.localcpus.bits = {0, 2} ∧ nodeCpuToGlobal n 1 = 1 ∧
      1 ∉ n.usedcpus.bits ∧
      (nodeAllocateN n (allocationCreate m 2) 2).2.1.allocatedCpus.bits = {0, 1} := by
  refine ⟨twoNodes_layout _ (by decide) (by decide) (by decide) (by decide), fun hnumbers => ?_, ?_⟩
  · have henum := hnumbers.enumerates
      ⟨defaultPolicy, 0, 0, 0, Bitmask.alloc 0, Bitmask.alloc 0, []⟩
    exact absurd henum (by decide +kernel)
  exact ⟨_, _, rfl, List.mem_cons_of_mem _ List.mem_cons_self, by decide +kernel, by decide +kernel,
    by decide +kernel, by decide +kernel⟩

end SlurmSpank.Cpuset
