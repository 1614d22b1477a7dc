import SlurmSpank.Cpuset.NodemapTraversal

/-! # One call of `nodemap_allocate`

What a call grants on an arbitrary layout of the machine: CPUs that were free and that
some node can reach, under best and first fit as many as asked for if that many can be
reached. Worst fit grants the whole request whenever it returns, and returns when no CPU
is in reach of two nodes.
-/

namespace SlurmSpank.Cpuset

open Lib Relation

namespace Nodemap

/-- The sizes and the counter of the map agree, and its nodes are sound. -/
structure Ok (m : Nodemap) : Prop where
  used_size : m.usedcpus.size = m.ncpus
  navail_eq : m.navail = m.ncpus - m.usedcpus.weight
  nodes : ∀ n ∈ m.nodelist, n.Ok m.usedcpus

/-- The masks of the nodes are exact, and no free CPU is in reach of two of them. -/
structure Separate (m : Nodemap) : Prop where
  exact : ∀ n ∈ m.nodelist, n.Exact m.usedcpus.bits
  apart : m.nodelist.Pairwise fun n m' =>
    Disjoint (n.window \ m.usedcpus.bits) (m'.window \ m.usedcpus.bits)

/-- The free CPUs that some node can reach. -/
def reachable (m : Nodemap) : Finset Nat := m.reach \ m.usedcpus.bits

/-- The map after a call that granted a set of CPUs. -/
structure Granted (m : Nodemap) (mask : Bitmask) (m' : Nodemap) : Prop where
  size_eq : mask.size = m.ncpus
  subset : mask.bits ⊆ m.reachable
  used_eq : m'.usedcpus.bits = m.usedcpus.bits ∪ mask.bits
  ok : m'.Ok
  ncpus_eq : m'.ncpus = m.ncpus
  policy_eq : m'.policy = m.policy
  shapes : (m'.nodelist.map Node.shape).Perm (m.nodelist.map Node.shape)
  separate : m.Separate → m'.Separate

theorem Ok.navail_nonneg {m : Nodemap} (hok : m.Ok) : 0 ≤ m.navail := by
  have hle := m.usedcpus.weight_le_size
  rw [hok.used_size] at hle
  rw [hok.navail_eq]
  omega

theorem Ok.allocation {m : Nodemap} (hok : m.Ok) {ncpus : Int} (hncpus : 0 ≤ ncpus) :
    (allocationCreate m ncpus).Ok where
  used_size := hok.used_size
  mask_size := rfl
  navail_eq := hok.navail_eq
  nleft_nonneg := hncpus
  nodes := hok.nodes

end Nodemap

namespace Allocation

variable {a b : Allocation}

theorem allocateByPolicy_chain {fuel : Nat} (hok : a.Ok)
    (hresult : allocateByPolicy fuel a = some b) : ReflTransGen Step a b := by
  unfold allocateByPolicy at hresult
  split_ifs at hresult
  · exact Option.some.inj hresult ▸ doAllocation_chain _ hok
  · exact Option.some.inj hresult ▸ doAllocation_chain _ hok
  · exact (worstFit_chain fuel hok hresult).1
  · exact Option.some.inj hresult ▸ .refl
  · exact Option.some.inj hresult ▸ .refl

/-- The policy step ends with nothing left to take, or, unless the policy is worst fit,
with nothing left to reach. -/
theorem allocateByPolicy_exhausts {fuel : Nat} {conf : CpusetConf} (hok : a.Ok)
    (hpolicy : a.map.policy = policyOf conf) (hresult : allocateByPolicy fuel a = some b) :
    b.nleft = 0 ∨ conf.policy ≠ .worstFit ∧ a.map.reach ⊆ b.map.usedcpus.bits := by
  have hnonneg := hok.nleft_nonneg
  unfold allocateByPolicy at hresult
  rw [hpolicy] at hresult
  simp only [policyOf, decide_eq_true_eq] at hresult
  split at hresult
  · cases hfit : conf.policy with
    | bestFit =>
        simp only [hfit, ↓reduceIte, Option.some.injEq] at hresult
        subst b
        exact (doAllocation_exhausts _ hok).imp_right fun h => ⟨by simp, h⟩
    | firstFit =>
        simp only [hfit, reduceCtorEq, ↓reduceIte, Option.some.injEq] at hresult
        subst b
        exact (doAllocation_exhausts _ hok).imp_right fun h => ⟨by simp, h⟩
    | worstFit =>
        simp only [hfit, reduceCtorEq, ↓reduceIte] at hresult
        exact Or.inl (worstFit_chain fuel hok hresult).2
  · obtain rfl := Option.some.inj hresult
    left
    omega

theorem allocateByPolicy_returns {fuel : Nat} {conf : CpusetConf} (hok : a.Ok)
    (hpolicy : a.map.policy = policyOf conf)
    (hworst : conf.policy = .worstFit →
      a.Separate ∧ a.nleft ≤ (a.map.reach \ a.map.usedcpus.bits).card ∧ a.nleft ≤ fuel) :
    ∃ b, allocateByPolicy fuel a = some b := by
  unfold allocateByPolicy
  rw [hpolicy]
  simp only [policyOf, decide_eq_true_eq]
  split
  · cases hfit : conf.policy with
    | bestFit => exact ⟨allocationBestFit a, by simp⟩
    | firstFit => exact ⟨allocationFirstFit a, by simp⟩
    | worstFit =>
        obtain ⟨hsep, hreach, hfuel⟩ := hworst hfit
        simpa using worstFit_terminates fuel hok hsep hreach hfuel
  · exact ⟨a, rfl⟩

end Allocation

/-! ## The whole call -/

section Call

variable {m m' : Nodemap} {ncpus : Int} {fuel : Nat}

/-- The allocation that the policy step of a call starts from. -/
def allocationStart (m : Nodemap) (ncpus : Int) : Allocation :=
  let cmp := if !m.policy.reverse then nodeCmpNodeid else nodeCmpReverse
  let a := (allocationCreate m ncpus).sortNodes cmp
  if shouldAllocateIdleNodes a.map ncpus then (allocIdleNodes a).1 else a

theorem nodemapAllocate_eq (hle : ncpus ≤ m.navail) :
    nodemapAllocate fuel m ncpus = (allocateByPolicy fuel (allocationStart m ncpus)).map
      fun a => (some a.allocatedCpus, a.map) := by
  rw [nodemapAllocate, if_neg (by omega)]
  rfl

theorem nodemapAllocate_refuses (hgt : ncpus > m.navail) :
    nodemapAllocate fuel m ncpus = some (none, m) := by
  rw [nodemapAllocate, if_pos hgt]

theorem allocationStart_chain (hok : m.Ok) (hncpus : 0 ≤ ncpus) :
    ReflTransGen Allocation.Step (allocationCreate m ncpus) (allocationStart m ncpus) := by
  unfold allocationStart
  obtain ⟨cmp, hcmp⟩ : ∃ cmp, cmp = if !m.policy.reverse then nodeCmpNodeid else nodeCmpReverse :=
    ⟨_, rfl⟩
  have hsort := (allocationCreate m ncpus).sortNodes_step cmp
  rw [← hcmp]
  dsimp only
  split
  · exact .head hsort (Allocation.allocIdleNodes_chain (hsort.ok (hok.allocation hncpus)))
  · exact .single hsort

theorem Allocation.Grown.policy_eq {a b : Allocation} {cpus : Finset Nat}
    (hgrown : a.Grown b cpus) :
    b.map.policy = a.map.policy := by
  rw [hgrown.taken]
  rfl

/-- A chain from a fresh allocation to its end is a grant of what it took. -/
theorem granted_of_chain {b : Allocation} (hok : m.Ok) (hncpus : 0 ≤ ncpus)
    (hchain : ReflTransGen Allocation.Step (allocationCreate m ncpus) b) :
    m.Granted b.allocatedCpus b.map ∧ b.nleft = ncpus - b.allocatedCpus.weight := by
  have hstart := hok.allocation hncpus
  obtain ⟨cpus, hgrown⟩ := Allocation.chain_grown hstart hchain
  have hb := Allocation.chain_ok hstart hchain
  have hsub : cpus ⊆ m.reachable := Finset.subset_sdiff.mpr ⟨hgrown.reach, hgrown.free⟩
  have hbits : b.allocatedCpus.bits = cpus := by
    rw [hgrown.taken]
    change (Bitmask.add (Bitmask.alloc m.ncpus) cpus).bits = cpus
    rw [Bitmask.add_bits, Bitmask.alloc_bits, Finset.empty_union]
    intro cpu hcpu
    obtain ⟨n, hn, hwindow⟩ := Nodemap.mem_reach.mp (hgrown.reach hcpu)
    exact hok.used_size ▸ (hok.nodes n hn).window_lt hwindow
  have hncpus_eq : b.map.ncpus = m.ncpus := by rw [hgrown.taken]; rfl
  refine ⟨⟨hb.mask_size.trans hncpus_eq, hbits ▸ hsub, ?_, ?_, hncpus_eq, ?_, hgrown.shapes, ?_⟩,
    ?_⟩
  · rw [hbits]
    exact hgrown.used_bits hstart
  · exact ⟨hb.used_size, hb.navail_eq, hb.nodes⟩
  · exact hgrown.policy_eq
  · intro hsep
    have hsep' := Allocation.chain_separate hstart ⟨hsep.exact, hsep.apart⟩ hchain
    exact ⟨hsep'.exact, hsep'.apart⟩
  · rw [hgrown.nleft_eq, Bitmask.weight, hbits]
    rfl

/-- A call that returns with a mask grants it. Best and first fit grant the request or all
that can be reached; worst fit grants the request. -/
theorem nodemapAllocate_grants {conf : CpusetConf} {answer : Option Bitmask} (hok : m.Ok)
    (hpolicy : m.policy = policyOf conf) (hncpus : 0 ≤ ncpus) (hle : ncpus ≤ m.navail)
    (hcall : nodemapAllocate fuel m ncpus = some (answer, m')) :
    ∃ mask, answer = some mask ∧ m.Granted mask m' ∧ (mask.weight : Int) =
      if conf.policy = .worstFit then ncpus else min ncpus m.reachable.card := by
  rw [nodemapAllocate_eq hle] at hcall
  obtain ⟨b, hb, hresult⟩ := Option.map_eq_some_iff.mp hcall
  simp only [Prod.mk.injEq] at hresult
  obtain ⟨rfl, rfl⟩ := hresult
  have hstart := allocationStart_chain hok hncpus
  have hcreate := hok.allocation hncpus
  have hstartOk := Allocation.chain_ok hcreate hstart
  have hchain := hstart.trans (Allocation.allocateByPolicy_chain hstartOk hb)
  obtain ⟨hgranted, hleft⟩ := granted_of_chain hok hncpus hchain
  obtain ⟨first, hfirst⟩ := Allocation.chain_grown hcreate hstart
  refine ⟨b.allocatedCpus, rfl, hgranted, ?_⟩
  have hcard : b.allocatedCpus.weight ≤ m.reachable.card := Finset.card_le_card hgranted.subset
  have hnonneg := (Allocation.chain_ok hcreate hchain).nleft_nonneg
  have hpolicy' : (allocationStart m ncpus).map.policy = policyOf conf :=
    hfirst.policy_eq.trans hpolicy
  rcases Allocation.allocateByPolicy_exhausts hstartOk hpolicy' hb with hzero | ⟨hfit, hall⟩
  · split <;> omega
  · rw [if_neg hfit]
    rw [Allocation.reach_eq_of_shapes hfirst.shapes] at hall
    have hfull : m.reachable ⊆ b.allocatedCpus.bits := by
      intro cpu hcpu
      obtain ⟨hreach, hfree⟩ := Finset.mem_sdiff.mp hcpu
      have hused := hall hreach
      rw [hgranted.used_eq, Finset.mem_union] at hused
      exact hused.resolve_left hfree
    have hge : m.reachable.card ≤ b.allocatedCpus.weight := Finset.card_le_card hfull
    omega

/-- A call returns, under worst fit if the nodes are separate, enough CPUs can be reached
and the loop may take that many turns. -/
theorem nodemapAllocate_returns {conf : CpusetConf} (hok : m.Ok)
    (hpolicy : m.policy = policyOf conf) (hncpus : 0 ≤ ncpus) (hle : ncpus ≤ m.navail)
    (hworst : conf.policy = .worstFit →
      m.Separate ∧ ncpus ≤ m.reachable.card ∧ ncpus ≤ fuel) :
    ∃ answer m', nodemapAllocate fuel m ncpus = some (answer, m') := by
  have hcreate := hok.allocation hncpus
  have hstart := allocationStart_chain hok hncpus
  obtain ⟨first, hfirst⟩ := Allocation.chain_grown hcreate hstart
  obtain ⟨b, hb⟩ : ∃ b, allocateByPolicy fuel (allocationStart m ncpus) = some b := by
    refine Allocation.allocateByPolicy_returns (Allocation.chain_ok hcreate hstart)
      (hfirst.policy_eq.trans hpolicy) fun hfit => ?_
    obtain ⟨hsep, hreach, hfuel⟩ := hworst hfit
    have hleft := hfirst.nleft_eq
    refine ⟨Allocation.chain_separate hcreate ⟨hsep.exact, hsep.apart⟩ hstart, ?_, ?_⟩
    · have hrest : (allocationStart m ncpus).map.reach \
          (allocationStart m ncpus).map.usedcpus.bits = m.reachable \ first := by
        rw [Allocation.reach_eq_of_shapes hfirst.shapes, hfirst.used_bits hcreate]
        exact sdiff_sdiff_left.symm
      have hsub : first ⊆ m.reachable := Finset.subset_sdiff.mpr ⟨hfirst.reach, hfirst.free⟩
      have hcard := Finset.card_le_card hsub
      rw [hrest, Finset.card_sdiff_of_subset hsub, hleft]
      change ncpus - _ ≤ _
      omega
    · rw [hleft]
      change ncpus - _ ≤ _
      omega
  exact ⟨_, _, by rw [nodemapAllocate_eq hle, hb]; rfl⟩

/-- A request for no CPU, or for a negative number of them, is granted the empty mask. -/
theorem nodemapAllocate_nonpos (hok : m.Ok) (hncpus : ncpus ≤ 0) :
    ∃ m', nodemapAllocate fuel m ncpus = some (some (Bitmask.alloc m.ncpus), m') := by
  have hidle : ∀ (nodes : List Node) (a : Allocation) (k : Int), a.nleft ≤ 0 →
      allocIdleLoop nodes a k = (nodes, a, k) := by
    intro nodes a k hleft
    cases nodes with
    | nil => rfl
    | cons n rest => rw [allocIdleLoop, if_neg (by omega)]
  have hstart : ∃ nodes, allocationStart m ncpus = (allocationCreate m ncpus).setNodes nodes := by
    unfold allocationStart allocIdleNodes
    obtain ⟨cmp, hcmp⟩ : ∃ cmp, cmp =
      if !m.policy.reverse then nodeCmpNodeid else nodeCmpReverse := ⟨_, rfl⟩
    rw [← hcmp]
    dsimp only
    split
    · rw [hidle _ _ _ hncpus]
      exact ⟨_, rfl⟩
    · exact ⟨_, rfl⟩
  obtain ⟨nodes, hnodes⟩ := hstart
  refine ⟨((allocationCreate m ncpus).setNodes nodes).map, ?_⟩
  rw [nodemapAllocate_eq (hncpus.trans hok.navail_nonneg), hnodes, allocateByPolicy, if_neg]
  · rfl
  · exact not_lt.mpr hncpus

end Call

end SlurmSpank.Cpuset
