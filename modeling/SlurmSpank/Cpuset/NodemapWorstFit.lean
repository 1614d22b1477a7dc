import SlurmSpank.Cpuset.NodemapGreedy

/-! # Worst fit balances the nodes

Each turn of worst fit takes a CPU from a node that has the most. A node that has given a CPU
was one of these at that time, and since then no node has got more: no node is more than one CPU
ahead of it.
-/

namespace SlurmSpank.Cpuset

open Lib Relation

namespace Allocation

/-- No node is more than one CPU ahead of a node that gave one. -/
def Balanced (a : Allocation) : Prop :=
  ∀ n ∈ a.map.nodelist, (∃ cpu ∈ n.window, cpu ∈ a.allocatedCpus.bits) →
    ∀ other ∈ a.map.nodelist, other.navail ≤ n.navail + 1

variable {a b : Allocation}

/-- A visit to a node with the most CPUs, which gives one at most. -/
theorem balanced_visit {n : Node} {rest : List Node} {locals : Finset Nat}
    (hok : (a.setNodes (n :: rest)).Ok) (hsep : (a.setNodes (n :: rest)).Separate)
    (hbalanced : (a.setNodes (n :: rest)).Balanced)
    (hmax : ∀ other ∈ n :: rest, other.navail ≤ n.navail)
    (hlocals : ∀ i ∈ locals, i < n.ncpus ∧ nodeCpuToGlobal n i ∉ a.map.usedcpus.bits)
    (hcard : locals.card ≤ 1) :
    ((a.take (locals.image (nodeCpuToGlobal n))).setNodes (n.take locals :: rest)).Balanced := by
  have htaken := visit_subset_free hlocals
  have hnavail : (n.take locals).navail = n.navail - locals.card := rfl
  have hbits : (a.take (locals.image (nodeCpuToGlobal n))).allocatedCpus.bits =
      a.allocatedCpus.bits ∪ locals.image (nodeCpuToGlobal n) :=
    take_allocated_bits hok List.mem_cons_self (htaken.trans Finset.sdiff_subset)
  intro served hserved hgave other hother
  rcases List.mem_cons.mp hserved with rfl | hrest
  · -- the node of this turn had the most
    rcases List.mem_cons.mp hother with rfl | hother
    · omega
    · have hle := hmax other (List.mem_cons_of_mem _ hother)
      omega
  · -- another node gave its CPU before
    have hbefore : ∃ cpu ∈ served.window, cpu ∈ a.allocatedCpus.bits := by
      obtain ⟨cpu, hwindow, hcpu⟩ := hgave
      have hcpu : cpu ∈ a.allocatedCpus.bits ∪ locals.image (nodeCpuToGlobal n) := hbits ▸ hcpu
      refine ⟨cpu, hwindow, (Finset.mem_union.mp hcpu).resolve_right fun hnew => ?_⟩
      have hfree := htaken hnew
      have happart := (List.pairwise_cons.mp hsep.apart).1 served hrest
      exact Finset.disjoint_left.mp happart hfree
        (Finset.mem_sdiff.mpr ⟨hwindow, (Finset.mem_sdiff.mp hfree).2⟩)
    have hall := hbalanced served (List.mem_cons_of_mem _ hrest) hbefore
    rcases List.mem_cons.mp hother with rfl | hother
    · have hle := hall n List.mem_cons_self
      omega
    · exact hall other (List.mem_cons_of_mem _ hother)

theorem balanced_reorder {nodes : List Node} (hperm : nodes.Perm a.map.nodelist)
    (hbalanced : a.Balanced) : (a.setNodes nodes).Balanced := by
  intro n hn hgave other hother
  exact hbalanced n (hperm.mem_iff.mp hn) hgave other (hperm.mem_iff.mp hother)

/-- One turn keeps the balance. -/
theorem worstFitTurn_balanced {rc : Int} (hok : a.Ok) (hsep : a.Separate)
    (hbalanced : a.Balanced) (hturn : worstFitTurn a = some (b, rc)) : b.Balanced := by
  cases hsort : listSort nodeCmpAvail a.map.nodelist with
  | nil =>
      unfold worstFitTurn sortNodes at hturn
      rw [hsort] at hturn
      cases hturn
  | cons n rest =>
      have hstep := a.sortNodes_step nodeCmpAvail
      have hok' := hstep.ok hok
      have hsep' := hstep.separate hok hsep
      have hbalanced' := balanced_reorder (listSort_perm nodeCmpAvail a.map.nodelist) hbalanced
      have hsorted := listSort_sorted nodeCmpAvail_lt a.map.nodelist
      unfold sortNodes at hok' hsep'
      rw [hsort] at hok' hsep' hbalanced' hsorted
      rw [(worstFitTurn_eq hok hsort).1] at hturn
      cases hturn
      refine balanced_visit hok' hsep' hbalanced' ?_ Node.picks_free ?_
      · intro other hother
        rcases List.mem_cons.mp hother with rfl | hrest
        · exact le_rfl
        · have hle := (List.pairwise_cons.mp hsorted).1 other hrest
          omega
      · have hcard := n.card_picks a 1
        rw [if_neg (by decide)] at hcard
        omega

/-- All turns keep the balance. -/
theorem worstFit_balanced (fuel : Nat) (hok : a.Ok) (hsep : a.Separate) (hbalanced : a.Balanced)
    (hfit : allocationWorstFit fuel a = some b) : b.Balanced := by
  induction fuel generalizing a with
  | zero =>
      unfold allocationWorstFit at hfit
      split at hfit
      next => cases hfit
      next =>
        cases hfit
        exact hbalanced
  | succ fuel ih =>
      unfold allocationWorstFit at hfit
      split at hfit
      next =>
        split at hfit
        next => cases hfit
        next c rc hturn =>
          have hnext := worstFitTurn_balanced hok hsep hbalanced hturn
          obtain ⟨hchain, _⟩ := worstFitTurn_spec hok hturn
          split at hfit
          next =>
            cases hfit
            exact hnext
          next => exact ih (chain_ok hok hchain) (chain_separate hok hsep hchain) hnext hfit
      next =>
        cases hfit
        exact hbalanced

end Allocation

section Call

variable {m : Nodemap} {conf : CpusetConf} {ncpus : Int}

/-- Every free CPU belongs to a node. -/
def Nodemap.Covered (m : Nodemap) : Prop :=
  ∀ cpu < m.ncpus, cpu ∉ m.usedcpus.bits → ∃ n ∈ m.nodelist, cpu ∈ n.localcpus.bits

theorem Nodemap.Blocks.sound (hblocks : m.Blocks) (hpolicy : m.policy = policyOf conf)
    (hcovered : m.Covered) : m.Sound conf where
  ok := hblocks.ok
  separate := hblocks.separate
  policy_eq := hpolicy
  covers cpu hlt hfree := by
    obtain ⟨n, hn, hcpu⟩ := hcovered cpu hlt hfree
    exact Nodemap.mem_reach.mpr ⟨n, hn, (hblocks.window_eq hn).symm ▸ hcpu⟩

/-- A fresh map over nodes that cover the free CPUs. -/
theorem nodemapCreate_covered {numa : Numa} {usage : Finset Nat} {cpus : Bitmask}
    (hlayout : Layout numa cpus) (hcovers : ∀ cpu < numa.cpumaskSize, cpu ∉ usage →
      ∃ id ∈ listedNodes numa cpus, cpu ∈ numa.localcpus id)
    (hcreate : nodemapCreate numa conf none
      (some (Bitmask.ofFinset numa.cpumaskSize usage)) cpus = some m) : m.Covered := by
  obtain ⟨-, hncpus, hused⟩ := nodemapCreate_ofFinset_ok hcreate
  obtain ⟨-, -, -, -, map, -, hnodes⟩ := nodemapCreate_eq hcreate
  intro cpu hlt hfree
  obtain ⟨id, hid, hcpu⟩ := hcovers cpu (hncpus ▸ hlt) fun hmem => hfree ((hused cpu hlt).mpr hmem)
  refine ⟨nodeCreate numa map id, ?_, ?_⟩
  · rw [hnodes, List.mem_reverse]
    exact List.mem_map_of_mem hid
  · rw [hlayout.localcpus_bits hid]
    exact hcpu

/-- Nodes stay blocks, whatever is charged to them. -/
theorem Nodemap.Blocks.window_eq_of_granted (hblocks : m.Blocks) {mask : Bitmask} {m' : Nodemap}
    (hgranted : m.Granted mask m') {n : Node} (hn : n ∈ m'.nodelist) :
    n.window = n.localcpus.bits := by
  obtain ⟨before, hbefore, hshape⟩ :=
    List.mem_map.mp (hgranted.shapes.mem_iff.mp (List.mem_map_of_mem hn))
  have hlocal : before.localcpus = n.localcpus := (Prod.mk.inj (Prod.mk.inj hshape).2).2
  rw [← Node.window_eq_of_shape hshape, hblocks.window_eq hbefore, hlocal]

/-- Without the idle phase, worst fit returns when every free CPU belongs to a node, and then
no node has two CPUs more than a node that gave one. -/
theorem nodemapAllocate_worstFit_balanced (hblocks : m.Blocks) (hpolicy : m.policy = policyOf conf)
    (hworst : conf.policy = .worstFit) (hpos : 0 < ncpus) (hle : ncpus ≤ m.navail)
    (hidle : shouldAllocateIdleNodes m ncpus = false) :
    (m.Covered → ∃ mask m', Returns m ncpus (some mask) m' ∧ (mask.weight : Int) = ncpus) ∧
      ∀ mask m', Returns m ncpus (some mask) m' → ∀ n ∈ m'.nodelist,
        (∃ cpu ∈ n.localcpus.bits, cpu ∈ mask.bits) →
          ∀ other ∈ m'.nodelist, other.navail ≤ n.navail + 1 := by
  refine ⟨fun hcovered => ?_, ?_⟩
  · have hsound := hblocks.sound hpolicy hcovered
    obtain ⟨answer, m', hcall⟩ := hsound.returns hpos.le
    obtain ⟨mask, rfl, -, hweight⟩ := hsound.grants hpos.le hle hcall
    exact ⟨mask, m', hcall, hweight⟩
  · intro mask m' hreturns n hn hgave other hother
    obtain ⟨fuel, hcall⟩ := hreturns
    obtain ⟨mask', hmask, hgranted, -⟩ :=
      nodemapAllocate_grants hblocks.ok hpolicy hpos.le hle hcall
    cases hmask
    rw [nodemapAllocate_eq hle, allocationStart_of_not_idle hidle] at hcall
    obtain ⟨b, hb, hresult⟩ := Option.map_eq_some_iff.mp hcall
    cases hresult
    have hstep := (allocationCreate m ncpus).sortNodes_step m.cmpIds
    have hcreate := hblocks.ok.allocation hpos.le
    have hsep := hstep.separate hcreate ⟨hblocks.exact, hblocks.separate.apart⟩
    have hfit : allocationWorstFit fuel ((allocationCreate m ncpus).sortNodes m.cmpIds) =
        some b := by
      have hflags : ((allocationCreate m ncpus).sortNodes m.cmpIds).map.policy = policyOf conf :=
        hpolicy
      have hleft : ((allocationCreate m ncpus).sortNodes m.cmpIds).nleft > 0 := hpos
      unfold allocateByPolicy at hb
      rw [if_pos hleft, hflags] at hb
      simpa only [policyOf, hworst, reduceCtorEq, decide_false, decide_true, Bool.false_eq_true,
        if_false, if_true] using hb
    have hbalanced := Allocation.worstFit_balanced fuel (hstep.ok hcreate) hsep
      (fun _ _ hnone => absurd hnone.choose_spec.2 (Finset.notMem_empty _)) hfit
    rw [← hblocks.window_eq_of_granted hgranted hn] at hgave
    exact hbalanced n hn hgave other hother

end Call

/-- Worst fit without an idle phase. -/
def worstFitConf : CpusetConf :=
  { cpusetConfCreate with policy := .worstFit, allocIdleNodes := false }

/-- Two CPUs of two nodes, where CPU 0 is in use. -/
theorem nodemapAllocate_worstFit_balanced_twoNodes : ∃ m mask m',
    nodemapCreate (twoNodes {0, 1} {2, 3}) worstFitConf none
      (some (Bitmask.ofFinset 4 {0})) (Bitmask.ofFinset 4 {0, 1, 2, 3}) = some m ∧
    Returns m 2 (some mask) m' ∧ ∀ n ∈ m'.nodelist,
      (∃ cpu ∈ n.localcpus.bits, cpu ∈ mask.bits) →
        ∀ other ∈ m'.nodelist, other.navail ≤ n.navail + 1 := by
  obtain ⟨m, hcreate⟩ : ∃ m, nodemapCreate (twoNodes {0, 1} {2, 3}) worstFitConf none
      (some (Bitmask.ofFinset 4 {0})) (Bitmask.ofFinset 4 {0, 1, 2, 3}) = some m := ⟨_, rfl⟩
  have hfacts : (nodemapCreate (twoNodes {0, 1} {2, 3}) worstFitConf none
      (some (Bitmask.ofFinset 4 {0})) (Bitmask.ofFinset 4 {0, 1, 2, 3})).map (fun m =>
        (m.navail, shouldAllocateIdleNodes m 2)) = some (3, false) := by decide +kernel
  rw [hcreate, Option.map_some, Option.some_inj] at hfacts
  obtain ⟨hnavail, hidle⟩ := Prod.mk.inj hfacts
  have hblocks : m.Blocks := nodemapCreate_blocks
    (twoNodes_layout _ (by decide) (by decide) (by decide) (by decide)) twoNodes_blocks hcreate
  have hcovered : m.Covered := nodemapCreate_covered
    (twoNodes_layout _ (by decide) (by decide) (by decide) (by decide)) (by decide) hcreate
  obtain ⟨hreturns, hbalanced⟩ := nodemapAllocate_worstFit_balanced hblocks
    (nodemapCreate_eq hcreate).1 rfl (by decide : (0 : Int) < 2) (by omega) hidle
  obtain ⟨mask, m', hcall, _⟩ := hreturns hcovered
  exact ⟨m, mask, m', hcreate, hcall, hbalanced mask m' hcall⟩

end SlurmSpank.Cpuset
