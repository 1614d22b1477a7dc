import SlurmSpank.Cpuset.NodemapCreate
import SlurmSpank.Foundation.Pool

/-! # Sequences of allocations on one map

A map over contiguous nodes is an exact pool of CPUs: each request is granted in full or
refused, whatever the policy and whatever was allocated before.
-/

namespace SlurmSpank.Cpuset

open Foundation

/-- A call of `nodemap_allocate` returns: some number of turns of the worst-fit loop is
enough for it. -/
def Returns (m : Nodemap) (ncpus : Int) (answer : Option Bitmask) (m' : Nodemap) : Prop :=
  ∃ fuel, nodemapAllocate fuel m ncpus = some (answer, m')

/-- A call with a count that is not negative, labelled with the count and the answer. -/
def AllocateCall (m : Nodemap) (call : Int × Option Bitmask) (m' : Nodemap) : Prop :=
  0 ≤ call.1 ∧ Returns m call.1 call.2 m'

/-! ## Answers do not depend on the fuel -/

theorem allocationWorstFit_mono {fuel more : Nat} {a b : Allocation} (hle : fuel ≤ more)
    (hfit : allocationWorstFit fuel a = some b) : allocationWorstFit more a = some b := by
  induction fuel generalizing more a with
  | zero =>
      rw [allocationWorstFit] at hfit
      split at hfit
      next => cases hfit
      next hzero =>
        cases more with
        | zero => rw [allocationWorstFit, if_neg hzero, hfit]
        | succ more => rw [allocationWorstFit, if_neg hzero, hfit]
  | succ fuel ih =>
      obtain ⟨more, rfl⟩ : ∃ k, more = k + 1 := ⟨more - 1, by omega⟩
      rw [allocationWorstFit] at hfit ⊢
      split at hfit
      next hleft =>
        rw [if_pos hleft]
        split at hfit
        next => cases hfit
        next next rc hturn =>
          split at hfit
          next hneg => simpa [hneg] using hfit
          next hneg => simpa [hneg] using ih (by omega) hfit
      next hzero => rw [if_neg hzero, hfit]

theorem nodemapAllocate_mono {fuel more : Nat} {m : Nodemap} {ncpus : Int}
    {result : Option Bitmask × Nodemap} (hle : fuel ≤ more)
    (hcall : nodemapAllocate fuel m ncpus = some result) :
    nodemapAllocate more m ncpus = some result := by
  by_cases hfits : ncpus ≤ m.navail
  · rw [nodemapAllocate_eq hfits] at hcall ⊢
    obtain ⟨b, hb, rfl⟩ := Option.map_eq_some_iff.mp hcall
    refine Option.map_eq_some_iff.mpr ⟨b, ?_, rfl⟩
    unfold allocateByPolicy at hb ⊢
    split_ifs at hb ⊢
    · exact hb
    · exact hb
    · exact allocationWorstFit_mono hle hb
    · exact hb
    · exact hb
  · rw [nodemapAllocate_refuses (by omega)] at hcall ⊢
    exact hcall

/-- A call has one answer. -/
theorem Returns.unique {m first second : Nodemap} {ncpus : Int}
    {answer other : Option Bitmask} (hfirst : Returns m ncpus answer first)
    (hsecond : Returns m ncpus other second) : answer = other ∧ first = second := by
  obtain ⟨fuel, hfuel⟩ := hfirst
  obtain ⟨more, hmore⟩ := hsecond
  have hleft := nodemapAllocate_mono (Nat.le_max_left fuel more) hfuel
  have hright := nodemapAllocate_mono (Nat.le_max_right fuel more) hmore
  rw [hleft] at hright
  simpa using hright

/-! ## Layouts -/

/-- What every layout of the machine promises: the listed nodes have CPUs, and no CPU
belongs to two of them. -/
structure Layout (numa : Numa) (cpus : Bitmask) : Prop where
  nonempty : ∀ id ∈ listedNodes numa cpus, (numa.localcpus id).Nonempty
  inside : ∀ id ∈ listedNodes numa cpus, ∀ cpu ∈ numa.localcpus id, cpu < numa.cpumaskSize
  disjoint : ∀ id ∈ listedNodes numa cpus, ∀ other ∈ listedNodes numa cpus, id ≠ other →
    Disjoint (numa.localcpus id) (numa.localcpus other)

section Fresh

variable {numa : Numa} {conf : CpusetConf} {usage : Finset Nat} {cpus : Bitmask} {m : Nodemap}

theorem Layout.localcpus_bits (hlayout : Layout numa cpus) {id : Nat}
    (hid : id ∈ listedNodes numa cpus) (map : Nodemap) :
    (nodeCreate numa map id).localcpus.bits = numa.localcpus id := by
  rw [nodeCreate_localcpus, Bitmask.ofFinset_bits_of_lt (hlayout.inside id hid)]

theorem Layout.window_eq (hlayout : Layout numa cpus) {id : Nat}
    (hid : id ∈ listedNodes numa cpus) (map : Nodemap) :
    (nodeCreate numa map id).window = spread (numa.localcpus id) := by
  rw [Node.window_eq_spread nodeCreate_ncpus, hlayout.localcpus_bits hid map]

/-- A fresh map reaches the spreads of the listed nodes. -/
theorem Layout.reach_eq (hlayout : Layout numa cpus)
    (hcreate : nodemapCreate numa conf none
      (some (Bitmask.ofFinset numa.cpumaskSize usage)) cpus = some m) :
    m.reach = (listedNodes numa cpus).toFinset.biUnion fun id => spread (numa.localcpus id) := by
  obtain ⟨-, -, -, -, map, -, hnodes⟩ := nodemapCreate_eq hcreate
  ext cpu
  rw [Nodemap.mem_reach, hnodes, Finset.mem_biUnion]
  simp only [List.mem_reverse, List.mem_map, List.mem_toFinset]
  constructor
  · rintro ⟨n, ⟨id, hid, rfl⟩, hcpu⟩
    exact ⟨id, hid, hlayout.window_eq hid map ▸ hcpu⟩
  · rintro ⟨id, hid, hcpu⟩
    exact ⟨_, ⟨id, hid, rfl⟩, hlayout.window_eq hid map ▸ hcpu⟩

theorem nodemapCreate_ofFinset_ok
    (hcreate : nodemapCreate numa conf none
      (some (Bitmask.ofFinset numa.cpumaskSize usage)) cpus = some m) :
    m.Ok ∧ m.ncpus = numa.cpumaskSize ∧ ∀ cpu < m.ncpus, cpu ∈ m.usedcpus.bits ↔ cpu ∈ usage := by
  obtain ⟨-, hncpus, hused, -⟩ := nodemapCreate_eq hcreate
  refine ⟨(nodemapCreate_ok (Bitmask.ofFinset_size _ _) hcreate).1, hncpus, fun cpu hcpu => ?_⟩
  rw [hused, Bitmask.mem_ofFinset, and_iff_left (hncpus ▸ hcpu)]

end Fresh

/-! ## Contiguous nodes -/

/-- What holds of a map over contiguous nodes, whatever was allocated from it: it is sound,
no free CPU is in reach of two nodes, and every free CPU is in reach of one. -/
structure Nodemap.Sound (conf : CpusetConf) (m : Nodemap) : Prop where
  ok : m.Ok
  separate : m.Separate
  policy_eq : m.policy = policyOf conf
  covers : ∀ cpu < m.ncpus, cpu ∉ m.usedcpus.bits → cpu ∈ m.reach

namespace Nodemap.Sound

variable {conf : CpusetConf} {m m' : Nodemap} {ncpus : Int} {answer : Option Bitmask}

theorem reachable_eq (hsound : m.Sound conf) :
    m.reachable = Finset.range m.ncpus \ m.usedcpus.bits := by
  ext cpu
  simp only [Nodemap.reachable, Finset.mem_sdiff, Finset.mem_range]
  refine and_congr_left fun hfree => ⟨fun hreach => ?_, fun hlt => hsound.covers cpu hlt hfree⟩
  obtain ⟨n, hn, hwindow⟩ := Nodemap.mem_reach.mp hreach
  exact hsound.ok.used_size ▸ (hsound.ok.nodes n hn).window_lt hwindow

theorem card_reachable (hsound : m.Sound conf) : (m.reachable.card : Int) = m.navail := by
  have hle := m.usedcpus.weight_le_size
  rw [hsound.ok.used_size] at hle
  rw [hsound.reachable_eq, hsound.ok.navail_eq,
    Finset.card_sdiff_of_subset (hsound.ok.used_size ▸ m.usedcpus.bits_subset_range),
    Finset.card_range]
  unfold Bitmask.weight at hle ⊢
  omega

/-- Every request returns. -/
theorem returns (hsound : m.Sound conf) (hncpus : 0 ≤ ncpus) :
    ∃ answer m', Returns m ncpus answer m' := by
  by_cases hle : ncpus ≤ m.navail
  · have hreach := hsound.card_reachable
    obtain ⟨answer, m', hcall⟩ := @nodemapAllocate_returns m ncpus ncpus.toNat conf hsound.ok
      hsound.policy_eq hncpus hle fun _ => ⟨hsound.separate, by omega, by omega⟩
    exact ⟨answer, m', _, hcall⟩
  · exact ⟨none, m, 0, nodemapAllocate_refuses (by omega)⟩

/-- A request that the map has room for is granted in full. -/
theorem grants (hsound : m.Sound conf) (hncpus : 0 ≤ ncpus) (hle : ncpus ≤ m.navail)
    (hcall : Returns m ncpus answer m') :
    ∃ mask, answer = some mask ∧ m.Granted mask m' ∧ (mask.weight : Int) = ncpus := by
  obtain ⟨fuel, hfuel⟩ := hcall
  obtain ⟨mask, hanswer, hgranted, hweight⟩ :=
    nodemapAllocate_grants hsound.ok hsound.policy_eq hncpus hle hfuel
  refine ⟨mask, hanswer, hgranted, ?_⟩
  rw [hweight, hsound.card_reachable]
  split <;> omega

theorem refuses (hgt : ncpus > m.navail) (hcall : Returns m ncpus answer m') :
    answer = none ∧ m' = m := by
  obtain ⟨fuel, hfuel⟩ := hcall
  rw [nodemapAllocate_refuses hgt] at hfuel
  obtain ⟨rfl, rfl⟩ := Prod.mk.inj (Option.some.inj hfuel)
  exact ⟨rfl, rfl⟩

theorem granted (hsound : m.Sound conf) {mask : Bitmask} (hgranted : m.Granted mask m') :
    m'.Sound conf where
  ok := hgranted.ok
  separate := hgranted.separate hsound.separate
  policy_eq := hgranted.policy_eq.trans hsound.policy_eq
  covers cpu hlt hfree := by
    rw [hgranted.used_eq, Finset.mem_union, not_or] at hfree
    rw [Allocation.reach_eq_of_shapes hgranted.shapes]
    exact hsound.covers cpu (hgranted.ncpus_eq ▸ hlt) hfree.1

/-- A call acts on the CPUs in use as a request to a pool, and leaves the map sound. -/
theorem call (hsound : m.Sound conf) {request : Int × Option Bitmask}
    (hcall : AllocateCall m request m') :
    Pool.Step m.usedcpus.bits (request.2.map Bitmask.bits) m'.usedcpus.bits ∧ m'.Sound conf := by
  obtain ⟨hncpus, hreturns⟩ := hcall
  by_cases hle : request.1 ≤ m.navail
  · obtain ⟨mask, hanswer, hgranted, -⟩ := hsound.grants hncpus hle hreturns
    rw [hanswer, hgranted.used_eq]
    refine ⟨.grant _ _ ?_, hsound.granted hgranted⟩
    exact Finset.disjoint_of_subset_left hgranted.subset Finset.sdiff_disjoint
  · obtain ⟨hanswer, rfl⟩ := refuses (by omega) hreturns
    rw [hanswer]
    exact ⟨.refuse _, hsound⟩

/-- Runs of calls are runs of a pool. -/
theorem run {start : Nodemap} (hstart : start.Sound conf) {calls : List (Int × Option Bitmask)}
    (hrun : Run AllocateCall start calls m) :
    m.Sound conf ∧ Run Pool.Step start.usedcpus.bits
      (calls.map fun call => call.2.map Bitmask.bits) m.usedcpus.bits := by
  obtain ⟨used, hpool, hsound, rfl⟩ := hrun.simulate
    (fun m used => m.Sound conf ∧ m.usedcpus.bits = used) (fun call => call.2.map Bitmask.bits)
    (fun before label after used hrelated hstep => by
      obtain ⟨hbefore, rfl⟩ := hrelated
      obtain ⟨hpool, hafter⟩ := hbefore.call hstep
      exact ⟨_, hpool, hafter, rfl⟩)
    ⟨hstart, rfl⟩
  exact ⟨hsound, hpool⟩

end Nodemap.Sound

/-- A fresh map over contiguous nodes that cover the free CPUs is sound. -/
theorem nodemapCreate_sound {numa : Numa} {conf : CpusetConf} {usage : Finset Nat}
    {cpus : Bitmask} {m : Nodemap} (hlayout : Layout numa cpus)
    (hblocks : ∀ id ∈ listedNodes numa cpus, IsBlock (numa.localcpus id))
    (hcovers : ∀ cpu < numa.cpumaskSize, cpu ∉ usage →
      ∃ id ∈ listedNodes numa cpus, cpu ∈ numa.localcpus id)
    (hcreate : nodemapCreate numa conf none
      (some (Bitmask.ofFinset numa.cpumaskSize usage)) cpus = some m) : m.Sound conf := by
  obtain ⟨hok, hexact⟩ := nodemapCreate_ok (Bitmask.ofFinset_size _ _) hcreate
  obtain ⟨-, hncpus, hused⟩ := nodemapCreate_ofFinset_ok hcreate
  have hspread : ∀ id ∈ listedNodes numa cpus, spread (numa.localcpus id) = numa.localcpus id :=
    fun id hid => (spread_eq_self_iff (hlayout.nonempty id hid)).mpr (hblocks id hid)
  obtain ⟨hpolicy, -, -, -, map, -, hnodes⟩ := nodemapCreate_eq hcreate
  refine ⟨hok, ⟨hexact, ?_⟩, hpolicy, ?_⟩
  · have hnodup : (listedNodes numa cpus).Nodup := List.nodup_range.filter _
    rw [hnodes, List.pairwise_reverse, List.pairwise_map]
    refine hnodup.imp_of_mem fun {id other} hid hother hne => ?_
    have hdisj := hlayout.disjoint other hother id hid hne.symm
    rw [hlayout.window_eq hid, hlayout.window_eq hother, hspread id hid, hspread other hother]
    exact (hdisj.mono_left Finset.sdiff_subset).mono_right Finset.sdiff_subset
  · intro cpu hlt hfree
    obtain ⟨id, hid, hlocal⟩ := hcovers cpu (hncpus ▸ hlt) fun hmem =>
      hfree ((hused cpu hlt).mpr hmem)
    rw [hlayout.reach_eq hcreate, Finset.mem_biUnion]
    exact ⟨id, List.mem_toFinset.mpr hid, (hspread id hid).symm ▸ hlocal⟩

/-- The counters and masks of the map and of its nodes agree. -/
structure Nodemap.Agrees (m : Nodemap) : Prop where
  navail_eq : m.navail = m.ncpus - m.usedcpus.weight
  node_navail : ∀ n ∈ m.nodelist, n.navail = n.ncpus - n.usedcpus.weight
  node_used : ∀ n ∈ m.nodelist, ∀ i < n.ncpus,
    i ∈ n.usedcpus.bits ↔ n.localcpus.first + i ∈ m.usedcpus.bits

/-- A request returns. It is refused exactly when it exceeds the free CPUs, and then changes
nothing. Otherwise it is granted in full, from CPUs that were free. -/
structure Nodemap.AnswersExactly (m : Nodemap) (ncpus : Int) : Prop where
  returns : ∃ answer m', Returns m ncpus answer m'
  refuses_iff : ∀ answer m', Returns m ncpus answer m' → (answer = none ↔ ncpus > m.navail)
  refuses : ∀ m', Returns m ncpus none m' → m' = m
  grants : ∀ mask m', Returns m ncpus (some mask) m' → (mask.weight : Int) = ncpus ∧
    Disjoint mask.bits m.usedcpus.bits ∧ m'.usedcpus.bits = m.usedcpus.bits ∪ mask.bits

theorem Nodemap.Sound.agrees {conf : CpusetConf} {m : Nodemap} (hsound : m.Sound conf) :
    m.Agrees where
  navail_eq := hsound.ok.navail_eq
  node_navail n hn := (hsound.ok.nodes n hn).navail_eq
  node_used n hn := hsound.separate.exact n hn

theorem Nodemap.Sound.answersExactly {conf : CpusetConf} {m : Nodemap} (hsound : m.Sound conf)
    {ncpus : Int} (hncpus : 0 ≤ ncpus) : m.AnswersExactly ncpus := by
  refine ⟨hsound.returns hncpus, ?_, ?_, ?_⟩
  · intro answer m' hcall
    constructor
    · rintro rfl
      by_contra hle
      obtain ⟨mask, hanswer, -⟩ := hsound.grants hncpus (by omega) hcall
      cases hanswer
    · exact fun hgt => (refuses hgt hcall).1
  · intro m' hcall
    by_cases hle : ncpus ≤ m.navail
    · obtain ⟨mask, hanswer, -⟩ := hsound.grants hncpus hle hcall
      cases hanswer
    · exact (refuses (by omega) hcall).2
  · intro mask m' hcall
    by_cases hle : ncpus ≤ m.navail
    · obtain ⟨given, hanswer, hgranted, hweight⟩ := hsound.grants hncpus hle hcall
      obtain rfl := Option.some.inj hanswer
      exact ⟨hweight, Finset.disjoint_of_subset_left hgranted.subset Finset.sdiff_disjoint,
        hgranted.used_eq⟩
    · cases (refuses (by omega) hcall).1

/-- Whatever sequence of calls is made on a map over contiguous nodes that cover the free
CPUs, its bookkeeping agrees, the next call is answered exactly, and no CPU was granted
twice. -/
theorem nodemapAllocate_run_exact {numa : Numa} {conf : CpusetConf} {usage : Finset Nat}
    {cpus : Bitmask} {start m : Nodemap} {calls : List (Int × Option Bitmask)}
    (hlayout : Layout numa cpus)
    (hblocks : ∀ id ∈ listedNodes numa cpus, IsBlock (numa.localcpus id))
    (hcovers : ∀ cpu < numa.cpumaskSize, cpu ∉ usage →
      ∃ id ∈ listedNodes numa cpus, cpu ∈ numa.localcpus id)
    (hcreate : nodemapCreate numa conf none
      (some (Bitmask.ofFinset numa.cpumaskSize usage)) cpus = some start)
    (hrun : Run AllocateCall start calls m) :
    m.Agrees ∧ (∀ ncpus, 0 ≤ ncpus → m.AnswersExactly ncpus) ∧
      (Pool.granted (calls.map fun call => call.2.map Bitmask.bits)).Pairwise Disjoint := by
  obtain ⟨hsound, hpool⟩ :=
    (nodemapCreate_sound hlayout hblocks hcovers hcreate).run hrun
  exact ⟨hsound.agrees, fun _ hncpus => hsound.answersExactly hncpus,
    Pool.granted_pairwise_disjoint hpool⟩

/-- A machine with the CPUs 0 to 3 on two nodes. -/
def twoNodes (first second : Finset Nat) : Numa where
  cpumaskSize := 4
  memmaskSize := 2
  localcpus id := if id = 0 then first else if id = 1 then second else ∅
  localmems _ := some {0, 1}

theorem mem_listedNodes_twoNodes {first second : Finset Nat} {cpus : Bitmask} {id : Nat} :
    id ∈ listedNodes (twoNodes first second) cpus ↔ id = 0 ∨ id = 1 := by
  have hlist : listedNodes (twoNodes first second) cpus = [0, 1] := rfl
  simp [hlist]

theorem twoNodes_layout {first second : Finset Nat} (cpus : Bitmask) (hfirst : first.Nonempty)
    (hsecond : second.Nonempty) (hinside : first ∪ second ⊆ Finset.range 4)
    (hdisj : Disjoint first second) : Layout (twoNodes first second) cpus := by
  obtain ⟨hleft, hright⟩ := Finset.union_subset_iff.mp hinside
  refine ⟨?_, ?_, ?_⟩
  · intro id hid
    rcases mem_listedNodes_twoNodes.mp hid with rfl | rfl
    · exact hfirst
    · exact hsecond
  · intro id hid cpu hcpu
    rcases mem_listedNodes_twoNodes.mp hid with rfl | rfl
    · exact Finset.mem_range.mp (hleft hcpu)
    · exact Finset.mem_range.mp (hright hcpu)
  · intro id hid other hother hne
    rcases mem_listedNodes_twoNodes.mp hid with rfl | rfl <;>
      rcases mem_listedNodes_twoNodes.mp hother with rfl | rfl
    · exact absurd rfl hne
    · exact hdisj
    · exact hdisj.symm
    · exact absurd rfl hne

/-- Two calls on a machine whose CPU 0 is in use from the start. -/
theorem nodemapAllocate_run_exact_twoNodes : ∃ start m,
    nodemapCreate (twoNodes {0, 1} {2, 3}) cpusetConfCreate none
      (some (Bitmask.ofFinset 4 {0})) (Bitmask.ofFinset 4 {0, 1, 2, 3}) = some start ∧
    Run AllocateCall start [(2, some (Bitmask.ofFinset 4 {2, 3})), (2, none)] m ∧
    m.Agrees ∧ ∀ ncpus, 0 ≤ ncpus → m.AnswersExactly ncpus := by
  have htrace : (nodemapCreate (twoNodes {0, 1} {2, 3}) cpusetConfCreate none
      (some (Bitmask.ofFinset 4 {0})) (Bitmask.ofFinset 4 {0, 1, 2, 3})).bind (fun start =>
        (nodemapAllocate 0 start 2).bind fun call =>
          (nodemapAllocate 0 call.2 2).map fun more => (call.1, more.1)) =
      some (some (Bitmask.ofFinset 4 {2, 3}), none) := by decide +kernel
  obtain ⟨start, hcreate, htrace⟩ := Option.bind_eq_some_iff.mp htrace
  obtain ⟨⟨answer, m⟩, hcall, htrace⟩ := Option.bind_eq_some_iff.mp htrace
  obtain ⟨⟨other, m'⟩, hmore, htrace⟩ := Option.map_eq_some_iff.mp htrace
  obtain ⟨rfl, rfl⟩ := Prod.mk.inj htrace
  have hrun : Run AllocateCall start [(2, some (Bitmask.ofFinset 4 {2, 3})), (2, none)] m' :=
    Run.extend (Run.extend .start ⟨by decide, 0, hcall⟩) ⟨by decide, 0, hmore⟩
  have hblocks : ∀ id ∈ listedNodes (twoNodes {0, 1} {2, 3}) (Bitmask.ofFinset 4 {0, 1, 2, 3}),
      IsBlock ((twoNodes {0, 1} {2, 3}).localcpus id) := by
    intro id hid
    rcases mem_listedNodes_twoNodes.mp hid with rfl | rfl
    · exact ⟨0, 2, by decide, by decide⟩
    · exact ⟨2, 2, by decide, by decide⟩
  have hcovers : ∀ cpu < 4, cpu ∉ ({0} : Finset Nat) →
      ∃ id ∈ listedNodes (twoNodes {0, 1} {2, 3}) (Bitmask.ofFinset 4 {0, 1, 2, 3}),
        cpu ∈ (twoNodes {0, 1} {2, 3}).localcpus id := by decide
  obtain ⟨hagrees, hanswers, -⟩ := nodemapAllocate_run_exact
    (twoNodes_layout _ (by decide) (by decide) (by decide) (by decide)) hblocks hcovers hcreate hrun
  exact ⟨start, m', hcreate, hrun, hagrees, hanswers⟩

end SlurmSpank.Cpuset
