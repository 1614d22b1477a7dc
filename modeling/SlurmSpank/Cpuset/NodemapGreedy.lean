import Mathlib.Data.List.Sort
import Mathlib.Data.Prod.Lex
import SlurmSpank.Cpuset.NodemapRun
import SlurmSpank.Foundation.Greedy

/-! # Best and first fit are greedy

On nodes that are blocks of CPUs, best and first fit visit the nodes in one order and take the
free CPUs of each in turn, as long as CPUs are asked for. The order is that of two sorts, the
second of which keeps what the first one did with equal counts.
-/

namespace SlurmSpank.Cpuset

open Lib Foundation Relation

/-! ## Nodes that are blocks -/

/-- The nodes are disjoint blocks of CPUs, no two with one number, and the masks and counters of
the map and its nodes agree. -/
structure Nodemap.Blocks (m : Nodemap) : Prop where
  ok : m.Ok
  exact : ∀ n ∈ m.nodelist, n.Exact m.usedcpus.bits
  block : ∀ n ∈ m.nodelist, IsBlock n.localcpus.bits
  apart : m.nodelist.Pairwise fun n n' => Disjoint n.localcpus.bits n'.localcpus.bits
  ids : (m.nodelist.map Node.nodeid).Nodup

theorem Node.window_eq_localcpus {n : Node} (hncpus : n.ncpus = n.localcpus.weight)
    (hblock : IsBlock n.localcpus.bits) : n.window = n.localcpus.bits := by
  rw [n.window_eq_spread hncpus, (spread_eq_self_iff hblock.nonempty).mpr hblock]

theorem Nodemap.Blocks.window_eq {m : Nodemap} (hblocks : m.Blocks) {n : Node}
    (hn : n ∈ m.nodelist) : n.window = n.localcpus.bits :=
  Node.window_eq_localcpus (hblocks.ok.nodes n hn).ncpus_eq (hblocks.block n hn)

theorem Nodemap.Blocks.separate {m : Nodemap} (hblocks : m.Blocks) : m.Separate where
  exact := hblocks.exact
  apart := by
    refine hblocks.apart.imp_of_mem fun {n n'} hn hn' hdisjoint => ?_
    rw [hblocks.window_eq hn, hblocks.window_eq hn']
    exact (hdisjoint.mono_left Finset.sdiff_subset).mono_right Finset.sdiff_subset

/-- A fresh map over contiguous nodes. -/
theorem nodemapCreate_blocks {numa : Numa} {conf : CpusetConf} {usage : Finset Nat}
    {cpus : Bitmask} {m : Nodemap} (hlayout : Layout numa cpus)
    (hblocks : ∀ id ∈ listedNodes numa cpus, IsBlock (numa.localcpus id))
    (hcreate : nodemapCreate numa conf none
      (some (Bitmask.ofFinset numa.cpumaskSize usage)) cpus = some m) : m.Blocks := by
  obtain ⟨hok, hexact⟩ := nodemapCreate_ok (Bitmask.ofFinset_size _ _) hcreate
  obtain ⟨-, -, -, -, map, -, hnodes⟩ := nodemapCreate_eq hcreate
  have hnodup : (listedNodes numa cpus).Nodup := List.nodup_range.filter _
  refine ⟨hok, hexact, ?_, ?_, ?_⟩
  · intro n hn
    rw [hnodes, List.mem_reverse, List.mem_map] at hn
    obtain ⟨id, hid, rfl⟩ := hn
    rw [hlayout.localcpus_bits hid]
    exact hblocks id hid
  · rw [hnodes, List.pairwise_reverse, List.pairwise_map]
    refine hnodup.imp_of_mem fun {id other} hid hother hne => ?_
    rw [hlayout.localcpus_bits hid, hlayout.localcpus_bits hother]
    exact hlayout.disjoint other hother id hid hne.symm
  · rw [hnodes, List.map_reverse, List.nodup_reverse, List.map_map]
    exact (List.map_id _).symm ▸ hnodup

/-! ## The reference -/

/-- Node numbers as keys: the order is the other way round when it is reversed. -/
def Nodemap.idKey (m : Nodemap) (n : Node) : Int := if m.policy.reverse then -n.nodeid else n.nodeid

/-- For best fit the free counts come first, for first fit there are the numbers only. -/
def Nodemap.visitKey (m : Nodemap) (n : Node) : Int ×ₗ Int :=
  toLex (if m.policy.bestFit then n.navail else 0, m.idKey n)

/-- The nodes in the order in which the reference visits them. -/
def Nodemap.visitOrder (m : Nodemap) : List Node :=
  m.nodelist.insertionSort fun n n' => m.visitKey n ≤ m.visitKey n'

/-- The free CPUs of a node, the lowest first, or the highest first when the order is reversed. -/
def Nodemap.freeCpus (m : Nodemap) (n : Node) : List Nat :=
  let cpus := (List.range m.ncpus).filter fun cpu =>
    cpu ∈ n.localcpus.bits ∧ cpu ∉ m.usedcpus.bits
  if m.policy.reverse then cpus.reverse else cpus

/-- The CPUs that the reference takes. -/
def Nodemap.greedyCpus (m : Nodemap) (ncpus : Int) : List Nat :=
  greedy (m.visitOrder.map m.freeCpus) ncpus.toNat

/-! ## The order of the two sorts -/

section Order

variable {m : Nodemap}

/-- The comparison by numbers that `nodemap_allocate` sorts with. -/
def Nodemap.cmpIds (m : Nodemap) : Node → Node → Int :=
  if !m.policy.reverse then nodeCmpNodeid else nodeCmpReverse

theorem cmpIds_lt (m : Nodemap) (n n' : Node) : m.cmpIds n n' < 0 ↔ m.idKey n < m.idKey n' := by
  unfold Nodemap.cmpIds Nodemap.idKey nodeCmpReverse nodeCmpNodeid
  cases m.policy.reverse with
  | false =>
      simp only [Bool.not_false, if_true, Bool.false_eq_true, if_false]
      split_ifs <;> omega
  | true =>
      simp only [Bool.not_true, Bool.false_eq_true, if_false, if_true]
      split_ifs <;> omega

theorem nodeCmpFree_lt (n n' : Node) : nodeCmpFree n n' < 0 ↔ n.navail < n'.navail := by
  unfold nodeCmpFree
  split_ifs <;> omega

theorem visitKey_le {n n' : Node} : m.visitKey n ≤ m.visitKey n' ↔
    (if m.policy.bestFit then n.navail else 0) < (if m.policy.bestFit then n'.navail else 0) ∨
      (if m.policy.bestFit then n.navail else 0) = (if m.policy.bestFit then n'.navail else 0) ∧
        m.idKey n ≤ m.idKey n' := Prod.Lex.toLex_le_toLex

/-- There is one order by keys that no two nodes share. -/
theorem eq_insertionSort {κ : Type*} [LinearOrder κ] {key : Node → κ} {nodes sorted : List Node}
    (hkey : ∀ n ∈ nodes, ∀ n' ∈ nodes, key n = key n' → n = n') (hperm : sorted.Perm nodes)
    (hsorted : sorted.Pairwise fun n n' => key n ≤ key n') :
    sorted = nodes.insertionSort fun n n' => key n ≤ key n' := by
  have htotal : Std.Total fun n n' : Node => key n ≤ key n' :=
    ⟨fun n n' => le_total (key n) (key n')⟩
  have htrans : IsTrans Node fun n n' => key n ≤ key n' := ⟨fun _ _ _ => le_trans⟩
  have horder := List.perm_insertionSort (fun n n' => key n ≤ key n') nodes
  refine (hperm.trans horder.symm).eq_of_pairwise ?_ hsorted (List.pairwise_insertionSort _ _)
  intro n n' hn hn' hle hge
  exact hkey n (hperm.mem_iff.mp hn) n' (horder.mem_iff.mp hn') (le_antisymm hle hge)

theorem eq_of_idKey (hids : (m.nodelist.map Node.nodeid).Nodup) {n n' : Node}
    (hn : n ∈ m.nodelist) (hn' : n' ∈ m.nodelist) (hkey : m.idKey n = m.idKey n') : n = n' := by
  refine List.inj_on_of_nodup_map hids hn hn' ?_
  unfold Nodemap.idKey at hkey
  split at hkey <;> omega

theorem eq_visitOrder (hids : (m.nodelist.map Node.nodeid).Nodup) {nodes : List Node}
    (hperm : nodes.Perm m.nodelist)
    (hsorted : nodes.Pairwise fun n n' => m.visitKey n ≤ m.visitKey n') :
    nodes = m.visitOrder := by
  refine eq_insertionSort (fun n hn n' hn' hkey => ?_) hperm hsorted
  exact eq_of_idKey hids hn hn' (Prod.mk.inj (toLex.injective hkey)).2

theorem sortIds_sorted (m : Nodemap) :
    (listSort m.cmpIds m.nodelist).Pairwise fun n n' => m.idKey n ≤ m.idKey n' :=
  listSort_sorted (cmpIds_lt m) m.nodelist

/-- First fit visits the nodes as the first sort left them. -/
theorem sortIds_eq (hids : (m.nodelist.map Node.nodeid).Nodup) (hfit : m.policy.bestFit = false) :
    listSort m.cmpIds m.nodelist = m.visitOrder := by
  refine eq_visitOrder hids (listSort_perm _ _) ((sortIds_sorted m).imp fun hle => ?_)
  rw [visitKey_le, hfit]
  exact Or.inr ⟨rfl, hle⟩

/-- Best fit sorts the nodes by their free counts next. -/
theorem sortFree_eq (hids : (m.nodelist.map Node.nodeid).Nodup) (hfit : m.policy.bestFit = true) :
    listSort nodeCmpFree (listSort m.cmpIds m.nodelist) = m.visitOrder := by
  have hperm := (listSort_perm nodeCmpFree (listSort m.cmpIds m.nodelist)).trans
    (listSort_perm m.cmpIds m.nodelist)
  refine eq_visitOrder hids hperm ?_
  refine (listSort_stable nodeCmpFree_lt (sortIds_sorted m)).imp fun hstable => ?_
  rw [visitKey_le, hfit]
  exact hstable

end Order

/-! ## What one node gives -/

theorem image_toFinset (items : List Nat) (f : Nat → Nat) :
    items.toFinset.image f = (items.map f).toFinset := by
  ext item
  rw [Finset.mem_image, List.mem_toFinset, List.mem_map]
  simp only [List.mem_toFinset]

namespace Node

/-- The global numbers of the CPUs the scan can take, in the order in which it meets them. -/
def freeGlobals (n : Node) (used : Finset Nat) (reverse : Bool) : List Nat :=
  (n.freeLocals used reverse).map (nodeCpuToGlobal n)

theorem mem_freeGlobals {n : Node} {used : Finset Nat} {reverse : Bool} {cpu : Nat} :
    cpu ∈ n.freeGlobals used reverse ↔ cpu ∈ n.window ∧ cpu ∉ used := by
  rw [freeGlobals, List.mem_map, mem_window]
  constructor
  · rintro ⟨i, hi, rfl⟩
    obtain ⟨horder, hfree⟩ := List.mem_filter.mp hi
    exact ⟨⟨i, mem_scanOrder.mp horder, rfl⟩, of_decide_eq_true hfree⟩
  · rintro ⟨⟨i, hi, rfl⟩, hfree⟩
    exact ⟨i, List.mem_filter.mpr ⟨mem_scanOrder.mpr hi, decide_eq_true hfree⟩, rfl⟩

theorem length_freeGlobals (n : Node) (used : Finset Nat) (reverse : Bool) :
    (n.freeGlobals used reverse).length = (n.window \ used).card := by
  rw [freeGlobals, List.length_map, Node.Ok.freeLocals_length]

/-- CPUs of other nodes that come into use change nothing about what a node gives. -/
theorem freeGlobals_union (n : Node) {used extra : Finset Nat} (reverse : Bool)
    (hextra : Disjoint (n.window \ used) extra) :
    n.freeGlobals (used ∪ extra) reverse = n.freeGlobals used reverse := by
  unfold freeGlobals freeLocals
  congr 1
  apply List.filter_congr
  intro i hi
  have hwindow : nodeCpuToGlobal n i ∈ n.window :=
    mem_window.mpr ⟨i, mem_scanOrder.mp hi, rfl⟩
  rw [decide_eq_decide, Finset.mem_union, not_or]
  refine and_iff_left_of_imp fun hfree hmem => ?_
  exact Finset.disjoint_left.mp hextra (Finset.mem_sdiff.mpr ⟨hwindow, hfree⟩) hmem

/-- All CPUs that are left are asked for: a visit takes the first of them. -/
theorem picks_image {n : Node} {a : Allocation} (hn : n.Ok a.map.usedcpus)
    (hexact : n.Exact a.map.usedcpus.bits) :
    (n.picks a (-1)).image (nodeCpuToGlobal n) =
      ((n.freeGlobals a.map.usedcpus.bits a.map.policy.reverse).take a.nleft.toNat).toFinset := by
  have hlength := n.length_freeGlobals a.map.usedcpus.bits a.map.policy.reverse
  have hnavail := hn.card_free_eq_navail hexact
  rw [picks, if_pos (by decide), freeGlobals, ← List.map_take, ← image_toFinset]
  congr 2
  rw [freeGlobals, List.length_map] at hlength
  rcases Int.le_total a.nleft n.navail with hle | hge
  · rw [min_eq_left hle]
  · rw [min_eq_right hge, List.take_of_length_le (by omega), List.take_of_length_le (by omega)]

end Node

/-! ## A pass over all nodes -/

namespace Allocation

variable {a : Allocation}

/-- CPUs of a listed node fit into the mask of the allocation. -/
theorem take_allocated_bits {nodes : List Node} (hok : (a.setNodes nodes).Ok) {n : Node}
    (hn : n ∈ nodes) {cpus : Finset Nat} (hwindow : cpus ⊆ n.window) :
    (a.take cpus).allocatedCpus.bits = a.allocatedCpus.bits ∪ cpus := by
  have hsize : a.allocatedCpus.size = a.map.usedcpus.size := hok.mask_size.trans hok.used_size.symm
  refine Bitmask.add_bits fun cpu hcpu => ?_
  rw [hsize]
  exact (hok.nodes n hn).window_lt (hwindow hcpu)

/-- The nodes of a pass of `do_allocation` give their CPUs one after the other. -/
theorem forEach_greedy (before nodes : List Node) (k : Int)
    (hok : (a.setNodes (before ++ nodes)).Ok) (hsep : (a.setNodes (before ++ nodes)).Separate) :
    (listForEach nodeAllocateAll nodes a k).2.1.allocatedCpus.bits = a.allocatedCpus.bits ∪
      (greedy (nodes.map fun n => n.freeGlobals a.map.usedcpus.bits a.map.policy.reverse)
        a.nleft.toNat).toFinset := by
  induction nodes generalizing a before k with
  | nil =>
      rw [List.map_nil, greedy_nil, List.toFinset_nil, Finset.union_empty]
      rfl
  | cons n rest ih =>
      have hmem : n ∈ (a.setNodes (before ++ n :: rest)).map.nodelist :=
        List.mem_append_right _ List.mem_cons_self
      have hn : n.Ok a.map.usedcpus := hok.nodes n hmem
      have hpicks := Node.picks_image hn (hsep.exact n hmem)
      obtain ⟨heq, hstep⟩ := visit_step (-1) hok
      have hassoc : before ++ n.take (n.picks a (-1)) :: rest =
          (before ++ [n.take (n.picks a (-1))]) ++ rest := by
        rw [List.append_assoc, List.singleton_append]
      have hok' := hstep.ok hok
      have hsep' := hstep.separate hok hsep
      rw [hassoc] at hok' hsep'
      have hnext := ih (before ++ [n.take (n.picks a (-1))]) (k + 1) hok' hsep'
      -- the nodes behind this one have what they had
      have hrest : (rest.map fun other => other.freeGlobals
          (a.take ((n.picks a (-1)).image (nodeCpuToGlobal n))).map.usedcpus.bits
            (a.take ((n.picks a (-1)).image (nodeCpuToGlobal n))).map.policy.reverse) =
          rest.map fun other =>
            other.freeGlobals a.map.usedcpus.bits a.map.policy.reverse := by
        apply List.map_congr_left
        intro other hother
        rw [visit_used_bits hn Node.picks_free]
        apply Node.freeGlobals_union
        have happart := (List.pairwise_cons.mp (List.pairwise_append.mp hsep.apart).2.1).1
        exact ((happart other hother).mono_left (visit_subset_free Node.picks_free)).symm
      have hleft : (a.take ((n.picks a (-1)).image (nodeCpuToGlobal n))).nleft.toNat =
          a.nleft.toNat -
            (n.freeGlobals a.map.usedcpus.bits a.map.policy.reverse).length := by
        have hcard := n.card_picks a (-1)
        have hnavail := hn.card_free_eq_navail (hsep.exact n hmem)
        change (a.nleft - ((n.picks a (-1)).image (nodeCpuToGlobal n)).card).toNat = _
        rw [Finset.card_image_of_injective _ n.nodeCpuToGlobal_injective, n.length_freeGlobals]
        rw [if_pos (by decide)] at hcard
        omega
      have hbits : (a.take ((n.picks a (-1)).image (nodeCpuToGlobal n))).allocatedCpus.bits =
          a.allocatedCpus.bits ∪ (n.picks a (-1)).image (nodeCpuToGlobal n) :=
        take_allocated_bits hok hmem
          ((visit_subset_free Node.picks_free).trans Finset.sdiff_subset)
      simp only [listForEach, nodeAllocateAll, heq,
        show ¬ (((n.picks a (-1)).card : Int) < 0) by omega, if_false]
      rw [hnext, hrest, hleft, hbits, hpicks, List.map_cons, greedy_cons, List.toFinset_append,
        Finset.union_assoc]

theorem doAllocation_greedy (sort : Option (Node → Node → Int)) {nodes : List Node}
    (hnodes : (match sort with | some cmp => listSort cmp a.map.nodelist | none => a.map.nodelist) =
      nodes) (hok : a.Ok) (hsep : a.Separate) :
    (doAllocation a sort).allocatedCpus.bits = a.allocatedCpus.bits ∪
      (greedy (nodes.map fun n => n.freeGlobals a.map.usedcpus.bits a.map.policy.reverse)
        a.nleft.toNat).toFinset := by
  cases sort with
  | none =>
      subst hnodes
      exact forEach_greedy [] a.map.nodelist 0 hok hsep
  | some cmp =>
      subst hnodes
      have hstep := a.sortNodes_step cmp
      exact @forEach_greedy (a.sortNodes cmp) [] (listSort cmp a.map.nodelist) 0 (hstep.ok hok)
        (hstep.separate hok hsep)

end Allocation

/-! ## The call -/

section Call

variable {m : Nodemap}

theorem freeGlobals_forward (hblocks : m.Blocks) {n : Node} (hn : n ∈ m.nodelist) :
    n.freeGlobals m.usedcpus.bits false = (List.range m.ncpus).filter fun cpu =>
      cpu ∈ n.localcpus.bits ∧ cpu ∉ m.usedcpus.bits := by
  have hmono : ∀ i j, i < j → nodeCpuToGlobal n i < nodeCpuToGlobal n j :=
    fun i j hij => Nat.add_lt_add_left hij _
  have hleft : (n.freeGlobals m.usedcpus.bits false).Pairwise (· < ·) := by
    apply List.Pairwise.map _ hmono
    exact List.pairwise_lt_range.filter _
  have hright : ((List.range m.ncpus).filter fun cpu =>
      decide (cpu ∈ n.localcpus.bits ∧ cpu ∉ m.usedcpus.bits)).Pairwise (· < ·) :=
    List.pairwise_lt_range.filter _
  refine hleft.eq_of_mem_iff hright fun cpu => ?_
  rw [Node.mem_freeGlobals, hblocks.window_eq hn, List.mem_filter, List.mem_range,
    decide_eq_true_iff]
  refine (and_iff_right_of_imp fun hcpu => ?_).symm
  rw [← hblocks.ok.used_size]
  exact (hblocks.ok.nodes n hn).window_lt (hblocks.window_eq hn ▸ hcpu.1)

/-- What the scan can take is what the reference takes. -/
theorem freeGlobals_eq (hblocks : m.Blocks) {n : Node} (hn : n ∈ m.nodelist) :
    n.freeGlobals m.usedcpus.bits m.policy.reverse = m.freeCpus n := by
  have hforward := freeGlobals_forward hblocks hn
  unfold Nodemap.freeCpus
  cases m.policy.reverse with
  | false => exact hforward
  | true =>
      simp only [if_true]
      rw [← hforward]
      unfold Node.freeGlobals Node.freeLocals scanOrder
      simp only [Bool.not_true, Bool.false_eq_true, if_false, Bool.not_false, if_true,
        List.filter_reverse, List.map_reverse]

theorem shouldAllocateIdleNodes_perm {nodes : List Node} (hperm : nodes.Perm m.nodelist)
    (count : Int) : shouldAllocateIdleNodes { m with nodelist := nodes } count =
      shouldAllocateIdleNodes m count := by
  unfold shouldAllocateIdleNodes listFindFirst
  split
  next => rfl
  next =>
    rw [Bool.eq_iff_iff, List.find?_isSome, List.find?_isSome]
    simp only [hperm.mem_iff]

/-- Without the idle phase the policy starts on the sorted nodes. -/
theorem allocationStart_of_not_idle {ncpus : Int}
    (hidle : shouldAllocateIdleNodes m ncpus = false) :
    allocationStart m ncpus = (allocationCreate m ncpus).sortNodes m.cmpIds := by
  have hsorted := shouldAllocateIdleNodes_perm (listSort_perm m.cmpIds m.nodelist) ncpus
  rw [hidle] at hsorted
  unfold allocationStart
  exact if_neg (Bool.eq_false_iff.mp hsorted)

theorem mem_freeCpus (hblocks : m.Blocks) {n : Node} (hn : n ∈ m.nodelist) {cpu : Nat} :
    cpu ∈ m.freeCpus n ↔ cpu ∈ n.localcpus.bits ∧ cpu ∉ m.usedcpus.bits := by
  rw [← freeGlobals_eq hblocks hn, Node.mem_freeGlobals, hblocks.window_eq hn]

theorem mem_visitOrder {n : Node} : n ∈ m.visitOrder ↔ n ∈ m.nodelist :=
  (List.perm_insertionSort _ _).mem_iff

/-- The reference touches a node only when all nodes in front of it are fully used. -/
theorem greedyCpus_exhausts (hblocks : m.Blocks) (ncpus : Int) :
    m.visitOrder.Pairwise fun earlier later =>
      (∃ cpu ∈ later.localcpus.bits, cpu ∈ m.greedyCpus ncpus) →
        ∀ cpu ∈ earlier.localcpus.bits, cpu ∈ m.usedcpus.bits ∨ cpu ∈ m.greedyCpus ncpus := by
  have hdisjoint : (m.visitOrder.map m.freeCpus).Pairwise List.Disjoint := by
    have happart : m.visitOrder.Pairwise fun n n' =>
        Disjoint n.localcpus.bits n'.localcpus.bits :=
      (List.perm_insertionSort _ _).symm.pairwise hblocks.apart fun hdisjoint => hdisjoint.symm
    rw [List.pairwise_map]
    refine happart.imp_of_mem fun {n n'} hn hn' hdisjoint cpu hcpu hcpu' => ?_
    have hleft := ((mem_freeCpus hblocks (mem_visitOrder.mp hn)).mp hcpu).1
    have hright := ((mem_freeCpus hblocks (mem_visitOrder.mp hn')).mp hcpu').1
    exact Finset.disjoint_left.mp hdisjoint hleft hright
  have hfree : ∀ cpu ∈ m.greedyCpus ncpus, cpu ∉ m.usedcpus.bits := by
    intro cpu hcpu
    obtain ⟨source, hsource, hmem⟩ := List.mem_flatten.mp (List.mem_of_mem_take hcpu)
    obtain ⟨n, hn, rfl⟩ := List.mem_map.mp hsource
    exact ((mem_freeCpus hblocks (mem_visitOrder.mp hn)).mp hmem).2
  have hexhausts := greedy_exhausts hdisjoint ncpus.toNat
  rw [List.pairwise_map] at hexhausts
  refine hexhausts.imp_of_mem fun {earlier later} hearlier hlater hgives hgiven cpu hcpu => ?_
  obtain ⟨other, hother, htaken⟩ := hgiven
  rw [or_iff_not_imp_left]
  intro hunused
  refine hgives ⟨other, ?_, htaken⟩ cpu ?_
  · exact (mem_freeCpus hblocks (mem_visitOrder.mp hlater)).mpr ⟨hother, hfree other htaken⟩
  · exact (mem_freeCpus hblocks (mem_visitOrder.mp hearlier)).mpr ⟨hcpu, hunused⟩

/-- The policy step of best and first fit takes the CPUs of the reference. -/
theorem allocateByPolicy_greedy (fuel : Nat) {ncpus : Int} (hblocks : m.Blocks)
    (hfit : m.policy.bestFit = true ∨ m.policy.firstFit = true) (hpos : 0 < ncpus) :
    ∃ b, allocateByPolicy fuel ((allocationCreate m ncpus).sortNodes m.cmpIds) = some b ∧
      b.allocatedCpus.bits = (m.greedyCpus ncpus).toFinset := by
  have hstep := (allocationCreate m ncpus).sortNodes_step m.cmpIds
  have hcreate := hblocks.ok.allocation hpos.le
  have hok := hstep.ok hcreate
  have hsep := hstep.separate hcreate ⟨hblocks.exact, hblocks.separate.apart⟩
  have hsources : (m.visitOrder.map fun n =>
      n.freeGlobals m.usedcpus.bits m.policy.reverse) = m.visitOrder.map m.freeCpus :=
    List.map_congr_left fun n hn => freeGlobals_eq hblocks (mem_visitOrder.mp hn)
  have hpass : ∀ sort, (match sort with
      | some cmp => listSort cmp (listSort m.cmpIds m.nodelist)
      | none => listSort m.cmpIds m.nodelist) = m.visitOrder →
      (doAllocation ((allocationCreate m ncpus).sortNodes m.cmpIds) sort).allocatedCpus.bits =
        (m.greedyCpus ncpus).toFinset := by
    intro sort hnodes
    refine (Allocation.doAllocation_greedy sort hnodes hok hsep).trans ?_
    refine (Finset.empty_union _).trans ?_
    exact congrArg (fun sources => (greedy sources ncpus.toNat).toFinset) hsources
  have hleft : ((allocationCreate m ncpus).sortNodes m.cmpIds).nleft > 0 := hpos
  unfold allocateByPolicy
  rw [if_pos hleft]
  cases hbest : m.policy.bestFit with
  | true =>
      refine ⟨_, if_pos hbest, ?_⟩
      exact hpass (some nodeCmpFree) (sortFree_eq hblocks.ids hbest)
  | false =>
      have hfirst : m.policy.firstFit = true := hfit.resolve_left (by rw [hbest]; decide)
      refine ⟨_, (if_neg (Bool.eq_false_iff.mp hbest)).trans (if_pos hfirst), ?_⟩
      exact hpass none (sortIds_eq hblocks.ids hbest)

/-- Without the idle phase, best and first fit return the CPUs of the reference. A node is fully
used before the next one gives a CPU. -/
theorem nodemapAllocate_greedy (fuel : Nat) {ncpus : Int} (hblocks : m.Blocks)
    (hfit : m.policy.bestFit = true ∨ m.policy.firstFit = true) (hpos : 0 < ncpus)
    (hle : ncpus ≤ m.navail) (hidle : shouldAllocateIdleNodes m ncpus = false) :
    ∃ mask m', nodemapAllocate fuel m ncpus = some (some mask, m') ∧
      mask.bits = (m.greedyCpus ncpus).toFinset ∧
      m.visitOrder.Pairwise fun earlier later =>
        (∃ cpu ∈ later.localcpus.bits, cpu ∈ mask.bits) →
          earlier.localcpus.bits ⊆ m.usedcpus.bits ∪ mask.bits := by
  obtain ⟨b, hb, hbits⟩ := allocateByPolicy_greedy fuel hblocks hfit hpos
  refine ⟨b.allocatedCpus, b.map, ?_, hbits, ?_⟩
  · rw [nodemapAllocate_eq hle, allocationStart_of_not_idle hidle, hb]
    rfl
  · rw [hbits]
    refine (greedyCpus_exhausts hblocks ncpus).imp fun hexhausts hgiven cpu hcpu => ?_
    simp only [List.mem_toFinset] at hgiven
    rw [Finset.mem_union, List.mem_toFinset]
    exact hexhausts hgiven cpu hcpu

end Call

theorem twoNodes_blocks {cpus : Bitmask} :
    ∀ id ∈ listedNodes (twoNodes {0, 1} {2, 3}) cpus,
      IsBlock ((twoNodes {0, 1} {2, 3}).localcpus id) := by
  intro id hid
  rcases mem_listedNodes_twoNodes.mp hid with rfl | rfl
  · exact ⟨0, 2, by decide, by decide⟩
  · exact ⟨2, 2, by decide, by decide⟩

/-- Three CPUs of two nodes, where CPU 0 is in use: the node with one free CPU is visited
first. -/
theorem nodemapAllocate_greedy_twoNodes : ∃ m mask m',
    nodemapCreate (twoNodes {0, 1} {2, 3}) cpusetConfCreate none
      (some (Bitmask.ofFinset 4 {0})) (Bitmask.ofFinset 4 {0, 1, 2, 3}) = some m ∧
    nodemapAllocate 0 m 3 = some (some mask, m') ∧
    mask.bits = (m.greedyCpus 3).toFinset := by
  obtain ⟨m, hcreate⟩ : ∃ m, nodemapCreate (twoNodes {0, 1} {2, 3}) cpusetConfCreate none
      (some (Bitmask.ofFinset 4 {0})) (Bitmask.ofFinset 4 {0, 1, 2, 3}) = some m := ⟨_, rfl⟩
  have hfacts : (nodemapCreate (twoNodes {0, 1} {2, 3}) cpusetConfCreate none
      (some (Bitmask.ofFinset 4 {0})) (Bitmask.ofFinset 4 {0, 1, 2, 3})).map (fun m =>
        (m.policy.bestFit, m.navail, shouldAllocateIdleNodes m 3)) = some (true, 3, false) := by
    decide +kernel
  rw [hcreate, Option.map_some, Option.some_inj] at hfacts
  obtain ⟨hbest, hrest⟩ := Prod.mk.inj hfacts
  obtain ⟨hnavail, hidle⟩ := Prod.mk.inj hrest
  have hblocks : m.Blocks := nodemapCreate_blocks
    (twoNodes_layout _ (by decide) (by decide) (by decide) (by decide)) twoNodes_blocks hcreate
  obtain ⟨mask, m', hcall, hbits, _⟩ := nodemapAllocate_greedy 0 hblocks (Or.inl hbest)
    (by decide : (0 : Int) < 3) hnavail.ge hidle
  exact ⟨m, mask, m', hcreate, hcall, hbits⟩

end SlurmSpank.Cpuset
