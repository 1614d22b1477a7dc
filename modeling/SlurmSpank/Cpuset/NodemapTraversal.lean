import Mathlib.Data.Finset.Union
import Mathlib.Logic.Relation
import SlurmSpank.Cpuset.NodemapStep

/-! # Traversals of the node list

The idle phase and the three policies, as chains of visits to one node and reorderings
of the list. What a chain preserves and what it takes follows from its steps.
-/

namespace SlurmSpank.Cpuset

open Lib Relation

/-! ## Chains of visits -/

/-- The CPUs that some listed node can reach. -/
def Nodemap.reach (m : Nodemap) : Finset Nat := m.nodelist.toFinset.biUnion Node.window

theorem Nodemap.mem_reach {m : Nodemap} {cpu : Nat} :
    cpu ∈ m.reach ↔ ∃ n ∈ m.nodelist, cpu ∈ n.window := by
  simp [Nodemap.reach]

namespace Allocation

/-- One step of a traversal: free local CPUs are charged to one node of the list, or the
list is reordered. -/
inductive Step (a : Allocation) : Allocation → Prop
  | visit (before after : List Node) (n : Node) (locals : Finset Nat)
      (hnodes : a.map.nodelist = before ++ n :: after)
      (hlocals : ∀ i ∈ locals, i < n.ncpus ∧ nodeCpuToGlobal n i ∉ a.map.usedcpus.bits)
      (hcard : (locals.card : Int) ≤ a.nleft) :
      Step a ((a.take (locals.image (nodeCpuToGlobal n))).setNodes
        (before ++ n.take locals :: after))
  | reorder (nodes : List Node) (hperm : nodes.Perm a.map.nodelist) : Step a (a.setNodes nodes)

/-- The masks of the nodes are exact, and no free CPU is in reach of two of them. -/
structure Separate (a : Allocation) : Prop where
  exact : ∀ n ∈ a.map.nodelist, n.Exact a.map.usedcpus.bits
  apart : a.map.nodelist.Pairwise fun n m =>
    Disjoint (n.window \ a.map.usedcpus.bits) (m.window \ a.map.usedcpus.bits)

/-- What a chain of steps takes: a set of CPUs in reach and not in use, no larger than
what is left. Nothing else about the map changes but the bookkeeping of its nodes. -/
structure Grown (a b : Allocation) (cpus : Finset Nat) : Prop where
  taken : b = (a.take cpus).setNodes b.map.nodelist
  reach : cpus ⊆ a.map.reach
  free : Disjoint cpus a.map.usedcpus.bits
  card : (cpus.card : Int) ≤ a.nleft
  shapes : (b.map.nodelist.map Node.shape).Perm (a.map.nodelist.map Node.shape)

theorem reach_eq_of_shapes {m m' : Nodemap}
    (hshapes : (m'.nodelist.map Node.shape).Perm (m.nodelist.map Node.shape)) :
    m'.reach = m.reach := by
  have hsub : ∀ {left right : Nodemap},
      (∀ shape ∈ left.nodelist.map Node.shape, shape ∈ right.nodelist.map Node.shape) →
        left.reach ⊆ right.reach := by
    intro left right hmem cpu hcpu
    obtain ⟨n, hn, hwindow⟩ := Nodemap.mem_reach.mp hcpu
    obtain ⟨m, hm, hshape⟩ := List.mem_map.mp (hmem _ (List.mem_map_of_mem hn))
    exact Nodemap.mem_reach.mpr ⟨m, hm, Node.window_eq_of_shape hshape ▸ hwindow⟩
  exact Finset.Subset.antisymm (hsub fun _ h => hshapes.mem_iff.mp h)
    (hsub fun _ h => hshapes.mem_iff.mpr h)

variable {a b c : Allocation}

theorem take_used_bits (hok : a.Ok) {cpus : Finset Nat} (hreach : cpus ⊆ a.map.reach) :
    (a.take cpus).map.usedcpus.bits = a.map.usedcpus.bits ∪ cpus := by
  refine Bitmask.add_bits fun cpu hcpu => ?_
  obtain ⟨n, hn, hwindow⟩ := Nodemap.mem_reach.mp (hreach hcpu)
  exact (hok.nodes n hn).window_lt hwindow

theorem Grown.refl (ha : 0 ≤ a.nleft) : Grown a a ∅ where
  taken := by rw [take_empty]; rfl
  reach := Finset.empty_subset _
  free := Finset.disjoint_empty_left _
  card := by simpa using ha
  shapes := List.Perm.refl _

theorem Grown.trans (hok : a.Ok) {first second : Finset Nat} (hab : Grown a b first)
    (hbc : Grown b c second) : Grown a c (first ∪ second) := by
  have hb := hab.taken
  have hused : b.map.usedcpus.bits = a.map.usedcpus.bits ∪ first := by
    rw [hb]
    exact take_used_bits hok hab.reach
  have hleft : b.nleft = a.nleft - first.card := by
    rw [hb]
    rfl
  have hfree := hbc.free
  rw [hused, Finset.disjoint_union_right] at hfree
  have hdisj : Disjoint first second := hfree.2.symm
  refine ⟨?_, ?_, ?_, ?_, hbc.shapes.trans hab.shapes⟩
  · calc
      c = (b.take second).setNodes c.map.nodelist := hbc.taken
      _ = (((a.take first).setNodes b.map.nodelist).take second).setNodes c.map.nodelist := by
        rw [← hb]
      _ = ((a.take first).take second).setNodes c.map.nodelist := rfl
      _ = (a.take (first ∪ second)).setNodes c.map.nodelist := by rw [a.take_take hdisj]
  · refine Finset.union_subset hab.reach ?_
    rw [← reach_eq_of_shapes hab.shapes]
    exact hbc.reach
  · exact Finset.disjoint_union_left.mpr ⟨hab.free, hfree.1⟩
  · have hcard := hbc.card
    rw [Finset.card_union_of_disjoint hdisj]
    push_cast
    omega

/-! ## What one step preserves -/

theorem visit_used_bits {n : Node} (hn : n.Ok a.map.usedcpus) {locals : Finset Nat}
    (hlocals : ∀ i ∈ locals, i < n.ncpus ∧ nodeCpuToGlobal n i ∉ a.map.usedcpus.bits) :
    (a.take (locals.image (nodeCpuToGlobal n))).map.usedcpus.bits =
      a.map.usedcpus.bits ∪ locals.image (nodeCpuToGlobal n) := by
  refine Bitmask.add_bits fun cpu hcpu => ?_
  obtain ⟨i, hi, rfl⟩ := Finset.mem_image.mp hcpu
  exact hn.local_lt (hlocals i hi).1

/-- What a visit takes is free and in the window of the visited node. -/
theorem visit_subset_free {n : Node} {locals : Finset Nat}
    (hlocals : ∀ i ∈ locals, i < n.ncpus ∧ nodeCpuToGlobal n i ∉ a.map.usedcpus.bits) :
    locals.image (nodeCpuToGlobal n) ⊆ n.window \ a.map.usedcpus.bits := by
  intro cpu hcpu
  obtain ⟨i, hi, rfl⟩ := Finset.mem_image.mp hcpu
  exact Finset.mem_sdiff.mpr
    ⟨Node.mem_window.mpr ⟨i, (hlocals i hi).1, rfl⟩, (hlocals i hi).2⟩

theorem Step.ok (hok : a.Ok) (hstep : Step a b) : b.Ok := by
  cases hstep with
  | visit before after n locals hnodes hlocals hcard =>
      have hn : n.Ok a.map.usedcpus := hok.nodes n (by simp [hnodes])
      have hdisj : Disjoint a.map.usedcpus.bits (locals.image (nodeCpuToGlobal n)) :=
        Finset.disjoint_of_subset_right (visit_subset_free hlocals) Finset.disjoint_sdiff
      refine ⟨hok.used_size, hok.mask_size, ?_, ?_, ?_⟩
      · have hnavail := hok.navail_eq
        change a.map.navail - _ = (a.map.ncpus : Int) -
          ((a.take (locals.image (nodeCpuToGlobal n))).map.usedcpus.bits.card : Nat)
        rw [visit_used_bits hn hlocals, Finset.card_union_of_disjoint hdisj]
        simp only [Bitmask.weight] at hnavail
        push_cast
        omega
      · change 0 ≤ a.nleft - ((locals.image (nodeCpuToGlobal n)).card : Int)
        rw [Finset.card_image_of_injective _ n.nodeCpuToGlobal_injective]
        omega
      · intro m hm
        change m ∈ before ++ n.take locals :: after at hm
        rw [List.mem_append, List.mem_cons] at hm
        rcases hm with hm | rfl | hm
        · exact (hok.nodes m (by simp [hnodes, hm])).add_used _
        · exact hn.take hlocals
        · exact (hok.nodes m (by simp [hnodes, hm])).add_used _
  | reorder nodes hperm =>
      exact ⟨hok.used_size, hok.mask_size, hok.navail_eq, hok.nleft_nonneg,
        fun n hn => hok.nodes n (hperm.mem_iff.mp hn)⟩

theorem Step.grown (hok : a.Ok) (hstep : Step a b) : ∃ cpus, Grown a b cpus := by
  cases hstep with
  | visit before after n locals hnodes hlocals hcard =>
      have hsub := visit_subset_free hlocals
      refine ⟨locals.image (nodeCpuToGlobal n), rfl, ?_, ?_, ?_, ?_⟩
      · exact fun cpu hcpu => Nodemap.mem_reach.mpr
          ⟨n, by simp [hnodes], (Finset.mem_sdiff.mp (hsub hcpu)).1⟩
      · exact Finset.disjoint_of_subset_left hsub Finset.sdiff_disjoint
      · rwa [Finset.card_image_of_injective _ n.nodeCpuToGlobal_injective]
      · simp [setNodes, hnodes]
  | reorder nodes hperm =>
      refine ⟨∅, ?_, Finset.empty_subset _, Finset.disjoint_empty_left _, ?_, ?_⟩
      · rw [take_empty]
        rfl
      · simpa using hok.nleft_nonneg
      · exact hperm.map _

theorem Step.separate (hok : a.Ok) (hsep : a.Separate) (hstep : Step a b) : b.Separate := by
  cases hstep with
  | visit before after n locals hnodes hlocals hcard =>
      have hn : n.Ok a.map.usedcpus := hok.nodes n (by simp [hnodes])
      have hbits := visit_used_bits hn hlocals
      have hsub := visit_subset_free hlocals
      have hapart := hsep.apart
      rw [hnodes, List.pairwise_append, List.pairwise_cons] at hapart
      obtain ⟨hbefore, ⟨hright, hafter⟩, hleft⟩ := hapart
      -- CPUs taken from one node are in no other node's window
      have houtside : ∀ m : Node,
          Disjoint (m.window \ a.map.usedcpus.bits) (n.window \ a.map.usedcpus.bits) →
            Disjoint m.window (locals.image (nodeCpuToGlobal n)) := by
        intro m hdisj
        refine Finset.disjoint_left.mpr fun cpu hwindow hcpu => ?_
        have hfree := (Finset.mem_sdiff.mp (hsub hcpu)).2
        exact Finset.disjoint_left.mp hdisj (Finset.mem_sdiff.mpr ⟨hwindow, hfree⟩) (hsub hcpu)
      have hshrink : ∀ m : Node, m.window \ (a.map.usedcpus.bits ∪
          locals.image (nodeCpuToGlobal n)) ⊆ m.window \ a.map.usedcpus.bits :=
        fun m => Finset.sdiff_subset_sdiff (Finset.Subset.refl _) Finset.subset_union_left
      constructor
      · intro m hm
        change m.Exact (a.take (locals.image (nodeCpuToGlobal n))).map.usedcpus.bits
        rw [hbits]
        change m ∈ before ++ n.take locals :: after at hm
        rw [List.mem_append, List.mem_cons] at hm
        rcases hm with hm | rfl | hm
        · exact (hsep.exact m (by simp [hnodes, hm])).add_used
            (houtside m (hleft m hm n List.mem_cons_self))
        · exact (hsep.exact n (by simp [hnodes])).take hn.used_size fun i hi => (hlocals i hi).1
        · exact (hsep.exact m (by simp [hnodes, hm])).add_used (houtside m (hright m hm).symm)
      · change (before ++ n.take locals :: after).Pairwise fun n' m' =>
          Disjoint (n'.window \ (a.take (locals.image (nodeCpuToGlobal n))).map.usedcpus.bits)
            (m'.window \ (a.take (locals.image (nodeCpuToGlobal n))).map.usedcpus.bits)
        have hmono : ∀ {left right : Node},
            Disjoint (left.window \ a.map.usedcpus.bits) (right.window \ a.map.usedcpus.bits) →
            Disjoint (left.window \ (a.map.usedcpus.bits ∪ locals.image (nodeCpuToGlobal n)))
              (right.window \ (a.map.usedcpus.bits ∪ locals.image (nodeCpuToGlobal n))) :=
          fun hdisj => hdisj.mono (hshrink _) (hshrink _)
        rw [hbits, List.pairwise_append, List.pairwise_cons]
        refine ⟨hbefore.imp hmono, ⟨fun m hm => hmono (hright m hm), hafter.imp hmono⟩, ?_⟩
        intro left hl right hr
        rcases List.mem_cons.mp hr with rfl | hr
        · exact hmono (hleft left hl n List.mem_cons_self)
        · exact hmono (hleft left hl right (List.mem_cons_of_mem _ hr))
  | reorder nodes hperm =>
      exact ⟨fun n hn => hsep.exact n (hperm.mem_iff.mp hn),
        (hperm.pairwise_iff fun hdisj => hdisj.symm).mpr hsep.apart⟩

/-! ## What a chain preserves -/

theorem chain_ok (hok : a.Ok) (hchain : ReflTransGen Step a b) : b.Ok := by
  induction hchain with
  | refl => exact hok
  | tail _ hstep ih => exact hstep.ok ih

theorem chain_separate (hok : a.Ok) (hsep : a.Separate) (hchain : ReflTransGen Step a b) :
    b.Separate := by
  induction hchain with
  | refl => exact hsep
  | tail hprior hstep ih => exact hstep.separate (chain_ok hok hprior) ih

theorem chain_grown (hok : a.Ok) (hchain : ReflTransGen Step a b) : ∃ cpus, Grown a b cpus := by
  induction hchain with
  | refl => exact ⟨∅, Grown.refl hok.nleft_nonneg⟩
  | tail hprior hstep ih =>
      obtain ⟨first, hfirst⟩ := ih
      obtain ⟨second, hsecond⟩ := hstep.grown (chain_ok hok hprior)
      exact ⟨first ∪ second, hfirst.trans hok hsecond⟩

theorem Grown.nleft_eq {cpus : Finset Nat} (hgrown : Grown a b cpus) :
    b.nleft = a.nleft - cpus.card := by
  rw [hgrown.taken]
  rfl

theorem Grown.used_bits (hok : a.Ok) {cpus : Finset Nat} (hgrown : Grown a b cpus) :
    b.map.usedcpus.bits = a.map.usedcpus.bits ∪ cpus := by
  rw [hgrown.taken]
  exact take_used_bits hok hgrown.reach

/-- A chain can only use up what is left, and only add to the CPUs in use. -/
theorem chain_nleft_le (hok : a.Ok) (hchain : ReflTransGen Step a b) : b.nleft ≤ a.nleft := by
  obtain ⟨cpus, hgrown⟩ := chain_grown hok hchain
  rw [hgrown.nleft_eq]
  omega

theorem chain_used_subset (hok : a.Ok) (hchain : ReflTransGen Step a b) :
    a.map.usedcpus.bits ⊆ b.map.usedcpus.bits := by
  obtain ⟨cpus, hgrown⟩ := chain_grown hok hchain
  rw [hgrown.used_bits hok]
  exact Finset.subset_union_left

end Allocation

/-! ## The traversals are chains -/

namespace Allocation

variable {a : Allocation}

/-- A visit by `node_allocate_n` to a listed node, written on the whole list. -/
theorem visit_step {before after : List Node} {n : Node} (count : Int)
    (hok : (a.setNodes (before ++ n :: after)).Ok) :
    nodeAllocateN n a count = (n.take (n.picks a count),
        a.take ((n.picks a count).image (nodeCpuToGlobal n)), ((n.picks a count).card : Int)) ∧
      Step (a.setNodes (before ++ n :: after))
        ((a.take ((n.picks a count).image (nodeCpuToGlobal n))).setNodes
          (before ++ n.take (n.picks a count) :: after)) := by
  have hn : n.Ok a.map.usedcpus := hok.nodes n (by simp [setNodes])
  refine ⟨nodeAllocateN_eq count hn (hok.mask_size.trans hok.used_size.symm) hok.nleft_nonneg, ?_⟩
  exact .visit (a := a.setNodes (before ++ n :: after)) before after n (n.picks a count) rfl
    Node.picks_free (n.card_picks_le count hok.nleft_nonneg)

theorem forEach_chain (before nodes : List Node) (k : Int)
    (hok : (a.setNodes (before ++ nodes)).Ok) :
    ReflTransGen Step (a.setNodes (before ++ nodes))
      ((listForEach nodeAllocateAll nodes a k).2.1.setNodes
        (before ++ (listForEach nodeAllocateAll nodes a k).1)) := by
  induction nodes generalizing a before k with
  | nil => exact .refl
  | cons n rest ih =>
      obtain ⟨heq, hstep⟩ := visit_step (-1) hok
      simp only [listForEach, nodeAllocateAll, heq,
        show ¬ (((n.picks a (-1)).card : Int) < 0) by omega, ↓reduceIte]
      refine .head hstep ?_
      have hnext := ih (before ++ [n.take (n.picks a (-1))]) (k + 1) (by simpa using hstep.ok hok)
      simpa using hnext

/-- After the pass of `do_allocation` either nothing is left to take, or every node has
given all the CPUs it can reach. -/
theorem forEach_exhausts (before nodes : List Node) (k : Int)
    (hok : (a.setNodes (before ++ nodes)).Ok) :
    (listForEach nodeAllocateAll nodes a k).2.1.nleft = 0 ∨ ∀ n ∈ nodes,
      n.window ⊆ (listForEach nodeAllocateAll nodes a k).2.1.map.usedcpus.bits := by
  induction nodes generalizing a before k with
  | nil => exact Or.inr (by simp)
  | cons n rest ih =>
      obtain ⟨heq, hstep⟩ := visit_step (-1) hok
      have hok' := hstep.ok hok
      have hassoc : before ++ n.take (n.picks a (-1)) :: rest =
          (before ++ [n.take (n.picks a (-1))]) ++ rest := by simp
      rw [hassoc] at hok'
      have hchain := forEach_chain (before ++ [n.take (n.picks a (-1))]) rest (k + 1) hok'
      have hleft := chain_nleft_le hok' hchain
      have hused := chain_used_subset hok' hchain
      have hfinal := (chain_ok hok' hchain).nleft_nonneg
      simp only [listForEach, nodeAllocateAll, heq,
        show ¬ (((n.picks a (-1)).card : Int) < 0) by omega, ↓reduceIte]
      rcases ih (before ++ [n.take (n.picks a (-1))]) (k + 1) hok' with hdone | hrest
      · exact Or.inl hdone
      · have hn : n.Ok a.map.usedcpus := hok.nodes n (by simp [setNodes])
        have hcard := n.card_picks a (-1)
        have hnavail := hn.card_free_le_navail
        have hpos : 0 ≤ a.nleft := hok.nleft_nonneg
        simp only [show (-1 : Int) < 0 by omega, ↓reduceIte] at hcard
        by_cases hall : (n.picks a (-1)).card = (n.window \ a.map.usedcpus.bits).card
        · refine Or.inr fun m hm => ?_
          rcases List.mem_cons.mp hm with rfl | hm
          · -- every free CPU of this node was taken
            have hsub : (m.picks a (-1)).image (nodeCpuToGlobal m) ⊆
                m.window \ a.map.usedcpus.bits := visit_subset_free Node.picks_free
            have hfull : (m.picks a (-1)).image (nodeCpuToGlobal m) =
                m.window \ a.map.usedcpus.bits :=
              Finset.eq_of_subset_of_card_le hsub (by
                rw [Finset.card_image_of_injective _ m.nodeCpuToGlobal_injective, hall])
            refine Finset.Subset.trans ?_ hused
            change m.window ⊆
              (a.take ((m.picks a (-1)).image (nodeCpuToGlobal m))).map.usedcpus.bits
            rw [visit_used_bits hn Node.picks_free, hfull, Finset.union_sdiff_self_eq_union]
            exact Finset.subset_union_right
          · exact hrest m hm
        · left
          have htaken : (a.take ((n.picks a (-1)).image (nodeCpuToGlobal n))).nleft =
              a.nleft - (n.picks a (-1)).card := by
            rw [← Finset.card_image_of_injective (n.picks a (-1)) n.nodeCpuToGlobal_injective]
            rfl
          have hzero : (a.take ((n.picks a (-1)).image (nodeCpuToGlobal n))).nleft = 0 := by omega
          exact Int.le_antisymm (hzero ▸ hleft) hfinal

theorem idleLoop_chain (before nodes : List Node) (k : Int)
    (hok : (a.setNodes (before ++ nodes)).Ok) :
    ReflTransGen Step (a.setNodes (before ++ nodes))
      ((allocIdleLoop nodes a k).2.1.setNodes (before ++ (allocIdleLoop nodes a k).1)) := by
  induction nodes generalizing a before k with
  | nil => exact .refl
  | cons n rest ih =>
      unfold allocIdleLoop
      split
      next hleft =>
        split
        next hidle =>
          obtain ⟨heq, hstep⟩ := visit_step n.ncpus hok
          simp only [heq]
          refine .head hstep ?_
          simpa using ih (before ++ [n.take (n.picks a n.ncpus)]) (k + (n.picks a n.ncpus).card)
            (by simpa using hstep.ok hok)
        next hskip => simpa using ih (before ++ [n]) k (by simpa using hok)
      next hdone => exact .refl

theorem allocIdleNodes_chain (hok : a.Ok) : ReflTransGen Step a (allocIdleNodes a).1 :=
  idleLoop_chain [] a.map.nodelist 0 hok

theorem sortNodes_step (a : Allocation) (cmp : Node → Node → Int) : Step a (a.sortNodes cmp) :=
  .reorder _ (listSort_perm cmp _)

theorem doAllocation_chain (sort : Option (Node → Node → Int)) (hok : a.Ok) :
    ReflTransGen Step a (doAllocation a sort) := by
  cases sort with
  | none => exact forEach_chain [] a.map.nodelist 0 hok
  | some cmp =>
      have hstep := a.sortNodes_step cmp
      exact .head hstep
        (@forEach_chain (a.sortNodes cmp) [] (a.sortNodes cmp).map.nodelist 0 (hstep.ok hok))

/-- Best and first fit take all that is asked for, or all that can be reached. -/
theorem doAllocation_exhausts (sort : Option (Node → Node → Int)) (hok : a.Ok) :
    (doAllocation a sort).nleft = 0 ∨ a.map.reach ⊆ (doAllocation a sort).map.usedcpus.bits := by
  have hpass : ∀ b : Allocation, b.Ok → (∀ n, n ∈ a.map.nodelist → n ∈ b.map.nodelist) →
      (listForEach nodeAllocateAll b.map.nodelist b 0).2.1.nleft = 0 ∨ a.map.reach ⊆
        (listForEach nodeAllocateAll b.map.nodelist b 0).2.1.map.usedcpus.bits := by
    intro b hb hmem
    refine (forEach_exhausts [] b.map.nodelist 0 hb).imp_right fun hall cpu hcpu => ?_
    obtain ⟨n, hn, hwindow⟩ := Nodemap.mem_reach.mp hcpu
    exact hall n (hmem n hn) hwindow
  cases sort with
  | none => exact hpass a hok fun _ hn => hn
  | some cmp =>
      exact hpass (a.sortNodes cmp) ((a.sortNodes_step cmp).ok hok) fun _ hn => mem_listSort.mpr hn

/-! ## Worst fit -/

theorem nodeCmpAvail_lt (n m : Node) : nodeCmpAvail n m < 0 ↔ -n.navail < -m.navail := by
  unfold nodeCmpAvail nodeCmpFree
  split_ifs <;> omega

/-- One turn visits the first node of the sorted list, and takes at most one CPU from it. -/
theorem worstFitTurn_eq {n : Node} {rest : List Node} (hok : a.Ok)
    (hsort : listSort nodeCmpAvail a.map.nodelist = n :: rest) :
    worstFitTurn a = some ((a.take ((n.picks a 1).image (nodeCpuToGlobal n))).setNodes
        (n.take (n.picks a 1) :: rest), ((n.picks a 1).card : Int)) ∧
      Step (a.sortNodes nodeCmpAvail) ((a.take ((n.picks a 1).image (nodeCpuToGlobal n))).setNodes
        (n.take (n.picks a 1) :: rest)) := by
  have hok' := (a.sortNodes_step nodeCmpAvail).ok hok
  unfold worstFitTurn
  unfold sortNodes at hok' ⊢
  rw [hsort] at hok' ⊢
  obtain ⟨heq, hvisit⟩ := @visit_step (a.setNodes (n :: rest)) [] rest n 1 hok'
  refine ⟨?_, hvisit⟩
  change (some ((nodeAllocateN n (a.setNodes (n :: rest)) 1).2.1.setNodes
    ((nodeAllocateN n (a.setNodes (n :: rest)) 1).1 ::
      (nodeAllocateN n (a.setNodes (n :: rest)) 1).2.1.map.nodelist.tail),
    (nodeAllocateN n (a.setNodes (n :: rest)) 1).2.2) : Option (Allocation × Int)) = _
  rw [heq]
  rfl

theorem worstFitTurn_spec {b : Allocation} {rc : Int} (hok : a.Ok)
    (hturn : worstFitTurn a = some (b, rc)) :
    ReflTransGen Step a b ∧ ∃ n ∈ a.map.nodelist, (∀ m ∈ a.map.nodelist, m.navail ≤ n.navail) ∧
      rc = (n.picks a 1).card ∧ b.nleft = a.nleft - rc := by
  have hsorted := listSort_sorted nodeCmpAvail_lt a.map.nodelist
  cases hsort : listSort nodeCmpAvail a.map.nodelist with
  | nil => simp [worstFitTurn, sortNodes, hsort, listPeek, setNodes] at hturn
  | cons n rest =>
      obtain ⟨heq, hvisit⟩ := worstFitTurn_eq hok hsort
      rw [heq] at hturn
      simp only [Option.some.injEq, Prod.mk.injEq] at hturn
      obtain ⟨rfl, rfl⟩ := hturn
      have hmem : ∀ m, m ∈ a.map.nodelist ↔ m = n ∨ m ∈ rest := fun m => by
        rw [← List.mem_cons, ← hsort, mem_listSort]
      refine ⟨.head (a.sortNodes_step nodeCmpAvail) (.single hvisit), n,
        (hmem n).mpr (Or.inl rfl), ?_, rfl, ?_⟩
      · intro m hm
        rw [hsort, List.pairwise_cons] at hsorted
        rcases (hmem m).mp hm with rfl | hrest
        · exact le_rfl
        · have := hsorted.1 m hrest
          omega
      · rw [← Finset.card_image_of_injective (n.picks a 1) n.nodeCpuToGlobal_injective]
        rfl

theorem worstFit_chain (fuel : Nat) {b : Allocation} (hok : a.Ok)
    (hfit : allocationWorstFit fuel a = some b) : ReflTransGen Step a b ∧ b.nleft = 0 := by
  induction fuel generalizing a with
  | zero =>
      simp only [allocationWorstFit, ne_eq, ite_not] at hfit
      split at hfit
      next hzero => exact ⟨Option.some.inj hfit ▸ .refl, Option.some.inj hfit ▸ hzero⟩
      next => exact absurd hfit (by simp)
  | succ fuel ih =>
      unfold allocationWorstFit at hfit
      split at hfit
      next hleft =>
        cases hturn : worstFitTurn a with
        | none => simp [hturn] at hfit
        | some result =>
            obtain ⟨c, rc⟩ := result
            obtain ⟨hchain, n, -, -, hrc, -⟩ := worstFitTurn_spec hok hturn
            simp only [hturn, show ¬ rc < 0 by omega, ↓reduceIte] at hfit
            obtain ⟨hrest, hzero⟩ := ih (chain_ok hok hchain) hfit
            exact ⟨hchain.trans hrest, hzero⟩
      next hzero =>
        exact ⟨Option.some.inj hfit ▸ .refl, Option.some.inj hfit ▸ not_not.mp hzero⟩

/-- As long as some CPU can be taken, a turn takes one: the node at the head has the most
CPUs available, and the counts of separate nodes are those of the CPUs they can give. -/
theorem worstFitTurn_takes (hok : a.Ok) (hsep : a.Separate) (hleft : 0 < a.nleft)
    (hfree : (a.map.reach \ a.map.usedcpus.bits).Nonempty) :
    ∃ b, worstFitTurn a = some (b, 1) := by
  obtain ⟨cpu, hcpu⟩ := hfree
  obtain ⟨hreach, hunused⟩ := Finset.mem_sdiff.mp hcpu
  obtain ⟨m, hm, hwindow⟩ := Nodemap.mem_reach.mp hreach
  have hcount : ∀ n ∈ a.map.nodelist,
      ((n.window \ a.map.usedcpus.bits).card : Int) = n.navail :=
    fun n hn => (hok.nodes n hn).card_free_eq_navail (hsep.exact n hn)
  have hpos : 0 < (m.window \ a.map.usedcpus.bits).card :=
    Finset.card_pos.mpr ⟨cpu, Finset.mem_sdiff.mpr ⟨hwindow, hunused⟩⟩
  cases hturn : worstFitTurn a with
  | none =>
      cases hsort : listSort nodeCmpAvail a.map.nodelist with
      | nil =>
          have hempty := (listSort_perm nodeCmpAvail a.map.nodelist).mem_iff.mpr hm
          simp [hsort] at hempty
      | cons n rest => simp [(worstFitTurn_eq hok hsort).1] at hturn
  | some result =>
      obtain ⟨b, rc⟩ := result
      obtain ⟨-, n, hn, hmax, hrc, -⟩ := worstFitTurn_spec hok hturn
      have hcard := n.card_picks a 1
      have hm' := hcount m hm
      have hn' := hcount n hn
      have hle := hmax m hm
      simp only [show ¬ (1 : Int) < 0 by omega, ↓reduceIte] at hcard
      have hone : rc = 1 := by omega
      exact ⟨b, by rw [hone]⟩

/-- Worst fit ends within as many turns as CPUs are asked for when that many can be
reached and the nodes are separate. -/
theorem worstFit_terminates (fuel : Nat) (hok : a.Ok) (hsep : a.Separate)
    (hreach : a.nleft ≤ (a.map.reach \ a.map.usedcpus.bits).card) (hfuel : a.nleft ≤ fuel) :
    ∃ b, allocationWorstFit fuel a = some b := by
  induction fuel generalizing a with
  | zero =>
      have hzero : a.nleft = 0 := by
        have := hok.nleft_nonneg
        omega
      exact ⟨a, by simp [allocationWorstFit, hzero]⟩
  | succ fuel ih =>
      unfold allocationWorstFit
      split
      next hleft =>
        have hpos : 0 < a.nleft := by
          have := hok.nleft_nonneg
          omega
        obtain ⟨b, hturn⟩ := worstFitTurn_takes hok hsep hpos
          (Finset.card_pos.mp (by omega))
        obtain ⟨hchain, -, -, -, -, hnleft⟩ := worstFitTurn_spec hok hturn
        obtain ⟨cpus, hgrown⟩ := chain_grown hok hchain
        simp only [hturn, show ¬ (1 : Int) < 0 by omega, ↓reduceIte]
        refine ih (chain_ok hok hchain) (chain_separate hok hsep hchain) ?_ (by omega)
        have hone : cpus.card = 1 := by
          have := hgrown.nleft_eq
          omega
        have hrest : b.map.reach \ b.map.usedcpus.bits =
            (a.map.reach \ a.map.usedcpus.bits) \ cpus := by
          rw [reach_eq_of_shapes hgrown.shapes, hgrown.used_bits hok]
          exact sdiff_sdiff_left.symm
        rw [hrest, Finset.card_sdiff_of_subset
          (Finset.subset_sdiff.mpr ⟨hgrown.reach, hgrown.free⟩)]
        omega
      next hzero => exact ⟨a, rfl⟩

end Allocation

end SlurmSpank.Cpuset
