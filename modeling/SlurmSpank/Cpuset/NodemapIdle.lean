import SlurmSpank.Cpuset.NodemapWorstFit

/-! # The idle phase

Where all nodes have one size, the idle phase takes whole idle nodes from the front of the node
list, as many as the request has room for. The test that enters the phase and the tests of its
loop agree, because what is left stays a multiple of the size when it was one.
-/

namespace SlurmSpank.Cpuset

open Lib Relation

/-! ## The idle nodes that are taken -/

/-- The idle nodes from the front that fit whole into a request. -/
def takenIdle (s : Nat) (nleft : Int) (nodes : List Node) : List Node :=
  (nodes.filter fun n => n.navail = n.ncpus).take (nleft / s).toNat

theorem takenIdle_nil (s : Nat) (nleft : Int) : takenIdle s nleft [] = [] := List.take_nil

theorem takenIdle_busy {s : Nat} {nleft : Int} {n : Node} (rest : List Node)
    (hbusy : n.navail ≠ n.ncpus) : takenIdle s nleft (n :: rest) = takenIdle s nleft rest := by
  rw [takenIdle, List.filter_cons_of_neg (by rw [decide_eq_true_iff]; exact hbusy)]
  rfl

theorem takenIdle_idle {s : Nat} (hs : 0 < s) {nleft : Int} {n : Node} (rest : List Node)
    (hidle : n.navail = n.ncpus) (hle : (s : Int) ≤ nleft) :
    takenIdle s nleft (n :: rest) = n :: takenIdle s (nleft - s) rest := by
  have hquotient : (nleft / s).toNat = ((nleft - s) / s).toNat + 1 := by
    have hs' : (s : Int) ≠ 0 := by omega
    have hsub : (nleft - s) / s = nleft / s - 1 := by
      rw [Int.sub_ediv_of_dvd _ (dvd_refl _), Int.ediv_self hs']
    have hpos : 1 ≤ nleft / s := Int.le_ediv_of_mul_le (by omega) (by omega)
    omega
  rw [takenIdle, List.filter_cons_of_pos (by rw [decide_eq_true_iff]; exact hidle), hquotient,
    List.take_succ_cons]
  rfl

theorem takenIdle_short {s : Nat} {nleft : Int} (nodes : List Node) (hpos : 0 ≤ nleft)
    (hlt : nleft < s) : takenIdle s nleft nodes = [] := by
  rw [takenIdle, Int.ediv_eq_zero_of_lt hpos hlt]
  rfl

theorem mem_of_mem_takenIdle {s : Nat} {nleft : Int} {nodes : List Node} {n : Node}
    (hn : n ∈ takenIdle s nleft nodes) : n ∈ nodes ∧ n.navail = n.ncpus := by
  obtain ⟨hmem, hidle⟩ := List.mem_filter.mp (List.mem_of_mem_take hn)
  exact ⟨hmem, of_decide_eq_true hidle⟩

/-- The CPUs of nodes. -/
def cpusOf (nodes : List Node) : Finset Nat := nodes.toFinset.biUnion Node.window

/-- A node that is taken whole is charged all of its CPUs. -/
def chargeWhole (taken : List Node) (n : Node) : Node :=
  if n ∈ taken then n.take (Finset.range n.ncpus) else n

theorem cpusOf_cons (n : Node) (nodes : List Node) :
    cpusOf (n :: nodes) = n.window ∪ cpusOf nodes := by
  rw [cpusOf, List.toFinset_cons, Finset.biUnion_insert]
  rfl

/-! ## A visit to an idle node -/

theorem Node.picks_idle {n : Node} {a : Allocation} (hn : n.Ok a.map.usedcpus)
    (hexact : n.Exact a.map.usedcpus.bits) (hidle : n.navail = n.ncpus)
    (hle : (n.ncpus : Int) ≤ a.nleft) : n.picks a n.ncpus = Finset.range n.ncpus := by
  have hcard := n.card_picks a n.ncpus
  have hnavail := hn.card_free_eq_navail hexact
  rw [if_neg (by omega)] at hcard
  refine Finset.eq_of_subset_of_card_le ?_ ?_
  · exact fun i hi => Finset.mem_range.mpr (Node.picks_free i hi).1
  · rw [Finset.card_range]
    omega

/-! ## The loop -/

namespace Allocation

variable {a : Allocation} {s : Nat}

/-- An idle node that fits passes the tests of the loop, and no other node does. -/
theorem idle_tests {n : Node} (hs : 0 < s) (hsize : n.ncpus = s)
    (hmultiple : a.map.policy.allocIdleMultiplesOnly = true → (s : Int) ∣ a.nleft) :
    (n.navail ≠ 0 ∧ ¬ (a.map.policy.allocIdleMultiplesOnly = true ∧ a.nleft.tmod n.navail ≠ 0) ∧
        n.navail = n.ncpus ∧ a.nleft ≥ n.navail) ↔
      n.navail = n.ncpus ∧ (s : Int) ≤ a.nleft := by
  constructor
  · rintro ⟨-, -, hidle, hle⟩
    exact ⟨hidle, by omega⟩
  · rintro ⟨hidle, hle⟩
    refine ⟨by omega, ?_, hidle, by omega⟩
    rintro ⟨hmode, hmod⟩
    rw [hidle, hsize] at hmod
    exact hmod (Int.tmod_eq_zero_of_dvd (hmultiple hmode))

/-- What the loop does to the nodes and to the allocation. -/
structure TakesIdle (a : Allocation) (s : Nat) (nodes : List Node)
    (result : List Node × Allocation × Int) : Prop where
  nodes_eq : result.1 = nodes.map (chargeWhole (takenIdle s a.nleft nodes))
  allocated_eq : result.2.1.allocatedCpus.bits =
    a.allocatedCpus.bits ∪ cpusOf (takenIdle s a.nleft nodes)
  nleft_eq : result.2.1.nleft = a.nleft - s * (takenIdle s a.nleft nodes).length

/-- Nothing is taken when no idle node fits. -/
theorem takesIdle_none {nodes : List Node} {k : Int} (hnone : takenIdle s a.nleft nodes = []) :
    TakesIdle a s nodes (nodes, a, k) where
  nodes_eq := by
    rw [hnone]
    exact (List.map_id' _).symm
  allocated_eq := by
    rw [hnone]
    exact (Finset.union_empty _).symm
  nleft_eq := by
    rw [hnone]
    exact (Int.sub_zero _).symm

/-- A node that is not taken stays in front of what the loop makes of the rest. -/
theorem TakesIdle.skip {n : Node} {rest : List Node} {result : List Node × Allocation × Int}
    (htakes : TakesIdle a s rest result) (hnot : n ∉ rest)
    (htaken : takenIdle s a.nleft (n :: rest) = takenIdle s a.nleft rest) :
    TakesIdle a s (n :: rest) (n :: result.1, result.2.1, result.2.2) where
  nodes_eq := by
    rw [htaken, List.map_cons, ← htakes.nodes_eq, chargeWhole,
      if_neg fun hmem => hnot (mem_of_mem_takenIdle hmem).1]
  allocated_eq := by
    rw [htaken]
    exact htakes.allocated_eq
  nleft_eq := by
    rw [htaken]
    exact htakes.nleft_eq

/-- An idle node that fits is taken, and the loop goes on with what is left. -/
theorem TakesIdle.whole {n : Node} {rest : List Node} {result : List Node × Allocation × Int}
    (hs : 0 < s) (htakes : TakesIdle (a.take n.window) s rest result) (hnot : n ∉ rest)
    (hsize : n.ncpus = s) (hidle : n.navail = n.ncpus) (hle : (s : Int) ≤ a.nleft)
    (hbits : (a.take n.window).allocatedCpus.bits = a.allocatedCpus.bits ∪ n.window) :
    TakesIdle a s (n :: rest)
      (n.take (Finset.range n.ncpus) :: result.1, result.2.1, result.2.2) := by
  have hleft : (a.take n.window).nleft = a.nleft - s := by
    rw [← hsize, ← n.card_window]
    rfl
  have htaken := takenIdle_idle hs rest hidle hle
  refine ⟨?_, ?_, ?_⟩
  · rw [htaken, List.map_cons, htakes.nodes_eq, hleft, chargeWhole, if_pos List.mem_cons_self]
    refine congrArg (List.cons _) ?_
    apply List.map_congr_left
    intro other hother
    have hne : other ≠ n := fun heq => hnot (heq ▸ hother)
    unfold chargeWhole
    simp only [List.mem_cons, hne, false_or]
  · rw [htaken, htakes.allocated_eq, hbits, hleft, cpusOf_cons, Finset.union_assoc]
  · rw [htaken, htakes.nleft_eq, hleft, List.length_cons]
    rw [Nat.cast_add, Nat.cast_one, Int.mul_add, Int.mul_one]
    omega

theorem allocIdleLoop_takes (hs : 0 < s) (before nodes : List Node) (k : Int)
    (hok : (a.setNodes (before ++ nodes)).Ok) (hsep : (a.setNodes (before ++ nodes)).Separate)
    (hsize : ∀ n ∈ nodes, n.ncpus = s) (hnodup : nodes.Nodup)
    (hmultiple : a.map.policy.allocIdleMultiplesOnly = true → (s : Int) ∣ a.nleft) :
    TakesIdle a s nodes (allocIdleLoop nodes a k) := by
  induction nodes generalizing a before k with
  | nil => exact takesIdle_none (takenIdle_nil s a.nleft)
  | cons n rest ih =>
      obtain ⟨hnot, hnodup⟩ := List.nodup_cons.mp hnodup
      obtain ⟨hn, hrest⟩ := List.forall_mem_cons.mp hsize
      unfold allocIdleLoop
      split
      next hleft =>
        split
        next htests =>
          obtain ⟨hidle, hle⟩ := (idle_tests hs hn hmultiple).mp htests
          have hmem : n ∈ (a.setNodes (before ++ n :: rest)).map.nodelist :=
            List.mem_append_right _ List.mem_cons_self
          have hnode : n.Ok a.map.usedcpus := hok.nodes n hmem
          obtain ⟨heq, hstep⟩ := visit_step n.ncpus hok
          rw [Node.picks_idle hnode (hsep.exact n hmem) hidle (hn ▸ hle)] at heq hstep
          have hassoc : before ++ n.take (Finset.range n.ncpus) :: rest =
              (before ++ [n.take (Finset.range n.ncpus)]) ++ rest := by
            rw [List.append_assoc, List.singleton_append]
          have hok' := hstep.ok hok
          have hsep' := hstep.separate hok hsep
          rw [hassoc] at hok' hsep'
          have hbits := take_allocated_bits hok hmem (Finset.Subset.refl n.window)
          have hmultiple' : (a.take n.window).map.policy.allocIdleMultiplesOnly = true →
              (s : Int) ∣ (a.take n.window).nleft := by
            intro hmode
            change (s : Int) ∣ a.nleft - n.window.card
            rw [n.card_window, hn]
            exact Int.dvd_sub (hmultiple hmode) (Int.dvd_refl _)
          simp only [heq]
          exact (ih _ _ hok' hsep' hrest hnodup hmultiple').whole hs hnot hn hidle hle hbits
        next htests =>
          have htaken : takenIdle s a.nleft (n :: rest) = takenIdle s a.nleft rest := by
            by_cases hidle : n.navail = n.ncpus
            · have hlt : a.nleft < s := by
                by_contra hge
                exact htests ((idle_tests hs hn hmultiple).mpr ⟨hidle, not_lt.mp hge⟩)
              rw [takenIdle_short _ hleft.le hlt, takenIdle_short _ hleft.le hlt]
            · exact takenIdle_busy rest hidle
          refine (ih (before ++ [n]) k ?_ ?_ hrest hnodup hmultiple).skip hnot htaken
          · rw [List.append_assoc]
            exact hok
          · rw [List.append_assoc]
            exact hsep
      next hdone =>
        exact takesIdle_none (takenIdle_short _ hok.nleft_nonneg (by omega))

end Allocation

/-! ## The phase -/

section Call

variable {m : Nodemap} {s : Nat} {ncpus : Int}

/-- The nodes in the order of their numbers. -/
def Nodemap.idOrder (m : Nodemap) : List Node :=
  m.nodelist.insertionSort fun n n' => m.idKey n ≤ m.idKey n'

/-- The nodes of which no CPU is in use. -/
def Nodemap.idleNodes (m : Nodemap) : List Node :=
  m.idOrder.filter fun n => Disjoint n.localcpus.bits m.usedcpus.bits

/-- The first idle nodes, as many as the request has room for. When only multiples of the size
count, another request has none. -/
def Nodemap.idleShare (m : Nodemap) (s : Nat) (ncpus : Int) : List Node :=
  if m.policy.allocIdleMultiplesOnly = true ∧ ¬ (s : Int) ∣ ncpus then []
  else m.idleNodes.take (min m.idleNodes.length (ncpus / s).toNat)

/-- An allocation has taken the idle nodes of its share whole, and nothing else. -/
structure Nodemap.IdlePhase (m : Nodemap) (s : Nat) (ncpus : Int) (a : Allocation) : Prop where
  allocated_eq : a.allocatedCpus.bits =
    (m.idleShare s ncpus).toFinset.biUnion fun n => n.localcpus.bits
  nleft_eq : a.nleft = ncpus - s * (m.idleShare s ncpus).length
  nodes_eq : a.map.nodelist = m.idOrder.map (chargeWhole (m.idleShare s ncpus))
  partly_used : ∀ n ∈ m.nodelist, ¬ Disjoint n.localcpus.bits m.usedcpus.bits →
    Disjoint n.localcpus.bits a.allocatedCpus.bits

theorem mem_idOrder {n : Node} : n ∈ m.idOrder ↔ n ∈ m.nodelist :=
  (List.perm_insertionSort _ _).mem_iff

theorem sortIds_eq_idOrder (hids : (m.nodelist.map Node.nodeid).Nodup) :
    listSort m.cmpIds m.nodelist = m.idOrder :=
  eq_insertionSort (fun _ hn _ hn' hkey => eq_of_idKey hids hn hn' hkey) (listSort_perm _ _)
    (sortIds_sorted m)

/-- The counter of a node says whether it is idle. -/
theorem idle_iff (hblocks : m.Blocks) {n : Node} (hn : n ∈ m.nodelist) :
    n.navail = n.ncpus ↔ Disjoint n.localcpus.bits m.usedcpus.bits := by
  have hnode := hblocks.ok.nodes n hn
  have hcard := hnode.card_free_eq_navail (hblocks.exact n hn)
  have hwindow := n.card_window
  rw [hblocks.window_eq hn] at hcard hwindow
  rw [← Finset.sdiff_eq_self_iff_disjoint]
  constructor
  · intro hidle
    exact Finset.eq_of_subset_of_card_le Finset.sdiff_subset (by omega)
  · intro hself
    rw [hself] at hcard
    omega

theorem take_min_length {α : Type*} (items : List α) (k : Nat) :
    items.take (min items.length k) = items.take k := by
  rcases Nat.le_total items.length k with hle | hge
  · rw [min_eq_left hle, List.take_length, List.take_of_length_le hle]
  · rw [min_eq_right hge]

theorem idleNodes_eq (hblocks : m.Blocks) :
    m.idleNodes = m.idOrder.filter fun n => n.navail = n.ncpus := by
  apply List.filter_congr
  intro n hn
  rw [decide_eq_decide]
  exact (idle_iff hblocks (mem_idOrder.mp hn)).symm

/-- The test that enters the phase: there is an idle node, and the request has room for it. -/
theorem shouldAllocateIdleNodes_iff (hsize : ∀ n ∈ m.nodelist, n.ncpus = s)
    (hmode : m.policy.allocIdleFirst = true) : shouldAllocateIdleNodes m ncpus = true ↔
      (∃ n ∈ m.nodelist, n.navail = n.ncpus) ∧
        if m.policy.allocIdleMultiplesOnly then (s : Int) ∣ ncpus else (s : Int) ≤ ncpus := by
  unfold shouldAllocateIdleNodes listFindFirst
  rw [hmode]
  simp only [Bool.not_true, Bool.false_eq_true, if_false, List.find?_isSome]
  cases m.policy.allocIdleMultiplesOnly with
  | true =>
      simp only [if_true, findMultipleOfNodeSize, decide_eq_true_iff]
      constructor
      · rintro ⟨n, hn, hmod, hidle⟩
        rw [hsize n hn] at hmod
        exact ⟨⟨n, hn, hidle⟩, Int.dvd_of_tmod_eq_zero hmod⟩
      · rintro ⟨⟨n, hn, hidle⟩, hdvd⟩
        refine ⟨n, hn, ?_, hidle⟩
        rw [hsize n hn]
        exact Int.tmod_eq_zero_of_dvd hdvd
  | false =>
      simp only [Bool.false_eq_true, if_false, findNodeLtSize, decide_eq_true_iff]
      constructor
      · rintro ⟨n, hn, hle, hidle⟩
        exact ⟨⟨n, hn, hidle⟩, hsize n hn ▸ hle⟩
      · rintro ⟨⟨n, hn, hidle⟩, hle⟩
        refine ⟨n, hn, ?_, hidle⟩
        rw [hsize n hn]
        exact hle

theorem idleShare_subset {n : Node} (hn : n ∈ m.idleShare s ncpus) :
    n ∈ m.nodelist ∧ Disjoint n.localcpus.bits m.usedcpus.bits := by
  unfold Nodemap.idleShare at hn
  split at hn
  next => exact absurd hn List.not_mem_nil
  next =>
    obtain ⟨hmem, hidle⟩ := List.mem_filter.mp (List.mem_of_mem_take hn)
    exact ⟨mem_idOrder.mp hmem, of_decide_eq_true hidle⟩

/-- The share is what the loop takes from the sorted nodes, when the phase is entered. -/
theorem idleShare_eq (hblocks : m.Blocks) (hdvd : m.policy.allocIdleMultiplesOnly = true →
    (s : Int) ∣ ncpus) : m.idleShare s ncpus = takenIdle s ncpus m.idOrder := by
  rw [Nodemap.idleShare, if_neg fun hno => hno.2 (hdvd hno.1), take_min_length,
    idleNodes_eq hblocks]
  rfl

/-- The share is empty when the phase is not entered. -/
theorem idleShare_of_not_entered (hblocks : m.Blocks) (hsize : ∀ n ∈ m.nodelist, n.ncpus = s)
    (hmode : m.policy.allocIdleFirst = true) (hpos : 0 < ncpus)
    (hidle : shouldAllocateIdleNodes m ncpus = false) : m.idleShare s ncpus = [] := by
  have hnot := (shouldAllocateIdleNodes_iff hsize hmode).not.mp (Bool.eq_false_iff.mp hidle)
  rw [Nodemap.idleShare]
  split
  next => rfl
  next hdvd =>
    cases hnodes : m.idleNodes with
    | nil => exact List.take_nil
    | cons n rest =>
        -- there is an idle node, so the request has no room for it
        have hn : n ∈ m.nodelist ∧ n.navail = n.ncpus := by
          have hmem : n ∈ m.idleNodes := hnodes ▸ List.mem_cons_self
          rw [idleNodes_eq hblocks] at hmem
          obtain ⟨horder, hidle⟩ := List.mem_filter.mp hmem
          exact ⟨mem_idOrder.mp horder, of_decide_eq_true hidle⟩
        have hroom := fun hroom => hnot ⟨⟨n, hn⟩, hroom⟩
        cases hmultiple : m.policy.allocIdleMultiplesOnly with
        | true =>
            rw [hmultiple] at hdvd hroom
            exact absurd (not_not.mp fun hno => hdvd ⟨rfl, hno⟩) hroom
        | false =>
            rw [hmultiple] at hroom
            have hlt : ncpus < s := not_le.mp hroom
            rw [Int.ediv_eq_zero_of_lt hpos.le hlt]
            rfl

/-- CPUs of the share belong to idle nodes only. -/
theorem disjoint_idleShare (hblocks : m.Blocks) {n : Node} (hn : n ∈ m.nodelist)
    (hbusy : ¬ Disjoint n.localcpus.bits m.usedcpus.bits) :
    Disjoint n.localcpus.bits
      ((m.idleShare s ncpus).toFinset.biUnion fun n => n.localcpus.bits) := by
  rw [Finset.disjoint_biUnion_right]
  intro other hother
  obtain ⟨hmem, hidle⟩ := idleShare_subset (List.mem_toFinset.mp hother)
  have hne : n ≠ other := fun heq => hbusy (heq ▸ hidle)
  have hsymm : Std.Symm fun n n' : Node => Disjoint n.localcpus.bits n'.localcpus.bits :=
    ⟨fun _ _ hdisjoint => hdisjoint.symm⟩
  exact hblocks.apart.forall hn hmem hne

theorem cpusOf_idleShare (hblocks : m.Blocks) : cpusOf (m.idleShare s ncpus) =
    (m.idleShare s ncpus).toFinset.biUnion fun n => n.localcpus.bits := by
  unfold cpusOf
  apply Finset.biUnion_congr rfl
  intro n hn
  exact hblocks.window_eq (idleShare_subset (List.mem_toFinset.mp hn)).1

/-- Where all nodes have one size, the idle phase takes the first idle nodes whole, as many as
there are and the request has room for, and leaves the rest of the request to the policy. -/
theorem nodemapAllocate_idlePhase (hblocks : m.Blocks) (hs : 0 < s)
    (hsize : ∀ n ∈ m.nodelist, n.ncpus = s) (hmode : m.policy.allocIdleFirst = true)
    (hpos : 0 < ncpus) (hle : ncpus ≤ m.navail) :
    ∃ start, m.IdlePhase s ncpus start ∧ ∀ fuel, nodemapAllocate fuel m ncpus =
      (allocateByPolicy fuel start).map fun a => (some a.allocatedCpus, a.map) := by
  refine ⟨allocationStart m ncpus, ?_, fun fuel => nodemapAllocate_eq hle⟩
  have hnodes := sortIds_eq_idOrder hblocks.ids
  cases hidle : shouldAllocateIdleNodes m ncpus with
  | false =>
      have hshare := idleShare_of_not_entered hblocks hsize hmode hpos hidle
      rw [allocationStart_of_not_idle hidle]
      refine ⟨?_, ?_, ?_, fun n _ _ => Finset.disjoint_empty_right _⟩
      · rw [hshare]
        rfl
      · rw [hshare]
        exact (Int.sub_zero _).symm
      · rw [hshare]
        exact hnodes.trans (List.map_id' _).symm
  | true =>
      have hentered := (shouldAllocateIdleNodes_iff hsize hmode).mp hidle
      have hdvd : m.policy.allocIdleMultiplesOnly = true → (s : Int) ∣ ncpus := by
        intro hmultiple
        have hroom := hentered.2
        rwa [if_pos hmultiple] at hroom
      have hstart : allocationStart m ncpus =
          (allocIdleNodes ((allocationCreate m ncpus).sortNodes m.cmpIds)).1 := by
        have hsorted := shouldAllocateIdleNodes_perm (listSort_perm m.cmpIds m.nodelist) ncpus
        rw [hidle] at hsorted
        exact if_pos hsorted
      have hstep := (allocationCreate m ncpus).sortNodes_step m.cmpIds
      have hcreate := hblocks.ok.allocation hpos.le
      have hnodup : (listSort m.cmpIds m.nodelist).Nodup :=
        (listSort_perm _ _).nodup_iff.mpr hblocks.ids.of_map
      have htakes := @Allocation.allocIdleLoop_takes
        ((allocationCreate m ncpus).sortNodes m.cmpIds) s hs [] (listSort m.cmpIds m.nodelist) 0
        (hstep.ok hcreate) (hstep.separate hcreate ⟨hblocks.exact, hblocks.separate.apart⟩)
        (fun n hn => hsize n (mem_listSort.mp hn)) hnodup hdvd
      have hshare : m.idleShare s ncpus = takenIdle s ncpus (listSort m.cmpIds m.nodelist) := by
        rw [idleShare_eq hblocks hdvd, hnodes]
      have hallocated : (allocationStart m ncpus).allocatedCpus.bits =
          (m.idleShare s ncpus).toFinset.biUnion fun n => n.localcpus.bits := by
        rw [← cpusOf_idleShare hblocks, hshare, hstart]
        exact htakes.allocated_eq.trans (Finset.empty_union _)
      refine ⟨hallocated, ?_, ?_, ?_⟩
      · rw [hshare, hstart]
        exact htakes.nleft_eq
      · rw [hshare, hstart, ← hnodes]
        exact htakes.nodes_eq
      · intro n hn hbusy
        rw [hallocated]
        exact disjoint_idleShare hblocks hn hbusy

end Call

/-- Three CPUs of two idle nodes with two CPUs each: one node is taken whole, and one CPU is left
to best fit. -/
theorem nodemapAllocate_idlePhase_twoNodes : ∃ m start,
    nodemapCreate (twoNodes {0, 1} {2, 3}) { cpusetConfCreate with useIdleIfMultiple := false } none
      (some (Bitmask.ofFinset 4 ∅)) (Bitmask.ofFinset 4 {0, 1, 2, 3}) = some m ∧
    m.IdlePhase 2 3 start ∧ ∀ fuel, nodemapAllocate fuel m 3 =
      (allocateByPolicy fuel start).map fun a => (some a.allocatedCpus, a.map) := by
  obtain ⟨m, hcreate⟩ : ∃ m, nodemapCreate (twoNodes {0, 1} {2, 3})
      { cpusetConfCreate with useIdleIfMultiple := false } none
      (some (Bitmask.ofFinset 4 ∅)) (Bitmask.ofFinset 4 {0, 1, 2, 3}) = some m := ⟨_, rfl⟩
  have hfacts : (nodemapCreate (twoNodes {0, 1} {2, 3})
      { cpusetConfCreate with useIdleIfMultiple := false } none (some (Bitmask.ofFinset 4 ∅))
      (Bitmask.ofFinset 4 {0, 1, 2, 3})).map (fun m =>
        (m.navail, m.policy.allocIdleFirst, m.nodelist.map Node.ncpus)) =
          some (4, true, [2, 2]) := by decide +kernel
  rw [hcreate, Option.map_some, Option.some_inj] at hfacts
  obtain ⟨hnavail, hrest⟩ := Prod.mk.inj hfacts
  obtain ⟨hmode, hsizes⟩ := Prod.mk.inj hrest
  have hblocks : m.Blocks := nodemapCreate_blocks
    (twoNodes_layout _ (by decide) (by decide) (by decide) (by decide)) twoNodes_blocks hcreate
  have hsize : ∀ n ∈ m.nodelist, n.ncpus = 2 := by
    intro n hn
    have hmem : n.ncpus ∈ [2, 2] := hsizes ▸ List.mem_map_of_mem hn
    simpa using hmem
  obtain ⟨start, hphase, hcall⟩ := nodemapAllocate_idlePhase hblocks (by decide : 0 < 2) hsize hmode
    (by decide : (0 : Int) < 3) (by omega)
  exact ⟨m, start, hcreate, hphase, hcall⟩

end SlurmSpank.Cpuset
