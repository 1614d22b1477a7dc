import SlurmSpank.AutoAffinity.TaskInit

/-! # Bounds of explicit CPU lists

No number in a list of the user is compared with the number of CPUs. A task stays within the
position map, and sets CPUs that are there, if the ids that it takes are those of CPUs and the
map sends them to ranks of the available set.
-/

namespace SlurmSpank.AutoAffinity

open Foundation Lib

/-- An index within the position map, or a value that is a CPU. -/
def Event.Valid (ncpus : Nat) : Event → Prop
  | element _ => True
  | position n => n < ncpus
  | cpuSet cpu => 0 ≤ cpu ∧ cpu < ncpus

/-- The id that a list of CPUs gives at an index: one that is stored, or 1 if the first element
is unread. -/
def IdAt (str : Text) (index : Int) (id : Nat) : Prop :=
  (∃ n : Nat, index = n ∧ StoredId (places str) n id) ∨ readElement str = .unread ∧ id = 1

namespace TaskState

variable {s s' : TaskState} {granted : Option CpuSet} {localid nlistElements : Int}
  {cpusList : Text} {idxs : List Int}

/-- A CPU that the position map sends to a rank of the available CPUs. -/
def Ranked (s : TaskState) (id : Nat) : Prop :=
  id < s.ncpus ∧ ∃ rank ∈ s.cpuPositionMap[id]?, rank < s.affinity.available.length

/-! ## Translating a mask -/

theorem cpuPositionToId_eq_none_iff {i : Nat} :
    s.affinity.cpuPositionToId i = none ↔ ¬ i < s.ncpus := by
  change s.cpuPositionMap[i]? = none ↔ _
  rw [List.getElem?_eq_none_iff, s.mapLength, Nat.not_lt]

/-- `mask_to_available` gives a CPU for a rank, and fails for anything else. -/
theorem maskToAvailable_valid_iff (rank : Nat) :
    (Event.cpuSet (s.maskToAvailable rank)).Valid s.ncpus ↔
      rank < s.affinity.available.length := by
  unfold maskToAvailable
  rw [Affinity.maskToAvailable_eq]
  by_cases hrank : rank < s.affinity.available.length
  · rw [List.getElem?_eq_getElem hrank]
    have hmem := List.getElem_mem hrank
    have hcpu : s.affinity.available[rank] < s.ncpus :=
      List.mem_range.mp (List.mem_filter.mp hmem).1
    exact iff_of_true ⟨Int.natCast_nonneg _, Int.ofNat_lt.mpr hcpu⟩ hrank
  · rw [List.getElem?_eq_none (Nat.not_lt.mp hrank)]
    exact iff_of_false (fun hvalid => absurd hvalid.1 (by decide)) hrank

/-- Translating a mask stays in bounds exactly if all of its CPUs are ranked. -/
theorem physicalToLogicalLoop_valid_iff (lcpus setp : CpuSet) (l : List Nat) :
    (∀ e ∈ (s.physicalToLogicalLoop lcpus l setp).1, e.Valid s.ncpus) ↔
      ∀ i ∈ l, i ∈ lcpus.cpus → s.Ranked i := by
  induction l generalizing setp with
  | nil => exact iff_of_true (by simp [physicalToLogicalLoop]) (by simp)
  | cons i rest ih =>
      rw [physicalToLogicalLoop, List.forall_mem_cons]
      by_cases hi : i ∈ lcpus.cpus
      · rw [if_pos (CpuSet.isset_eq_true.mpr hi)]
        cases hmap : s.affinity.cpuPositionToId i with
        | none =>
            have hout := cpuPositionToId_eq_none_iff.mp hmap
            refine iff_of_false (fun hall => hout ?_) fun hall => hout (hall.1 hi).1
            exact hall (.position i) List.mem_cons_self
        | some rank =>
            have hin : i < s.ncpus := by
              by_contra hout
              exact absurd (cpuPositionToId_eq_none_iff.mpr hout)
                (hmap ▸ Option.some_ne_none rank)
            have hranked : s.Ranked i ↔ rank < s.affinity.available.length := by
              constructor
              · rintro ⟨-, other, hother, hlt⟩
                obtain rfl : rank = other := Option.some_inj.mp (hmap.symm.trans hother)
                exact hlt
              · intro hlt
                exact ⟨hin, rank, hmap, hlt⟩
            dsimp only
            rw [List.forall_mem_cons, List.forall_mem_cons, ih, maskToAvailable_valid_iff,
              hranked]
            constructor
            · rintro ⟨-, hrank, hrest⟩
              exact ⟨fun _ => hrank, hrest⟩
            · rintro ⟨hrank, hrest⟩
              exact ⟨hin, hrank hi, hrest⟩
      · rw [if_neg (by rwa [CpuSet.isset_eq_true]), ih]
        exact ⟨fun hrest => ⟨fun hmem => absurd hmem hi, hrest⟩, And.right⟩

theorem cpuSetPhysicalToLogical_valid_iff (setp : CpuSet) :
    (∀ e ∈ (s.cpuSetPhysicalToLogical setp).1, e.Valid s.ncpus) ↔
      ∀ i ∈ setp.cpus, s.Ranked i := by
  rw [cpuSetPhysicalToLogical, physicalToLogicalLoop_valid_iff]
  exact ⟨fun hall i hi => hall i (List.mem_range.mpr (setp.cpus_lt i hi)) hi,
    fun hall i _ hi => hall i hi⟩

/-! ## Taking ids from a list -/

theorem mem_cpuSet {cpu : Int} {setp : CpuSet} {i : Nat} :
    i ∈ (cpuSet cpu setp).cpus ↔ i < cpuSetSize ∧ cpu = i ∨ i ∈ setp.cpus := by
  unfold cpuSet
  split
  next hneg => exact ⟨Or.inr, fun hmem => hmem.resolve_left fun ⟨_, heq⟩ => by omega⟩
  next hneg =>
    have hcpu : cpu = (cpu.toNat : Int) := (Int.toNat_of_nonneg (Int.not_lt.mp hneg)).symm
    by_cases hfits : cpu.toNat < cpuSetSize
    · rw [CpuSet.set_cpus hfits, Finset.mem_insert]
      constructor
      · rintro (rfl | hmem)
        · exact Or.inl ⟨hfits, hcpu⟩
        · exact Or.inr hmem
      · rintro (⟨-, rfl⟩ | hmem)
        · exact Or.inl rfl
        · exact Or.inr hmem
    · rw [CpuSet.set, dif_neg hfits]
      refine ⟨Or.inr, fun hmem => hmem.resolve_left ?_⟩
      rintro ⟨hlt, rfl⟩
      exact hfits hlt

/-- Taking ids stays in bounds exactly if all of them are CPUs. -/
theorem fromCpusList_valid_iff (hnlist : nlistElements ≠ 0) (ncpus : Nat) (setp : CpuSet)
    (hvalues : ∀ idx ∈ idxs, (cstrToCpuId cpusList (idx.tmod nlistElements)).isSome) :
    (∀ e ∈ (fromCpusList cpusList nlistElements idxs setp).1, e.Valid ncpus) ↔
      ∀ idx ∈ idxs, ∀ cpu ∈ cstrToCpuId cpusList (idx.tmod nlistElements),
        0 ≤ cpu ∧ cpu < ncpus := by
  induction idxs generalizing setp with
  | nil => exact iff_of_true (by simp [fromCpusList]) (by simp)
  | cons idx rest ih =>
      obtain ⟨cpu, hcpu⟩ := Option.isSome_iff_exists.mp (hvalues idx List.mem_cons_self)
      rw [fromCpusList, if_neg hnlist, List.forall_mem_cons]
      dsimp only
      rw [hcpu]
      dsimp only
      rw [List.forall_mem_cons, List.forall_mem_cons,
        ih _ fun other hother => hvalues other (List.mem_cons_of_mem _ hother)]
      constructor
      · rintro ⟨-, hvalid, hrest⟩
        exact ⟨fun other hother => Option.some_inj.mp hother ▸ hvalid, hrest⟩
      · rintro ⟨hvalid, hrest⟩
        exact ⟨trivial, hvalid cpu rfl, hrest⟩

/-- The mask that is made holds the values that fit it. -/
theorem fromCpusList_mask (hnlist : nlistElements ≠ 0) (setp : CpuSet)
    (hvalues : ∀ idx ∈ idxs, (cstrToCpuId cpusList (idx.tmod nlistElements)).isSome) :
    ∃ mask, (fromCpusList cpusList nlistElements idxs setp).2 = some mask ∧
      ∀ i, i ∈ mask.cpus ↔ i ∈ setp.cpus ∨ i < cpuSetSize ∧
        ∃ idx ∈ idxs, cstrToCpuId cpusList (idx.tmod nlistElements) = some (i : Int) := by
  induction idxs generalizing setp with
  | nil => exact ⟨setp, rfl, fun i => by simp⟩
  | cons idx rest ih =>
      obtain ⟨cpu, hcpu⟩ := Option.isSome_iff_exists.mp (hvalues idx List.mem_cons_self)
      obtain ⟨mask, hmask, hmem⟩ := ih (cpuSet cpu setp)
        fun other hother => hvalues other (List.mem_cons_of_mem _ hother)
      refine ⟨mask, ?_, fun i => ?_⟩
      · rw [fromCpusList, if_neg hnlist]
        dsimp only
        rw [hcpu]
        exact hmask
      · rw [hmem, mem_cpuSet]
        simp only [List.exists_mem_cons_iff, hcpu, Option.some_inj]
        tauto

/-! ## Both ways to bind a task -/

theorem lt_of_mem_walks {ps : List Text} {ids : List Nat} (hwalks : Walks ps ids) {id : Nat}
    (hid : id ∈ ids) : id < 2 ^ 32 := by
  induction hwalks with
  | nil => exact absurd hid List.not_mem_nil
  | cons _ _ _ ih =>
      rcases List.mem_append.mp hid with hrange | hmore
      · obtain ⟨k, -, rfl⟩ := List.mem_map.mp hrange
        exact Nat.mod_lt _ (by decide)
      · exact ih hmore

/-- `cstr_to_cpu_id` gives the id at an index. -/
theorem cstrToCpuId_of_idAt {str : Text} {index : Int} {id : Nat} (hindex : index < 2 ^ 31)
    (hid : IdAt str index id) : cstrToCpuId str index = some (wrapInt id) := by
  rcases hid with ⟨n, rfl, hstored⟩ | ⟨hread, rfl⟩
  · exact cstrToCpuId_eq_storedId (by omega) hstored
  · rw [wrapInt_of_lt (by decide)]
    unfold cstrToCpuId cstrToCpuIdWithin places
    rw [cstrToCpuIdLoop, hread]
    rfl

/-- There is an id at every index that a task comes to. -/
theorem exists_idAt {str : Text} {count idx : Int} (hcount : cstrCount str = some count)
    (hpos : 0 < count) (hidx : 0 ≤ idx) (hlt : idx < 2 ^ 31) :
    idx.tmod count < 2 ^ 31 ∧ ∃ id < 2 ^ 32, IdAt str (idx.tmod count) id := by
  obtain ⟨n, hn, hbelow, hbound⟩ := tmod_index hidx hlt hpos
  refine ⟨by omega, ?_⟩
  by_cases hread : readElement str = .unread
  · exact ⟨1, by decide, Or.inr ⟨hread, rfl⟩⟩
  · obtain ⟨id, hstored⟩ := storedId_of_lt_count hcount hpos hread hbelow
    have hid : id < 2 ^ 32 := by
      obtain ⟨before, after, ids, -, hwalks, hget⟩ := hstored
      exact lt_of_mem_walks hwalks (List.mem_of_getElem? hget)
    exact ⟨id, hid, Or.inl ⟨n, hn, hstored⟩⟩

/-- An id passes as an `int` for a CPU exactly if it is one. -/
theorem wrapInt_cpu_iff {id ncpus : Nat} (hid : id < 2 ^ 32) (hncpus : ncpus < 2 ^ 31) :
    0 ≤ wrapInt id ∧ wrapInt id < ncpus ↔ id < ncpus := by
  by_cases hsmall : id < 2 ^ 31
  · rw [wrapInt_of_lt hsmall]
    omega
  · have hwrap : wrapInt id = (id : Int) - 2 ^ 32 := by
      rw [wrapInt_eq]
      split <;> omega
    rw [hwrap]
    omega

/-- Binding to a list of CPUs stays in bounds exactly if the ids that the task takes are CPUs
and are ranked, as far as a mask can hold them. -/
theorem runBranch_list_valid_iff (henters : s.Enters s') (hlow : 0 ≤ localid)
    (hlocalid : localid < s.ntasks) (hcount : cstrCount cpusList = some nlistElements)
    (hpos : 0 < nlistElements) (hnlist : s'.options.nlistElements = nlistElements) :
    (∀ e ∈ (s'.runBranch (.list cpusList) localid).1, e.Valid s'.ncpus) ↔
      ∀ idx ∈ s'.taskIndices localid, ∃ id, IdAt cpusList (idx.tmod nlistElements) id ∧
        id < s'.ncpus ∧ (id < cpuSetSize → s'.Ranked id) := by
  have hids : ∀ idx ∈ s'.taskIndices localid, idx.tmod nlistElements < 2 ^ 31 ∧
      ∃ id < 2 ^ 32, IdAt cpusList (idx.tmod nlistElements) id := by
    intro idx hidx
    obtain ⟨hidx0, hidxlt⟩ := taskIndices_range henters hlow hlocalid hidx
    exact exists_idAt hcount hpos hidx0 hidxlt
  have hvalue : ∀ idx ∈ s'.taskIndices localid, ∀ id,
      IdAt cpusList (idx.tmod nlistElements) id →
        cstrToCpuId cpusList (idx.tmod nlistElements) = some (wrapInt id) :=
    fun idx hidx id hid => cstrToCpuId_of_idAt (hids idx hidx).1 hid
  have hvalues : ∀ idx ∈ s'.taskIndices localid,
      (cstrToCpuId cpusList (idx.tmod nlistElements)).isSome := by
    intro idx hidx
    obtain ⟨-, id, -, hid⟩ := hids idx hidx
    rw [hvalue idx hidx id hid]
    rfl
  -- Every id is found, so the loop returns a mask with those that fit.
  obtain ⟨mask, hmask, hmem⟩ := fromCpusList_mask hpos.ne' .zero hvalues
  have hrun : s'.runBranch (.list cpusList) localid =
      ((fromCpusList cpusList nlistElements (s'.taskIndices localid) .zero).1 ++
        (s'.cpuSetPhysicalToLogical mask).1, (s'.cpuSetPhysicalToLogical mask).2) := by
    rw [runBranch, generateMaskFromCpusList, hnlist]
    generalize fromCpusList cpusList nlistElements (s'.taskIndices localid) .zero = taken at hmask ⊢
    obtain ⟨trace, result⟩ := taken
    obtain rfl : result = some mask := hmask
    rfl
  rw [hrun, List.forall_mem_append, fromCpusList_valid_iff hpos.ne' _ _ hvalues,
    cpuSetPhysicalToLogical_valid_iff]
  constructor
  · rintro ⟨hvalid, hranked⟩ idx hidx
    obtain ⟨-, id, hlt, hid⟩ := hids idx hidx
    have hget := hvalue idx hidx id hid
    have hcpu := (wrapInt_cpu_iff hlt s'.ncpus_lt).mp (hvalid idx hidx _ hget)
    refine ⟨id, hid, hcpu, fun hfits => hranked id ((hmem id).mpr (Or.inr ⟨hfits, idx, hidx, ?_⟩))⟩
    rw [hget, wrapInt_of_lt (Nat.lt_trans hcpu s'.ncpus_lt)]
  · intro hall
    constructor
    · intro idx hidx cpu hcpu
      obtain ⟨id, hid, hlt, -⟩ := hall idx hidx
      obtain rfl := Option.some_inj.mp ((hvalue idx hidx id hid).symm.trans hcpu)
      have hncpus := s'.ncpus_lt
      exact (wrapInt_cpu_iff (by omega) hncpus).mpr hlt
    · intro i hi
      rcases (hmem i).mp hi with hzero | ⟨hfits, idx, hidx, hget⟩
      · exact absurd hzero (Finset.notMem_empty i)
      · obtain ⟨id, hid, hlt, hranked⟩ := hall idx hidx
        have hsame := Option.some_inj.mp ((hvalue idx hidx id hid).symm.trans hget)
        rw [wrapInt_of_lt (Nat.lt_trans hlt s'.ncpus_lt)] at hsame
        obtain rfl : id = i := Int.ofNat_inj.mp hsame
        exact hranked hfits

/-- Binding to a mask stays in bounds exactly if its CPUs are ranked. -/
theorem runBranch_masks_valid_iff {texts : List Text} (hlow : 0 ≤ localid)
    (hnlist : s'.options.nlistElements = texts.length) :
    (∀ e ∈ (s'.runBranch (.masks (texts.map fun text => (strToCpuset text).2)) localid).1,
        e.Valid s'.ncpus) ↔
      ∀ text ∈ texts[(localid.tmod texts.length).toNat]?,
        ∀ cpu ∈ (strToCpuset text).2.cpus, s'.Ranked cpu := by
  rw [runBranch, hnlist]
  by_cases hempty : texts = []
  · subst hempty
    rw [if_pos (by rfl)]
    exact iff_of_true (by simp) (by simp)
  · have hlength : 0 < texts.length := List.length_pos_of_ne_nil hempty
    have hnonneg : 0 ≤ localid.tmod texts.length := Int.tmod_nonneg _ hlow
    have hlt : localid.tmod texts.length < texts.length :=
      Int.tmod_lt_of_pos localid (by omega)
    have hget : (localid.tmod texts.length).toNat < texts.length := by omega
    rw [if_neg (by omega)]
    dsimp only
    rw [if_neg (by omega), List.getElem?_map, List.getElem?_eq_getElem hget, Option.map_some]
    dsimp only
    rw [List.forall_mem_cons, cpuSetPhysicalToLogical_valid_iff]
    constructor
    · rintro ⟨-, hranked⟩ text htext
      obtain rfl := Option.some_inj.mp htext
      exact hranked
    · intro hall
      exact ⟨trivial, hall _ rfl⟩

/-! ## Explicit lists stay in bounds -/

/-- What a task takes from the stored list are CPUs that the position map sends to available
ones. An id that no mask can hold has to be a CPU only. -/
def SelectsRanked (s : TaskState) (localid : Int) (stored : Option ListOption) : Prop :=
  match stored with
  | none => True
  | some (.cpus l) => ∀ idx ∈ s.taskIndices localid, ∃ id,
      IdAt ((joinCommas l).take 4095) (idx.tmod s.options.nlistElements) id ∧
        id < s.ncpus ∧ (id < cpuSetSize → s.Ranked id)
  | some (.masks l) =>
      ∀ text ∈ (cpuMaskListExpand l)[(localid.tmod (cpuMaskListExpand l).length).toNat]?,
        ∀ cpu ∈ (strToCpuset text).2.cpus, s.Ranked cpu

/-- After any argument that is read, a task that comes to a list of the user stays within the
position map and sets only CPUs exactly if what it takes from the stored list are CPUs that the
map sends to available ones. -/
theorem task_in_bounds_iff {arg : Text} {remote : Bool} {rc : Int} {o : UserOptions}
    {stored : Option ListOption}
    (hread : (parseUserOption (some arg) remote {}).2 = .returned rc o)
    (hstores : Stores (listSplit [','] arg) stored)
    (hoptions : s.options =
      { o with requestedCpusPerTask := s.options.requestedCpusPerTask })
    (hlow : 0 ≤ localid) (hlocalid : localid < s.ntasks)
    (hexplicit : (s.taskBranch granted).1.Explicit) :
    (∀ e ∈ (s.slurmSpankTaskInit granted localid).1, e.Valid s.ncpus) ↔
      (s.taskBranch granted).2.SelectsRanked localid stored := by
  obtain ⟨henters, hbranch⟩ := taskBranch_enters hexplicit
  have hholds := holds_of_read hread hstores hoptions
  rw [slurmSpankTaskInit, hbranch, ← henters.ncpus]
  rw [hbranch] at hexplicit
  unfold optionBranch at hexplicit ⊢
  cases stored with
  | none =>
      rw [hholds.1, hholds.2] at hexplicit
      exact hexplicit.elim
  | some list =>
      cases list with
      | masks l =>
          obtain ⟨hnone, hsome, hlength⟩ := hholds
          rw [hnone, hsome]
          exact runBranch_masks_valid_iff hlow (henters.nlistElements.trans hlength)
      | cpus l =>
          obtain ⟨hsome, hpos, hcount, -⟩ := hholds
          rw [hsome, SelectsRanked, henters.nlistElements]
          exact runBranch_list_valid_iff henters hlow hlocalid hcount hpos henters.nlistElements

theorem task_in_bounds_iff_twoTasks :
    (∀ e ∈ ((twoTasks (parseCpuMaskList ["f".toList] {}).2).slurmSpankTaskInit
        (some fourCpus) 0).1, e.Valid 4) ↔
      ((twoTasks (parseCpuMaskList ["f".toList] {}).2).taskBranch (some fourCpus)).2.SelectsRanked
        0 (some (.masks ["f".toList])) := by
  have hnext : nextTok [','] "masks=f".toList = some ("masks=f".toList, []) := rfl
  have hparse := parseUserOption_masks hnext rfl rfl true {}
  exact task_in_bounds_iff hparse.1 hparse.2 rfl (by decide) (by decide) trivial

/-- With four CPUs, the ninth bit of a mask is looked up behind the position map. -/
theorem ninth_bit_outside :
    ∃ o, (parseUserOption (some "masks=100".toList) true {}).2 = .returned 0 o ∧
      ((twoTasks o).taskBranch (some fourCpus)).1.Explicit ∧
      ¬ ∀ e ∈ ((twoTasks o).slurmSpankTaskInit (some fourCpus) 0).1, e.Valid 4 := by
  have hnext : nextTok [','] "masks=100".toList = some ("masks=100".toList, []) := rfl
  refine ⟨_, (parseUserOption_masks hnext rfl rfl true {}).1, trivial, fun hvalid => ?_⟩
  have hmask : ∀ cpu ∈ (strToCpuset "100".toList).2.cpus,
      ((twoTasks (parseCpuMaskList ["100".toList] {}).2).taskBranch
        (some fourCpus)).2.Ranked cpu :=
    (@runBranch_masks_valid_iff _ 0 ["100".toList] (by decide) rfl).mp hvalid _ rfl
  have hbit : 8 ∈ (strToCpuset "100".toList).2.cpus := by decide
  exact absurd (hmask 8 hbit).1 (by decide)

end TaskState

end SlurmSpank.AutoAffinity
