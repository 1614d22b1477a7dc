import SlurmSpank.AutoAffinity.Assignment
import SlurmSpank.AutoAffinity.StoredList

/-! # Binding a task to the list of the user

`slurm_spank_task_init` in the branches for `cpus=` and `masks=`. A task takes elements of the
list, whose number is a divisor there, and translates CPUs by way of the position map. What it
does on the way is kept as a trace, up to the point where the process cannot go on.
-/

namespace SlurmSpank.AutoAffinity

open Foundation Lib

/-- The static variables when a task starts. The number of available CPUs is that of a set, or
below zero. -/
structure TaskState where
  enabled : Bool
  ntasks : Int
  options : UserOptions
  ncpus : Nat
  ncpus_lt : ncpus < 2 ^ 31
  cpusAvailable : CpuSet
  ncpusAvailable : Int
  ncpusAvailable_le : ncpusAvailable ≤ cpuSetSize
  cpuPositionMap : List Nat
  mapLength : cpuPositionMap.length = ncpus

/-- What a task does: it takes an element of the list, reads the position map, or passes a value
to `CPU_SET`. -/
inductive Event where
  | element (index : Int)
  | position (n : Nat)
  | cpuSet (cpu : Int)

/-- Which mask the task gets. -/
inductive Branch where
  | unchanged
  | list (cpusList : Text)
  | masks (cpuMaskList : List CpuSet)
  | generated (reverse : Bool)

/-- The branches for the lists of the user. -/
def Branch.Explicit : Branch → Prop
  | list _ => True
  | masks _ => True
  | unchanged => False
  | generated _ => False

/-- `CPU_SET` of an `int`, which ignores one below zero. -/
def cpuSet (cpu : Int) (setp : CpuSet) : CpuSet := if cpu < 0 then setp else setp.set cpu.toNat

theorem card_cpus_le (setp : CpuSet) : setp.cpus.card ≤ cpuSetSize := by
  have hsubset : setp.cpus ⊆ Finset.range cpuSetSize := fun cpu hcpu =>
    Finset.mem_range.mpr (setp.cpus_lt cpu hcpu)
  exact (Finset.card_le_card hsubset).trans (Finset.card_range cpuSetSize).le

namespace TaskState

/-- `get_cpus_available`, with the mask that the system gives, or nothing if it fails. -/
def getCpusAvailable (granted : Option CpuSet) (s : TaskState) : Int × TaskState :=
  match granted with
  | none => (-1, s)
  | some setp => (setp.cpus.card, { s with cpusAvailable := setp })

/-- A number of CPUs that is stored, with the bound that it has. -/
def setNcpusAvailable (s : TaskState) (n : Int) (hn : n ≤ cpuSetSize) : TaskState :=
  { s with ncpusAvailable := n, ncpusAvailable_le := hn }

theorem getCpusAvailable_le (granted : Option CpuSet) (s : TaskState) :
    (s.getCpusAvailable granted).1 ≤ cpuSetSize := by
  cases granted with
  | none => exact (by decide : (-1 : Int) ≤ 1024)
  | some setp => exact Int.ofNat_le.mpr (card_cpus_le setp)

/-- `check_task_cpus_available`. -/
def checkTaskCpusAvailable (granted : Option CpuSet) (s : TaskState) : Int × TaskState :=
  let n := (s.getCpusAvailable granted).1
  let next := (s.getCpusAvailable granted).2
  if n ≠ 0 ∧ n ≠ next.ncpusAvailable then
    if next.ncpusAvailable > 0 then (-1, next)
    else (0, next.setNcpusAvailable n (s.getCpusAvailable_le granted))
  else (0, next)

/-- More CPUs for each task than are available are not asked for. -/
def resetRequested (s : TaskState) : TaskState :=
  if s.options.requestedCpusPerTask > s.ncpusAvailable then
    { s with options := { s.options with requestedCpusPerTask := 0 } }
  else s

/-- The branch for what the options have stored. -/
def optionBranch (o : UserOptions) : Branch :=
  match o.cpusList, o.cpuMaskList with
  | some cpusList, _ => .list cpusList
  | none, some cpuMaskList => .masks cpuMaskList
  | none, none => .generated o.reverse

/-- The part of `slurm_spank_task_init` that decides on the branch. -/
def taskBranch (granted : Option CpuSet) (s : TaskState) : Branch × TaskState :=
  if !s.enabled || s.options.disabled then (.unchanged, s)
  else
    let (rc, s) := s.checkTaskCpusAvailable granted
    if rc < 0 then (.unchanged, s)
    else if s.ncpusAvailable ≤ 1 then (.unchanged, s)
    else if s.ntasks ≤ 1 ∧ s.options.requestedCpusPerTask = 0 then (.unchanged, s)
    else if s.ntasks > s.ncpusAvailable then (.unchanged, s)
    else (optionBranch s.options, s.resetRequested)

/-- The values of the index of `generate_mask_from_cpus_list`, before the remainder. -/
def taskIndices (s : TaskState) (localid : Int) : List Int :=
  let requested := s.options.requestedCpusPerTask
  if requested ≠ 0 then
    (List.range requested.toNat).map fun i : Nat => toInt (localid * requested + i)
  else [localid]

/-- The loop of `generate_mask_from_cpus_list`. It stops at a division by zero, and where
`cstr_to_cpu_id` does not come back. -/
def fromCpusList (cpusList : Text) (nlistElements : Int) :
    List Int → CpuSet → List Event × Option CpuSet
  | [], setp => ([], some setp)
  | idx :: rest, setp =>
      if nlistElements = 0 then ([], none)
      else
        let index := idx.tmod nlistElements
        match cstrToCpuId cpusList index with
        | none => ([.element index], none)
        | some cpu =>
            let (trace, result) := fromCpusList cpusList nlistElements rest (cpuSet cpu setp)
            (.element index :: .cpuSet cpu :: trace, result)

/-- `generate_mask_from_cpus_list`. -/
def generateMaskFromCpusList (s : TaskState) (cpusList : Text) (setp : CpuSet) (localid : Int) :
    List Event × Option CpuSet :=
  fromCpusList cpusList s.options.nlistElements (s.taskIndices localid) setp

/-- The variables that `mask_to_available` reads. -/
def affinity (s : TaskState) : Affinity where
  ncpus := s.ncpus
  ntasks := s.ntasks.toNat
  requestedCpusPerTask := s.options.requestedCpusPerTask.toNat
  startcpu := s.options.startcpu.toNat
  cpusAvailable := s.cpusAvailable
  ncpusAvailable := s.ncpusAvailable.toNat
  cpuPositionMap := s.cpuPositionMap

/-- `mask_to_available`, with its result for an error. -/
def maskToAvailable (s : TaskState) (cpu : Nat) : Int :=
  match s.affinity.maskToAvailable cpu with
  | none => -1
  | some bit => bit

/-- The loop of `cpu_set_physical_to_logical`. It stops at a position outside of the map. -/
def physicalToLogicalLoop (s : TaskState) (lcpus : CpuSet) :
    List Nat → CpuSet → List Event × Option CpuSet
  | [], setp => ([], some setp)
  | i :: rest, setp =>
      if lcpus.isset i then
        match s.affinity.cpuPositionToId i with
        | none => ([.position i], none)
        | some cpu =>
            let bit := s.maskToAvailable cpu
            let (trace, result) := physicalToLogicalLoop s lcpus rest (cpuSet bit setp)
            (.position i :: .cpuSet bit :: trace, result)
      else physicalToLogicalLoop s lcpus rest setp

/-- `cpu_set_physical_to_logical`. -/
def cpuSetPhysicalToLogical (s : TaskState) (setp : CpuSet) : List Event × Option CpuSet :=
  s.physicalToLogicalLoop setp (List.range cpuSetSize) .zero

/-- The branches of `slurm_spank_task_init` for the lists of the user. The mask is there if the
process comes as far as setting it. -/
def runBranch (s : TaskState) (branch : Branch) (localid : Int) : List Event × Option CpuSet :=
  match branch with
  | .unchanged => ([], none)
  | .generated _ => ([], none)
  | .list cpusList =>
      match s.generateMaskFromCpusList cpusList .zero localid with
      | (trace, none) => (trace, none)
      | (trace, some setp) =>
          (trace ++ (s.cpuSetPhysicalToLogical setp).1, (s.cpuSetPhysicalToLogical setp).2)
  | .masks cpuMaskList =>
      if s.options.nlistElements = 0 then ([], none)
      else
        let index := localid.tmod s.options.nlistElements
        match if index < 0 then none else cpuMaskList[index.toNat]? with
        | none => ([.element index], none)
        | some setp =>
            (.element index :: (s.cpuSetPhysicalToLogical setp).1,
              (s.cpuSetPhysicalToLogical setp).2)

/-- `slurm_spank_task_init` as far as it binds a task to a list of the user. -/
def slurmSpankTaskInit (granted : Option CpuSet) (s : TaskState) (localid : Int) :
    List Event × Option CpuSet :=
  (s.taskBranch granted).2.runBranch (s.taskBranch granted).1 localid

/-! ## The way into a branch -/

variable {s : TaskState} {granted : Option CpuSet}

theorem checkTaskCpusAvailable_kept (granted : Option CpuSet) (s : TaskState) :
    (s.checkTaskCpusAvailable granted).2.options = s.options ∧
      (s.checkTaskCpusAvailable granted).2.ntasks = s.ntasks ∧
      (s.checkTaskCpusAvailable granted).2.ncpus = s.ncpus := by
  have hget : (s.getCpusAvailable granted).2.options = s.options ∧
      (s.getCpusAvailable granted).2.ntasks = s.ntasks ∧
      (s.getCpusAvailable granted).2.ncpus = s.ncpus := by
    cases granted <;> exact ⟨rfl, rfl, rfl⟩
  unfold checkTaskCpusAvailable
  dsimp only
  split
  · split
    · exact hget
    · exact hget
  · exact hget

/-- What is known of the state when a list of the user is used: the node and the number of
elements are the same as before, and neither the tasks nor the CPUs of each are more than the
CPUs that are available. -/
structure Enters (s s' : TaskState) : Prop where
  ncpus : s'.ncpus = s.ncpus
  nlistElements : s'.options.nlistElements = s.options.nlistElements
  requested_neg : s'.options.requestedCpusPerTask < 0 ↔ s.options.requestedCpusPerTask < 0
  requested_le : s'.options.requestedCpusPerTask ≤ s'.ncpusAvailable
  ntasks_le : s.ntasks ≤ s'.ncpusAvailable

/-- A guard that leaves the mask alone has not held on the way to a list. -/
theorem explicit_of_guard {guard : Prop} [Decidable guard] {next : TaskState}
    {behind : Branch × TaskState}
    (hexplicit : (if guard then (.unchanged, next) else behind).1.Explicit) :
    ¬ guard ∧ (if guard then (.unchanged, next) else behind) = behind := by
  by_cases hguard : guard
  · rw [if_pos hguard] at hexplicit
    exact hexplicit.elim
  · exact ⟨hguard, if_neg hguard⟩

theorem resetRequested_enters (hntasks : ¬ s.ntasks > s.ncpusAvailable)
    (havailable : ¬ s.ncpusAvailable ≤ 1) : s.Enters s.resetRequested := by
  unfold resetRequested
  split
  next hmore =>
    refine ⟨rfl, rfl, ?_, ?_, ?_⟩
    · dsimp only
      omega
    · dsimp only
      omega
    · dsimp only
      omega
  next hmore => exact ⟨rfl, rfl, Iff.rfl, by omega, by omega⟩

theorem taskBranch_enters (hexplicit : (s.taskBranch granted).1.Explicit) :
    s.Enters (s.taskBranch granted).2 ∧ (s.taskBranch granted).1 = optionBranch s.options := by
  obtain ⟨hoptions, hntasks, hncpus⟩ := s.checkTaskCpusAvailable_kept granted
  unfold taskBranch at hexplicit ⊢
  obtain ⟨-, henabled⟩ := explicit_of_guard hexplicit
  rw [henabled] at hexplicit ⊢
  generalize s.checkTaskCpusAvailable granted = checked at hoptions hntasks hncpus hexplicit ⊢
  obtain ⟨rc, next⟩ := checked
  dsimp only at hoptions hntasks hncpus hexplicit ⊢
  obtain ⟨-, hrc⟩ := explicit_of_guard hexplicit
  rw [hrc] at hexplicit ⊢
  obtain ⟨havailable, hfew⟩ := explicit_of_guard hexplicit
  rw [hfew] at hexplicit ⊢
  obtain ⟨-, hone⟩ := explicit_of_guard hexplicit
  rw [hone] at hexplicit ⊢
  obtain ⟨hovercommit, hmany⟩ := explicit_of_guard hexplicit
  rw [hmany, ← hoptions]
  refine ⟨?_, rfl⟩
  obtain ⟨hnode, hnlist, hneg, hle, htasks⟩ := resetRequested_enters hovercommit havailable
  exact ⟨hnode.trans hncpus, hnlist.trans (congrArg UserOptions.nlistElements hoptions),
    hoptions ▸ hneg, hle, hntasks ▸ htasks⟩

/-! ## The elements that a task takes -/

section Elements

variable {s' : TaskState} {localid index idx nlistElements : Int} {idxs : List Int}
  {cpusList : Text}

/-- The indices are counted without overflow. -/
theorem taskIndices_range (henters : s.Enters s') (hlow : 0 ≤ localid)
    (hlocalid : localid < s.ntasks) (hidx : idx ∈ s'.taskIndices localid) :
    0 ≤ idx ∧ idx < 2 ^ 31 := by
  have hntasks := henters.ntasks_le
  have hrequested := henters.requested_le
  have hsize : s'.ncpusAvailable ≤ 1024 := s'.ncpusAvailable_le
  unfold taskIndices at hidx
  generalize s'.options.requestedCpusPerTask = requested at hidx hrequested
  dsimp only at hidx
  split at hidx
  next =>
    obtain ⟨i, hi, rfl⟩ := List.mem_map.mp hidx
    have hi' : (i : Int) < requested := by
      have hlt := List.mem_range.mp hi
      omega
    have hmul : localid * requested ≤ 1024 * 1024 :=
      Int.mul_le_mul (by omega) (by omega) (by omega) (by decide)
    have hnonneg : 0 ≤ localid * requested := Int.mul_nonneg hlow (by omega)
    have hint : toInt (localid * requested + i) = localid * requested + i :=
      Int.bmod_eq_of_le (by omega) (by omega)
    rw [hint]
    omega
  next =>
    obtain rfl := List.mem_singleton.mp hidx
    omega

theorem taskIndices_eq_nil_iff :
    s.taskIndices localid = [] ↔ s.options.requestedCpusPerTask < 0 := by
  unfold taskIndices
  dsimp only
  split
  next hne =>
    rw [List.map_eq_nil_iff, List.range_eq_nil]
    omega
  next hzero => exact iff_of_false (List.cons_ne_nil _ _) (by omega)

/-- Every element that is taken is that of an index, after the remainder. -/
theorem element_of_mem_fromCpusList {setp : CpuSet}
    (hmem : .element index ∈ (fromCpusList cpusList nlistElements idxs setp).1) :
    ∃ idx ∈ idxs, index = idx.tmod nlistElements := by
  induction idxs generalizing setp with
  | nil => exact absurd hmem List.not_mem_nil
  | cons idx rest ih =>
      rw [fromCpusList] at hmem
      split at hmem
      · exact absurd hmem List.not_mem_nil
      · dsimp only at hmem
        split at hmem
        next =>
          rcases List.mem_singleton.mp hmem with ⟨⟩
          exact ⟨idx, List.mem_cons_self, rfl⟩
        next =>
          rcases List.mem_cons.mp hmem with ⟨⟨⟩⟩ | hmem
          · exact ⟨idx, List.mem_cons_self, rfl⟩
          · rcases List.mem_cons.mp hmem with ⟨⟨⟩⟩ | hmem
            obtain ⟨other, hother, hindex⟩ := ih hmem
            exact ⟨other, List.mem_cons_of_mem _ hother, hindex⟩

/-- The first index is taken in any case. -/
theorem mem_fromCpusList (hnlist : nlistElements ≠ 0) (setp : CpuSet) :
    .element (idx.tmod nlistElements) ∈
      (fromCpusList cpusList nlistElements (idx :: idxs) setp).1 := by
  rw [fromCpusList, if_neg hnlist]
  dsimp only
  split
  · exact List.mem_cons_self
  · exact List.mem_cons_self

/-- Translating the mask takes no element. -/
theorem element_notMem_physicalToLogicalLoop (s : TaskState) (lcpus setp : CpuSet)
    (l : List Nat) : .element index ∉ (s.physicalToLogicalLoop lcpus l setp).1 := by
  induction l generalizing setp with
  | nil => exact List.not_mem_nil
  | cons i rest ih =>
      rw [physicalToLogicalLoop]
      split
      · split
        · simp
        · simpa using ih _
      · exact ih setp

theorem element_mem_runBranch_list :
    .element index ∈ (s.runBranch (.list cpusList) localid).1 ↔
      .element index ∈ (s.generateMaskFromCpusList cpusList .zero localid).1 := by
  rw [runBranch]
  split
  next trace hgenerate => rw [hgenerate]
  next trace setp hgenerate =>
    rw [hgenerate]
    simp [cpuSetPhysicalToLogical, element_notMem_physicalToLogicalLoop]

end Elements

/-! ## No division by zero -/

/-- An index denotes an element that is stored: an id that is found there, or a mask. -/
def Denotes (o : UserOptions) (index : Int) : Prop :=
  match o.cpusList with
  | some cpusList => ∃ n id : Nat, index = n ∧ StoredId (places cpusList) n id ∧
      cstrToCpuId cpusList index = some (wrapInt id)
  | none => ∃ cpuMaskList mask, o.cpuMaskList = some cpuMaskList ∧ 0 ≤ index ∧
      cpuMaskList[index.toNat]? = some mask

/-- There is an element to divide by, and every element that is taken is stored. -/
structure SelectsStored (granted : Option CpuSet) (s : TaskState) (localid : Int) : Prop where
  positive : 1 ≤ s.options.nlistElements
  stored : ∀ index, .element index ∈ (s.slurmSpankTaskInit granted localid).1 →
    Denotes s.options index

/-- The list option leaves something to select from: a mask, or a first range of CPUs. With a
negative number of CPUs for each task nothing is selected from a list of CPUs. -/
def Selectable (stored : Option ListOption) (requestedCpusPerTask : Int) : Prop :=
  match stored with
  | none => True
  | some (.cpus l) => readElement ((joinCommas l).take 4095) ≠ .unread ∨ requestedCpusPerTask < 0
  | some (.masks l) => cpuMaskListExpand l ≠ []

/-- With masks, the one at the remainder of the task is taken. -/
theorem selectsStored_masks {s' : TaskState} {localid : Int} {cpuMaskList : List CpuSet}
    {o : UserOptions} (hlow : 0 ≤ localid)
    (hcpus : o.cpusList = none) (hmasks : o.cpuMaskList = some cpuMaskList)
    (hnlist : s'.options.nlistElements = cpuMaskList.length) (hne : cpuMaskList ≠ []) :
    ∀ index, .element index ∈ (s'.runBranch (.masks cpuMaskList) localid).1 → Denotes o index := by
  intro index hmem
  have hlength : 0 < cpuMaskList.length := List.length_pos_of_ne_nil hne
  have hnonneg : 0 ≤ localid.tmod cpuMaskList.length := Int.tmod_nonneg _ hlow
  have hlt : localid.tmod cpuMaskList.length < cpuMaskList.length :=
    Int.tmod_lt_of_pos localid (by omega)
  rw [runBranch, if_neg (by omega), hnlist] at hmem
  dsimp only at hmem
  have hget : (localid.tmod cpuMaskList.length).toNat < cpuMaskList.length := by omega
  rw [if_neg (by omega), List.getElem?_eq_getElem hget] at hmem
  rcases List.mem_cons.mp hmem with ⟨⟨⟩⟩ | hmem
  · unfold Denotes
    rw [hcpus]
    exact ⟨cpuMaskList, _, hmasks, hnonneg, List.getElem?_eq_getElem hget⟩
  · exact absurd hmem (element_notMem_physicalToLogicalLoop _ _ _ _)

/-- The remainder of an index is below the number of elements. -/
theorem tmod_index {idx count : Int} (hidx : 0 ≤ idx) (hlt : idx < 2 ^ 31) (hpos : 0 < count) :
    ∃ n : Nat, idx.tmod count = n ∧ (n : Int) < count ∧ n < 2 ^ 31 := by
  obtain ⟨n, hn⟩ := Int.eq_ofNat_of_zero_le (Int.tmod_nonneg count hidx)
  have hbelow : idx.tmod count < count := Int.tmod_lt_of_pos idx hpos
  have hle : idx.tmod count ≤ idx := by
    have hsplit := Int.emod_add_mul_ediv idx count
    have hquot := Int.mul_nonneg hpos.le (Int.ediv_nonneg hidx hpos.le)
    rw [Int.tmod_eq_emod_of_nonneg hidx]
    omega
  exact ⟨n, hn, by omega, by omega⟩

/-- With a list of CPUs that can be counted, every id that is taken is stored, unless the first
element is unread. -/
theorem selectsStored_cpus_iff {s' : TaskState} {localid count : Int} {cpusList : Text}
    {o : UserOptions} (henters : s.Enters s') (hlow : 0 ≤ localid) (hlocalid : localid < s.ntasks)
    (hcpus : o.cpusList = some cpusList) (hnlist : s'.options.nlistElements = count)
    (hcount : cstrCount cpusList = some count) (hpos : 0 < count) :
    (∀ index, .element index ∈ (s'.runBranch (.list cpusList) localid).1 → Denotes o index) ↔
      readElement cpusList ≠ .unread ∨ s'.options.requestedCpusPerTask < 0 := by
  unfold Denotes
  rw [hcpus]
  constructor
  · intro hall
    by_contra hnot
    obtain ⟨hunread, hrequested⟩ := not_or.mp hnot
    rw [not_not] at hunread
    cases hindices : s'.taskIndices localid with
    | nil => exact hrequested (taskIndices_eq_nil_iff.mp hindices)
    | cons idx rest =>
        have hmem := @mem_fromCpusList idx count rest cpusList hpos.ne' .zero
        rw [← hnlist, ← hindices] at hmem
        obtain ⟨n, id, -, hstored, -⟩ := hall _ (element_mem_runBranch_list.mpr hmem)
        exact not_storedId_of_unread hunread hstored
  · intro hreads index hmem
    obtain ⟨idx, hidx, rfl⟩ := element_of_mem_fromCpusList (element_mem_runBranch_list.mp hmem)
    rcases hreads with hread | hrequested
    · obtain ⟨hidx0, hidxlt⟩ := taskIndices_range henters hlow hlocalid hidx
      obtain ⟨n, hn, hlt, hbound⟩ := tmod_index hidx0 hidxlt hpos
      obtain ⟨id, hstored⟩ := storedId_of_lt_count hcount hpos hread hlt
      rw [hnlist, hn]
      exact ⟨n, id, rfl, hstored, cstrToCpuId_eq_storedId hbound hstored⟩
    · rw [taskIndices_eq_nil_iff.mpr hrequested] at hidx
      exact absurd hidx List.not_mem_nil

/-- The options of a task hold the list that its argument stores. -/
theorem holds_of_read {arg : Text} {remote : Bool} {rc : Int} {o : UserOptions}
    {stored : Option ListOption}
    (hread : (parseUserOption (some arg) remote {}).2 = .returned rc o)
    (hstores : Stores (listSplit [','] arg) stored)
    (hoptions : s.options =
      { o with requestedCpusPerTask := s.options.requestedCpusPerTask }) :
    Holds stored {} s.options := by
  obtain ⟨stored', hstores', hholds⟩ := (reads_of_returned hread).stores
  obtain rfl := hstores.unique hstores'
  rw [hoptions]
  cases stored with
  | none => exact hholds
  | some list =>
      cases list with
      | _ => exact hholds

/-- After any argument that is read, a task that comes to a list of the user divides by the
number of its elements and takes only elements that are stored exactly if the list option that
is stored has something to select. -/
theorem selects_stored_iff {arg : Text} {remote : Bool} {rc localid : Int} {o : UserOptions}
    {stored : Option ListOption}
    (hread : (parseUserOption (some arg) remote {}).2 = .returned rc o)
    (hstores : Stores (listSplit [','] arg) stored)
    (hoptions : s.options =
      { o with requestedCpusPerTask := s.options.requestedCpusPerTask })
    (hlow : 0 ≤ localid) (hlocalid : localid < s.ntasks)
    (hexplicit : (s.taskBranch granted).1.Explicit) :
    SelectsStored granted s localid ↔
      Selectable stored s.options.requestedCpusPerTask := by
  obtain ⟨henters, hbranch⟩ := taskBranch_enters hexplicit
  have hholds := holds_of_read hread hstores hoptions
  have hrun : ∀ index, .element index ∈ (s.slurmSpankTaskInit granted localid).1 ↔
      .element index ∈ ((s.taskBranch granted).2.runBranch (optionBranch s.options) localid).1 := by
    intro index
    rw [slurmSpankTaskInit, hbranch]
  rw [hbranch] at hexplicit
  unfold optionBranch at hexplicit hrun
  cases stored with
  | none =>
      rw [hholds.1, hholds.2] at hexplicit
      exact hexplicit.elim
  | some list =>
      cases list with
      | masks l =>
          obtain ⟨hnone, hsome, hlength⟩ := hholds
          rw [hnone, hsome] at hrun
          constructor
          · rintro ⟨hpositive, -⟩
            refine List.length_pos_iff.mp ?_
            omega
          · intro hselectable
            have hpos := List.length_pos_iff.mpr hselectable
            refine ⟨by omega, fun index hmem => ?_⟩
            refine selectsStored_masks hlow hnone hsome ?_
              (mt List.map_eq_nil_iff.mp hselectable) index ((hrun index).mp hmem)
            rw [henters.nlistElements, hlength, List.length_map]
      | cpus l =>
          obtain ⟨hsome, hpos, hcount, -⟩ := hholds
          rw [hsome] at hrun
          have hiff := selectsStored_cpus_iff henters hlow hlocalid hsome henters.nlistElements
            hcount hpos
          rw [henters.requested_neg] at hiff
          constructor
          · rintro ⟨-, hstored⟩
            exact hiff.mp fun index hmem => hstored index ((hrun index).mpr hmem)
          · intro hselectable
            exact ⟨by omega, fun index hmem => hiff.mpr hselectable index ((hrun index).mp hmem)⟩

/-- All of four CPUs. -/
def fourCpus : CpuSet := CpuSet.zero.set 0 |>.set 1 |>.set 2 |>.set 3

/-- Two tasks on a node of four CPUs. -/
def twoTasks (o : UserOptions) : TaskState where
  enabled := true
  ntasks := 2
  options := o
  ncpus := 4
  ncpus_lt := by decide
  cpusAvailable := fourCpus
  ncpusAvailable := 4
  ncpusAvailable_le := by decide
  cpuPositionMap := [0, 2, 1, 3]
  mapLength := rfl

/-- An argument of one list of masks. -/
theorem parseUserOption_masks {arg : Text} (hnext : nextTok [','] arg = some (arg, []))
    (hcpus : "cpus=".toList.isPrefixOf arg = false) (hmasks : "masks=".toList.isPrefixOf arg = true)
    (remote : Bool) (o : UserOptions) :
    (parseUserOption (some arg) remote o).2 =
        .returned (parseCpuMaskList [arg.drop 6] o).1 (parseCpuMaskList [arg.drop 6] o).2 ∧
      Stores (listSplit [','] arg) (some (.masks [arg.drop 6])) := by
  have hparts : listSplit [','] arg = [arg] := by rw [listSplit_cons hnext, listSplit_nil rfl]
  unfold parseUserOption
  dsimp only
  rw [hparts, parseUserOptionLoop_masks hcpus hmasks]
  exact ⟨rfl, .masks hcpus hmasks⟩

theorem selects_stored_iff_twoTasks :
    SelectsStored (some fourCpus) (twoTasks (parseCpuMaskList ["f".toList] {}).2) 0 ↔
      Selectable (some (.masks ["f".toList])) 0 := by
  have hnext : nextTok [','] "masks=f".toList = some ("masks=f".toList, []) := rfl
  have hparse := parseUserOption_masks hnext rfl rfl true {}
  exact selects_stored_iff hparse.1 hparse.2 rfl (by decide) (by decide) trivial

/-- A mask that is repeated zero times is accepted, and leaves nothing to divide by. -/
theorem no_mask_left :
    ∃ o, (parseUserOption (some "masks=f*0".toList) true {}).2 = .returned 0 o ∧
      ((twoTasks o).taskBranch (some fourCpus)).1.Explicit ∧
      ¬ SelectsStored (some fourCpus) (twoTasks o) 0 := by
  have hnext : nextTok [','] "masks=f*0".toList = some ("masks=f*0".toList, []) := rfl
  refine ⟨_, (parseUserOption_masks hnext rfl rfl true {}).1, trivial, ?_⟩
  rintro ⟨hpositive, -⟩
  exact absurd hpositive (by decide)

end TaskState

end SlurmSpank.AutoAffinity
