import SlurmSpank.AutoAffinity.TaskInit

/-! # Enabling the plugin

Whether a task is bound is decided twice: by `slurm_spank_user_init` for the node, and by
`slurm_spank_task_init` for the task. The first decision counts the lists of the user among the
reasons to enable the plugin. The second one leaves a single task alone unless a number of CPUs
is requested for it.
-/

namespace SlurmSpank.AutoAffinity

open Foundation Lib

/-- What the arguments of the plugin set. -/
structure PluginArgs where
  disabled : Bool := false
  exclusiveOnly : Bool := false
  multiplesOnly : Bool := false

/-- `parse_argv`, with nothing for its result -1. -/
def parseArgv : List Text → PluginArgs → Option PluginArgs
  | [], args => some args
  | arg :: rest, args =>
      if arg = "off".toList then parseArgv rest { args with disabled := true }
      else if arg = "exclusive_only".toList then parseArgv rest { args with exclusiveOnly := true }
      else if arg = "multiples_only".toList then parseArgv rest { args with multiplesOnly := true }
      else none

/-- What the system says about a job step: whether it is a batch script, the value of
`SLURM_JOB_CPUS_PER_NODE`, the answer of `query_ncpus_per_node`, and the number of CPUs per task
that `spank_get_item` gives. -/
structure StepInfo where
  batch : Bool
  cpusPerNode : Option Text
  queriedCpusPerNode : Int
  cpusPerTask : Option Int

/-- `job_is_exclusive`. -/
def jobIsExclusive (info : StepInfo) (ncpus : Nat) : Bool :=
  let n : Int :=
    match info.cpusPerNode with
    | none => info.queriedCpusPerNode
    | some val => str2int val
  if n < 0 then false else n = ncpus

namespace TaskState

/-- The number of CPUs per task, taken from that of the step if it is two or more. -/
def takeCpusPerTask (cpusPerTask : Option Int) (o : UserOptions) : UserOptions :=
  if o.requestedCpusPerTask = 0 then
    match cpusPerTask with
    | none => o
    | some cpt => if cpt > 1 then { o with requestedCpusPerTask := cpt } else o
  else o

/-- `slurm_spank_user_init`. -/
def userInit (args : PluginArgs) (info : StepInfo) (s : TaskState) : TaskState :=
  if info.batch then s
  else
    let s := { s with enabled := false }
    if args.exclusiveOnly && !jobIsExclusive info s.ncpus then s
    else
      let s := { s with options := takeCpusPerTask info.cpusPerTask s.options }
      if s.options.requestedCpusPerTask ≠ 0 ∨ s.options.cpusList.isSome ∨
          s.options.cpuMaskList.isSome then
        { s with enabled := true }
      else if s.ntasks > s.ncpusAvailable then s
      else if s.ncpusAvailable.tmod s.ntasks = 0 then { s with enabled := true }
      else if args.multiplesOnly ∨ s.ncpusAvailable.tdiv s.ntasks = 1 then s
      else
        { s with
          enabled := true
          options := { s.options with
            requestedCpusPerTask := s.ncpusAvailable.tdiv s.ntasks } }

variable {s : TaskState} {args : PluginArgs} {info : StepInfo} {granted : CpuSet}

theorem takeCpusPerTask_kept (cpusPerTask : Option Int) (o : UserOptions) :
    (takeCpusPerTask cpusPerTask o).cpusList = o.cpusList ∧
      (takeCpusPerTask cpusPerTask o).cpuMaskList = o.cpuMaskList ∧
      (takeCpusPerTask cpusPerTask o).disabled = o.disabled := by
  unfold takeCpusPerTask
  split
  · split
    · exact ⟨rfl, rfl, rfl⟩
    · split
      · exact ⟨rfl, rfl, rfl⟩
      · exact ⟨rfl, rfl, rfl⟩
  · exact ⟨rfl, rfl, rfl⟩

/-- After `slurm_spank_user_init` there is no number of CPUs per task if there was none, and the
step has none or one. -/
theorem takeCpusPerTask_eq_zero_iff {cpusPerTask : Option Int} {o : UserOptions} :
    (takeCpusPerTask cpusPerTask o).requestedCpusPerTask = 0 ↔
      o.requestedCpusPerTask = 0 ∧ ¬ ∃ cpt ∈ cpusPerTask, 1 < cpt := by
  unfold takeCpusPerTask
  split
  next hzero =>
    cases cpusPerTask with
    | none => exact iff_of_true hzero ⟨hzero, fun ⟨_, hcpt, _⟩ => nomatch hcpt⟩
    | some cpt =>
        dsimp only
        by_cases hmore : cpt > 1
        · rw [if_pos hmore]
          refine iff_of_false ?_ fun hnone => hnone.2 ⟨cpt, rfl, hmore⟩
          dsimp only
          omega
        · rw [if_neg hmore]
          refine iff_of_true hzero ⟨hzero, ?_⟩
          rintro ⟨_, ⟨⟩, hlt⟩
          exact hmore hlt
  next hne => exact iff_of_false hne fun hzero => hne hzero.1

/-- A CPU list or mask list of the user enables the plugin. -/
theorem userInit_of_list (hbatch : info.batch = false)
    (hexclusive : args.exclusiveOnly = true → jobIsExclusive info s.ncpus = true)
    (hlist : s.options.cpusList.isSome ∨ s.options.cpuMaskList.isSome) :
    s.userInit args info =
      { s with
        enabled := true
        options := takeCpusPerTask info.cpusPerTask s.options } := by
  obtain ⟨hcpus, hmasks, -⟩ := takeCpusPerTask_kept info.cpusPerTask s.options
  unfold userInit
  rw [if_neg (ne_true_of_eq_false hbatch)]
  dsimp only
  rw [if_neg (by
    rw [Bool.and_eq_true, Bool.not_eq_true']
    rintro ⟨honly, hnot⟩
    exact Bool.noConfusion (hnot.symm.trans (hexclusive honly))), if_pos]
  rw [hcpus, hmasks]
  exact Or.inr hlist

/-- The branch of a task if the number of available CPUs is what it was. -/
theorem taskBranch_of_unchanged (henabled : s.enabled = true)
    (hsame : (granted.cpus.card : Int) = s.ncpusAvailable) (hmore : 1 < s.ncpusAvailable)
    (hntasks : s.ntasks ≤ s.ncpusAvailable) :
    (s.taskBranch (some granted)).1 =
      if s.options.disabled ∨ s.ntasks ≤ 1 ∧ s.options.requestedCpusPerTask = 0 then .unchanged
      else optionBranch s.options := by
  have hcheck : s.checkTaskCpusAvailable (some granted) =
      (0, { s with cpusAvailable := granted }) := by
    unfold checkTaskCpusAvailable getCpusAvailable
    dsimp only
    rw [if_neg fun hchanged => hchanged.2 hsame]
  unfold taskBranch
  rw [hcheck, henabled]
  cases hdisabled : s.options.disabled with
  | true => rfl
  | false =>
      dsimp only
      rw [if_neg (by decide), if_neg (by decide), if_neg (by omega)]
      by_cases hsingle : s.ntasks ≤ 1 ∧ s.options.requestedCpusPerTask = 0
      · rw [if_pos hsingle, if_pos (Or.inr hsingle)]
      · rw [if_neg hsingle, if_neg (by omega), if_neg]
        rintro (htrue | hsingle')
        · exact Bool.false_ne_true htrue
        · exact hsingle hsingle'

/-- The branch that binds a task from a list option. -/
def listBranch : ListOption → Branch
  | .cpus l => .list ((joinCommas l).take 4095)
  | .masks l => .masks ((cpuMaskListExpand l).map fun str => (strToCpuset str).2)

end TaskState

/-! ## The options that are read -/

/-- Only the string `off` disables the plugin. -/
theorem Reads.disabled {remote : Bool} {parts popped : List Text} {o o' : UserOptions}
    (hreads : Reads remote parts popped o o') (hoff : "off".toList ∉ popped) :
    o'.disabled = o.disabled := by
  induction hreads with
  | nil => rfl
  | option _ hparse _ ih =>
      rw [List.mem_cons, not_or] at hoff
      obtain ⟨-, -, hkept⟩ := parseOption_kept hparse
      exact (ih hoff.2).trans (hkept (Ne.symm hoff.1))
  | masks _ _ => rfl
  | cpus _ _ _ => rfl
  | refused _ _ _ _ ih =>
      rw [List.mem_cons, not_or] at hoff
      exact ih hoff.2

/-- The arguments of the plugin disable it exactly if there is an `off` among them. -/
theorem parseArgv_disabled_iff {av : List Text} {args args' : PluginArgs}
    (hargs : parseArgv av args = some args') :
    args'.disabled = true ↔ args.disabled = true ∨ "off".toList ∈ av := by
  induction av generalizing args with
  | nil =>
      obtain rfl := Option.some_inj.mp hargs
      simp
  | cons arg rest ih =>
      rw [parseArgv] at hargs
      split at hargs
      next hoff =>
        rw [hoff]
        exact iff_of_true ((ih hargs).mpr (Or.inl rfl)) (Or.inr List.mem_cons_self)
      next hoff =>
        have hmem : "off".toList ∈ arg :: rest ↔ "off".toList ∈ rest :=
          List.mem_cons.trans (or_iff_right fun heq => hoff heq.symm)
        rw [hmem]
        split at hargs
        · have hrest := ih hargs
          exact hrest
        · split at hargs
          · have hrest := ih hargs
            exact hrest
          · exact absurd hargs (Option.some_ne_none _).symm

namespace TaskState

variable {s : TaskState} {args : PluginArgs} {info : StepInfo} {granted : CpuSet}

/-- On the way through both decisions, an argument with a list binds every task to that list
exactly if the plugin has no argument `off`, and the task is not alone or has a number of CPUs. -/
theorem list_honoured_iff {av : List Text} {arg : Text} {remote : Bool} {rc : Int}
    {o : UserOptions} {list : ListOption} (hargs : parseArgv av {} = some args)
    (hread : (parseUserOption (some arg) remote { disabled := args.disabled }).2 =
      .returned rc o)
    (hstores : Stores (listSplit [','] arg) (some list))
    (hoff : "off".toList ∉
      (parseUserOption (some arg) remote { disabled := args.disabled }).1)
    (hoptions : s.options = o) (hbatch : info.batch = false)
    (hexclusive : args.exclusiveOnly = true → jobIsExclusive info s.ncpus = true)
    (hsame : (granted.cpus.card : Int) = s.ncpusAvailable) (hmore : 1 < s.ncpusAvailable)
    (hone : 1 ≤ s.ntasks) (hntasks : s.ntasks ≤ s.ncpusAvailable) :
    ((s.userInit args info).taskBranch (some granted)).1 = listBranch list ↔
      "off".toList ∉ av ∧
        (2 ≤ s.ntasks ∨ o.requestedCpusPerTask ≠ 0 ∨ ∃ cpt ∈ info.cpusPerTask, 1 < cpt) := by
  have hdisabled : o.disabled = args.disabled := (reads_of_returned hread).disabled hoff
  obtain ⟨stored, hstores', hholds⟩ := (reads_of_returned hread).stores
  obtain rfl := hstores.unique hstores'
  have hlist : s.options.cpusList.isSome ∨ s.options.cpuMaskList.isSome := by
    rw [hoptions]
    cases list with
    | cpus l => exact Or.inl (Option.isSome_of_eq_some hholds.1)
    | masks l => exact Or.inr (Option.isSome_of_eq_some hholds.2.1)
  obtain ⟨hcpus, hmasks, hkept⟩ := takeCpusPerTask_kept info.cpusPerTask s.options
  have hbranch : optionBranch (takeCpusPerTask info.cpusPerTask s.options) = listBranch list := by
    unfold optionBranch
    rw [hcpus, hmasks, hoptions]
    cases list with
    | cpus l => rw [hholds.1, listBranch]
    | masks l => rw [hholds.1, hholds.2.1, listBranch]
  have hne : Branch.unchanged ≠ listBranch list := by
    cases list with
    | cpus l => exact Branch.noConfusion
    | masks l => exact Branch.noConfusion
  -- The CPUs that were granted are those of the node, so the task falls back on its options.
  rw [userInit_of_list hbatch hexclusive hlist,
    taskBranch_of_unchanged (by rfl) (by exact hsame) (by exact hmore) (by exact hntasks)]
  dsimp only
  have hargv : o.disabled = true ↔ "off".toList ∈ av := by
    rw [hdisabled, parseArgv_disabled_iff hargs]
    exact or_iff_right Bool.false_ne_true
  rw [hoptions] at hbranch hkept ⊢
  -- What `generate_mask` leaves alone: a plugin that is off, and a single task without a request.
  have hguard : (takeCpusPerTask info.cpusPerTask o).disabled = true ∨
        s.ntasks ≤ 1 ∧ (takeCpusPerTask info.cpusPerTask o).requestedCpusPerTask = 0 ↔
      "off".toList ∈ av ∨
        s.ntasks ≤ 1 ∧ o.requestedCpusPerTask = 0 ∧ ¬ ∃ cpt ∈ info.cpusPerTask, 1 < cpt := by
    rw [hkept, hargv, takeCpusPerTask_eq_zero_iff]
  by_cases hleft : "off".toList ∈ av ∨
      s.ntasks ≤ 1 ∧ o.requestedCpusPerTask = 0 ∧ ¬ ∃ cpt ∈ info.cpusPerTask, 1 < cpt
  · rw [if_pos (hguard.mpr hleft)]
    refine iff_of_false hne ?_
    rintro ⟨hnot, hreason⟩
    rcases hleft with hmem | ⟨hsingle, hzero, hnone⟩
    · exact hnot hmem
    · rcases hreason with htwo | hrequested | hcpt
      · omega
      · exact hrequested hzero
      · exact hnone hcpt
  · rw [if_neg (mt hguard.mp hleft)]
    refine iff_of_true hbranch ?_
    obtain ⟨hnot, hreason⟩ := not_or.mp hleft
    refine ⟨hnot, ?_⟩
    by_contra hnone
    simp only [not_or] at hnone
    obtain ⟨htwo, hrequested, hcpt⟩ := hnone
    exact hreason ⟨by omega, not_not.mp hrequested, hcpt⟩

/-- One task on a node of four CPUs. -/
def oneTask (o : UserOptions) : TaskState := { twoTasks o with ntasks := 1 }

/-- An interactive step without a number of CPUs per task. -/
def plainStep : StepInfo where
  batch := false
  cpusPerNode := none
  queriedCpusPerNode := 4
  cpusPerTask := none

theorem parseUserOption_masks_popped {arg : Text} (hnext : nextTok [','] arg = some (arg, []))
    (hcpus : "cpus=".toList.isPrefixOf arg = false) (hmasks : "masks=".toList.isPrefixOf arg = true)
    (remote : Bool) (o : UserOptions) : (parseUserOption (some arg) remote o).1 = [arg] := by
  unfold parseUserOption
  dsimp only
  rw [listSplit_cons hnext, listSplit_nil rfl, parseUserOptionLoop_masks hcpus hmasks]

theorem list_honoured_iff_twoTasks :
    (((twoTasks (parseCpuMaskList ["f".toList] {}).2).userInit {} plainStep).taskBranch
        (some fourCpus)).1 = listBranch (.masks ["f".toList]) ↔
      "off".toList ∉ ([] : List Text) ∧
        ((2 : Int) ≤ 2 ∨ (0 : Int) ≠ 0 ∨ ∃ cpt ∈ (none : Option Int), 1 < cpt) := by
  have hnext : nextTok [','] "masks=f".toList = some ("masks=f".toList, []) := rfl
  have hparse := parseUserOption_masks hnext rfl rfl true {}
  have hpopped := parseUserOption_masks_popped hnext rfl rfl true {}
  exact list_honoured_iff rfl hparse.1 hparse.2 (by rw [hpopped]; decide) rfl rfl
    (fun honly => Bool.noConfusion honly) (by decide) (by decide) (by decide) (by decide)

/-- A task that is alone keeps its CPUs, although it is given a list and the plugin is enabled
for the list. -/
theorem single_task_left_alone :
    ∃ o, parseUserOption (some "masks=f".toList) true {} =
        (["masks=f".toList], .returned 0 o) ∧
      Stores (listSplit [','] "masks=f".toList) (some (.masks ["f".toList])) ∧
      ((oneTask o).userInit {} plainStep).enabled = true ∧
      ((((oneTask o).userInit {} plainStep).taskBranch (some fourCpus)).1 = .unchanged) ∧
      Branch.unchanged ≠ listBranch (.masks ["f".toList]) := by
  have hnext : nextTok [','] "masks=f".toList = some ("masks=f".toList, []) := rfl
  have hparse := parseUserOption_masks hnext rfl rfl true {}
  have hpopped := parseUserOption_masks_popped hnext rfl rfl true {}
  refine ⟨_, Prod.ext hpopped hparse.1, hparse.2, rfl, rfl, ?_⟩
  intro heq
  exact Branch.noConfusion heq

end TaskState

end SlurmSpank.AutoAffinity
