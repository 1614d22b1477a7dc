import SlurmSpank.Cpuset.CleanLoops
import SlurmSpank.Cpuset.CreateOutcome
import SlurmSpank.Foundation.Run

/-! # The operations of the plugin

The operations that run under the lock, as steps of one transition relation on the tree, and
the proof that each of them keeps the shape of the tree. A cpuset is created by a process in
some cpuset, which decides what usage is read and where the new one goes.
-/

namespace SlurmSpank.Cpuset

open Foundation Hierarchy

/-- One operation with its parameters; `dir` is the cpuset of the process. -/
inductive Operation where
  | createJob (conf : CpusetConf) (fuel : Nat) (dir : List Name) (jobid uid : BitVec 32)
      (ncpus staleRc : Int)
  | createStep (conf : CpusetConf) (fuel : Nat) (dir : List Name) (stepid : BitVec 32)
      (ncpus staleRc : Int)
  | clean (conf : CpusetConf) (activity : Activity)
  | update (conf : CpusetConf)

/-- When an operation is run: a new job is created from `/` or `/slurm`, and a new step from
the cpuset of a job. -/
def Enabled (h : Cpusets) : Operation → Prop
  | .createJob _ _ dir jobid uid ncpus _ =>
      (dir = [] ∨ dir = slurmDir) ∧ 0 ≤ uid.toInt ∧ 1 ≤ ncpus ∧
        printId jobid :: userDir uid ∉ h.dirs
  | .createStep _ _ dir stepid ncpus _ =>
      dir ∈ h.dirs ∧ slurmDir <:+ dir ∧ dir.length = 3 ∧ 1 ≤ ncpus ∧ printId stepid :: dir ∉ h.dirs
  | .clean _ _ => True
  | .update _ => True

instance (h : Cpusets) : (operation : Operation) → Decidable (Enabled h operation)
  | .createJob _ _ _ _ _ _ _ => instDecidableAnd
  | .createStep _ _ _ _ _ _ => instDecidableAnd
  | .clean _ _ => instDecidableTrue
  | .update _ => instDecidableTrue

/-- The tree after an operation, with no call failing beyond what the kernel demands. -/
def perform (machine : Machine) (h : Cpusets) : Operation → Option Cpusets
  | .createJob conf fuel dir jobid uid ncpus staleRc =>
      (createCpusetForJob machine (Calls.succeed dir (h.items dir) staleRc) fuel conf jobid uid
        ncpus h).map CreateResult.cpusets
  | .createStep conf fuel dir stepid ncpus staleRc =>
      (createCpusetForStep machine (Calls.succeed dir (h.items dir) staleRc) fuel conf stepid
        ncpus h).map CreateResult.cpusets
  | .clean conf activity =>
      (slurmCpusetClean machine (Calls.succeed [] (h.items []) 0) conf activity h).map Prod.snd
  | .update conf =>
      (updateUserCpusets machine (Calls.succeed [] (h.items []) 0) conf h).map Prod.snd

/-- One operation that returns. -/
def OperationStep (machine : Machine) (h : Cpusets) (operation : Operation) (h' : Cpusets) :
    Prop :=
  Enabled h operation ∧ perform machine h operation = some h'

/-- A tree in which `/slurm` holds all CPUs and has no children. -/
structure Fresh (size : Nat) (h : Cpusets) : Prop where
  slurm_mem : slurmDir ∈ h.dirs
  slurm_items : h.items slurmDir = Finset.range size
  childless : ∀ name dir, name :: dir ∈ h.dirs → ¬ slurmDir <:+ dir

variable {machine : Machine} {conf : CpusetConf} {fuel : Nat} {uid id : BitVec 32}
  {ncpus staleRc : Int} {size : Nat} {h h' before : Cpusets} {dir : List Name} {name : Name}
  {cpus : Finset Nat} {map : Nodemap} {alloc : Bitmask}

theorem Fresh.canonical (hfresh : Fresh size h) : Canonical size h where
  slurm_mem := hfresh.slurm_mem
  slurm_items := hfresh.slurm_items
  user_name name hname := absurd List.suffix_rfl (hfresh.childless name slurmDir hname)
  job_name name dir hname hbelow := absurd hbelow (hfresh.childless name dir hname)
  orphan_items uid name hname :=
    absurd (List.suffix_cons _ _) (hfresh.childless name (orphanDir uid) hname)
  exclusive _ hname := absurd List.suffix_rfl (hfresh.childless _ slurmDir hname)

theorem slurmTree_fresh (size : Nat) : Fresh size (slurmTree (Finset.range size)) := by
  have hcreated := slurmTree_created (Finset.range size)
  refine ⟨(hcreated.mem_dirs _).mpr (Or.inr rfl), hcreated.items_self, ?_⟩
  intro name dir hname hbelow
  have hlen := hbelow.length_le
  rcases (hcreated.mem_dirs _).mp hname with hbare | hself
  · simp [bare] at hbare
  · rw [(List.cons.inj hself).2] at hlen
    simp [slurmDir] at hlen

/-! ## Where the calls of a process lead -/

/-- A process is in the root cpuset, or in one below `/slurm` that is no step's. -/
def Located (h : Cpusets) (dir : List Name) : Prop :=
  dir = [] ∨ dir ∈ h.dirs ∧ slurmDir <:+ dir ∧ dir.length ≤ 3

theorem Canonical.cpusetName_length_lt (hcan : Canonical size h) (hlocated : Located h dir) :
    (cpusetName dir).length < 64 := by
  rcases hlocated with rfl | ⟨hdir, hbelow, hlen⟩
  · decide
  · have hnames : ∀ name ∈ dir, name.length ≤ 18 :=
      hcan.forall_names (by decide) (fun uid => (printUid_length_le uid).trans (by decide))
        orphanName_length_le (fun id => (printId_length_le id).trans (by decide)) hdir hbelow
    have hle := pathText_length_le hnames
    rw [cpusetName]
    split
    next => decide
    next => omega

theorem Canonical.dirOf_located (hcan : Canonical size h) (hlocated : Located h dir) :
    dirOf (cpusetName dir) = dir := by
  rcases hlocated with rfl | ⟨hdir, hbelow, -⟩
  · rfl
  · exact hcan.dirOf_cpusetName hdir hbelow

/-- The usage that the process reads. -/
theorem Canonical.usedCpusBitmask_eq (hcan : Canonical size h) (hlocated : Located h dir) :
    usedCpusBitmask machine (Calls.succeed dir cpus staleRc) h =
      usedCpusBitmaskPath machine (fun _ => true) h (usageDir dir) false :=
  usedCpusBitmask_of_dir rfl (hcan.dirOf_located hlocated)
    ((hcan.cpusetName_length_lt hlocated).trans (by decide))

/-- The directory that the process creates. -/
theorem Canonical.jobDir_eq (hcan : Canonical size h) (hlocated : Located h dir) :
    (Calls.succeed dir cpus staleRc).jobDir id uid = printId id :: parentDir dir uid :=
  Calls.jobDir_of_dir rfl (hcan.dirOf_located hlocated) (hcan.cpusetName_length_lt hlocated)

theorem Located.usageDir_mem (hlocated : Located h dir) (hcan : Canonical size h) :
    usageDir dir ∈ h.dirs ∧ slurmDir <:+ usageDir dir := by
  unfold usageDir
  rcases hlocated with rfl | ⟨hdir, hbelow, -⟩
  · exact ⟨hcan.slurm_mem, List.suffix_rfl⟩
  · rw [if_neg]
    · exact ⟨hdir, hbelow⟩
    · rintro rfl
      simp [slurmDir] at hbelow

/-- The CPUs granted belong to the cpuset whose usage was read, and to none of its children
that count. -/
theorem Grants.free (hlists : machine.Lists) (hcan : Canonical machine.numa.cpumaskSize h)
    (hlocated : Located h dir) (hncpus : 0 ≤ ncpus)
    (hgrants : Grants machine (Calls.succeed dir cpus staleRc) fuel conf ncpus h map alloc)
    {cpu : Nat} (hcpu : cpu ∈ alloc.bits) :
    cpu ∈ h.items (usageDir dir) ∧ ∀ name, skipped name = false →
      name :: usageDir dir ∈ h.dirs → cpu ∉ h.items (name :: usageDir dir) := by
  obtain ⟨hok, hpolicy, -, hused⟩ := createMap_spec hlists hgrants.map_eq
  obtain ⟨map', hgranted⟩ := hgrants.granted
  have hfree := ((nodemapAllocate_some hok hpolicy hgranted).2.2 hncpus).1.subset hcpu
  have hlt : cpu < machine.numa.cpumaskSize := hgrants.size_eq hlists ▸ alloc.bits_lt cpu hcpu
  have hnot : cpu ∉ map.usedcpus.bits := (Finset.mem_sdiff.mp hfree).2
  rw [hcan.usedCpusBitmask_eq hlocated] at hused
  obtain ⟨used, hpath, -, hbits⟩ := @usedCpusBitmaskPath_spec machine (fun _ => true) h
    (usageDir dir) hlists false (hlocated.usageDir_mem hcan).1
  rw [hpath] at hused
  obtain rfl := Option.some.inj hused
  rw [hbits, and_iff_right hlt, not_or] at hnot
  constructor
  · by_contra hout
    exact hnot.1 ⟨rfl, by simpa using hout⟩
  · intro name hskip hname hitem
    exact hnot.2 ⟨name, hskip, hname, rfl, hitem⟩

/-! ## What the creation of a cpuset does -/

/-- The last step of a creation makes the cpuset with the CPUs granted, or nothing. -/
theorem jobCpusetCreate_cases {calls : Calls} (hcalls : calls.Succeeds) {parent : List Name}
    (hdir : calls.jobDir id uid = printId id :: parent) :
    (jobCpusetCreate calls id uid alloc before).cpusets = before ∨
      Created before (jobCpusetCreate calls id uid alloc before).cpusets (printId id) parent
        alloc.bits := by
  obtain ⟨path, -, hjob⟩ := @jobCpusetCreate_eq calls id uid before alloc
  rw [hjob]
  cases hcreate : calls.createJob id uid alloc before with
  | none => exact Or.inl rfl
  | some after =>
      have hsome : before.create (printId id) parent alloc.bits = some after := by
        rw [Calls.createJob, if_pos hcalls.create, if_pos hcalls.buildJob, hdir] at hcreate
        exact hcreate
      exact Or.inr (create_eq_some hsome)

/-- What the creation of a job's cpuset does to the tree: nothing, or it updates the user's
cpuset and then makes the job's if it can. -/
theorem createCpusetForJob_cases (hlists : machine.Lists)
    (hcan : Canonical machine.numa.cpumaskSize h) (hdir : dir = [] ∨ dir = slurmDir)
    (huid : 0 ≤ uid.toInt) {result : CreateResult}
    (hcall : createCpusetForJob machine (Calls.succeed dir cpus staleRc) fuel conf id uid ncpus h =
      some result) :
    result.cpusets = h ∨ ∃ map alloc orphan placed before,
      Grants machine (Calls.succeed dir cpus staleRc) fuel conf ncpus h map alloc ∧
      Placed (Calls.succeed dir cpus staleRc) uid h orphan placed ∧
      UpdateEnds conf uid
        (refillCpus machine (Calls.succeed dir cpus staleRc).query uid (some alloc) orphan placed)
        placed before ∧
      (result.cpusets = before ∨
        Created before result.cpusets (printId id) (userDir uid) alloc.bits) := by
  have hcalls := Calls.succeed_succeeds dir cpus staleRc
  have hlocated : Located h dir := by
    rcases hdir with rfl | rfl
    · exact Or.inl rfl
    · exact Or.inr ⟨hcan.slurm_mem, List.suffix_rfl, by decide⟩
  have hparent : parentDir dir uid = userDir uid := if_pos hdir
  rcases createCpuset_cases hcall with
    ⟨-, -, hsame | ⟨map, alloc, rc, hgrants, -, hneg, hupdate⟩⟩ |
      ⟨map, alloc, before, hreaches, hresult⟩
  · exact Or.inl hsame
  · obtain ⟨_, _, _, _, hreturns, _⟩ := @Canonical.update machine _ conf uid h (some alloc) hlists
      hcan hcalls huid fun mask hmask => Option.some.inj hmask ▸ hgrants.size_eq hlists
    rw [hreturns] at hupdate
    obtain ⟨rfl, -⟩ := Prod.mk.inj (Option.some.inj hupdate)
    omega
  · obtain ⟨orphan, placed, after, hplaced, hreturns, hends⟩ := @Canonical.update machine _ conf uid
      h (some alloc) hlists hcan hcalls huid fun mask hmask =>
        Option.some.inj hmask ▸ hreaches.size_eq hlists
    have hupdated := hreaches.updated
    rw [if_pos huid] at hupdated
    obtain ⟨rc, -, hupdate⟩ := hupdated
    rw [hreturns] at hupdate
    obtain ⟨-, rfl⟩ := Prod.mk.inj (Option.some.inj hupdate)
    refine Or.inr ⟨map, alloc, orphan, placed, after, hreaches.toGrants, hplaced, hends, ?_⟩
    rw [hresult]
    exact jobCpusetCreate_cases hcalls (hparent ▸ hcan.jobDir_eq hlocated)

/-- What the creation of a step's cpuset does to the tree. -/
theorem createCpusetForStep_cases (hcan : Canonical size h) (hdir : dir ∈ h.dirs)
    (hbelow : slurmDir <:+ dir) (hlen : dir.length = 3) {result : CreateResult}
    (hcall : createCpusetForStep machine (Calls.succeed dir cpus staleRc) fuel conf id ncpus h =
      some result) :
    result.cpusets = h ∨ ∃ map alloc,
      Grants machine (Calls.succeed dir cpus staleRc) fuel conf ncpus h map alloc ∧
      Created h result.cpusets (printId id) dir alloc.bits := by
  have hlocated : Located h dir := Or.inr ⟨hdir, hbelow, hlen.le⟩
  have hparent : parentDir dir (-1) = dir := by
    refine if_neg ?_
    rintro (rfl | rfl) <;> simp [slurmDir] at hlen
  have huid : ¬ (-1 : BitVec 32).toInt ≥ 0 := by decide
  rcases createCpuset_cases hcall with
    ⟨-, -, hsame | ⟨_, _, _, _, hnonneg, -⟩⟩ |
      ⟨map, alloc, before, hreaches, hresult⟩
  · exact Or.inl hsame
  · exact absurd hnonneg huid
  · have hbefore := hreaches.updated
    rw [if_neg huid] at hbefore
    subst hbefore
    rw [hresult]
    rcases @jobCpusetCreate_cases (-1) id before alloc (Calls.succeed dir cpus staleRc)
      (Calls.succeed_succeeds dir cpus staleRc) dir (by rw [hcan.jobDir_eq hlocated, hparent]) with
        hsame | hcreated
    · exact Or.inl hsame
    · exact Or.inr ⟨map, alloc, hreaches.toGrants, hcreated⟩

/-! ## Every operation keeps the shape -/

/-- A clean-up is the second pass on what the first one leaves, which has the shape, too. -/
theorem slurmCpusetClean_eq {calls : Calls} (hlists : machine.Lists) (hcan : Canonical size h)
    (hcalls : calls.Succeeds) (activity : Activity) :
    Canonical size (cleanEntries machine activity h) ∧
      slurmCpusetClean machine calls conf activity h =
        (updateUserCpusets machine calls conf (cleanEntries machine activity h)).map
          fun result => (0, result.2) :=
  ⟨hcan.firstPass hlists (Canonical size) (fun _ _ _ hcan hremoved hne _ =>
    hcan.removed hremoved hne) hcan, if_pos ⟨hcan.slurm_mem, hcalls.ftsOpen⟩⟩

theorem OperationStep.canonical (hlists : machine.Lists)
    (hcan : Canonical machine.numa.cpumaskSize h) {operation : Operation}
    (hstep : OperationStep machine h operation h') : Canonical machine.numa.cpumaskSize h' := by
  cases operation with
  | createJob conf fuel dir jobid uid ncpus staleRc =>
      obtain ⟨⟨hdir, huid, -⟩, hperform⟩ := hstep
      obtain ⟨result, hcall, rfl⟩ := Option.map_eq_some_iff.mp hperform
      rcases createCpusetForJob_cases hlists hcan hdir huid hcall with
        hsame | ⟨map, alloc, orphan, placed, before, -, hplaced, hends, hlast⟩
      · rwa [hsame]
      · have hbefore := hcan.updated hlists (Calls.succeed_succeeds _ _ _) huid hplaced hends
        rcases hlast with hsame | hcreated
        · rwa [hsame]
        · exact hbefore.jobCreated (List.suffix_cons _ _) (ne_slurmDir_of_cons _)
            (fun other heq => orphanDir_ne_userDir other uid heq.symm) hcreated
  | createStep conf fuel dir stepid ncpus staleRc =>
      obtain ⟨⟨hdir, hbelow, hlen, -⟩, hperform⟩ := hstep
      obtain ⟨result, hcall, rfl⟩ := Option.map_eq_some_iff.mp hperform
      rcases createCpusetForStep_cases hcan hdir hbelow hlen hcall with hsame | ⟨_, _, -, hcreated⟩
      · rwa [hsame]
      · refine hcan.jobCreated hbelow ?_ ?_ hcreated
        · rintro rfl
          simp [slurmDir] at hlen
        · rintro other rfl
          simp [orphanDir, slurmDir] at hlen
  | clean conf activity =>
      have hclean := hstep.2
      obtain ⟨hcleaned, heq⟩ := @slurmCpusetClean_eq machine conf _ h
        (Calls.succeed [] (h.items []) 0) hlists hcan (Calls.succeed_succeeds _ _ _) activity
      obtain ⟨h'', hupdate, hcan', -⟩ := @Canonical.secondPass machine _ conf _ hlists
        hcleaned (Calls.succeed_succeeds [] (h.items []) 0) (fun _ _ => True) (by simp) (by simp)
        trivial
      rw [perform, heq, hupdate] at hclean
      exact Option.some.inj hclean ▸ hcan'
  | update conf =>
      have hupdate := hstep.2
      obtain ⟨h'', hreturns, hcan', -⟩ := @Canonical.secondPass machine _ conf h hlists hcan
        (Calls.succeed_succeeds [] (h.items []) 0) (fun _ _ => True) (by simp) (by simp) trivial
      rw [perform, hreturns] at hupdate
      exact Option.some.inj hupdate ▸ hcan'

/-- Running operations one after the other, as long as each one may be run and returns. -/
def performAll (machine : Machine) (start : Cpusets) (operations : List Operation) :
    Option Cpusets :=
  operations.foldlM
    (fun h operation => if Enabled h operation then perform machine h operation else none) start

theorem run_of_performAll {start : Cpusets} {operations : List Operation}
    {holds : Cpusets → Operation → Prop} (hholds : ∀ h, ∀ operation ∈ operations, holds h operation)
    (hperform : performAll machine start operations = some h) :
    Run (fun h operation h' => OperationStep machine h operation h' ∧ holds h operation) start
      operations h := by
  induction operations using List.reverseRecOn generalizing h with
  | nil =>
      obtain rfl := Option.some.inj hperform
      exact .start
  | append_singleton earlier operation ih =>
      rw [performAll, List.foldlM_append] at hperform
      obtain ⟨before, hbefore, hlast⟩ := Option.bind_eq_some_iff.mp hperform
      rw [List.foldlM_cons] at hlast
      obtain ⟨after, hstep, hend⟩ := Option.bind_eq_some_iff.mp hlast
      obtain rfl := Option.some.inj hend
      have hprior :=
        ih (fun h other hother => hholds h other (List.mem_append_left _ hother)) hbefore
      split at hstep
      next henabled => exact .extend hprior ⟨⟨henabled, hstep⟩, hholds before operation (by simp)⟩
      next => cases hstep

/-- Every tree that the operations reach from a fresh `/slurm` has the shape. -/
theorem run_canonical (hlists : machine.Lists) {start : Cpusets}
    (hfresh : Fresh machine.numa.cpumaskSize start) {operations : List Operation}
    (hrun : Run (OperationStep machine) start operations h) :
    Canonical machine.numa.cpumaskSize h :=
  hrun.invariant (Canonical machine.numa.cpumaskSize)
    (fun _ _ _ hcan hstep => hstep.canonical hlists hcan) hfresh.canonical

end SlurmSpank.Cpuset
