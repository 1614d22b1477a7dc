import SlurmSpank.Cpuset.Tree

/-! # What SLURM knows

The job table, and the functions that look up how many CPUs a job, a step or a task is to get.
-/

namespace SlurmSpank.Cpuset

/-! ## The job table -/

/-- The fields of `job_info_t` that the plugin reads, with the allocated CPUs by host name
and by node number. -/
structure JobInfo where
  jobId : BitVec 32
  userId : BitVec 32
  running : Bool
  cpusOnNode : List Char → BitVec 32
  cpusOnNodeId : BitVec 32 → BitVec 32

/-- `slurm_jobid_is_valid`. A job table that cannot be loaded counts every job as valid. -/
def slurmJobidIsValid (jobs : Option (List JobInfo)) (jobid : BitVec 32) : Bool :=
  match jobs with
  | none => true
  | some jobs => if jobid = -1 then false else jobs.any fun job => job.jobId = jobid && job.running

/-! ## Looking up the counts -/

/-- What SLURM answers to the plugin inside a job; `none` is a failed call. -/
structure Spank where
  jobNcpus : Option (BitVec 16)
  jobNodeid : Option (BitVec 32)
  localTaskCount : Option (BitVec 32)
  cpusPerTask : Option (List Char)
  loadJob : BitVec 32 → Option (List JobInfo)

/-- `get_nodeid`. -/
def getNodeid (sp : Spank) : BitVec 32 := sp.jobNodeid.getD (-1)

/-- `query_ncpus_per_node`. -/
def queryNcpusPerNode (sp : Spank) (jobid : BitVec 32) : Int :=
  match sp.jobNcpus with
  | some cpusPerNode => cpusPerNode.toNat
  | none =>
      match sp.loadJob jobid with
      | none => -1
      | some jobs =>
          match jobs.find? (·.jobId = jobid) with
          | none => 0
          | some job =>
              if 0 ≤ (getNodeid sp).toInt then ((job.cpusOnNodeId (getNodeid sp)).setWidth 16).toNat
              else 0

/-- `job_ncpus_per_task`, with the static variable that keeps the count. -/
def jobNcpusPerTask (sp : Spank) (ncpusPerTask : Int) : Int × Int :=
  if ncpusPerTask < 0 then
    match sp.cpusPerTask with
    | none => (-1, ncpusPerTask)
    | some val => (str2int val, str2int val)
  else (ncpusPerTask, ncpusPerTask)

/-- `job_step_ncpus`. The task count is unsigned, which makes the product unsigned. -/
def jobStepNcpus (sp : Spank) (ncpusPerTask : Int) : Int × Int :=
  match sp.localTaskCount with
  | none => (-1, ncpusPerTask)
  | some ntasks =>
      let (perTask, ncpusPerTask) := jobNcpusPerTask sp ncpusPerTask
      ((BitVec.ofInt 32 perTask * ntasks).toInt, ncpusPerTask)

/-- Apart from its error value, the count of a node fits an unsigned short. -/
theorem queryNcpusPerNode_range (sp : Spank) (jobid : BitVec 32) :
    -1 ≤ queryNcpusPerNode sp jobid ∧ queryNcpusPerNode sp jobid < 2 ^ 16 := by
  unfold queryNcpusPerNode
  split
  next n _ =>
    have hlt := n.isLt
    omega
  next =>
    split
    next => omega
    next =>
      split
      next => omega
      next job _ =>
        split
        next =>
          have hlt := ((job.cpusOnNodeId (getNodeid sp)).setWidth 16).isLt
          omega
        next => omega

/-- Without `SLURM_CPUS_PER_TASK` the count of a step is the error value times the number of
tasks, which is negative for every number of tasks that occurs. -/
theorem jobStepNcpus_of_missing {sp : Spank} {ntasks : BitVec 32} {ncpusPerTask : Int}
    (hcount : sp.localTaskCount = some ntasks) (henv : sp.cpusPerTask = none)
    (hcached : ncpusPerTask < 0) (hpos : 0 < ntasks.toNat) (hlt : ntasks.toNat < 2 ^ 31) :
    (jobStepNcpus sp ncpusPerTask).1 = -ntasks.toNat := by
  simp only [jobStepNcpus, hcount, jobNcpusPerTask, if_pos hcached, henv]
  have hneg : BitVec.ofInt 32 (-1) * ntasks = -ntasks := by
    rw [show BitVec.ofInt 32 (-1) = -1#32 from rfl, BitVec.neg_mul, BitVec.one_mul]
  rw [hneg, BitVec.toInt_neg, BitVec.toInt_eq_toNat_of_lt (by omega)]
  exact Int.bmod_eq_of_le (by omega) (by omega)

end SlurmSpank.Cpuset
