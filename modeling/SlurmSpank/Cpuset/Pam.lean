import SlurmSpank.Cpuset.Clean

/-! # The login check

The account management of the PAM module: a user may log in from inside the own cpuset, or
with a running job on the node, into whose user's cpuset the process is moved.
-/

namespace SlurmSpank.Cpuset

/-- What the calls of `pam_sm_acct_mgmt` do; `none` is a failed call. The calls that create
the cpuset of a job are listed by the job's position in the table. -/
structure Login where
  pamUser : Option (List Char)
  getpwnam : List Char → Option (BitVec 32)
  getcpusetpath : GetCpusetPath
  /-- The configuration after the module's options and the configuration file. -/
  parseOptions : Option CpusetConf
  setup : SetupCalls
  activity : Activity
  cleanCalls : Calls
  gethostname : Option (List Char)
  loadJobs : Option (List JobInfo)
  jobCalls : Nat → Calls
  /-- Whether `cpuset_move` to an existing cpuset works. -/
  move : Bool

variable (machine : Machine) (fuel : Nat)

/-- A job that the loop of `create_all_job_cpusets` goes on with. -/
def Counts (uid : BitVec 32) (host : List Char) (job : JobInfo) : Prop :=
  job.userId = uid ∧ job.running = true ∧ 0 < (job.cpusOnNode host).toInt

instance (uid : BitVec 32) (host : List Char) (job : JobInfo) : Decidable (Counts uid host job) :=
  instDecidableAnd

/-- The turn of `create_all_job_cpusets` for one job, with the total of CPUs so far. -/
def jobTurn (login : Login) (conf : CpusetConf) (uid : BitVec 32) (host : List Char)
    (state : BitVec 32 × Cpusets) (entry : JobInfo × Nat) : Option (BitVec 32 × Cpusets) :=
  let (total, h) := state
  let (job, i) := entry
  if ¬ Counts uid host job then some (total, h)
  else
    let ncpus := job.cpusOnNode host
    if jobCpusetExists (login.jobCalls i) job.jobId job.userId h then some (total + ncpus, h)
    else
      match createCpusetForJob machine (login.jobCalls i) fuel conf job.jobId job.userId ncpus.toInt
        h with
      | none => none
      | some result =>
          if result.ret < 0 then some (total, result.cpusets)
          else some (total + ncpus, result.cpusets)

/-- The name of the host up to its first dot. -/
def shortName (hostname : List Char) : List Char := hostname.takeWhile (· ≠ '.')

variable {machine fuel} {login : Login} {uid : BitVec 32} {h : Cpusets}

end SlurmSpank.Cpuset
