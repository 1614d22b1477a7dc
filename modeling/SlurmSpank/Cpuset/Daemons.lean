import SlurmSpank.Cpuset.Holdings
import SlurmSpank.Cpuset.Pam
import SlurmSpank.Foundation.AdvisoryLock

/-! # The processes that share the cpusets of a host

The daemons of job steps run the callbacks of the plugin, the release agent is run by the
kernel, and users log in through the PAM module. They take turns in any order, and each makes
its changes to the tree under the lock in `/var/lock`. Between two steps of one process any
others may be made by the others, as far as the lock lets them.
-/

namespace SlurmSpank.Cpuset

open Foundation

/-- What the processes share: the tree, and the process that has the lock. -/
structure Host where
  cpusets : Cpusets
  lock : Option Nat

/-- What the daemon of a job step is told by SLURM. -/
structure Daemon where
  jobid : BitVec 32
  stepid : BitVec 32
  uid : BitVec 32
  sp : Spank

/-- The cpuset of the daemon's job. -/
def Daemon.jobDir (daemon : Daemon) : List Name := printId daemon.jobid :: userDir daemon.uid

/-- The cpuset of the daemon's step. -/
def Daemon.stepDir (daemon : Daemon) : List Name := printId daemon.stepid :: daemon.jobDir

/-- How far the daemon of a step is. -/
inductive Phase where
  /-- In `slurm_spank_init`, before the lock is asked for. -/
  | start
  /-- In `slurm_cpuset_create`, with the lock. -/
  | locked
  /-- `slurm_cpuset_create` failed, and its caller has no lock to give up. -/
  | stuck
  /-- `slurm_cpuset_create` has returned the lock. -/
  | cleaned
  /-- There was no cpuset of the job to migrate to. -/
  | missing
  /-- `create_cpuset_for_job` has succeeded. -/
  | created
  /-- At the label `done` of `slurm_spank_init`. -/
  | leaving (rc : Int)
  /-- `slurm_spank_init` has returned. -/
  | ready (rc : Int)
  /-- In `slurm_spank_init_post_opt`, with the lock. -/
  | stepLocked
  /-- `create_cpuset_for_step` has succeeded. -/
  | stepCreated
  /-- At the end of `slurm_spank_init_post_opt`. -/
  | stepLeaving (rc : Int)
  /-- `slurm_spank_init_post_opt` has returned. -/
  | stepReady (rc : Int)
  /-- Behind the `slurm_spank_task_exit` of the last task. -/
  | exited
  | ended

/-- How far a release agent is. -/
inductive AgentPhase where
  | start
  | locked
  | stuck
  | cleaned
  | updated
  | ended

/-- How far a login is, with the jobs that the loop of `create_all_job_cpusets` has not come to
and the total of CPUs so far. -/
inductive LoginPhase where
  | start
  | locked
  | stuck
  | turns (pending : List (JobInfo × Nat)) (total : BitVec 32)
  | ended

/-- A process: the daemon of a step with the cpuset it is in, the release agent, or the login
of a user. -/
inductive Process where
  | daemon (daemon : Daemon) (phase : Phase) (place : List Name)
  | agent (phase : AgentPhase)
  | login (login : Login) (uid : BitVec 32) (phase : LoginPhase)

/-- What a process does next, with what it meets there: the configuration that its options have
led to, the tasks of others in each cpuset, the job table, and how its calls turn out. -/
inductive Action where
  | lock
  | clean (conf : CpusetConf) (tasks : List Name → Nat) (jobs : Option (List JobInfo))
  | migrate (works : Bool)
  | create (conf : CpusetConf) (fuel : Nat) (staleRc : Int)
  | update (conf : CpusetConf)
  | unlock
  | leave
  | finish

/-! ## The steps -/

/-- `do_cpuset_lock`, once the lock is free. -/
def Host.acquire (host : Host) (p : Nat) : Option Host :=
  if host.lock = none then some { host with lock := some p } else none

/-- `do_cpuset_unlock`. -/
def Host.release (host : Host) : Host := { host with lock := none }

/-- The host with another tree. -/
def Host.put (host : Host) (cpusets : Cpusets) : Host := { host with cpusets := cpusets }

/-- The setup calls of a process that has the lock already, when none of them fails. -/
def SetupCalls.succeed : SetupCalls := ⟨true, true, true, true⟩

/-- What a clean-up finds: the daemons in their cpusets, and the tasks of others. -/
def activityOf (occupied : List (List Name)) (tasks : List Name → Nat)
    (jobs : Option (List JobInfo)) : Activity where
  tasks dir := occupied.count dir + tasks dir
  jobs := jobs

/-- What `create_and_lock_cpuset_dir` does under the lock, and whether it returns the lock. -/
def Host.clean (machine : Machine) (occupied : List (List Name)) (conf : CpusetConf)
    (tasks : List Name → Nat) (jobs : Option (List JobInfo)) (host : Host) :
    Option (Bool × Host) :=
  (slurmCpusetCreate machine .succeed (Calls.succeed [] (host.cpusets.items []) 0) conf
    (activityOf occupied tasks jobs) host.cpusets).map fun (ok, h) => (ok, host.put h)

/-- Where `migrate_job_to_cpuset` takes a process. The kernel lets no process into a cpuset
without CPUs, and the call may fail for other reasons. -/
def migrateFrom (place : List Name) (works : Bool) (id uid : BitVec 32) (h : Cpusets) :
    Option (List Name) :=
  let dir := dirOf (migrateJobToCpuset (reportsPath (cpusetName place)) [] id uid)
  if works = true ∧ dir ∈ h.dirs ∧ h.items dir ≠ ∅ then some dir else none

/-- The daemon holds the lock. -/
def Phase.holding : Phase → Bool
  | .locked | .stuck | .cleaned | .missing | .created | .leaving _ | .stepLocked | .stepCreated
  | .stepLeaving _ => true
  | _ => false

def AgentPhase.holding : AgentPhase → Bool
  | .locked | .stuck | .cleaned | .updated => true
  | _ => false

def LoginPhase.holding : LoginPhase → Bool
  | .locked | .stuck | .turns _ _ => true
  | _ => false

def Process.holding : Process → Bool
  | .daemon _ phase _ => phase.holding
  | .agent phase => phase.holding
  | .login _ _ phase => phase.holding

/-- A step of a daemon: `slurm_spank_init` up to `ready`, then `slurm_spank_init_post_opt` if
the user asked for it, and `slurm_spank_task_exit` for the last task. -/
def Daemon.act (machine : Machine) (occupied : List (List Name)) (daemon : Daemon) (p : Nat)
    (host : Host) (place : List Name) : Phase → Action → Option (Host × Phase × List Name)
  | .start, .lock => (host.acquire p).map fun host => (host, .locked, place)
  | .locked, .clean conf tasks jobs =>
      (host.clean machine occupied conf tasks jobs).map fun (ok, host) =>
        (host, if ok then .cleaned else .stuck, place)
  | .cleaned, .migrate works =>
      match migrateFrom place works daemon.jobid daemon.uid host.cpusets with
      | some dir => some (host, .leaving 0, dir)
      | none => some (host, .missing, place)
  | .missing, .create conf fuel staleRc =>
      (createCpusetForJob machine (Calls.succeed place (host.cpusets.items place) staleRc) fuel conf
        daemon.jobid daemon.uid (queryNcpusPerNode daemon.sp daemon.jobid) host.cpusets).map
        fun result =>
          (host.put result.cpusets, if result.ret < 0 then .leaving result.ret else .created, place)
  | .created, .migrate works =>
      match migrateFrom place works daemon.jobid daemon.uid host.cpusets with
      | some dir => some (host, .leaving 0, dir)
      | none => some (host, .leaving (-1), place)
  | .leaving rc, .unlock => some (host.release, .ready rc, place)
  | .ready rc, .lock =>
      -- SLURM ends a step whose `slurm_spank_init` has failed
      if rc = 0 then (host.acquire p).map fun host => (host, .stepLocked, place) else none
  | .stepLocked, .create conf fuel staleRc =>
      (createCpusetForStep machine (Calls.succeed place (host.cpusets.items place) staleRc) fuel
        conf daemon.stepid (jobStepNcpus daemon.sp (-1)).1 host.cpusets).map fun result =>
          (host.put result.cpusets,
            if result.ret < 0 then .stepLeaving result.ret else .stepCreated, place)
  | .stepCreated, .migrate works =>
      match migrateFrom place works daemon.stepid (-1) host.cpusets with
      | some dir => some (host, .stepLeaving 0, dir)
      | none => some (host, .stepLeaving (-1), place)
  | .stepLeaving rc, .unlock => some (host.release, .stepReady rc, place)
  | .ready rc, .leave => if rc = 0 then some (host, .exited, place) else none
  | .stepReady _, .leave => some (host, .exited, place)
  | phase, .finish => some (if phase.holding then host.release else host, .ended, place)
  | _, _ => none

/-- A step of the release agent. -/
def AgentPhase.act (machine : Machine) (occupied : List (List Name)) (p : Nat) (host : Host) :
    AgentPhase → Action → Option (Host × AgentPhase)
  | .start, .lock => (host.acquire p).map fun host => (host, .locked)
  | .locked, .clean conf tasks jobs =>
      (host.clean machine occupied conf tasks jobs).map fun (ok, host) =>
        (host, if ok then .cleaned else .stuck)
  | .cleaned, .update conf =>
      (updateUserCpusets machine (Calls.succeed [] (host.cpusets.items []) 0) conf
        host.cpusets).map fun (_, h) => (host.put h, .updated)
  | .updated, .unlock => some (host.release, .ended)
  | phase, .finish => some (if phase.holding then host.release else host, .ended)
  | _, _ => none

/-- A step of a login that has got past the checks in front of the lock. The loop over the jobs
takes one of them in each step. -/
def LoginPhase.act (machine : Machine) (occupied : List (List Name)) (login : Login)
    (uid : BitVec 32) (p : Nat) (host : Host) :
    LoginPhase → Action → Option (Host × LoginPhase)
  | .start, .lock => (host.acquire p).map fun host => (host, .locked)
  | .locked, .clean conf tasks jobs =>
      (host.clean machine occupied conf tasks jobs).map fun (ok, host) =>
        (host, if ok then .turns (login.loadJobs.getD []).zipIdx 0 else .stuck)
  | .turns (entry :: pending) total, .create conf fuel staleRc =>
      (jobTurn machine fuel
        { login with jobCalls _ := Calls.succeed [] (host.cpusets.items []) staleRc } conf uid
        (shortName (login.gethostname.getD [])) (total, host.cpusets) entry).map
        fun (total, h) => (host.put h, .turns pending total)
  | .turns [] _, .unlock => some (host.release, .ended)
  | phase, .finish => some (if phase.holding then host.release else host, .ended)
  | _, _ => none

/-- A step of a process. -/
def Process.act (machine : Machine) (occupied : List (List Name)) (p : Nat) (host : Host) :
    Process → Action → Option (Host × Process)
  | .daemon d phase place, action =>
      (d.act machine occupied p host place phase action).map fun (host, phase, place) =>
        (host, .daemon d phase place)
  | .agent phase, action =>
      (phase.act machine occupied p host action).map fun (host, phase) => (host, .agent phase)
  | .login calls uid phase, action =>
      (phase.act machine occupied calls uid p host action).map fun (host, phase) =>
        (host, .login calls uid phase)

/-- The daemon is in a cpuset of its job. -/
def Phase.inJob : Phase → Bool
  | .leaving rc | .ready rc => rc = 0
  | .stepLocked | .stepCreated | .stepLeaving _ | .stepReady _ => true
  | _ => false

/-- The cpuset of a job that a process is in. -/
def Process.place : Process → Option (List Name)
  | .daemon _ phase place => if phase.inJob then some place else none
  | _ => none

/-- The cpusets that the daemons are in. -/
def occupied (c : Processes Host Process) : List (List Name) := c.locals.filterMap Process.place

/-- One process makes a step. -/
inductive HostStep (machine : Machine) :
    Processes Host Process → Nat × Action → Processes Host Process → Prop
  | step {c : Processes Host Process} {p : Nat} {l l' : Process} {action : Action} {host : Host}
      (hlocal : c.locals[p]? = some l)
      (hact : l.act machine (occupied c) p c.shared action = some (host, l')) :
      HostStep machine c (p, action) ⟨host, c.locals.set p l'⟩

end SlurmSpank.Cpuset
