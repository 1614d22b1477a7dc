import SlurmSpank.Cpuset.Create
import SlurmSpank.Cpuset.Slurm

/-! # Cleaning up

The functions of `util.c` that remove the cpusets of finished jobs, and the pass of
`create.c` that brings the users' cpusets up to date afterwards.
-/

namespace SlurmSpank.Cpuset

open Foundation

/-- What a clean-up finds: the number of live tasks in each cpuset, and the job table, which
may be out of reach. -/
structure Activity where
  tasks : List Name → Nat
  jobs : Option (List JobInfo)

/-- `sscanf` with a format of literals that are each followed by `%d`: the numbers stored. -/
def sscanfInts : List (List Char) → List Char → List Int
  | [], _ => []
  | literal :: more, input =>
      if literal.isPrefixOf input then
        match scanInt (input.drop literal.length) with
        | none => []
        | some (value, rest) => value :: sscanfInts more rest
      else []

/-- The `int` that a scanned number is stored as. -/
def storedInt (value : Int) : BitVec 32 :=
  BitVec.ofInt 32 (max (-2 ^ 63) (min (2 ^ 63 - 1) value))

/-- `cpuset_ntasks`. -/
def cpusetNtasks (activity : Activity) (path : List Char) (h : Cpusets) : Int :=
  if dirOf path ∈ h.dirs then activity.tasks (dirOf path) else -1

/-- The call of `rmdir`, whose result nobody looks at. -/
def rmdirPath (activity : Activity) (name : List Char) (h : Cpusets) : Cpusets :=
  (h.rmdir (decide (0 < activity.tasks (dirOf name))) (dirOf name)).getD h

/-- `slurm_cpuset_clean_path`. A job's cpuset is kept while its user has tasks and the job
runs. -/
def slurmCpusetCleanPath (activity : Activity) (path : List Char) (h : Cpusets) : Cpusets :=
  let name := cpusetPathToName path
  match sscanfInts [slurmName ++ ['/'], ['/'], ['/']] name with
  | [userid, jobid] =>
      if 0 < cpusetNtasks activity (userName (storedInt userid)) h ∧
          slurmJobidIsValid activity.jobs (storedInt jobid) then h
      else rmdirPath activity name h
  | _ => rmdirPath activity name h

/-- The turn of `slurm_cpuset_clean` for one entry of the tree walk. -/
def cleanEntry (activity : Activity) (h : Cpusets) (dir : List Name) : Cpusets :=
  if cpusetName dir ≠ slurmName then
    slurmCpusetCleanPath activity (mountPoint ++ cpusetName dir) h
  else h

/-- The loop of `slurm_cpuset_clean`: the tree is walked as it was at the start, children
first. -/
def cleanEntries (machine : Machine) (activity : Activity) (h : Cpusets) : Cpusets :=
  (machine.ftsRead h).reverse.foldl (cleanEntry activity) h

/-- The turn of `update_user_cpusets` for one entry of `/slurm`. The result of the update is
dropped. -/
def updateEntry (machine : Machine) (calls : Calls) (conf : CpusetConf) (h : Cpusets)
    (name : Name) : Option Cpusets :=
  let uid := str2int name
  if uid < 0 then some h
  else (userCpusetUpdate machine calls conf (BitVec.ofInt 32 uid) none h).map Prod.snd

/-- `update_user_cpusets`. -/
def updateUserCpusets (machine : Machine) (calls : Calls) (conf : CpusetConf) (h : Cpusets) :
    Option (Int × Cpusets) :=
  if slurmDir ∈ h.dirs then
    ((machine.readdir h slurmDir).foldlM (updateEntry machine calls conf) h).map fun h => (0, h)
  else some (-1, h)

/-- `slurm_cpuset_clean`. -/
def slurmCpusetClean (machine : Machine) (calls : Calls) (conf : CpusetConf)
    (activity : Activity) (h : Cpusets) : Option (Int × Cpusets) :=
  if slurmDir ∈ h.dirs ∧ calls.ftsOpen = true then
    (updateUserCpusets machine calls conf (cleanEntries machine activity h)).map fun result =>
      (0, result.2)
  else some (-1, h)

/-- The calls of `slurm_cpuset_create` that can fail. -/
structure SetupCalls where
  lock : Bool
  mkdir : Bool
  query : Bool
  modify : Bool

/-- `slurm_cpuset_create`, with whether it returns a lock. If the base cpuset exists it is
cleaned up, and otherwise made with all CPUs. -/
def slurmCpusetCreate (machine : Machine) (setup : SetupCalls) (calls : Calls) (conf : CpusetConf)
    (activity : Activity) (h : Cpusets) : Option (Bool × Cpusets) :=
  if !setup.lock then some (false, h)
  else if slurmDir ∈ h.dirs then
    (slurmCpusetClean machine calls conf activity h).map fun result => (true, result.2)
  else
    match if setup.mkdir then h.mkdir slurmName.tail [] else none with
    | none => some (false, h)
    | some h =>
        if !setup.query then some (false, h)
        else
          match if setup.modify then h.modify slurmName.tail [] (h.items []) else none with
          | none => some (false, h)
          | some h => some (true, h)

end SlurmSpank.Cpuset
