import SlurmSpank.Cpuset.Nodemap
import SlurmSpank.Cpuset.Tree

/-! # Creating cpusets

The functions of `create.c` and the accounting of `util.c` that they rest on. The kernel
keeps the tree; what a call may do beyond that, fail for reasons of its own or leave a
variable unset, is a parameter. An operation without a result has not returned.
-/

namespace SlurmSpank.Cpuset

open Foundation

/-- The machine: its NUMA layout, and the orders in which directories and trees are read. -/
structure Machine where
  numa : Numa
  readdir : Cpusets → List Name → List Name
  ftsRead : Cpusets → List (List Name)

/-- What the reading of directories promises: `readdir` returns every child, and otherwise
only files, whose names are no numbers; the tree walk finds the cpusets below `/slurm`. -/
structure Machine.Lists (machine : Machine) : Prop where
  lists : ∀ h dir name, name :: dir ∈ h.dirs → name ∈ machine.readdir h dir
  files : ∀ h dir name, name ∈ machine.readdir h dir → name :: dir ∉ h.dirs → str2int name < 0
  walks : ∀ h dir, dir ∈ machine.ftsRead h ↔ dir ∈ h.dirs ∧ slurmDir <:+ dir

/-- What the calls made by the operations do. A flag that is false is a call that fails
whatever the state of the tree. -/
structure Calls where
  usagePath : GetCpusetPath
  currentCpus : Finset Nat
  allocNodemap : Bool
  unorphan : Bool
  mkdir : Bool
  query : List Name → Bool
  buildUser : Bool
  modify : Bool
  orphan : Bool
  buildJob : Bool
  jobPath : GetCpusetPath
  jobPath_lt : ∀ size path, jobPath size = some path → path.length < size
  /-- What the buffer of `job_cpuset_path` holds while it is unset. -/
  junk : List Char
  junk_lt : junk.length < 64
  create : Bool
  /-- What the variable `rc` of `job_cpuset_create` holds while it is unset. -/
  staleRc : Int
  ftsOpen : Bool

/-- The calls of a process in the given cpuset, when none of them fails. -/
def Calls.succeed (dir : List Name) (cpus : Finset Nat) (staleRc : Int) : Calls where
  usagePath := reportsPath (cpusetName dir)
  currentCpus := cpus
  allocNodemap := true
  unorphan := true
  mkdir := true
  query _ := true
  buildUser := true
  modify := true
  orphan := true
  buildJob := true
  jobPath := reportsPath (cpusetName dir)
  jobPath_lt size path hpath := by
    unfold reportsPath at hpath
    split at hpath
    next hlt => exact Option.some.inj hpath ▸ hlt
    next => cases hpath
  junk := []
  junk_lt := by decide
  create := true
  staleRc := staleRc
  ftsOpen := true

/-- A machine whose directories hold nothing but cpusets, listed as they were made. -/
def Machine.plain (numa : Numa) : Machine where
  numa := numa
  readdir := Hierarchy.children
  ftsRead h := h.dirs.filter (decide <| slurmDir <:+ ·)

theorem Machine.plain_lists (numa : Numa) : (Machine.plain numa).Lists where
  lists _ _ _ hmem := Hierarchy.mem_children.mpr hmem
  files _ _ _ hmem hnot := absurd (Hierarchy.mem_children.mp hmem) hnot
  walks _ _ := by simp [Machine.plain]

/-! ## Accounting -/

/-- The loop of `used_cpus_bitmask_path` over the entries of a directory. -/
def usedCpusLoop (size : Nat) (query : List Name → Bool) (h : Cpusets) (dir : List Name)
    (used : Bitmask) (name : Name) : Bitmask :=
  if skipped name then used
  else if name :: dir ∉ h.dirs ∨ !query (name :: dir) then used
  else used.or (Bitmask.ofFinset size (h.items (name :: dir))) used

/-- `used_cpus_bitmask_path`, or nothing where the directory cannot be opened. -/
def usedCpusBitmaskPath (machine : Machine) (query : List Name → Bool) (h : Cpusets)
    (dir : List Name) (clearall : Bool) : Option Bitmask :=
  if dir ∈ h.dirs then
    let size := machine.numa.cpumaskSize
    let used := Bitmask.alloc size
    let used :=
      -- a failed query of the directory itself leaves no CPU in the mask to be complemented
      if !clearall then
        used.complement (Bitmask.ofFinset size (if query dir then h.items dir else ∅))
      else used
    some ((machine.readdir h dir).foldl (usedCpusLoop size query h dir) used)
  else none

/-- `used_cpus_bitmask`: the usage in the current cpuset. -/
def usedCpusBitmask (machine : Machine) (calls : Calls) (h : Cpusets) : Option Bitmask :=
  match currentCpusetPath calls.usagePath 4096 with
  | none => none
  | some path =>
      usedCpusBitmaskPath machine calls.query h (dirOf (cpusetPathToName path)) false

/-- The map that `create_cpuset` allocates from. -/
def createMap (machine : Machine) (calls : Calls) (conf : CpusetConf) (h : Cpusets) :
    Option Nodemap :=
  if calls.allocNodemap then
    nodemapCreate machine.numa conf none (usedCpusBitmask machine calls h)
      (Bitmask.ofFinset machine.numa.cpumaskSize calls.currentCpus)
  else none

/-! ## User cpusets -/

/-- `user_cpuset_orphan`. A failed rename is logged and otherwise ignored. -/
def userCpusetOrphan (calls : Calls) (uid : BitVec 32) (h : Cpusets) : Cpusets :=
  if calls.orphan then (h.rename slurmDir (printUid uid) (orphanName uid)).getD h else h

/-- `user_cpuset_unorphan`. -/
def userCpusetUnorphan (calls : Calls) (uid : BitVec 32) (h : Cpusets) : Bool × Cpusets :=
  match if calls.unorphan then h.rename slurmDir (orphanName uid) (printUid uid) else none with
  | none => (false, h)
  | some h => (true, h)

/-- `user_cpuset_create`. -/
def userCpusetCreate (calls : Calls) (uid : BitVec 32) (h : Cpusets) : Int × Cpusets :=
  if userDir uid ∈ h.dirs then (0, h)
  else
    match if calls.mkdir then h.mkdir (printUid uid) slurmDir else none with
    | none => (-1, h)
    | some h => (0, h)

/-- `do_cpuset_create`, as far as the CPUs of the new structure go. -/
def doCpusetCreate (built : Bool) (alloc : Bitmask) : Option (Finset Nat) :=
  if built then some alloc.bits else none

/-- The loop around `cpuset_modify` in `user_cpuset_update`. The kernel answers EBUSY as long
as a child has a CPU that the new set lacks, which nothing changes while the loop runs. -/
def modifyLoop (calls : Calls) (uid : BitVec 32) (set : Finset Nat) (h : Cpusets) :
    Option (Int × Cpusets) :=
  if !calls.modify then some (-1, h)
  else if (h.children (userDir uid)).any fun child => !decide (h.items (child :: userDir uid) ⊆ set)
  then none
  else
    match h.modify (printUid uid) slurmDir set with
    | none => some (-1, h)
    | some h => some (0, h)

/-- The usage mask with the CPUs of an allocation, if there is one, added to it. -/
def addAlloc (used : Bitmask) : Option Bitmask → Bitmask
  | some alloc => used.or used alloc
  | none => used

/-- The steps of `user_cpuset_update` once the cpuset is in place; `orphan` says that it was
moved back from the orphans. -/
def userCpusetRefill (machine : Machine) (calls : Calls) (conf : CpusetConf) (uid : BitVec 32)
    (alloc : Option Bitmask) (orphan : Bool) (h : Cpusets) : Option (Int × Cpusets) :=
  match usedCpusBitmaskPath machine calls.query h (userDir uid) true with
  | none => none
  | some used =>
      let used := addAlloc (if orphan then used.clearall else used) alloc
      if used.weight = 0 then
        -- `kill_orphan` only sends signals, and leaves the cpuset as it is
        some (0, if conf.killOrphans then h else userCpusetOrphan calls uid h)
      else
        match doCpusetCreate calls.buildUser used with
        | none => some (-1, h)
        | some set => modifyLoop calls uid set h

/-- `user_cpuset_update`. -/
def userCpusetUpdate (machine : Machine) (calls : Calls) (conf : CpusetConf) (uid : BitVec 32)
    (alloc : Option Bitmask) (h : Cpusets) : Option (Int × Cpusets) :=
  let (orphan, h) := userCpusetUnorphan calls uid h
  let (rc, h) := if orphan then (0, h) else userCpusetCreate calls uid h
  if rc < 0 then some (-1, h) else userCpusetRefill machine calls conf uid alloc orphan h

/-! ## Job, step and task cpusets -/

/-- The result of `create_cpuset`, with the paths that `cpuset_create` was called for. -/
structure CreateResult where
  ret : Int
  cpusets : Cpusets
  created : List (List Char)

/-- `cpuset_create` on a path string. A structure that was not built sets no CPUs. -/
def cpusetCreate (calls : Calls) (path : List Char) (cp : Option (Finset Nat)) (h : Cpusets) :
    Option Cpusets :=
  match dirOf path with
  | [] => none
  | name :: parent => if calls.create then h.create name parent (cp.getD ∅) else none

/-- `job_cpuset_create`. The source tests the structure from `do_cpuset_create` for being
negative, so that a null pointer goes unnoticed, and returns an unset variable unless
`cpuset_create` succeeds. -/
def jobCpusetCreate (calls : Calls) (id uid : BitVec 32) (alloc : Bitmask) (h : Cpusets) :
    CreateResult :=
  let cp := doCpusetCreate calls.buildJob alloc
  match jobCpusetPath calls.jobPath calls.junk id uid 4096 with
  | none => ⟨calls.staleRc, h, []⟩
  | some path =>
      match cpusetCreate calls path cp h with
      | none => ⟨calls.staleRc, h, [path]⟩
      | some h => ⟨0, h, [path]⟩

/-- `create_cpuset`, with `fuel` turns for the allocator. -/
def createCpuset (machine : Machine) (calls : Calls) (fuel : Nat) (conf : CpusetConf)
    (id uid : BitVec 32) (ncpus : Int) (h : Cpusets) : Option CreateResult :=
  match createMap machine calls conf h with
  | none => some ⟨-1, h, []⟩
  | some map =>
      match nodemapAllocate fuel map ncpus with
      | none => none
      | some (none, _) => some ⟨-1, h, []⟩
      | some (some alloc, _) =>
          match
            if uid.toInt ≥ 0 then userCpusetUpdate machine calls conf uid (some alloc) h
            else some (0, h) with
          | none => none
          | some (rc, h) =>
              if rc < 0 then some ⟨-1, h, []⟩
              else
                let result := jobCpusetCreate calls id uid alloc h
                some { result with ret := if result.ret < 0 then -1 else 0 }

/-- `create_cpuset_for_job`. -/
def createCpusetForJob (machine : Machine) (calls : Calls) (fuel : Nat) (conf : CpusetConf)
    (jobid uid : BitVec 32) (ncpus : Int) (h : Cpusets) : Option CreateResult :=
  createCpuset machine calls fuel conf jobid uid ncpus h

/-- `create_cpuset_for_step`. -/
def createCpusetForStep (machine : Machine) (calls : Calls) (fuel : Nat) (conf : CpusetConf)
    (stepid : BitVec 32) (ncpus : Int) (h : Cpusets) : Option CreateResult :=
  createCpuset machine calls fuel conf stepid (-1) ncpus h

/-- `job_cpuset_exists`. -/
def jobCpusetExists (calls : Calls) (jobid uid : BitVec 32) (h : Cpusets) : Bool :=
  match jobCpusetPath calls.jobPath calls.junk jobid uid 4096 with
  | none => false
  | some path => decide (dirOf path ∈ h.dirs) && calls.query (dirOf path)

end SlurmSpank.Cpuset
