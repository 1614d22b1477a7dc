import SlurmSpank.Lib.CpuSet
import SlurmSpank.Lib.List

/-! # Affinity masks

The part of the auto-affinity plugin that picks the CPUs of a task: the map from physical
positions to CPU ids, the translation into the CPUs available to the job, and the two
generators that walk the positions upward and downward. A function has no result where the
source reads outside the map.
-/

namespace SlurmSpank.AutoAffinity

open Lib

/-! ## The position map -/

/-- `struct cpu_info`. -/
structure CpuInfo where
  id : Nat
  pkgid : Int
  coreid : Int

/-- `cpu_info_create`, where the topology gives what `read_file_int` returns for the package
and the core of a CPU. -/
def cpuInfoCreate (topology : Nat → Int × Int) (id : Nat) : Option CpuInfo :=
  let (pkgid, coreid) := topology id
  if pkgid < 0 then none else if coreid < 0 then none else some ⟨id, pkgid, coreid⟩

/-- `cpu_info_cmp`. -/
def cpuInfoCmp (cpu1 cpu2 : CpuInfo) : Int :=
  if cpu1.pkgid = cpu2.pkgid then cpu1.coreid - cpu2.coreid else cpu1.pkgid - cpu2.pkgid

/-- The loop of `create_cpu_position_map` that fills the list. -/
def pushCpus (topology : Nat → Int × Int) : Nat → Option (List CpuInfo)
  | 0 => some []
  | i + 1 => do
      let cpuInfoList ← pushCpus topology i
      let cpu ← cpuInfoCreate topology i
      some (listPush cpuInfoList cpu)

/-- `create_cpu_position_map`. -/
def createCpuPositionMap (topology : Nat → Int × Int) (ncpus : Nat) : Option (List Nat) :=
  (pushCpus topology ncpus).map fun cpuInfoList =>
    (listSort cpuInfoCmp cpuInfoList).map CpuInfo.id

/-! ## The masks -/

/-- The static variables that the generators read. -/
structure Affinity where
  ncpus : Nat
  ntasks : Nat
  requestedCpusPerTask : Nat
  startcpu : Nat
  cpusAvailable : CpuSet
  ncpusAvailable : Nat
  cpuPositionMap : List Nat

namespace Affinity

variable (a : Affinity)

/-- `cpu_position_to_id`. -/
def cpuPositionToId (n : Nat) : Option Nat := a.cpuPositionMap[n]?

/-- `get_cpus_per_task`. -/
def getCpusPerTask : Nat :=
  if a.requestedCpusPerTask ≠ 0 then a.requestedCpusPerTask else a.ncpusAvailable / a.ntasks

/-- The loop of `mask_to_available`, with the number `j` of available CPUs passed so far;
`none` is the result -1. -/
def maskToAvailableLoop (cpu : Nat) : List Nat → Nat → Option Nat
  | [], _ => none
  | i :: rest, j =>
      if a.cpusAvailable.isset i then
        if cpu = j then some i else maskToAvailableLoop cpu rest (j + 1)
      else maskToAvailableLoop cpu rest j

/-- `mask_to_available`. -/
def maskToAvailable (cpu : Nat) : Option Nat := a.maskToAvailableLoop cpu (List.range a.ncpus) 0

/-- Setting the bit for one position: the new mask with the result of the function so far. -/
def setPosition (cpu : Nat) (setp : CpuSet) : Option (Int × CpuSet) := do
  let n ← a.cpuPositionToId cpu
  match a.maskToAvailable n with
  | none => some (-1, setp)
  | some bit => some (0, setp.set bit)

/-- The loop of the generators, which ends early where a bit is not available. -/
def generateLoop (next : Nat → Nat) : Nat → Nat → CpuSet → Option (Int × CpuSet)
  | 0, _, setp => some (0, setp)
  | i + 1, cpu, setp => do
      let (rc, setp) ← a.setPosition cpu setp
      if rc < 0 then some (-1, setp) else generateLoop next i (next cpu) setp

/-- `generate_mask`. -/
def generateMask (setp : CpuSet) (localid : Nat) : Option (Int × CpuSet) :=
  let cpusPerTask := a.getCpusPerTask
  if cpusPerTask = 1 then a.setPosition (localid + a.startcpu) setp
  else
    a.generateLoop (fun cpu => (cpu + 1) % a.ncpusAvailable) cpusPerTask
      ((localid * cpusPerTask + a.startcpu) % a.ncpusAvailable) setp

/-- `generate_mask_reverse`. -/
def generateMaskReverse (setp : CpuSet) (localid : Nat) : Option (Int × CpuSet) :=
  let cpusPerTask := a.getCpusPerTask
  let lastcpu := a.ncpusAvailable - 1
  if cpusPerTask = 1 then
    a.setPosition (lastcpu - (localid + a.startcpu) % a.ncpusAvailable) setp
  else
    a.generateLoop (fun cpu => if 1 ≤ cpu then cpu - 1 else a.ncpusAvailable - 1) cpusPerTask
      (lastcpu - (localid * cpusPerTask + a.startcpu) % a.ncpusAvailable) setp

end Affinity

end SlurmSpank.AutoAffinity
