import SlurmSpank.LuaSchedutils.Stack

/-! # The methods of `cpu_set`

A method returns how many values on top of the stack are its results. Its loop over the CPUs
writes one bit in each turn, and the set that is written may be one of those that are read.
-/

namespace SlurmSpank.LuaSchedutils

open Foundation Lib

variable {Num : Type}

/-- The loop over the CPUs. -/
def eachCpu (body : Nat → Lua Num Unit) : List Nat → Lua Num Unit
  | [] => pure ()
  | i :: rest => do
      body i
      eachCpu body rest

/-- The CPUs from 0 to `CPU_SETSIZE - 1`. -/
def allCpus : List Nat := List.range' 0 cpuSetSize

/-- The indexes from 2 to `nargs`. -/
def laterIndexes (nargs : Nat) : List Nat := List.range' 2 (nargs - 1)

/-- The loop of `l_cpu_set_count`. -/
def countLoop (setp : Option Nat) : List Nat → Nat → Lua Num Nat
  | [], n => pure n
  | i :: rest, n => do
      let isset ← cpuIsset i setp
      countLoop setp rest (if isset then n + 1 else n)

/-- `l_cpu_set_count`. -/
def lCpuSetCount (num : NumberOps Num) : Lua Num Nat := do
  let setp ← luaToCpuSetpAt num 1
  let n ← countLoop setp allCpus 0
  push (.number (num.ofInt n))
  pure 1

/-- `cpu_set_union`. -/
def cpuSetUnion (setp s : Nat) : Lua Num Unit :=
  eachCpu (fun i => do if ← cpuIsset i (some s) then cpuSet i (some setp)) allCpus

/-- `cpu_set_intersect`. -/
def cpuSetIntersect (setp s : Nat) : Lua Num Unit :=
  eachCpu (fun i => do
    if ← cpuIsset i (some setp) then
      if !(← cpuIsset i (some s)) then cpuClr i (some setp)) allCpus

/-- The loop of `l_cpu_set_union` and `l_cpu_set_intersect` over the indexes. -/
def accumulateLoop (num : NumberOps Num) (update : Nat → Nat → Lua Num Unit) (setp : Nat) :
    List Nat → Lua Num Nat
  | [] => do
      setTop 1
      pure 1
  | i :: rest => do
      match ← luaToCpuSetpAt num i with
      | none => pure 2
      | some arg =>
          update setp arg
          accumulateLoop num update setp rest

/-- `l_cpu_set_union` and `l_cpu_set_intersect`, with what updates the first set. -/
def accumulate (num : NumberOps Num) (update : Nat → Nat → Lua Num Unit) : Lua Num Nat := do
  let nargs ← getTop
  match ← luaToCpuSetpAt num 1 with
  | none => pure 2
  | some setp => accumulateLoop num update setp (laterIndexes nargs)

/-- `l_cpu_set_union`. -/
def lCpuSetUnion (num : NumberOps Num) : Lua Num Nat := accumulate num cpuSetUnion

/-- `l_cpu_set_intersect`. -/
def lCpuSetIntersect (num : NumberOps Num) : Lua Num Nat := accumulate num cpuSetIntersect

/-- The loop of `l_cpu_set_add`. -/
def addLoop (result s1 s2 : Nat) : Lua Num Unit :=
  eachCpu (fun i => do
    if ← cpuIsset i (some s1) then cpuSet i (some result)
    else if ← cpuIsset i (some s2) then cpuSet i (some result)
    else cpuClr i (some result)) allCpus

/-- `l_cpu_set_add`. -/
def lCpuSetAdd (num : NumberOps Num) : Lua Num Nat := do
  let result ← lCpuSetAlloc
  match ← luaToCpuSetpAt num 1 with
  | none => pure 2
  | some s1 =>
      match ← luaToCpuSetpAt num 2 with
      | none => pure 2
      | some s2 =>
          addLoop result s1 s2
          pure 1

/-- The loop of `l_cpu_set_subtract`, where nothing was tested for `s1`. -/
def subtractLoop (result : Nat) (s1 : Option Nat) (s2 : Nat) : Lua Num Unit :=
  eachCpu (fun i => do
    if ← cpuIsset i s1 then
      if !(← cpuIsset i (some s2)) then cpuSet i (some result)
      else cpuClr i (some result)
    else cpuClr i (some result)) allCpus

/-- `l_cpu_set_subtract`. -/
def lCpuSetSubtract (num : NumberOps Num) : Lua Num Nat := do
  let result ← lCpuSetAlloc
  let s1 ← luaToCpuSetpAt num 1
  match ← luaToCpuSetpAt num 2 with
  | none => pure 2
  | some s2 =>
      subtractLoop result s1 s2
      pure 1

/-- The loop of `l_cpu_set_set` and `l_cpu_set_delete`, with what reads the CPU and what writes
its bit. -/
def writeLoop (cpuAt : Nat → Lua Num Int) (write : Int → Option Nat → Lua Num Unit)
    (setp : Option Nat) : List Nat → Lua Num Nat
  | [] => pure 0
  | i :: rest => do
      let cpu ← cpuAt i
      write cpu setp
      writeLoop cpuAt write setp rest

/-- `l_cpu_set_set`. What a failed conversion pushed counts as arguments. -/
def lCpuSetSet (num : NumberOps Num) : Lua Num Nat := do
  let setp ← luaToCpuSetpAt num 1
  let nargs ← getTop
  writeLoop (checkNumber num) cpuSet setp (laterIndexes nargs)

/-- `l_cpu_set_delete`. -/
def lCpuSetDelete (num : NumberOps Num) : Lua Num Nat := do
  let setp ← luaToCpuSetpAt num 1
  let nargs ← getTop
  writeLoop (toNumber num) cpuClr setp (laterIndexes nargs)

/-- The loop of `l_cpu_set_is_in`. -/
def isInLoop (s1 s2 : Option Nat) : List Nat → Lua Num Bool
  | [] => pure true
  | i :: rest => do
      if ← cpuIsset i s1 then
        if !(← cpuIsset i s2) then pure false
        else isInLoop s1 s2 rest
      else isInLoop s1 s2 rest

/-- The loop of `l_cpu_set_equals`. -/
def equalsLoop (s1 s2 : Option Nat) : List Nat → Lua Num Bool
  | [] => pure true
  | i :: rest => do
      let left ← cpuIsset i s1
      let right ← cpuIsset i s2
      if left ≠ right then pure false else equalsLoop s1 s2 rest

/-- `l_cpu_set_is_in` and `l_cpu_set_equals`, with the loop over the CPUs. -/
def compareSets (num : NumberOps Num) (loop : Option Nat → Option Nat → List Nat → Lua Num Bool) :
    Lua Num Nat := do
  let s1 ← luaToCpuSetpAt num 1
  let s2 ← luaToCpuSetpAt num 2
  let rv ← loop s1 s2 allCpus
  pop 2
  push (.boolean rv)
  pure 1

/-- `l_cpu_set_is_in`. -/
def lCpuSetIsIn (num : NumberOps Num) : Lua Num Nat := compareSets num isInLoop

/-- `l_cpu_set_contains`. -/
def lCpuSetContains (num : NumberOps Num) : Lua Num Nat := do
  pushValue 1
  remove 1
  lCpuSetIsIn num

/-- `l_cpu_set_equals`. -/
def lCpuSetEquals (num : NumberOps Num) : Lua Num Nat := compareSets num equalsLoop

/-- The methods and operators that take sets or CPUs. -/
inductive Method where
  | union
  | intersect
  | add
  | subtract
  | equals
  | isIn
  | contains
  | count
  | set
  | delete

/-- The function that a method is registered with. -/
def Method.run (num : NumberOps Num) : Method → Lua Num Nat
  | union => lCpuSetUnion num
  | intersect => lCpuSetIntersect num
  | add => lCpuSetAdd num
  | subtract => lCpuSetSubtract num
  | equals => lCpuSetEquals num
  | isIn => lCpuSetIsIn num
  | contains => lCpuSetContains num
  | count => lCpuSetCount num
  | set => lCpuSetSet num
  | delete => lCpuSetDelete num

/-- How a call ends for the script: with results, with a Lua error, in a null pointer, or not
at all. -/
inductive Outcome (Num : Type) where
  | returned (values : List (Value Num)) (memory : Nat → CpuSet)
  | raised (memory : Nat → CpuSet)
  | crashed
  | endless

/-- The results of a C function are as many values on top of the stack as it says. -/
def Result.outcome : Result Num Nat → Outcome Num
  | .done n m => .returned (m.stack.drop (m.stack.length - n)) m.memory
  | .raised m => .raised m.memory
  | .crashed => .crashed
  | .endless => .endless

/-- A call of a method from Lua. -/
def Method.call (num : NumberOps Num) (method : Method) (memory : Nat → CpuSet) (next : Nat)
    (args : List (Value Num)) : Outcome Num :=
  (method.run num ⟨args, memory, next⟩).outcome

end SlurmSpank.LuaSchedutils
