import SlurmSpank.LuaSchedutils.HexMask
import SlurmSpank.LuaSchedutils.Methods

/-! # The other functions of the module

They read and write single CPUs, make new sets and strings of sets, and exchange the set of the
process with the kernel. With the methods they are all that a script can call, but for `expand`
and the iterators.
-/

namespace SlurmSpank.LuaSchedutils

open Foundation Lib

variable {Num : Type}

/-- Read the set that a pointer, which may be null, points to. -/
def readSet : Option Nat → Lua Num CpuSet
  | some ref => fun m => .done (m.memory ref) m
  | none => fun _ => .crashed

/-- `l_cpu_set_new`, which refuses more than one argument. -/
def lCpuSetNewAt (num : NumberOps Num) : Lua Num Nat := do
  match ← getTop with
  | 0 =>
      let setp ← lCpuSetAlloc
      writeSet setp CpuSet.zero
      pure 1
  | 1 =>
      match ← luaToCpuSetpAt num 1 with
      | none => pure 2
      | some _ => pure 1
  | _ => raise

/-- `l_cpu_set_zero`. -/
def lCpuSetZero (num : NumberOps Num) : Lua Num Nat := do
  let setp ← luaToCpuSetpAt num 1
  update (fun _ => CpuSet.zero) setp
  pure 0

/-- The string of a set, which did not fit if there is none. -/
def pushText : Option Text → Lua Num Unit
  | some s => push (.string s)
  | none => fun _ => .crashed

/-- `cpu_set_to_string`. -/
def cpuSetToStringAt (num : NumberOps Num) (index : Nat) : Lua Num Unit := do
  let setp ← luaToCpuSetpAt num index
  let set ← readSet setp
  pushText (cpuSetToString set)
  replace index

/-- `l_cpu_set_tostring`. -/
def lCpuSetTostring (num : NumberOps Num) : Lua Num Nat := do
  cpuSetToStringAt num 1
  setTop 1
  pure 1

/-- `lua_isuserdata`. -/
def isUserdata (index : Nat) : Lua Num Bool := do
  match ← valueAt index with
  | some (.userdata _) => pure true
  | _ => pure false

/-- What `lua_concat` takes a value for. -/
def concatText (num : NumberOps Num) : Value Num → Option Text
  | .string s => some s
  | .number n => some (num.text n)
  | _ => none

/-- `lua_concat` of the two values on top. -/
def concat (num : NumberOps Num) : Lua Num Unit := do
  let top ← getTop
  let left ← valueAt (top - 1)
  let right ← valueAt top
  match left.bind (concatText num), right.bind (concatText num) with
  | some left, some right =>
      pop 2
      push (.string (left ++ right))
  | _, _ => raise

/-- `l_cpu_set_strconcat`. -/
def lCpuSetStrconcat (num : NumberOps Num) : Lua Num Nat := do
  if ← isUserdata 1 then cpuSetToStringAt num 1
  if ← isUserdata 2 then cpuSetToStringAt num 2
  concat num
  pure 1

/-- `l_cpu_set_isset`. -/
def lCpuSetIsset (num : NumberOps Num) : Lua Num Nat := do
  let setp ← luaToCpuSetpAt num 1
  let i ← checkNumber num 2
  if i < 0 ∨ cpuSetSize - 1 < i then raise
  else
    let isset ← cpuIsset i.toNat setp
    setTop 0
    push (.boolean isset)
    pure 1

/-- The names of `cpu_set_methods`. -/
def cpuSetMethods : List Text :=
  ["__eq", "__len", "__add", "__sub", "__concat", "__tostring", "__index", "__newindex", "set",
    "clr", "isset", "zero", "count", "weight", "union", "is_in", "contains", "intersect",
    "iterator", "expand", "copy", "first", "last", "tohex"].map String.toList

/-- `lua_tostring`, which puts the string of a number in its place. -/
def toText (num : NumberOps Num) (index : Nat) : Lua Num (Option Text) := do
  match ← valueAt index with
  | some (.string s) => pure (some s)
  | some (.number n) =>
      push (.string (num.text n))
      replace index
      pure (some (num.text n))
  | _ => pure none

/-- `l_cpu_set_index`. The metatable that it pushes, and a method in it, are other values. -/
def lCpuSetIndex (num : NumberOps Num) : Lua Num Nat := do
  match ← toText num 2 with
  | none => raise
  | some key =>
      if key = "size".toList then
        push (.number (num.ofInt cpuSetSize))
        pure 1
      else
        push .other
        if key ∈ cpuSetMethods then
          push .other
          pure 1
        else
          push .nil
          pop 1
          lCpuSetIsset num

/-- The value that `l_cpu_set_newindex` gives to a CPU. -/
def newValue (num : NumberOps Num) : Lua Num Int := do
  match ← valueAt 3 with
  | some (.boolean b) => pure (if b then 1 else 0)
  | _ => checkNumber num 3

/-- `l_cpu_set_newindex`. -/
def lCpuSetNewindex (num : NumberOps Num) : Lua Num Nat := do
  let setp ← luaToCpuSetpAt num 1
  let index ← checkNumber num 2
  let value ← newValue num
  if index < 0 ∨ cpuSetSize ≤ index then raise
  else
    if value = 1 then cpuSet index setp
    else if value = 0 then cpuClr index setp
    else raise
    pop 3
    pure 0

/-- The loop of `l_cpu_set_first` and `l_cpu_set_last` over the CPUs. -/
def searchLoop (num : NumberOps Num) (setp : Option Nat) : List Nat → Lua Num Nat
  | [] => pure 0
  | i :: rest => do
      if ← cpuIsset i setp then
        push (.number (num.ofInt i))
        pure 1
      else searchLoop num setp rest

/-- `l_cpu_set_first`. -/
def lCpuSetFirst (num : NumberOps Num) : Lua Num Nat := do
  let setp ← luaToCpuSetpAt num 1
  searchLoop num setp allCpus

/-- `l_cpu_set_last`. -/
def lCpuSetLast (num : NumberOps Num) : Lua Num Nat := do
  let setp ← luaToCpuSetpAt num 1
  searchLoop num setp allCpus.reverse

/-- `l_cpu_set_tohex`. -/
def lCpuSetTohexAt (num : NumberOps Num) : Lua Num Nat := do
  let setp ← luaToCpuSetpAt num 1
  let set ← readSet setp
  pushText (lCpuSetTohex set)
  pure 1

/-- `l_cpu_set_copy`. -/
def lCpuSetCopy (num : NumberOps Num) : Lua Num Nat := do
  let setp ← luaToCpuSetpAt num 1
  let copy ← lCpuSetAlloc
  let set ← readSet setp
  writeSet copy set
  pure 1

/-- `l_getaffinity`, given the set of the process or the message that the kernel's error has. -/
def lGetaffinity (answer : Except Text CpuSet) : Lua Num Nat := do
  let setp ← lCpuSetAlloc
  match answer with
  | .ok set =>
      writeSet setp set
      pure 1
  | .error msg =>
      push .nil
      push (.string msg)
      pure 2

/-- `l_setaffinity`, given the message of the kernel's error if there is one. -/
def lSetaffinity (num : NumberOps Num) (answer : Option Text) : Lua Num Nat := do
  let _ ← luaToCpuSetpAt num 1
  match answer with
  | none =>
      push (.boolean true)
      pure 1
  | some msg =>
      push .nil
      push (.string msg)
      pure 2

/-- The functions that `luaopen_schedutils` registers, but for `iterator` and `expand`. -/
inductive Function where
  | method (called : Method)
  | new
  | zero
  | tostring
  | strconcat
  | isset
  | index
  | newindex
  | first
  | last
  | tohex
  | copy
  | getaffinity (answer : Except Text CpuSet)
  | setaffinity (answer : Option Text)

def Function.run (num : NumberOps Num) : Function → Lua Num Nat
  | .method called => called.run num
  | .new => lCpuSetNewAt num
  | .zero => lCpuSetZero num
  | .tostring => lCpuSetTostring num
  | .strconcat => lCpuSetStrconcat num
  | .isset => lCpuSetIsset num
  | .index => lCpuSetIndex num
  | .newindex => lCpuSetNewindex num
  | .first => lCpuSetFirst num
  | .last => lCpuSetLast num
  | .tohex => lCpuSetTohexAt num
  | .copy => lCpuSetCopy num
  | .getaffinity answer => lGetaffinity answer
  | .setaffinity answer => lSetaffinity num answer

end SlurmSpank.LuaSchedutils
