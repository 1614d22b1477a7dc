import Mathlib.Logic.Function.Basic
import SlurmSpank.Foundation.LuaNumbers
import SlurmSpank.LuaSchedutils.Convert

/-! # The Lua stack of a `cpu_set` method

A method gets its arguments on the stack and leaves its results on top of it. A CPU set is a
userdata: the slot has its address. Memory that was not handed out yet has some content, and a
new set begins with it.
-/

namespace SlurmSpank.LuaSchedutils

open Foundation Lib

/-- The Lua values. The tables, the functions and the userdata of other kinds are `other`. -/
inductive Value (Num : Type) where
  | userdata (ref : Nat)
  | nil
  | number (n : Num)
  | string (s : Text)
  | boolean (b : Bool)
  | other
  deriving DecidableEq

/-- The stack with its bottom first, and the CPU sets in memory, where the addresses from
`next` on are free. -/
structure Machine (Num : Type) where
  stack : List (Value Num)
  memory : Nat → CpuSet
  next : Nat

/-- How a C function goes on: it is done, it raised a Lua error, it read through a null pointer,
or it does not come back. -/
inductive Result (Num α : Type) where
  | done (a : α) (m : Machine Num)
  | raised (m : Machine Num)
  | crashed
  | endless

/-- A C function that works on the stack. -/
def Lua (Num α : Type) : Type := Machine Num → Result Num α

namespace Lua

variable {Num α β : Type}

/-- One function after another. -/
def bind (first : Lua Num α) (next : α → Lua Num β) : Lua Num β := fun m =>
  match first m with
  | .done a m => next a m
  | .raised m => .raised m
  | .crashed => .crashed
  | .endless => .endless

instance : Monad (Lua Num) where
  pure a := fun m => .done a m
  bind := bind

theorem pure_apply (a : α) (m : Machine Num) : (pure a : Lua Num α) m = .done a m := rfl

theorem bind_apply (first : Lua Num α) (next : α → Lua Num β) (m : Machine Num) :
    (first >>= next) m =
      match first m with
      | .done a m => next a m
      | .raised m => .raised m
      | .crashed => .crashed
      | .endless => .endless := rfl

theorem bind_of_done {first : Lua Num α} {a : α} {m m' : Machine Num}
    (hfirst : first m = .done a m') (next : α → Lua Num β) :
    (first >>= next) m = next a m' := by
  rw [bind_apply, hfirst]

theorem bind_of_raised {first : Lua Num α} {m m' : Machine Num}
    (hfirst : first m = .raised m') (next : α → Lua Num β) :
    (first >>= next) m = .raised m' := by
  rw [bind_apply, hfirst]

theorem bind_of_crashed {first : Lua Num α} {m : Machine Num} (hfirst : first m = .crashed)
    (next : α → Lua Num β) : (first >>= next) m = .crashed := by
  rw [bind_apply, hfirst]

theorem bind_of_endless {first : Lua Num α} {m : Machine Num} (hfirst : first m = .endless)
    (next : α → Lua Num β) : (first >>= next) m = .endless := by
  rw [bind_apply, hfirst]

end Lua

/-! ## The operations of the Lua API -/

section Api

variable {Num : Type}

def Machine.push (m : Machine Num) (v : Value Num) : Machine Num :=
  { m with stack := m.stack ++ [v] }

def Machine.write (m : Machine Num) (ref : Nat) (setp : CpuSet) : Machine Num :=
  { m with memory := Function.update m.memory ref setp }

@[simp] theorem Machine.write_stack (m : Machine Num) (ref : Nat) (setp : CpuSet) :
    (m.write ref setp).stack = m.stack := rfl

@[simp] theorem Machine.write_next (m : Machine Num) (ref : Nat) (setp : CpuSet) :
    (m.write ref setp).next = m.next := rfl

@[simp] theorem Machine.write_self (m : Machine Num) (ref : Nat) (setp : CpuSet) :
    (m.write ref setp).memory ref = setp := by
  simp only [write, Function.update_self]

theorem Machine.write_of_ne (m : Machine Num) {ref other : Nat} (hne : other ≠ ref)
    (setp : CpuSet) : (m.write ref setp).memory other = m.memory other := by
  simp only [write, Function.update_of_ne hne]

@[simp] theorem Machine.write_write (m : Machine Num) (ref : Nat) (first second : CpuSet) :
    (m.write ref first).write ref second = m.write ref second := by
  rw [write, write, write, Function.update_idem]

@[simp] theorem Machine.write_memory (m : Machine Num) (ref : Nat) :
    m.write ref (m.memory ref) = m := by
  rw [write, Function.update_eq_self]

/-- `lua_gettop`. -/
def getTop : Lua Num Nat := fun m => .done m.stack.length m

/-- The value at an index from the bottom, which is from 1 on. -/
def valueAt (index : Nat) : Lua Num (Option (Value Num)) := fun m => .done m.stack[index - 1]? m

/-- The functions that push a value. -/
def push (v : Value Num) : Lua Num Unit := fun m => .done () (m.push v)

/-- `lua_pushvalue`, which pushes a nil for an index with no value. -/
def pushValue (index : Nat) : Lua Num Unit := fun m =>
  .done () (m.push (m.stack[index - 1]?.getD .nil))

/-- `lua_remove`. -/
def remove (index : Nat) : Lua Num Unit := fun m =>
  .done () { m with stack := m.stack.eraseIdx (index - 1) }

/-- `lua_replace`. -/
def replace (index : Nat) : Lua Num Unit := fun m =>
  .done () { m with stack := (m.stack.set (index - 1) (m.stack.getLastD .nil)).dropLast }

/-- `lua_pop`. -/
def pop (n : Nat) : Lua Num Unit := fun m =>
  .done () { m with stack := m.stack.take (m.stack.length - n) }

/-- `lua_settop`, for a top that is not above the top. -/
def setTop (top : Nat) : Lua Num Unit := fun m => .done () { m with stack := m.stack.take top }

/-- `luaL_error` and the errors of the `luaL_check` functions. -/
def raise {α : Type} : Lua Num α := fun m => .raised m

/-- `luaL_checknumber`, cast to `int`. -/
def checkNumber (num : NumberOps Num) (index : Nat) : Lua Num Int := do
  match ← valueAt index with
  | some (.number n) => pure (num.toInt n)
  | some (.string s) =>
      match num.parse s with
      | some n => pure (num.toInt n)
      | none => raise
  | _ => raise

/-- `lua_tonumber`, cast to `int`. -/
def toNumber (num : NumberOps Num) (index : Nat) : Lua Num Int := do
  match ← valueAt index with
  | some (.number n) => pure (num.toInt n)
  | some (.string s) => pure ((num.parse s).elim 0 num.toInt)
  | _ => pure 0

end Api

/-! ## The CPU sets in memory -/

section Sets

variable {Num : Type}

/-- The machine with a new set on top of the stack. -/
def Machine.allocated (m : Machine Num) : Machine Num :=
  ⟨m.stack ++ [.userdata m.next], m.memory, m.next + 1⟩

/-- `l_cpu_set_alloc`. -/
def lCpuSetAlloc : Lua Num Nat := fun m => .done m.next m.allocated

/-- Write a whole set. -/
def writeSet (ref : Nat) (set : CpuSet) : Lua Num Unit := fun m => .done () (m.write ref set)

/-- `CPU_ISSET` for a CPU in range, through a pointer that may be null. -/
def cpuIsset (cpu : Nat) : Option Nat → Lua Num Bool
  | some ref => fun m => .done ((m.memory ref).isset cpu) m
  | none => fun _ => .crashed

/-- Write to the set that a pointer, which may be null, points to. -/
def update (change : CpuSet → CpuSet) : Option Nat → Lua Num Unit
  | some ref => fun m => .done () (m.write ref (change (m.memory ref)))
  | none => fun _ => .crashed

/-- `CPU_SET`. A CPU that does not fit the set is ignored. -/
def cpuSet (cpu : Int) (ptr : Option Nat) : Lua Num Unit :=
  if 0 ≤ cpu ∧ cpu < cpuSetSize then update (CpuSet.set cpu.toNat) ptr else pure ()

/-- `CPU_CLR`. -/
def cpuClr (cpu : Int) (ptr : Option Nat) : Lua Num Unit :=
  if 0 ≤ cpu ∧ cpu < cpuSetSize then update (CpuSet.clear cpu.toNat) ptr else pure ()

/-- What `lua_to_cpu_setp` does with what a number or a string was converted to: the new set on
top of the stack takes the place of the argument, or `nil` and the message are pushed. -/
def storeSet (index setp : Nat) : Option (Except Text CpuSet) → Lua Num (Option Nat)
  | none => fun _ => .endless
  | some (.error msg) => do
      push .nil
      push (.string msg)
      pure none
  | some (.ok set) => do
      writeSet setp set
      replace index
      pure (some setp)

/-- `lua_to_cpu_setp`. A nil at the index is a value, no value is not. The string that
`lua_number_to_cpu_setp` puts in the place of a number is replaced by the set in turn. -/
def luaToCpuSetpAt (num : NumberOps Num) (index : Nat) : Lua Num (Option Nat) := do
  match ← valueAt index with
  | some (.userdata ref) => pure (some ref)
  | _ =>
      let setp ← lCpuSetAlloc
      -- for an index just above the top, this is the new set
      match ← valueAt index with
      | some .nil => storeSet index setp (luaToCpuSetp .nil)
      | some (.number n) => storeSet index setp (luaToCpuSetp (.number (num.toInteger n)))
      | some (.string s) => storeSet index setp (luaToCpuSetp (.string s))
      | _ => raise

end Sets

end SlurmSpank.LuaSchedutils
