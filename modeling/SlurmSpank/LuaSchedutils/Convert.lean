import SlurmSpank.LuaSchedutils.CpusetStr

/-! # Lua values as CPU sets

The conversions between Lua values and CPU sets that every method of `cpu_set` starts from.
An error is the message that the method returns after `nil`.
-/

namespace SlurmSpank.LuaSchedutils

open Foundation Lib

/-- The Lua values that stand for CPU sets. A number is what `lua_tointeger` makes of it. -/
inductive LuaValue where
  | userdata (setp : CpuSet)
  | nil
  | number (n : Int)
  | string (s : Text)

/-- `lua_string_to_cpu_setp`. -/
def luaStringToCpuSetp (s : Text) : Option (Except Text CpuSet) := do
  let (err, setp) ←
    if s.take 2 = ['0', 'x'] ∨ s.take 2 = ['0', '0'] then some (hexToCpuset s)
    else do
      let (err, setp) ← cstrToCpuset s
      if err ≠ 0 then some (hexToCpuset s) else some (err, setp)
  if err ≠ 0 then
    some (.error ("unable to parse CPU mask or list: '".toList ++ s ++ ['\'']))
  else some (.ok setp)

/-- `MAX_LUAINT`. -/
def maxLuaInt : Nat := 0xfffffffffffff0

/-- `lua_number_to_cpu_setp`. -/
def luaNumberToCpuSetp (number : Int) : Option (Except Text CpuSet) :=
  let n := (number % 2 ^ 64).toNat
  if maxLuaInt ≤ n then
    some (.error "unable to parse CPU mask: numeric overflow".toList)
  else luaStringToCpuSetp ('0' :: 'x' :: Nat.toDigits 16 n)

/-- `lua_to_cpu_setp`. -/
def luaToCpuSetp : LuaValue → Option (Except Text CpuSet)
  | .userdata setp => some (.ok setp)
  | .nil => some (.ok .zero)
  | .number n => luaNumberToCpuSetp n
  | .string s => luaStringToCpuSetp s

/-- `l_cpu_set_new` for one argument. -/
def lCpuSetNew (arg : LuaValue) : Option (Except Text CpuSet) := luaToCpuSetp arg

/-- `cpu_set_to_string`, which has no result where the text with its last comma and its
terminator overflows the buffer. -/
def cpuSetToString (setp : CpuSet) : Option Text :=
  if (cpusetToCstrLoop setp 0 [] false).1.length < 8192 then some (cpusetToCstr setp) else none

end SlurmSpank.LuaSchedutils
