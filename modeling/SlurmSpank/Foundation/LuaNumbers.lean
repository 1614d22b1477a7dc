/-! # Lua numbers

What Lua and C make of the Lua numbers, which a program that uses Lua is given.
-/

namespace SlurmSpank.Foundation

/-- Operations on the Lua numbers. -/
structure NumberOps (Num : Type) where
  /-- `lua_tointeger`. -/
  toInteger : Num → Int
  /-- `lua_tonumber`, cast to `int`. -/
  toInt : Num → Int
  /-- The number that a string is converted to. -/
  parse : List Char → Option Num
  /-- The string that a number is converted to. -/
  text : Num → List Char
  /-- `lua_pushnumber` of an `int`. -/
  ofInt : Int → Num

/-- Numbers without fractions, and strings that are no numbers. -/
def intNumbers : NumberOps Int where
  toInteger := id
  toInt := id
  parse _ := none
  text n := (toString n).toList
  ofInt := id

end SlurmSpank.Foundation
