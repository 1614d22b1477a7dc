/-! # Stacks of values

A stack is a list with its bottom first. A slot has an index from the bottom, which counts from
1 on, and an index from the top, which counts from -1 down. Setting the top takes values away or
fills new slots up, and popping sets the top by an index from the top.
-/

namespace SlurmSpank.Foundation

universe u

variable {α : Type u}

namespace ValueStack

/-- The place of an index in a stack of some size, counted from 0 on. -/
def slot (size : Nat) (index : Int) : Option Nat :=
  if 0 < index then if index ≤ size then some (index - 1).toNat else none
  else if index < 0 ∧ -index ≤ size then some (size + index).toNat
  else none

/-- The value at an index. -/
def peek (stack : List α) (index : Int) : Option α :=
  (slot stack.length index).bind fun i => stack[i]?

/-- Set the top to an index. -/
def setTop (fill : α) (stack : List α) (index : Int) : List α :=
  if 0 ≤ index then
    stack.take index.toNat ++ List.replicate (index.toNat - stack.length) fill
  else stack.take (stack.length + index + 1).toNat

/-- Take values from the top. -/
def pop (fill : α) (stack : List α) (n : Int) : List α := setTop fill stack (-n - 1)

/-- Replace the value at an index. -/
def store (stack : List α) (index : Int) (value : α) : List α :=
  match slot stack.length index with
  | some i => stack.set i value
  | none => stack

theorem slot_top (stack : List α) (value : α) :
    slot (stack ++ [value]).length (-1) = some stack.length := by
  rw [slot, List.length_append, List.length_singleton, if_neg (by decide), if_pos (by omega),
    Option.some_inj]
  omega

theorem peek_top (stack : List α) (value : α) : peek (stack ++ [value]) (-1) = some value := by
  rw [peek, slot_top, Option.bind_some, List.getElem?_concat_length]

/-- The value below the top. -/
theorem peek_below (stack : List α) (below top : α) :
    peek (stack ++ [below] ++ [top]) (-2) = some below := by
  have hslot : slot (stack ++ [below] ++ [top]).length (-2) = some stack.length := by
    rw [slot, List.length_append, List.length_append, List.length_singleton,
      List.length_singleton, if_neg (by decide), if_pos (by omega), Option.some_inj]
    omega
  rw [peek, hslot, Option.bind_some, List.append_assoc,
    List.getElem?_append_right (Nat.le_refl _), Nat.sub_self]
  rfl

/-- The value below some others. -/
theorem peek_append (stack : List α) (value : α) (above : List α) :
    peek (stack ++ value :: above) (-above.length - 1) = some value := by
  have hslot : slot (stack ++ value :: above).length (-above.length - 1) = some stack.length := by
    rw [slot, List.length_append, List.length_cons, if_neg (by omega), if_pos (by omega),
      Option.some_inj]
    omega
  rw [peek, hslot, Option.bind_some, List.getElem?_append_right (Nat.le_refl _), Nat.sub_self]
  rfl

/-- Popping nothing changes nothing. -/
theorem pop_zero (fill : α) (stack : List α) : pop fill stack 0 = stack := by
  rw [pop, setTop, if_neg (by decide)]
  apply List.take_of_length_le
  omega

theorem pop_append (fill : α) (stack values : List α) :
    pop fill (stack ++ values) values.length = stack := by
  rw [pop, setTop, if_neg (by omega)]
  have hsize : ((stack ++ values).length + (-(values.length : Int) - 1) + 1).toNat =
      stack.length := by
    rw [List.length_append]
    omega
  rw [hsize, List.take_left]

theorem pop_one (fill : α) (stack : List α) (value : α) : pop fill (stack ++ [value]) 1 = stack :=
  pop_append fill stack [value]

theorem store_top (stack : List α) (old value : α) :
    store (stack ++ [old]) (-1) value = stack ++ [value] := by
  simp only [store, slot_top, List.set_append_right _ _ (Nat.le_refl _), Nat.sub_self,
    List.set_cons_zero]

end ValueStack

end SlurmSpank.Foundation
