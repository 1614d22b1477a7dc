import SlurmSpank.Lib.List

/-! # The condition stack of the use-env parser

The two bits per frame of `struct cond` and the functions that the grammar's actions call.
A function has no result where the source dereferences the null pointer that `list_peek`
returns for an empty stack.
-/

namespace SlurmSpank.UseEnv

open Lib

/-- `struct cond`. -/
structure Cond where
  val : Bool
  fallthru : Bool
  deriving DecidableEq, Repr

/-- `cond_stack`, the top frame first. -/
abbrev CondStack := List Cond

/-- `cond_create`. -/
def condCreate (v : Bool) : Cond := ⟨v, false⟩

/-- `condition_fallthru_set`. -/
def conditionFallthruSet (stack : CondStack) : Option CondStack :=
  (listPeek stack).map fun c => { c with fallthru := true } :: stack.tail

/-- `condition_fallthru_clear`. -/
def conditionFallthruClear (stack : CondStack) : Option CondStack :=
  (listPeek stack).map fun c => { c with fallthru := false } :: stack.tail

/-- `condition_fallthru`. -/
def conditionFallthru (stack : CondStack) : Option Bool :=
  (listPeek stack).map Cond.fallthru

/-- `condition`. -/
def condition (stack : CondStack) : Option Bool :=
  (listPeek stack).map fun c => c.val && !c.fallthru

/-- `condition_push_val`. -/
def conditionPushVal (val : Bool) (stack : CondStack) : CondStack :=
  listPush stack (condCreate val)

/-- `condition_init`: the initial condition is false in task context. -/
def conditionInit (inTask : Bool) : CondStack :=
  if inTask then conditionPushVal false [] else conditionPushVal true []

/-- `condition_pop`, with the popped value, or nothing where the source logs an error. -/
def conditionPop : CondStack → Option Bool × CondStack
  | [] => (none, [])
  | c :: rest => (some c.val, rest)

/-- `condition_pop_endif`. -/
def conditionPopEndif (stack : CondStack) : Option (Option Bool × CondStack) :=
  let (rv, stack) := conditionPop stack
  (conditionFallthruClear stack).map fun stack => (rv, stack)

/-- `condition_push_if`. -/
def conditionPushIf (val : Bool) (stack : CondStack) : Option CondStack := do
  let stack ← if val then conditionFallthruSet stack else some stack
  some (conditionPushVal val stack)

/-- `condition_push_else`. The popped value is overwritten before it is used. -/
def conditionPushElse (stack : CondStack) : Option CondStack := do
  let (_, stack) := conditionPop stack
  let val := false
  let executing ← condition stack
  let fallthru ← conditionFallthru stack
  let val := if executing && !fallthru then !val else val
  some (conditionPushVal val stack)

/-- `condition_push_else_if`. -/
def conditionPushElseIf (val : Bool) (stack : CondStack) : Option CondStack := do
  let executing ← condition stack
  let fallthru ← conditionFallthru stack
  if !executing || fallthru then some (conditionPushVal false stack)
  else
    let stack ← if val then conditionFallthruSet stack else some stack
    some (conditionPushVal val stack)

/-- `in_task_begin`. -/
def inTaskBegin (inTask : Bool) (stack : CondStack) : CondStack := conditionPushVal inTask stack

/-- `in_task_end`. -/
def inTaskEnd (stack : CondStack) : Option Bool × CondStack := conditionPop stack

/-! ## The functions on a nonempty stack -/

section Frames

variable (c : Cond) (rest : CondStack) (val : Bool)

@[simp] theorem condition_cons : condition (c :: rest) = some (c.val && !c.fallthru) := rfl

@[simp] theorem conditionFallthru_cons : conditionFallthru (c :: rest) = some c.fallthru := rfl

@[simp] theorem conditionPop_cons : conditionPop (c :: rest) = (some c.val, rest) := rfl

@[simp] theorem inTaskBegin_eq : inTaskBegin val rest = ⟨val, false⟩ :: rest := rfl

@[simp] theorem inTaskEnd_cons : inTaskEnd (c :: rest) = (some c.val, rest) := rfl

/-- An `if` records in the enclosing frame whether its own branch is taken. -/
theorem conditionPushIf_cons (hfall : c.fallthru = false) :
    conditionPushIf val (c :: rest) = some (⟨val, false⟩ :: ⟨c.val, val⟩ :: rest) := by
  obtain ⟨v, f⟩ := c
  subst hfall
  cases val <;> rfl

/-- An `else if` takes its branch, and records that, unless an earlier one was taken. -/
theorem conditionPushElseIf_cons (htest : (c.val && !c.fallthru) = false → val = false) :
    conditionPushElseIf val (c :: rest) =
      some (⟨val, false⟩ :: ⟨c.val, c.fallthru || val⟩ :: rest) := by
  obtain ⟨v, f⟩ := c
  cases v <;> cases f <;> cases val <;> first | rfl | simp at htest

/-- In a frame that does not execute, `else if` ignores its test. -/
theorem conditionPushElseIf_idle (hidle : (c.val && !c.fallthru) = false) :
    conditionPushElseIf val (c :: rest) = some (⟨false, false⟩ :: c :: rest) := by
  obtain ⟨v, f⟩ := c
  cases v <;> cases f <;> first | rfl | simp at hidle

theorem conditionPushElse_cons (branch : Cond) :
    conditionPushElse (branch :: c :: rest) =
      some (⟨c.val && !c.fallthru, false⟩ :: c :: rest) := by
  obtain ⟨v, f⟩ := c
  cases v <;> cases f <;> rfl

theorem conditionPopEndif_cons (branch : Cond) :
    conditionPopEndif (branch :: c :: rest) = some (some branch.val, ⟨c.val, false⟩ :: rest) := rfl

end Frames

/-! ## What becomes of the number of frames -/

section Length

variable {stack : CondStack}

theorem condition_of_pos (hpos : 0 < stack.length) :
    ∃ executing, condition stack = some executing := by
  cases stack with
  | nil => exact absurd hpos (Nat.lt_irrefl 0)
  | cons c rest => exact ⟨_, condition_cons c rest⟩

theorem conditionPop_length (hpos : 0 < stack.length) :
    (conditionPop stack).2.length + 1 = stack.length := by
  cases stack with
  | nil => exact absurd hpos (Nat.lt_irrefl 0)
  | cons c rest => rfl

theorem conditionPushIf_length (hpos : 0 < stack.length) (val : Bool) :
    ∃ pushed, conditionPushIf val stack = some pushed ∧ pushed.length = stack.length + 1 := by
  cases stack with
  | nil => exact absurd hpos (Nat.lt_irrefl 0)
  | cons c rest => cases val <;> exact ⟨_, rfl, rfl⟩

theorem conditionPushElseIf_length (hpos : 0 < stack.length) (val : Bool) :
    ∃ pushed, conditionPushElseIf val stack = some pushed ∧
      pushed.length = stack.length + 1 := by
  cases stack with
  | nil => exact absurd hpos (Nat.lt_irrefl 0)
  | cons c rest =>
      by_cases hidle : (c.val && !c.fallthru) = false
      · exact ⟨_, conditionPushElseIf_idle c rest val hidle, rfl⟩
      · exact ⟨_, conditionPushElseIf_cons c rest val (absurd · hidle), rfl⟩

theorem conditionPushElse_length (htwo : 2 ≤ stack.length) :
    ∃ pushed, conditionPushElse stack = some pushed ∧ pushed.length = stack.length := by
  match stack with
  | [] | [_] => simp at htwo
  | branch :: c :: rest => exact ⟨_, conditionPushElse_cons c rest branch, rfl⟩

theorem conditionPopEndif_length (htwo : 2 ≤ stack.length) :
    ∃ rv popped, conditionPopEndif stack = some (rv, popped) ∧
      popped.length + 1 = stack.length := by
  match stack with
  | [] | [_] => simp at htwo
  | branch :: c :: rest => exact ⟨_, _, conditionPopEndif_cons c rest branch, rfl⟩

end Length

end SlurmSpank.UseEnv
