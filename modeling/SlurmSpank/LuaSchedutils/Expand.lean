import SlurmSpank.LuaSchedutils.Iterator

/-! # Expanding a set

`expand` makes a table of the CPUs of a set, or of what a Lua function makes of each. The function
may do anything a script can do, with the set that is expanded as well.
-/

namespace SlurmSpank.LuaSchedutils

open Foundation Lib

variable {Num σ : Type}

/-- The sets, with the state of the script. -/
structure World (Num σ : Type) where
  state : σ
  memory : Nat → CpuSet
  next : Nat

/-- How a call ends that does not return: with a Lua error, or not at all. -/
inductive Stop (Num σ : Type) where
  | raised (w : World Num σ)
  | lost

/-- A Lua function of one argument, with the first value that it returns. -/
abbrev Callback (Num σ : Type) : Type :=
  Value Num → World Num σ → Except (Stop Num σ) (Value Num × World Num σ)

/-- The values of a table from index 1 on. -/
structure Expansion (Num σ : Type) where
  table : List (Value Num)
  world : World Num σ

/-- A nil and a false do not go into the table. -/
def Value.IsEntry : Value Num → Bool
  | .nil => false
  | .boolean b => b
  | _ => true

/-- Call the function, if there is one, and put what it returns into the table. -/
def addEntry (function : Option (Callback Num σ)) (v : Value Num) (e : Expansion Num σ) :
    Except (Stop Num σ) (Expansion Num σ) :=
  (function.elim (.ok (v, e.world)) fun f => f v e.world).bind fun (entry, w) =>
    .ok ⟨if entry.IsEntry then e.table ++ [entry] else e.table, w⟩

/-- The loop of `l_cpu_set_expand`. -/
def expandLoop (num : NumberOps Num) (function : Option (Callback Num σ)) (setp : Option Nat) :
    List Nat → Expansion Num σ → Except (Stop Num σ) (Expansion Num σ)
  | [], e => .ok e
  | i :: rest, e =>
      match setp with
      | none => .error .lost
      | some ref =>
          if (e.world.memory ref).isset i then
            (addEntry function (.number (num.ofInt i)) e).bind (expandLoop num function setp rest)
          else expandLoop num function setp rest e

/-- `l_cpu_set_expand`, with the function that its second argument is, if it is one. -/
def lCpuSetExpand (num : NumberOps Num) (function : Option (Callback Num σ))
    (args : List (Value Num)) (w : World Num σ) : Except (Stop Num σ) (Expansion Num σ) :=
  match luaToCpuSetpAt num 1 ⟨args, w.memory, w.next⟩ with
  | .done setp m => expandLoop num function setp allCpus ⟨[], ⟨w.state, m.memory, m.next⟩⟩
  | .raised m => .error (.raised ⟨w.state, m.memory, m.next⟩)
  | .crashed => .error .lost
  | .endless => .error .lost

/-- A `for` loop over an iterator, in a number of turns. Its body puts what the function returns
into a table as `expand` does. -/
def forLoop (num : NumberOps Num) (function : Option (Callback Num σ)) :
    Nat → Closure Num → Expansion Num σ → Option (Except (Stop Num σ) (Expansion Num σ))
  | 0, _, _ => none
  | turns + 1, closure, e =>
      match lCpuSetIterator num closure ⟨[], e.world.memory, e.world.next⟩ with
      | .done (closure, n) m =>
          let w : World Num σ := ⟨e.world.state, m.memory, m.next⟩
          match topValues n m.stack with
          | [] => some (.ok ⟨e.table, w⟩)
          | v :: _ =>
              match addEntry function v ⟨e.table, w⟩ with
              | .error stop => some (.error stop)
              | .ok e => forLoop num function turns closure e
      | .raised m => some (.error (.raised ⟨e.world.state, m.memory, m.next⟩))
      | .crashed => some (.error .lost)
      | .endless => some (.error .lost)

section Paths

variable {num : NumberOps Num} (function : Option (Callback Num σ)) (ref : Nat)

/-- The set that is expanded, as it is now. -/
def inSet (ref : Nat) (e : Expansion Num σ) (i : Nat) : Bool := (e.world.memory ref).isset i

/-- The entry of a CPU. -/
def addCpu (num : NumberOps Num) (function : Option (Callback Num σ)) (i : Nat)
    (e : Expansion Num σ) : Except (Stop Num σ) (Expansion Num σ) :=
  addEntry function (.number (num.ofInt i)) e

theorem expandLoop_eq_scan (cpus : List Nat) (e : Expansion Num σ) :
    expandLoop num function (some ref) cpus e =
      scan (inSet ref) (addCpu num function) cpus e := by
  induction cpus generalizing e with
  | nil => rfl
  | cons i rest ih =>
      have hrest : expandLoop num function (some ref) rest =
          scan (inSet ref) (addCpu num function) rest := by
        funext later
        exact ih later
      rw [expandLoop, scan, hrest]
      rfl

theorem forLoop_eq_leap (hnum : HoldsInts num) {turns bit : Nat} (hbit : bit ≤ cpuSetSize)
    (e : Expansion Num σ) :
    forLoop num function turns ⟨.userdata ref, num.ofInt bit⟩ e =
      leap (inSet ref) (addCpu num function) cpuSetSize turns bit e := by
  induction turns generalizing bit e with
  | zero => rfl
  | succ turns ih =>
      have hint : bit < 2 ^ 31 - 1 := Nat.lt_of_le_of_lt hbit (by decide)
      obtain ⟨cpu, n, hcall, hfound⟩ := @lCpuSetIterator_spec Num num hnum ref bit hint
        ⟨[], e.world.memory, e.world.next⟩
      rw [forLoop, leap, hcall]
      rcases hfound with ⟨hsome, rfl⟩ | ⟨hnone, rfl, _⟩
      · have hset : firstFrom cpuSetSize (inSet ref e) bit = some cpu := hsome
        have hnext : cpu + 1 ≤ cpuSetSize := (firstFrom_eq_some hsome).2.1
        simp only [hset, Machine.push, topValues_push]
        rw [addCpu]
        cases addEntry function (.number (num.ofInt cpu)) e with
        | error stop => rfl
        | ok next => exact ih hnext next
      · have hset : firstFrom cpuSetSize (inSet ref e) bit = none := hnone
        simp only [hset, topValues_zero]
        rfl

/-- `expand` and a `for` loop over an iterator make the same table and leave the same sets, even
when the function changes the set on the way or fails. -/
theorem expand_eq_forLoop (hnum : HoldsInts num) (args : List (Value Num)) (w : World Num σ)
    {turns : Nat} (hturns : cpuSetSize < turns) :
    forLoop num function turns ⟨.userdata ref, num.ofInt 0⟩ ⟨[], w⟩ =
      some (lCpuSetExpand num function (.userdata ref :: args) w) := by
  have hconvert : luaToCpuSetpAt num 1 ⟨.userdata ref :: args, w.memory, w.next⟩ =
      .done (some ref) ⟨.userdata ref :: args, w.memory, w.next⟩ := rfl
  have hloop := @forLoop_eq_leap Num σ num function ref hnum turns 0 (Nat.zero_le _) ⟨[], w⟩
  rw [leap_eq_scan _ _ hturns, ← expandLoop_eq_scan] at hloop
  rw [lCpuSetExpand, hconvert]
  exact hloop

end Paths

/-- A function that clears the next CPU, and returns the CPU doubled. -/
def doubleAndClearNext : Callback Int Unit
  | .number n, w =>
      .ok (.number (2 * n), { w with
        memory := fun ref => if ref = 0 then (w.memory 0).clear (n + 1).toNat else w.memory ref })
  | v, w => .ok (v, w)

/-- The theorem for a function that changes the set. -/
theorem expand_eq_forLoop_changing :
    forLoop intNumbers (some doubleAndClearNext) 1025 ⟨.userdata 0, intNumbers.ofInt 0⟩
        ⟨[], ⟨(), fun _ => ((CpuSet.zero.set 2).set 3).set 5, 1⟩⟩ =
      some (lCpuSetExpand intNumbers (some doubleAndClearNext) [.userdata 0]
        ⟨(), fun _ => ((CpuSet.zero.set 2).set 3).set 5, 1⟩) :=
  expand_eq_forLoop (some doubleAndClearNext) 0 holdsInts_intNumbers [] _ (by decide)

end SlurmSpank.LuaSchedutils
