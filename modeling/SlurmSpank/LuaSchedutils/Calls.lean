import SlurmSpank.LuaSchedutils.MethodSteps

/-! # What is expected of a call

A call of a method should either convert all of its arguments and have the result that the sets
have, or fail and leave the sets as they were. Where a method uses an argument before it has
converted the next one, or does not test a conversion, this depends on the arguments.
-/

namespace SlurmSpank.LuaSchedutils

open Foundation Lib

variable {Num : Type}

/-! ## All or nothing -/

/-- The CPU that an argument stands for. -/
def cpuOf (num : NumberOps Num) : Value Num → Option Int
  | .number n => some (num.toInt n)
  | .string s => (num.parse s).map num.toInt
  | _ => none

/-- The sets that were there are as they were, but for one. -/
def KeptBut (ref next : Nat) (before after : Nat → CpuSet) : Prop :=
  ∀ other < next, other ≠ ref → after other = before other

/-- The argument converts to a set. -/
def Conversion.IsSet : Conversion → Prop
  | set _ => True
  | _ => False

/-- The conversion fails, with a message or with a Lua error. -/
def Conversion.Fails : Conversion → Prop
  | message _ => True
  | error => True
  | _ => False

section Expected

variable (num : NumberOps Num) (memory : Nat → CpuSet) (next : Nat) (args values : List (Value Num))
  (after : Nat → CpuSet)

/-- The first argument gets the CPUs that the operation makes of all sets, and is returned. -/
def AccumulatesTo (op : CpuSet → CpuSet → CpuSet) : Prop :=
  ∃ first rest set sets ref, args = first :: rest ∧ conversion num memory first = .set set ∧
    rest.map (conversion num memory) = List.map .set sets ∧ IsSetOf next ref first ∧
    values = [.userdata ref] ∧ after ref = sets.foldl op set ∧ KeptBut ref next memory after

/-- The first two sets have the result. -/
def OnPairs (result : CpuSet → CpuSet → List (Value Num) → (Nat → CpuSet) → Prop) : Prop :=
  ∃ set set' rest, args.map (conversion num memory) = .set set :: .set set' :: rest ∧
    (∀ c ∈ rest, c.IsSet) ∧ result set set' values after

/-- The result of `+` and `-` is a new set. -/
def storeResult (op : CpuSet → CpuSet → CpuSet) (set set' : CpuSet) (values : List (Value Num))
    (after : Nat → CpuSet) : Prop :=
  ∃ ref, values = [.userdata ref] ∧ next ≤ ref ∧ after ref = op set set' ∧
    Kept next memory after

/-- The result of a comparison of two sets. -/
def compareResult (test : CpuSet → CpuSet → Bool) (set set' : CpuSet) (values : List (Value Num))
    (after : Nat → CpuSet) : Prop :=
  values = [.boolean (test set set')] ∧ Kept next memory after

/-- The number of CPUs of the first set. -/
def CountsTo : Prop :=
  ∃ set rest, args.map (conversion num memory) = .set set :: rest ∧ (∀ c ∈ rest, c.IsSet) ∧
    values = [.number (num.ofInt set.cpus.card)] ∧ Kept next memory after

/-- The first argument has exactly the CPUs that it should have by what it had and the CPUs
given. Nothing is returned. -/
def WritesTo (has : CpuSet → List Int → Nat → Prop) : Prop :=
  ∃ first rest set cpus ref, args = first :: rest ∧ conversion num memory first = .set set ∧
    rest.map (cpuOf num) = cpus.map some ∧ IsSetOf next ref first ∧ values = [] ∧
    (∀ cpu, cpu ∈ (after ref).cpus ↔ has set cpus cpu) ∧ KeptBut ref next memory after

/-- Every argument converts, and the results and the memory are those of the operation on the
sets. Only the receiver of `union`, `intersect`, `set` and `clr` changes. -/
def Succeeds : Method → Prop
  | .union => AccumulatesTo num memory next args values after CpuSet.union
  | .intersect => AccumulatesTo num memory next args values after CpuSet.inter
  | .add => OnPairs num memory args values after (storeResult memory next CpuSet.union)
  | .subtract => OnPairs num memory args values after (storeResult memory next CpuSet.diff)
  | .equals => OnPairs num memory args values after
      (compareResult memory next fun set set' => decide (set = set'))
  | .isIn => OnPairs num memory args values after
      (compareResult memory next fun set set' => decide (set.cpus ⊆ set'.cpus))
  | .contains => OnPairs num memory args values after
      (compareResult memory next fun set set' => decide (set'.cpus ⊆ set.cpus))
  | .count => CountsTo num memory next args values after
  | .set => WritesTo num memory next args values after fun set cpus cpu =>
      cpu ∈ set.cpus ∨ cpu < cpuSetSize ∧ (cpu : Int) ∈ cpus
  | .delete => WritesTo num memory next args values after fun set cpus cpu =>
      cpu ∈ set.cpus ∧ (cpu : Int) ∉ cpus

end Expected

/-- A call succeeds, or it fails with `nil` and a message or with a Lua error and changes
nothing. -/
@[irreducible] def AllOrNothing (num : NumberOps Num) (method : Method) (memory : Nat → CpuSet)
    (next : Nat)
    (args : List (Value Num)) : Prop :=
  match method.call num memory next args with
  | .returned values after =>
      Succeeds num memory next args values after method ∨
        (∃ msg, values = [.nil, .string msg]) ∧ Kept next memory after
  | .raised after => Kept next memory after
  | .crashed => False
  | .endless => False

/-! ## When it holds -/

/-- The first of the arguments that is no set fails, and none of the sets in front of it changes
the receiver. -/
def FailsUnchanged (absorbed : CpuSet → Prop) : List Conversion → Prop
  | [] => False
  | .set set :: rest => absorbed set ∧ FailsUnchanged absorbed rest
  | c :: _ => c.Fails

/-- For `union` and `intersect`, with what a receiver absorbs. -/
def AccumulatesSafely (absorbs : CpuSet → CpuSet → Prop) (isSet : Prop) : List Conversion → Prop
  | [] => True
  | .set set :: rest =>
      (∀ c ∈ rest, c.IsSet) ∨ FailsUnchanged (fun other => isSet → absorbs set other) rest
  | c :: _ => c.Fails

/-- What a method of two sets makes of its arguments: it fails and changes nothing, it works on
the first two, or it does harm. -/
inductive Verdict where
  | harmless
  | proper
  | harmful

/-- For `+`. -/
def addVerdict : List Conversion → Verdict
  | .set _ :: .set _ :: _ => .proper
  | [] | .error :: _ | .message _ :: _ => .harmless
  | .set _ :: .error :: _ | .set _ :: .message _ :: _ => .harmless
  | _ => .harmful

/-- For `-`, which goes on when the first argument fails with a message. -/
def subtractVerdict : List Conversion → Verdict
  | .set _ :: .set _ :: _ => .proper
  | [] | .error :: _ => .harmless
  | .set _ :: .error :: _ | .set _ :: .message _ :: _ => .harmless
  | .message _ :: .error :: _ | .message _ :: .message _ :: _ => .harmless
  | _ => .harmful

/-- For `==` and `is_in`, which test no conversion. -/
def compareVerdict : List Conversion → Verdict
  | .set _ :: .set _ :: _ => .proper
  | [] | .error :: _ | [.set _] => .harmless
  | .set _ :: .error :: _ | .message _ :: .error :: _ => .harmless
  | _ => .harmful

/-- A method of two sets is safe if it fails, or if all arguments convert. -/
def PairSafely (verdict : List Conversion → Verdict) (conversions : List Conversion) : Prop :=
  match verdict conversions with
  | .harmless => True
  | .proper => ∀ c ∈ conversions, c.IsSet
  | .harmful => False

/-- The order in which `contains` hands its arguments to `is_in`. -/
def rotated {α : Type} : List α → List α
  | [] => []
  | a :: rest => rest ++ [a]

/-- For the second set it is the same to be in the third as in the first. -/
def ThirdAsFirst : List Conversion → Prop
  | .set first :: .set second :: .set third :: _ =>
      second.cpus ⊆ third.cpus ↔ second.cpus ⊆ first.cpus
  | _ => True

/-- For `contains`. -/
def ContainsSafely (conversions : List Conversion) : Prop :=
  PairSafely compareVerdict (rotated conversions) ∧
    (compareVerdict (rotated conversions) = .proper → ThirdAsFirst conversions)

/-- For `count`. -/
def CountsSafely : List Conversion → Prop
  | [] | .error :: _ => True
  | .set _ :: rest => ∀ c ∈ rest, c.IsSet
  | _ => False

/-- What holds of the CPUs in front of the first argument that is no number. -/
def CpusInFront (p : Int → Prop) : List (Option Int) → Prop
  | some cpu :: rest => p cpu ∧ CpusInFront p rest
  | _ => True

/-- A CPU does not fit a set. -/
def OutOfRange (cpu : Int) : Prop := ¬ (0 ≤ cpu ∧ cpu < cpuSetSize)

instance (cpu : Int) : Decidable (OutOfRange cpu) :=
  inferInstanceAs (Decidable (¬ (0 ≤ cpu ∧ cpu < cpuSetSize)))

/-- For `set`. -/
def SetsSafely (isSet : Prop) (cpus : List (Option Int)) : Conversion → Prop
  | .set set =>
      (∀ cpu ∈ cpus, cpu.isSome = true) ∨
        CpusInFront (fun cpu => isSet → OutOfRange cpu ∨ cpu.toNat ∈ set.cpus) cpus
  | .message _ => CpusInFront OutOfRange cpus
  | .error => True
  | .endless => False

/-- For `clr`. -/
def DeletesSafely (cpus : List (Option Int)) (c : Conversion) : Prop :=
  c = .error ∨ c.IsSet ∧ ∀ cpu ∈ cpus, cpu.isSome = true

/-- The receiver is a CPU set of the script. -/
def Value.IsUserdata : Value Num → Prop
  | .userdata _ => True
  | _ => False

/-- What keeps a call from doing harm. -/
def Safely (num : NumberOps Num) (memory : Nat → CpuSet) (args : List (Value Num)) :
    Method → Prop
  | .union =>
      AccumulatesSafely (fun set other => other.cpus ⊆ set.cpus)
        (∃ first ∈ args.head?, first.IsUserdata) (args.map (conversion num memory))
  | .intersect =>
      AccumulatesSafely (fun set other => set.cpus ⊆ other.cpus)
        (∃ first ∈ args.head?, first.IsUserdata) (args.map (conversion num memory))
  | .add => PairSafely addVerdict (args.map (conversion num memory))
  | .subtract => PairSafely subtractVerdict (args.map (conversion num memory))
  | .equals => PairSafely compareVerdict (args.map (conversion num memory))
  | .isIn => PairSafely compareVerdict (args.map (conversion num memory))
  | .contains => ContainsSafely (args.map (conversion num memory))
  | .count => CountsSafely (args.map (conversion num memory))
  | .set => ∀ first rest, args = first :: rest →
      SetsSafely first.IsUserdata (rest.map (cpuOf num)) (conversion num memory first)
  | .delete => ∀ first rest, args = first :: rest →
      DeletesSafely (rest.map (cpuOf num)) (conversion num memory first)

end SlurmSpank.LuaSchedutils
