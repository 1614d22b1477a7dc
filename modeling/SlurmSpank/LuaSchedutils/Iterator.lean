import SlurmSpank.Foundation.Sweep
import SlurmSpank.LuaSchedutils.Functions
import SlurmSpank.LuaSchedutils.MethodSteps

/-! # The iterators of `cpu_set`

An iterator is a closure with the set and the CPU to go on from as its upvalues. It reads the set
anew in each call, so a script may change the set, run other iterators over it and call any
function of the module between two calls.
-/

namespace SlurmSpank.LuaSchedutils

open Foundation Lib

variable {Num : Type}

/-- The upvalues of an iterator. -/
structure Closure (Num : Type) where
  setp : Value Num
  bit : Num

/-- `lua_to_cpu_setp` for an upvalue, which is converted in its place. What a failed conversion
leaves is on the stack of the call. -/
def upvalueToCpuSetp (num : NumberOps Num) (v : Value Num) : Lua Num (Option Nat × Value Num) :=
  fun m =>
    match luaToCpuSetpAt num 1 ⟨[v], m.memory, m.next⟩ with
    | .done setp up => .done (setp, up.stack.headD v) ⟨m.stack ++ up.stack.tail, up.memory, up.next⟩
    | .raised up => .raised ⟨m.stack, up.memory, up.next⟩
    | .crashed => .crashed
    | .endless => .endless

/-- The loop of `l_cpu_set_iterator`. A CPU below 0 is in no set. -/
def bitLoop (setp : Option Nat) : Nat → Int → Lua Num Int
  | 0, bit => pure bit
  | turns + 1, bit => do
      let isset ← if 0 ≤ bit then cpuIsset bit.toNat setp else pure false
      if isset then pure bit else bitLoop setp turns (bit + 1)

/-- `l_cpu_set_iterator`. The next CPU is an `int`. -/
def lCpuSetIterator (num : NumberOps Num) (closure : Closure Num) :
    Lua Num (Closure Num × Nat) := do
  let (setp, set) ← upvalueToCpuSetp num closure.setp
  let start := num.toInt closure.bit
  let bit ← bitLoop setp (cpuSetSize - start).toNat start
  push (.number (num.ofInt bit))
  pure (⟨set, num.ofInt (Int.bmod (bit + 1) (2 ^ 32))⟩, if cpuSetSize ≤ bit then 0 else 1)

/-- `l_cpu_set_iterate`. The closure takes the last argument, and there has to be one. -/
def lCpuSetIterate (num : NumberOps Num) : Lua Num (Closure Num) := fun m =>
  match m.stack.getLast? with
  | some v => .done ⟨v, num.ofInt 0⟩ { m with stack := m.stack.dropLast ++ [.other] }
  | none => .crashed

/-! ## Scripts -/

/-- The sets and the iterators of a script. -/
structure Script (Num : Type) where
  memory : Nat → CpuSet
  next : Nat
  iterators : List (Closure Num)

/-- What a script does: it calls a function, makes an iterator or calls one. -/
inductive Action (Num : Type) where
  | call (function : Function) (args : List (Value Num))
  | iterate (args : List (Value Num))
  | next (k : Nat)

/-- What the script gets. -/
inductive Reply (Num : Type) where
  | returned (values : List (Value Num))
  | raised
  deriving DecidableEq

/-- The values on top of the stack. -/
def topValues (n : Nat) (stack : List (Value Num)) : List (Value Num) :=
  stack.drop (stack.length - n)

/-- One action. A call that reads through a null pointer or does not end has no next state. -/
def Script.step (num : NumberOps Num) (s : Script Num) :
    Action Num → Option (Reply Num × Script Num)
  | .call function args =>
      match function.run num ⟨args, s.memory, s.next⟩ with
      | .done n m => some (.returned (topValues n m.stack), ⟨m.memory, m.next, s.iterators⟩)
      | .raised m => some (.raised, ⟨m.memory, m.next, s.iterators⟩)
      | .crashed => none
      | .endless => none
  | .iterate args =>
      match lCpuSetIterate num ⟨args, s.memory, s.next⟩ with
      | .done closure m =>
          some (.returned (topValues 1 m.stack), ⟨m.memory, m.next, s.iterators ++ [closure]⟩)
      | .raised m => some (.raised, ⟨m.memory, m.next, s.iterators⟩)
      | .crashed => none
      | .endless => none
  | .next k =>
      s.iterators[k]?.bind fun closure =>
        match lCpuSetIterator num closure ⟨[], s.memory, s.next⟩ with
        | .done (closure, n) m =>
            some (.returned (topValues n m.stack), ⟨m.memory, m.next, s.iterators.set k closure⟩)
        | .raised m => some (.raised, ⟨m.memory, m.next, s.iterators⟩)
        | .crashed => none
        | .endless => none

/-- An action with the sets that it found and the reply. -/
structure Turn (Num : Type) where
  action : Action Num
  memory : Nat → CpuSet
  reply : Reply Num

/-- The actions of a script one after another. -/
def Script.run (num : NumberOps Num) :
    List (Action Num) → Script Num → Option (List (Turn Num) × Script Num)
  | [], s => some ([], s)
  | action :: rest, s =>
      (s.step num action).bind fun (reply, s') =>
        (Script.run num rest s').map fun (turns, s'') => (⟨action, s.memory, reply⟩ :: turns, s'')

/-- The calls of an iterator. -/
def Turn.isNext (k : Nat) (turn : Turn Num) : Bool :=
  match turn.action with
  | .next j => j = k
  | _ => false

def callsOf (k : Nat) (turns : List (Turn Num)) : List (Turn Num) := turns.filter (Turn.isNext k)

/-! ## One call of an iterator -/

/-- Lua numbers hold the values of an `int`. -/
def HoldsInts (num : NumberOps Num) : Prop :=
  ∀ i : Int, -2 ^ 31 ≤ i → i < 2 ^ 31 → num.toInt (num.ofInt i) = i

theorem bitLoop_spec (ref turns bit : Nat) (m : Machine Num) :
    bitLoop (some ref) turns bit m =
      .done (((List.range' bit turns).find? (m.memory ref).isset).getD (bit + turns) : Nat) m := by
  induction turns generalizing bit with
  | zero => rfl
  | succ turns ih =>
      rw [bitLoop, if_pos (Int.natCast_nonneg bit), Int.toNat_natCast,
        Lua.bind_of_done (cpuIsset_apply bit ref m), List.range'_succ, List.find?_cons]
      cases (m.memory ref).isset bit with
      | true => rfl
      | false =>
          have hnext := ih (bit + 1)
          rw [Nat.cast_succ, Nat.succ_add_eq_add_succ] at hnext
          exact hnext

theorem upvalueToCpuSetp_userdata (num : NumberOps Num) (ref : Nat) (m : Machine Num) :
    upvalueToCpuSetp num (.userdata ref) m = .done (some ref, .userdata ref) m := by
  have hconvert : luaToCpuSetpAt num 1 ⟨[.userdata ref], m.memory, m.next⟩ =
      .done (some ref) ⟨[.userdata ref], m.memory, m.next⟩ := rfl
  rw [upvalueToCpuSetp, hconvert]
  simp only [List.headD_cons, List.tail_cons, List.append_nil]

/-- A CPU is what an iterator returns, if it found one. -/
def iteratorReply (num : NumberOps Num) (found : Option Nat) : Reply Num :=
  .returned (found.toList.map fun cpu => .number (num.ofInt cpu))

/-- A call finds the first CPU from the upvalue on, and leaves the CPU behind it there. When there
is none the upvalue grows all the same. -/
theorem lCpuSetIterator_spec {num : NumberOps Num} (hnum : HoldsInts num) {ref bit : Nat}
    (hbit : bit < 2 ^ 31 - 1) (m : Machine Num) :
    ∃ cpu n, lCpuSetIterator num ⟨.userdata ref, num.ofInt bit⟩ m =
        .done (⟨.userdata ref, num.ofInt (cpu + 1 : Nat)⟩, n) (m.push (.number (num.ofInt cpu))) ∧
      (firstFrom cpuSetSize (m.memory ref).isset bit = some cpu ∧ n = 1 ∨
        firstFrom cpuSetSize (m.memory ref).isset bit = none ∧ n = 0 ∧
          cpu = max bit cpuSetSize) := by
  have hstart : num.toInt (num.ofInt bit) = bit := hnum bit (by omega) (by omega)
  have hturns : ((cpuSetSize : Int) - bit).toNat = cpuSetSize - bit := by omega
  rw [lCpuSetIterator, Lua.bind_of_done (upvalueToCpuSetp_userdata num ref m)]
  simp only [hstart, hturns]
  rw [Lua.bind_of_done (bitLoop_spec ref _ bit m)]
  refine ⟨(firstFrom cpuSetSize (m.memory ref).isset bit).getD (bit + (cpuSetSize - bit)),
    if cpuSetSize ≤ (firstFrom cpuSetSize (m.memory ref).isset bit).getD
      (bit + (cpuSetSize - bit)) then 0 else 1, ?_, ?_⟩
  · have hlt : (firstFrom cpuSetSize (m.memory ref).isset bit).getD
        (bit + (cpuSetSize - bit)) < 2 ^ 31 - 1 := by
      cases hfirst : firstFrom cpuSetSize (m.memory ref).isset bit with
      | none =>
          rw [Option.getD_none, cpuSetSize]
          omega
      | some cpu =>
          have hcpu := (firstFrom_eq_some hfirst).2.1
          rw [cpuSetSize] at hcpu
          rw [Option.getD_some]
          omega
    rw [firstFrom] at hlt ⊢
    rw [Int.bmod_eq_of_le (by omega) (by omega)]
    simp only [Nat.cast_le]
    rfl
  · cases hfirst : firstFrom cpuSetSize (m.memory ref).isset bit with
    | none =>
        refine Or.inr ⟨rfl, ?_, ?_⟩
        · rw [Option.getD_none, if_pos (by omega)]
        · rw [Option.getD_none]
          omega
    | some cpu =>
        refine Or.inl ⟨rfl, ?_⟩
        rw [Option.getD_some, if_neg (Nat.not_le_of_lt (firstFrom_eq_some hfirst).2.1)]

/-! ## Runs -/

section Runs

variable {num : NumberOps Num} {k ref : Nat} {s s' : Script Num}

theorem topValues_push (stack : List (Value Num)) (v : Value Num) :
    topValues 1 (stack ++ [v]) = [v] := by
  rw [topValues, List.length_append, List.length_singleton, Nat.add_sub_cancel, List.drop_left]

theorem topValues_zero (stack : List (Value Num)) : topValues 0 stack = [] := by
  rw [topValues, Nat.sub_zero, List.drop_length]

/-- Nothing but a call of it changes the upvalues of an iterator. -/
theorem step_iterators {action : Action Num} {reply : Reply Num} {closure : Closure Num}
    (hiter : s.iterators[k]? = some closure) (hstep : s.step num action = some (reply, s'))
    (hnot : ∀ turn : Turn Num, turn.action = action → turn.isNext k = false) :
    s'.iterators[k]? = some closure := by
  have hlt : k < s.iterators.length := (List.getElem?_eq_some_iff.mp hiter).1
  cases action with
  | call function args =>
      simp only [Script.step] at hstep
      split at hstep <;> cases hstep <;> exact hiter
  | iterate args =>
      simp only [Script.step] at hstep
      split at hstep
      · cases hstep
        rw [List.getElem?_append_left hlt]
        exact hiter
      · cases hstep
        exact hiter
      · cases hstep
      · cases hstep
  | next j =>
      have hne : j ≠ k := by
        have hfalse := hnot ⟨.next j, s.memory, reply⟩ rfl
        simpa [Turn.isNext] using hfalse
      obtain ⟨other, _, hcall⟩ := Option.bind_eq_some_iff.mp hstep
      split at hcall
      · cases hcall
        rw [List.getElem?_set_ne hne]
        exact hiter
      · cases hcall
        exact hiter
      · cases hcall
      · cases hcall

/-- A call of an iterator over a set. -/
theorem step_next (hnum : HoldsInts num) {bit : Nat} (hbit : bit < 2 ^ 31 - 1)
    {reply : Reply Num} (hiter : s.iterators[k]? = some ⟨.userdata ref, num.ofInt bit⟩)
    (hstep : s.step num (.next k) = some (reply, s')) :
    ∃ cpu : Nat, s'.iterators[k]? = some ⟨.userdata ref, num.ofInt (cpu + 1 : Nat)⟩ ∧
      (firstFrom cpuSetSize (s.memory ref).isset bit = some cpu ∧
          reply = iteratorReply num (some cpu) ∨
        firstFrom cpuSetSize (s.memory ref).isset bit = none ∧
          reply = iteratorReply num none ∧ cpu = max bit cpuSetSize) := by
  have hlt : k < s.iterators.length := (List.getElem?_eq_some_iff.mp hiter).1
  obtain ⟨cpu, n, hcall, hfound⟩ :=
    @lCpuSetIterator_spec Num num hnum ref bit hbit ⟨[], s.memory, s.next⟩
  simp only [Script.step, hiter, Option.bind_some, hcall, Option.some.injEq, Prod.mk.injEq]
    at hstep
  obtain ⟨rfl, rfl⟩ := hstep
  refine ⟨cpu, ?_, ?_⟩
  · rw [List.getElem?_set_self hlt]
  · rcases hfound with ⟨hsome, rfl⟩ | ⟨hnone, rfl, hcpu⟩
    · refine Or.inl ⟨hsome, ?_⟩
      rw [Machine.push, topValues_push]
      rfl
    · refine Or.inr ⟨hnone, ?_, hcpu⟩
      rw [topValues_zero]
      rfl

/-- The calls of an iterator are a sweep over what its set is at each of them. -/
theorem run_sweep (hnum : HoldsInts num) {actions : List (Action Num)}
    {turns : List (Turn Num)} {bit : Nat}
    (hiter : s.iterators[k]? = some ⟨.userdata ref, num.ofInt bit⟩)
    (hrun : s.run num actions = some (turns, s'))
    (hcalls : max bit cpuSetSize + (callsOf k turns).length < 2 ^ 31) :
    (callsOf k turns).map Turn.reply =
      (sweep cpuSetSize bit ((callsOf k turns).map fun turn => (turn.memory ref).isset)).map
        (iteratorReply num) := by
  induction actions generalizing s turns bit with
  | nil =>
      cases hrun
      rfl
  | cons action rest ih =>
      obtain ⟨⟨reply, next⟩, hstep, hrest⟩ := Option.bind_eq_some_iff.mp hrun
      obtain ⟨⟨later, final⟩, hlater, heq⟩ := Option.map_eq_some_iff.mp hrest
      cases heq
      cases hnext : Turn.isNext k ⟨action, s.memory, reply⟩ with
      | false =>
          have hkeeps := step_iterators hiter hstep fun turn haction => by
            rw [Turn.isNext, haction]
            exact hnext
          rw [callsOf, List.filter_cons, hnext, if_neg Bool.false_ne_true] at hcalls ⊢
          exact ih hkeeps hlater hcalls
      | true =>
          have haction : action = .next k := by
            cases action with
            | next j =>
                have hj : j = k := by simpa [Turn.isNext] using hnext
                rw [hj]
            | call function args => cases hnext
            | iterate args => cases hnext
          subst haction
          rw [callsOf, List.filter_cons, hnext, if_pos rfl, List.length_cons] at hcalls
          rw [callsOf, List.filter_cons, hnext, if_pos rfl, List.map_cons, List.map_cons, sweep]
          obtain ⟨cpu, hcursor, hfound⟩ := step_next hnum (by omega) hiter hstep
          rcases hfound with ⟨hsome, rfl⟩ | ⟨hnone, rfl, hcpu⟩
          · have hcpuLt := (firstFrom_eq_some hsome).2.1
            have hlaterCalls := ih hcursor hlater (by rw [callsOf]; omega)
            rw [callsOf] at hlaterCalls
            rw [hsome, List.map_cons, hlaterCalls]
          · have hlaterCalls := ih hcursor hlater (by rw [callsOf]; omega)
            rw [callsOf, sweep_of_le (by omega)] at hlaterCalls
            rw [hnone, List.map_cons, hlaterCalls, sweep_of_le (Nat.le_refl cpuSetSize)]

/-- A new iterator goes on from CPU 0. -/
theorem step_iterate {args : List (Value Num)} {v : Value Num} {reply : Reply Num}
    (hstep : s.step num (.iterate (args ++ [v])) = some (reply, s')) :
    s'.iterators[s.iterators.length]? = some ⟨v, num.ofInt 0⟩ := by
  simp only [Script.step, lCpuSetIterate, List.getLast?_concat, Option.some.injEq,
    Prod.mk.injEq] at hstep
  obtain ⟨_, rfl⟩ := hstep
  exact List.getElem?_concat_length

/-- The calls of a new iterator return CPUs of the set in ascending order, each a CPU of the set
as it is at that call, and nothing after a call that returned nothing. A CPU that is in the set at
every call is returned when the iterator comes to it, whatever the script does between the calls.
After about 2 ^ 31 calls the next CPU no longer fits an `int`. -/
theorem iterator_run (hnum : HoldsInts num) {args : List (Value Num)} {actions : List (Action Num)}
    {turns : List (Turn Num)} (hnew : s.iterators.length = k)
    (hrun : s.run num (.iterate (args ++ [.userdata ref]) :: actions) = some (turns, s'))
    (hcalls : cpuSetSize + (callsOf k turns).length < 2 ^ 31) :
    ∃ results : List (Option Nat),
      (callsOf k turns).map Turn.reply = results.map (iteratorReply num) ∧
      results.Pairwise InOrder ∧
      List.Forall₂ (fun turn result => ∀ cpu ∈ result, cpu ∈ (turn.memory ref).cpus)
        (callsOf k turns) results ∧
      ∀ cpu, (∀ turn ∈ callsOf k turns, cpu ∈ (turn.memory ref).cpus) →
        (∃ result ∈ results, Reaches cpu result) → some cpu ∈ results := by
  obtain ⟨⟨reply, next⟩, hstep, hrest⟩ := Option.bind_eq_some_iff.mp hrun
  obtain ⟨⟨later, final⟩, hlater, heq⟩ := Option.map_eq_some_iff.mp hrest
  cases heq
  have hiter : next.iterators[k]? = some ⟨.userdata ref, num.ofInt 0⟩ := hnew ▸ step_iterate hstep
  -- making the iterator is no call of it
  have hfirst : callsOf k (⟨.iterate (args ++ [.userdata ref]), s.memory, reply⟩ :: later) =
      callsOf k later := rfl
  rw [hfirst] at hcalls ⊢
  have hsweep := @run_sweep Num num k ref next s' hnum actions later 0 hiter hlater
    (by rwa [Nat.zero_max])
  refine ⟨_, hsweep, sweep_inOrder 0 _, ?_, ?_⟩
  · have hhas := @sweep_has cpuSetSize 0
      ((callsOf k later).map fun turn => (turn.memory ref).isset)
    rw [List.forall₂_map_left_iff] at hhas
    exact hhas.imp fun turn result hresult cpu hcpu => CpuSet.isset_eq_true.mp (hresult cpu hcpu)
  · intro cpu hstays hreached
    obtain ⟨result, hresult, hreaches⟩ := hreached
    obtain ⟨turn, hturn⟩ : ∃ turn, turn ∈ callsOf k later := by
      apply List.exists_mem_of_length_pos
      rw [← List.length_map (fun turn : Turn Num => (turn.memory ref).isset),
        ← @sweep_length cpuSetSize 0]
      exact List.length_pos_of_mem hresult
    have hlt : cpu < cpuSetSize := (turn.memory ref).cpus_lt cpu (hstays turn hturn)
    refine mem_sweep_of_reaches (Nat.zero_le cpu) hlt ?_ ⟨result, hresult, hreaches⟩
    intro has hhas
    obtain ⟨other, hother, rfl⟩ := List.mem_map.mp hhas
    exact CpuSet.isset_eq_true.mpr (hstays other hother)

end Runs

theorem holdsInts_intNumbers : HoldsInts intNumbers := fun _ _ _ => rfl

/-- A script with a set of the CPUs 1 and 4. -/
def oneSet : Script Int := ⟨fun _ => (CpuSet.zero.set 1).set 4, 1, []⟩

/-- After CPU 1, CPU 0 is set behind the iterator and CPU 3 in front of it, and CPU 4 is
cleared. -/
def changedOnTheWay : List (Action Int) :=
  [.next 0, .call (.method .set) [.userdata 0, .number 0, .number 3],
    .call (.method .delete) [.userdata 0, .number 4], .next 0, .next 0]

/-- The theorem for a set that changes while it is iterated. -/
theorem iterator_run_changed :
    ∃ turns s', oneSet.run intNumbers (.iterate ([] ++ [.userdata 0]) :: changedOnTheWay) =
        some (turns, s') ∧
      (callsOf 0 turns).map Turn.reply =
        [.returned [.number 1], .returned [.number 3], .returned []] ∧
      ∃ results : List (Option Nat),
        (callsOf 0 turns).map Turn.reply = results.map (iteratorReply intNumbers) ∧
        results.Pairwise InOrder := by
  have hreplies : ∃ r ∈ oneSet.run intNumbers (.iterate ([] ++ [.userdata 0]) :: changedOnTheWay),
      (callsOf 0 r.1).length = 3 ∧ (callsOf 0 r.1).map Turn.reply =
        [.returned [.number 1], .returned [.number 3], .returned []] := by
    decide +kernel
  obtain ⟨⟨turns, s'⟩, hrun, hlength, hreplies⟩ := hreplies
  have hnew : oneSet.iterators.length = 0 := rfl
  have hcalls : cpuSetSize + (callsOf 0 turns).length < 2 ^ 31 := by
    rw [hlength]
    decide
  obtain ⟨results, hresults, horder, _⟩ :=
    iterator_run holdsInts_intNumbers hnew hrun hcalls
  exact ⟨turns, s', hrun, hreplies, results, hresults, horder⟩

end SlurmSpank.LuaSchedutils
