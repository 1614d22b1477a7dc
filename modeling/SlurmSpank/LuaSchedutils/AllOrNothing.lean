import SlurmSpank.LuaSchedutils.Accumulation

/-! # Calls that do all or nothing

`set` and `clr` write a CPU for each argument before they read the next one. With them, every
method is all or nothing exactly where it is safe.
-/

namespace SlurmSpank.LuaSchedutils

open Foundation Lib

variable {Num : Type}

section Writes

variable {num : NumberOps Num} {cpuAt : Nat → Lua Num Int} {write : Int → Option Nat → Lua Num Unit}
  {read : Value Num → Option Int} {change : Int → CpuSet → CpuSet} {memory : Nat → CpuSet}
  {next ref : Nat} {own : CpuSet}

/-- What one turn of the loop of `set` or `clr` does. -/
structure Writes (cpuAt : Nat → Lua Num Int) (write : Int → Option Nat → Lua Num Unit)
    (read : Value Num → Option Int) (change : Int → CpuSet → CpuSet) : Prop where
  read_some : ∀ m slot v cpu, m.stack[slot]? = some v → read v = some cpu →
    cpuAt (slot + 1) m = .done cpu m
  read_none : ∀ m slot v, m.stack[slot]? = some v → read v = none →
    cpuAt (slot + 1) m = .raised m
  spec : ∀ cpu ref m, write cpu (some ref) m = .done () (m.write ref (change cpu (m.memory ref)))
  null : ∀ cpu m, ¬ OutOfRange cpu → write cpu none m = .crashed
  skip : ∀ cpu m, OutOfRange cpu → write cpu none m = .done () m

/-- How the loop ends with a value of the receiver so far, by the CPUs that are left. -/
def WriteEnds (change : Int → CpuSet → CpuSet) (memory : Nat → CpuSet) (next ref : Nat)
    (outcome : Outcome Num) : CpuSet → List (Option Int) → Prop
  | current, [] => ∃ after, outcome = .returned [] after ∧ after ref = current ∧
      KeptBut ref next memory after
  | current, some cpu :: rest => WriteEnds change memory next ref outcome (change cpu current) rest
  | current, none :: _ => ∃ after, outcome = .raised after ∧ after ref = current ∧
      KeptBut ref next memory after

theorem writeLoop_ends (hwrites : Writes cpuAt write read change) (memory : Nat → CpuSet)
    {front rest : List (Value Num)} {m : Machine Num} (hstack : m.stack = front ++ rest)
    (hkept : KeptBut ref next memory m.memory) :
    WriteEnds change memory next ref
      (writeLoop cpuAt write (some ref) (List.range' (front.length + 1) rest.length) m).outcome
      (m.memory ref) (rest.map read) := by
  induction rest generalizing front m with
  | nil =>
      refine ⟨m.memory, ?_, rfl, hkept⟩
      rw [List.length_nil, List.range'_zero, writeLoop, Lua.pure_apply, Result.outcome]
      simp
  | cons v rest ih =>
      have hslot : m.stack[front.length]? = some v := by
        rw [hstack, List.getElem?_append_right (Nat.le_refl _)]
        simp
      rw [List.length_cons, List.range'_succ, writeLoop, List.map_cons]
      cases hread : read v with
      | none =>
          rw [Lua.bind_of_raised (hwrites.read_none m front.length v hslot hread)]
          exact ⟨m.memory, rfl, rfl, hkept⟩
      | some cpu =>
          rw [Lua.bind_of_done (hwrites.read_some m front.length v cpu hslot hread),
            Lua.bind_of_done (hwrites.spec cpu ref m)]
          have hstack' :
              (m.write ref (change cpu (m.memory ref))).stack = (front ++ [v]) ++ rest := by
            rw [Machine.write_stack, hstack, List.append_assoc, List.singleton_append]
          have hkept' :
              KeptBut ref next memory (m.write ref (change cpu (m.memory ref))).memory := by
            intro other hlt hne
            rw [Machine.write_of_ne m hne]
            exact hkept other hlt hne
          have hends := ih hstack' hkept'
          rw [List.length_append, List.length_singleton, Machine.write_self] at hends
          exact hends

/-- How the loop ends without a receiver, as far as the CPUs in a list tell. -/
def NullEnds (result : Result Num Nat) (m : Machine Num) : List (Option Int) → Prop
  | [] => True
  | none :: _ => result = .raised m
  | some cpu :: rest =>
      OutOfRange cpu ∧ NullEnds result m rest ∨ ¬ OutOfRange cpu ∧ result = .crashed

theorem writeLoop_null (hwrites : Writes cpuAt write read change) (front rest : List (Value Num))
    {m : Machine Num} (hstack : m.stack = front ++ rest) :
    NullEnds (writeLoop cpuAt write none (List.range' (front.length + 1) rest.length) m) m
      (rest.map read) := by
  induction rest generalizing front with
  | nil => trivial
  | cons v rest ih =>
      have hslot : m.stack[front.length]? = some v := by
        rw [hstack, List.getElem?_append_right (Nat.le_refl _)]
        simp
      rw [List.length_cons, List.range'_succ, writeLoop, List.map_cons]
      cases hread : read v with
      | none => exact Lua.bind_of_raised (hwrites.read_none m front.length v hslot hread) _
      | some cpu =>
          rw [Lua.bind_of_done (hwrites.read_some m front.length v cpu hslot hread)]
          by_cases hcpu : OutOfRange cpu
          · rw [Lua.bind_of_done (hwrites.skip cpu m hcpu)]
            have hstack' : m.stack = (front ++ [v]) ++ rest := by
              rw [hstack, List.append_assoc, List.singleton_append]
            have hends := ih (front ++ [v]) hstack'
            rw [List.length_append, List.length_singleton] at hends
            exact Or.inl ⟨hcpu, hends⟩
          · exact Or.inr ⟨hcpu, Lua.bind_of_crashed (hwrites.null cpu m hcpu) _⟩

/-- The loop raises an error at an argument that is no number if no CPU in front is in range. -/
theorem NullEnds.of_none {result : Result Num Nat} {m : Machine Num} {cpus more : List (Option Int)}
    (hends : NullEnds result m (cpus ++ none :: more)) :
    CpusInFront OutOfRange cpus ∧ result = .raised m ∨
      ¬ CpusInFront OutOfRange cpus ∧ result = .crashed := by
  induction cpus with
  | nil => exact Or.inl ⟨trivial, hends⟩
  | cons cpu cpus ih =>
      cases cpu with
      | none => exact Or.inl ⟨trivial, hends⟩
      | some cpu =>
          rcases hends with ⟨hcpu, hrest⟩ | ⟨hcpu, hcrash⟩
          · rcases ih hrest with ⟨hfront, hraised⟩ | ⟨hfront, hcrash⟩
            · exact Or.inl ⟨⟨hcpu, hfront⟩, hraised⟩
            · exact Or.inr ⟨fun h => hfront h.2, hcrash⟩
          · exact Or.inr ⟨fun h => hcpu h.1, hcrash⟩

/-- When every argument counts as a number, a CPU in range is reached. -/
theorem NullEnds.of_some {result : Result Num Nat} {m : Machine Num} {cpus : List Int}
    {cpu : Int} {more : List (Option Int)} (hcpu : ¬ OutOfRange cpu)
    (hends : NullEnds result m (cpus.map some ++ some cpu :: more)) : result = .crashed := by
  induction cpus with
  | nil =>
      rcases hends with ⟨hout, _⟩ | ⟨_, hcrash⟩
      · exact absurd hout hcpu
      · exact hcrash
  | cons first cpus ih =>
      rcases hends with ⟨_, hrest⟩ | ⟨_, hcrash⟩
      · exact ih hrest
      · exact hcrash

end Writes

/-- The CPU that `lua_tonumber` makes of an argument. -/
def cpuOrZero (num : NumberOps Num) (v : Value Num) : Option Int := some ((cpuOf num v).getD 0)

/-- A CPU in range is put in. -/
def putIn (cpu : Int) (set : CpuSet) : CpuSet :=
  if OutOfRange cpu then set else set.set cpu.toNat

/-- A CPU in range is taken out. -/
def takeOut (cpu : Int) (set : CpuSet) : CpuSet :=
  if OutOfRange cpu then set else set.clear cpu.toNat

theorem set_writes (num : NumberOps Num) : Writes (checkNumber num) cpuSet (cpuOf num) putIn where
  read_some m slot v cpu hslot hread := by
    have hvalue : valueAt (slot + 1) m = .done (some v) m := by
      rw [valueAt, Nat.add_sub_cancel, hslot]
    rw [checkNumber, Lua.bind_of_done hvalue]
    cases v with
    | number n =>
        cases hread
        rfl
    | string s =>
        obtain ⟨n, hparse, hn⟩ := Option.map_eq_some_iff.mp hread
        simp only [hparse]
        rw [hn]
        rfl
    | _ => cases hread
  read_none m slot v hslot hread := by
    have hvalue : valueAt (slot + 1) m = .done (some v) m := by
      rw [valueAt, Nat.add_sub_cancel, hslot]
    rw [checkNumber, Lua.bind_of_done hvalue]
    cases v with
    | number n => cases hread
    | string s =>
        have hparse : num.parse s = none := Option.map_eq_none_iff.mp hread
        simp only [hparse]
        rfl
    | _ => rfl
  spec cpu ref m := by
    by_cases hcpu : OutOfRange cpu
    · rw [cpuSet, if_neg hcpu, putIn, if_pos hcpu, Machine.write_memory]
      rfl
    · rw [cpuSet, if_pos (Classical.not_not.mp hcpu), putIn, if_neg hcpu]
      rfl
  null cpu m hcpu := by
    rw [cpuSet, if_pos (Classical.not_not.mp hcpu)]
    rfl
  skip cpu m hcpu := by
    rw [cpuSet, if_neg hcpu]
    rfl

theorem delete_writes (num : NumberOps Num) :
    Writes (toNumber num) cpuClr (cpuOrZero num) takeOut where
  read_some m slot v cpu hslot hread := by
    have hvalue : valueAt (slot + 1) m = .done (some v) m := by
      rw [valueAt, Nat.add_sub_cancel, hslot]
    rw [toNumber, Lua.bind_of_done hvalue, ← Option.some_inj.mp hread]
    cases v with
    | string s =>
        rw [cpuOf]
        cases hparse : num.parse s with
        | none =>
            simp only [hparse]
            rfl
        | some n =>
            simp only [hparse]
            rfl
    | _ => rfl
  read_none m slot v _ hread := by cases hread
  spec cpu ref m := by
    by_cases hcpu : OutOfRange cpu
    · rw [cpuClr, if_neg hcpu, takeOut, if_pos hcpu, Machine.write_memory]
      rfl
    · rw [cpuClr, if_pos (Classical.not_not.mp hcpu), takeOut, if_neg hcpu]
      rfl
  null cpu m hcpu := by
    rw [cpuClr, if_pos (Classical.not_not.mp hcpu)]
    rfl
  skip cpu m hcpu := by
    rw [cpuClr, if_neg hcpu]
    rfl

section Receiver

variable {num : NumberOps Num} {cpuAt : Nat → Lua Num Int} {write : Int → Option Nat → Lua Num Unit}
  {read : Value Num → Option Int} {change : Int → CpuSet → CpuSet} {memory : Nat → CpuSet}
  {next ref : Nat} {own : CpuSet}

/-- `set` or `clr`, with what reads a CPU and what writes its bit. -/
def writeAll (num : NumberOps Num) (cpuAt : Nat → Lua Num Int)
    (write : Int → Option Nat → Lua Num Unit) : Lua Num Nat := do
  let setp ← luaToCpuSetpAt num 1
  let nargs ← getTop
  writeLoop cpuAt write setp (laterIndexes nargs)

/-- What `set` and `clr` do, by the conversion of the receiver. Without a receiver, what its
conversion left on the stack counts as arguments. -/
theorem writeAll_ends (num : NumberOps Num) (memory : Nat → CpuSet)
    (hwrites : Writes cpuAt write read change)
    {first : Value Num} (rest : List (Value Num)) (hvalid : Valid next first) :
    match conversion num memory first with
    | .set set => ∃ ref, IsSetOf next ref first ∧ (ref < next → memory ref = set) ∧
        WriteEnds change memory next ref
          (writeAll num cpuAt write ⟨first :: rest, memory, next⟩).outcome set (rest.map read)
    | .message msg => ∃ m, m.memory = memory ∧
        NullEnds (writeAll num cpuAt write ⟨first :: rest, memory, next⟩) m
          (rest.map read ++ read (.userdata next) :: [read .nil, read (.string msg)])
    | .error =>
        (writeAll num cpuAt write ⟨first :: rest, memory, next⟩).outcome.FailsKept next memory
    | .endless => writeAll num cpuAt write ⟨first :: rest, memory, next⟩ = .endless := by
  have hfirst := luaToCpuSetpAt_first num memory rest hvalid
  rw [writeAll]
  cases hconv : conversion num memory first with
  | endless =>
      rw [hconv] at hfirst
      exact Lua.bind_of_endless hfirst _
  | error =>
      rw [hconv] at hfirst
      obtain ⟨m, hraised, hmemory⟩ := hfirst
      rw [Lua.bind_of_raised hraised]
      exact failsKept_of_raised hmemory
  | message msg =>
      rw [hconv] at hfirst
      have htop : ∀ m : Machine Num, getTop m = .done m.stack.length m := fun m => rfl
      rw [Lua.bind_of_done hfirst, Lua.bind_of_done (htop _)]
      have hends := writeLoop_null hwrites [first] (rest ++ [.userdata next, .nil, .string msg])
        (m := ⟨first :: rest ++ [.userdata next, .nil, .string msg], memory, next + 1⟩) rfl
      rw [List.map_append] at hends
      exact ⟨_, rfl, hends⟩
  | set set =>
      rw [hconv] at hfirst
      obtain ⟨ref, m, hdone, hconverted⟩ := hfirst
      have htop : getTop m = .done m.stack.length m := rfl
      have hstack : m.stack = [.userdata ref] ++ rest := hconverted.stack
      have hlength : laterIndexes m.stack.length = List.range' 2 rest.length := by
        rw [hstack]
        rfl
      have hends := writeLoop_ends hwrites memory hstack
        (fun other hlt (_ : other ≠ ref) => hconverted.kept other hlt)
      rw [hconverted.value] at hends
      refine ⟨ref, hconverted.isSetOf, fun hlt => ?_, ?_⟩
      · rw [← hconverted.value, hconverted.kept ref hlt]
      · rw [Lua.bind_of_done hdone, Lua.bind_of_done htop, hlength]
        exact hends

theorem WriteEnds.of_cpus {outcome : Outcome Num} {current : CpuSet} {cpus : List Int}
    (hends : WriteEnds change memory next ref outcome current (cpus.map some)) :
    ∃ after, outcome = .returned [] after ∧
      after ref = cpus.foldl (fun set cpu => change cpu set) current ∧
      KeptBut ref next memory after := by
  induction cpus generalizing current with
  | nil => exact hends
  | cons cpu cpus ih => exact ih hends

theorem mem_putIn {cpu : Int} {set : CpuSet} {other : Nat} :
    other ∈ (putIn cpu set).cpus ↔ other ∈ set.cpus ∨ other < cpuSetSize ∧ (other : Int) = cpu := by
  rw [putIn]
  split
  next hout =>
    refine (or_iff_left ?_).symm
    rintro ⟨hlt, rfl⟩
    exact hout ⟨Int.natCast_nonneg other, Int.ofNat_lt.mpr hlt⟩
  next hin =>
    obtain ⟨hnonneg, hlt⟩ := Classical.not_not.mp hin
    rw [CpuSet.set_cpus (by omega), Finset.mem_insert, or_comm]
    constructor
    · exact Or.imp_right fun heq => ⟨by omega, by omega⟩
    · exact Or.imp_right fun heq => by omega

theorem mem_takeOut {cpu : Int} {set : CpuSet} {other : Nat} :
    other ∈ (takeOut cpu set).cpus ↔ other ∈ set.cpus ∧ (other : Int) ≠ cpu := by
  rw [takeOut]
  split
  next hout =>
    refine (and_iff_left_of_imp fun hmem heq => hout ?_).symm
    exact heq ▸ ⟨Int.natCast_nonneg other, Int.ofNat_lt.mpr (set.cpus_lt other hmem)⟩
  next hin =>
    obtain ⟨hnonneg, hlt⟩ := Classical.not_not.mp hin
    rw [CpuSet.clear, Finset.mem_erase, and_comm]
    exact and_congr_right fun _ => not_congr (by omega)

theorem mem_foldl_putIn (cpus : List Int) (set : CpuSet) (other : Nat) :
    other ∈ (cpus.foldl (fun set cpu => putIn cpu set) set).cpus ↔
      other ∈ set.cpus ∨ other < cpuSetSize ∧ (other : Int) ∈ cpus := by
  induction cpus generalizing set with
  | nil => simp
  | cons cpu cpus ih =>
      rw [List.foldl_cons, ih, mem_putIn, List.mem_cons, or_assoc, ← and_or_left]

theorem mem_foldl_takeOut (cpus : List Int) (set : CpuSet) (other : Nat) :
    other ∈ (cpus.foldl (fun set cpu => takeOut cpu set) set).cpus ↔
      other ∈ set.cpus ∧ (other : Int) ∉ cpus := by
  induction cpus generalizing set with
  | nil => simp
  | cons cpu cpus ih =>
      rw [List.foldl_cons, ih, mem_takeOut, List.mem_cons, not_or, and_assoc]

/-- A set with all CPUs of another stays that set when the CPU is there already. -/
theorem putIn_eq_iff {cpu : Int} {current : CpuSet} (howned : own.cpus ⊆ current.cpus) :
    putIn cpu current = own ↔ current = own ∧ (OutOfRange cpu ∨ cpu.toNat ∈ own.cpus) := by
  have hmem : ∀ other, other ∈ (putIn cpu current).cpus ↔
      other ∈ current.cpus ∨ other < cpuSetSize ∧ (other : Int) = cpu := fun _ => mem_putIn
  constructor
  · intro heq
    rw [heq] at hmem
    have hcurrent : current.cpus ⊆ own.cpus := fun other h => (hmem other).mpr (Or.inl h)
    refine ⟨CpuSet.ext (hcurrent.antisymm howned), Classical.or_iff_not_imp_left.mpr fun hin => ?_⟩
    obtain ⟨hnonneg, hlt⟩ := Classical.not_not.mp hin
    exact (hmem cpu.toNat).mpr (Or.inr ⟨by omega, Int.toNat_of_nonneg hnonneg⟩)
  · rintro ⟨rfl, hcpu⟩
    apply CpuSet.ext
    ext other
    rw [hmem]
    refine or_iff_left_of_imp ?_
    rintro ⟨hlt, heq⟩
    rcases hcpu with hout | hown
    · exact absurd ⟨by omega, by omega⟩ hout
    · rwa [← heq, Int.toNat_natCast] at hown

/-- When an argument of `set` is no number, the call fails and changes nothing exactly when the
receiver had the CPUs in front of it. -/
theorem set_failsKept_iff {outcome : Outcome Num} {current : CpuSet} {cpus : List (Option Int)}
    (hends : WriteEnds putIn memory next ref outcome current cpus)
    (hnot : ¬ ∀ cpu ∈ cpus, cpu.isSome = true) (howned : own.cpus ⊆ current.cpus)
    (hinitial : ref < next → memory ref = own) :
    outcome.FailsKept next memory ↔ (ref < next → current = own) ∧
      CpusInFront (fun cpu => ref < next → OutOfRange cpu ∨ cpu.toNat ∈ own.cpus) cpus := by
  induction cpus generalizing current with
  | nil => exact absurd (fun c hc => absurd hc List.not_mem_nil) hnot
  | cons cpu cpus ih =>
      cases cpu with
      | none =>
          obtain ⟨after, rfl, hvalue, hkept⟩ := hends
          rw [Outcome.FailsKept, kept_iff hvalue hkept hinitial]
          exact ⟨fun h => ⟨h, trivial⟩, fun h => h.1⟩
      | some cpu =>
          have hrest : ¬ ∀ cpu ∈ cpus, cpu.isSome = true := fun hall =>
            hnot (List.forall_mem_cons.mpr ⟨rfl, hall⟩)
          have howned' : own.cpus ⊆ (putIn cpu current).cpus := fun other hmem =>
            mem_putIn.mpr (Or.inl (howned hmem))
          rw [ih hends hrest howned', putIn_eq_iff howned, CpusInFront, imp_and, and_assoc]

theorem forall_isSome_iff (cpus : List (Option Int)) :
    (∀ cpu ∈ cpus, cpu.isSome = true) ↔ ∃ all : List Int, cpus = all.map some := by
  constructor
  · intro hall
    induction cpus with
    | nil => exact ⟨[], rfl⟩
    | cons cpu cpus ih =>
        obtain ⟨hcpu, hrest⟩ := List.forall_mem_cons.mp hall
        obtain ⟨all, rfl⟩ := ih hrest
        obtain ⟨value, rfl⟩ := Option.isSome_iff_exists.mp hcpu
        exact ⟨value :: all, rfl⟩
  · rintro ⟨all, rfl⟩ cpu hcpu
    obtain ⟨value, _, rfl⟩ := List.mem_map.mp hcpu
    rfl

/-- With a receiver and other arguments, safety is a matter of these. -/
theorem forall_cons_iff {α : Type} {p : α → List α → Prop} (first : α) (rest : List α) :
    (∀ a l, first :: rest = a :: l → p a l) ↔ p first rest := by
  constructor
  · exact fun hall => hall first rest rfl
  · rintro hp _ _ ⟨⟩
    exact hp

/-- The calls of `set` and `clr` with no arguments. -/
theorem writeAll_nil (num : NumberOps Num) (memory : Nat → CpuSet) (next : Nat) :
    (writeAll num cpuAt write ⟨[], memory, next⟩).outcome.FailsKept next memory := by
  rw [writeAll, Lua.bind_of_raised (luaToCpuSetpAt_none num (Nat.le_refl 0))]
  exact Kept.refl next memory

theorem set_allOrNothing {args : List (Value Num)} (hvalid : ∀ v ∈ args, Valid next v) :
    AllOrNothing num .set memory next args ↔ Safely num memory args .set := by
  have hcall : Method.set.call num memory next args =
      (writeAll num (checkNumber num) cpuSet ⟨args, memory, next⟩).outcome := rfl
  cases args with
  | nil =>
      refine iff_of_true (.of_failsKept (hcall ▸ writeAll_nil num memory next)) ?_
      rintro _ _ ⟨⟩
  | cons first rest =>
      have hfirst := hvalid first List.mem_cons_self
      have hends := writeAll_ends num memory (set_writes num) rest hfirst
      rw [Safely, forall_cons_iff]
      cases hconv : conversion num memory first with
      | endless =>
          rw [hconv] at hends
          rw [hends] at hcall
          exact iff_of_false (not_allOrNothing_of_isLost (hcall ▸ trivial)) id
      | error =>
          rw [hconv, ← hcall] at hends
          exact iff_of_true (.of_failsKept hends) trivial
      | message msg =>
          rw [hconv] at hends
          obtain ⟨m, hmemory, hnull⟩ := hends
          -- the set that the conversion left on the stack is no number
          rcases NullEnds.of_none hnull with ⟨hfront, hraised⟩ | ⟨hfront, hcrash⟩
          · rw [hraised] at hcall
            exact iff_of_true (.of_failsKept (hcall ▸ failsKept_of_raised hmemory)) hfront
          · rw [hcrash] at hcall
            exact iff_of_false (not_allOrNothing_of_isLost (hcall ▸ trivial)) hfront
      | set set =>
          rw [hconv, ← hcall] at hends
          obtain ⟨ref, hsetOf, hinitial, hends⟩ := hends
          rw [SetsSafely, isUserdata_iff hsetOf hfirst]
          by_cases hall : ∀ cpu ∈ rest.map (cpuOf num), cpu.isSome = true
          · obtain ⟨cpus, hcpus⟩ := (forall_isSome_iff _).mp hall
            rw [hcpus] at hends
            obtain ⟨after, hreturned, hvalue, hkept⟩ := hends.of_cpus
            rw [allOrNothing_iff_succeeds hreturned (Nat.zero_le 1)]
            refine iff_of_true ?_ (Or.inl hall)
            refine ⟨first, rest, set, cpus, ref, rfl, hconv, hcpus, hsetOf, rfl, ?_, hkept⟩
            intro cpu
            rw [hvalue]
            exact mem_foldl_putIn cpus set cpu
          · rw [allOrNothing_iff_failsKept, set_failsKept_iff hends hall (Finset.Subset.refl _)
              hinitial]
            · constructor
              · exact fun h => Or.inr h.2
              · exact fun h => ⟨fun _ => rfl, h.resolve_left hall⟩
            · rintro values after ⟨_, _, _, cpus, _, hargs, _, hcpus, _⟩
              cases hargs
              exact hall ((forall_isSome_iff _).mpr ⟨cpus, hcpus⟩)

theorem delete_allOrNothing {args : List (Value Num)} (hvalid : ∀ v ∈ args, Valid next v) :
    AllOrNothing num .delete memory next args ↔ Safely num memory args .delete := by
  have hcall : Method.delete.call num memory next args =
      (writeAll num (toNumber num) cpuClr ⟨args, memory, next⟩).outcome := rfl
  cases args with
  | nil =>
      refine iff_of_true (.of_failsKept (hcall ▸ writeAll_nil num memory next)) ?_
      rintro _ _ ⟨⟩
  | cons first rest =>
      have hfirst := hvalid first List.mem_cons_self
      have hends := writeAll_ends num memory (delete_writes num) rest hfirst
      -- every argument counts as a number
      have hcpus : rest.map (cpuOrZero num) =
          (rest.map fun v => (cpuOf num v).getD 0).map some := by
        rw [List.map_map]
        rfl
      rw [Safely, forall_cons_iff, DeletesSafely]
      cases hconv : conversion num memory first with
      | endless =>
          rw [hconv] at hends
          rw [hends] at hcall
          exact iff_of_false (not_allOrNothing_of_isLost (hcall ▸ trivial))
            (by simp [Conversion.IsSet])
      | error =>
          rw [hconv, ← hcall] at hends
          exact iff_of_true (.of_failsKept hends) (Or.inl rfl)
      | message msg =>
          rw [hconv, hcpus] at hends
          obtain ⟨m, _, hnull⟩ := hends
          have hzero : ¬ OutOfRange 0 := by decide
          rw [NullEnds.of_some hzero hnull] at hcall
          exact iff_of_false (not_allOrNothing_of_isLost (hcall ▸ trivial))
            (by simp [Conversion.IsSet])
      | set set =>
          rw [hconv, ← hcall, hcpus] at hends
          obtain ⟨ref, hsetOf, _, hends⟩ := hends
          obtain ⟨after, hreturned, hvalue, hkept⟩ := hends.of_cpus
          rw [allOrNothing_iff_succeeds hreturned (Nat.zero_le 1)]
          constructor
          · rintro ⟨_, _, _, cpus, _, hargs, _, hread, _⟩
            cases hargs
            exact Or.inr ⟨trivial, (forall_isSome_iff _).mpr ⟨cpus, hread⟩⟩
          · intro hsafe
            obtain ⟨_, hall⟩ := hsafe.resolve_left (by simp)
            obtain ⟨cpus, hread⟩ := (forall_isSome_iff _).mp hall
            have hsame : (rest.map fun v => (cpuOf num v).getD 0) = cpus := by
              have hmap := congrArg (List.map (·.getD 0)) hread
              rwa [List.map_map, List.map_map, List.map_id''] at hmap
              exact fun _ => rfl
            refine ⟨first, rest, set, cpus, ref, rfl, hconv, hread, hsetOf, rfl, ?_, hkept⟩
            intro cpu
            rw [hvalue, hsame]
            exact mem_foldl_takeOut cpus set cpu

end Receiver

/-- A call of a method of `cpu_set` is all or nothing exactly where the method is safe. -/
theorem all_or_nothing (num : NumberOps Num) (method : Method) (memory : Nat → CpuSet) (next : Nat)
    (args : List (Value Num)) (hvalid : ∀ v ∈ args, Valid next v) :
    AllOrNothing num method memory next args ↔ Safely num memory args method := by
  cases method with
  | union => exact union_allOrNothing hvalid
  | intersect => exact intersect_allOrNothing hvalid
  | add => exact add_allOrNothing hvalid
  | subtract => exact subtract_allOrNothing hvalid
  | equals => exact equals_allOrNothing hvalid
  | isIn => exact isIn_allOrNothing hvalid
  | contains => exact contains_allOrNothing hvalid
  | count => exact count_allOrNothing hvalid
  | set => exact set_allOrNothing hvalid
  | delete => exact delete_allOrNothing hvalid

/-- Each set has one CPU, which is its address. -/
def singletons (ref : Nat) : CpuSet := CpuSet.zero.set ref

/-- Two sets, and a number that overflows. -/
def twoSetsAndOverflow : List (Value Int) := [.userdata 0, .userdata 1, .number (-1)]

theorem valid_twoSetsAndOverflow : ∀ v ∈ twoSetsAndOverflow, Valid 2 v := by
  simp [twoSetsAndOverflow, Valid]

/-- The theorem for a union of two sets and a number that overflows. -/
theorem all_or_nothing_union :
    AllOrNothing intNumbers .union singletons 2 twoSetsAndOverflow ↔
      Safely intNumbers singletons twoSetsAndOverflow .union :=
  all_or_nothing intNumbers .union singletons 2 twoSetsAndOverflow valid_twoSetsAndOverflow

/-- A number that overflows makes the union fail after the receiver got another CPU. -/
theorem receiver_changed : ¬ ∀ (num : NumberOps Int) (method : Method) (memory : Nat → CpuSet)
    (next : Nat) (args : List (Value Int)), (∀ v ∈ args, Valid next v) →
      AllOrNothing num method memory next args := by
  intro hall
  have hcall := hall intNumbers .union singletons 2 twoSetsAndOverflow valid_twoSetsAndOverflow
  have hsafe := (union_allOrNothing valid_twoSetsAndOverflow).mp hcall
  have hlast : conversion intNumbers singletons (.number (-1)) =
      .message "unable to parse CPU mask: numeric overflow".toList := by
    have hoverflow : maxLuaInt ≤ ((-1 : Int) % 2 ^ 64).toNat := by decide +kernel
    have hnumber : luaNumberToCpuSetp (-1) =
        some (.error "unable to parse CPU mask: numeric overflow".toList) := by
      unfold luaNumberToCpuSetp
      exact if_pos hoverflow
    show Conversion.ofResult (luaNumberToCpuSetp (-1)) = _
    rw [hnumber]
    rfl
  have hsets : ∀ ref, conversion intNumbers singletons (.userdata ref) = .set (singletons ref) :=
    fun ref => rfl
  simp only [Safely, twoSetsAndOverflow, List.map_cons, List.map_nil, hlast, hsets,
    AccumulatesSafely] at hsafe
  rcases hsafe with hall | ⟨habsorbs, _⟩
  · exact hall _ (List.mem_cons_of_mem _ List.mem_cons_self)
  · have hsubset := habsorbs ⟨_, rfl, trivial⟩
    exact absurd hsubset (by decide)

end SlurmSpank.LuaSchedutils
