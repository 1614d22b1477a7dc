import SlurmSpank.LuaSchedutils.Calls

/-! # Methods that test or combine two sets

What becomes of a call of `+`, `-`, `==`, `is_in`, `contains` or `count` follows from how the
arguments convert.
-/

namespace SlurmSpank.LuaSchedutils

open Foundation Lib

variable {Num : Type}

/-! ## How a call ends -/

/-- The call failed and nothing changed. -/
def Outcome.FailsKept (next : Nat) (memory : Nat → CpuSet) : Outcome Num → Prop
  | .returned values after => (∃ msg, values = [.nil, .string msg]) ∧ Kept next memory after
  | .raised after => Kept next memory after
  | _ => False

/-- The call did not come to an end for the script. -/
def Outcome.IsLost : Outcome Num → Prop
  | .crashed => True
  | .endless => True
  | _ => False

section Ends

variable {num : NumberOps Num} {method : Method} {memory : Nat → CpuSet} {next : Nat}
  {args : List (Value Num)}

theorem AllOrNothing.of_failsKept
    (hfails : (method.call num memory next args).FailsKept next memory) :
    AllOrNothing num method memory next args := by
  rw [AllOrNothing]
  split
  next hcall =>
    rw [hcall] at hfails
    exact Or.inr hfails
  next hcall =>
    rw [hcall] at hfails
    exact hfails
  next hcall =>
    rw [hcall] at hfails
    exact hfails
  next hcall =>
    rw [hcall] at hfails
    exact hfails

theorem not_allOrNothing_of_isLost (hlost : (method.call num memory next args).IsLost) :
    ¬ AllOrNothing num method memory next args := by
  rw [AllOrNothing]
  split
  next hcall =>
    rw [hcall] at hlost
    exact hlost.elim
  next hcall =>
    rw [hcall] at hlost
    exact hlost.elim
  next => exact id
  next => exact id

theorem allOrNothing_iff_succeeds {values : List (Value Num)} {after : Nat → CpuSet}
    (hcall : method.call num memory next args = .returned values after)
    (hshort : values.length ≤ 1) :
    AllOrNothing num method memory next args ↔
      Succeeds num memory next args values after method := by
  rw [AllOrNothing, hcall]
  refine or_iff_left ?_
  rintro ⟨⟨msg, rfl⟩, _⟩
  simp at hshort

end Ends

theorem failsKept_of_raised {m : Machine Num} {memory : Nat → CpuSet} {next : Nat}
    (hmemory : m.memory = memory) :
    (Result.raised m : Result Num Nat).outcome.FailsKept next memory := by
  subst hmemory
  exact Kept.refl next m.memory

theorem outcome_push_one (v : Value Num) (m : Machine Num) :
    Result.outcome ((do push v; pure 1 : Lua Num Nat) m) = .returned [v] m.memory := by
  have hpush : push v m = .done () (m.push v) := rfl
  rw [Lua.bind_of_done hpush, Lua.pure_apply, Result.outcome, Machine.push]
  simp

theorem outcome_message (m : Machine Num) (msg : Text) :
    Result.outcome ((pure 2 : Lua Num Nat)
      ⟨m.stack ++ [.userdata m.next, .nil, .string msg], m.memory, m.next + 1⟩) =
        .returned [.nil, .string msg] m.memory := by
  rw [Lua.pure_apply, Result.outcome]
  simp [List.drop_append]

section Slots

variable {num : NumberOps Num} {m m' : Machine Num} {v w : Value Num} {set : CpuSet} {ref : Nat}

theorem Valid.of_le {next next' : Nat} (hvalid : Valid next v) (hle : next ≤ next') :
    Valid next' v := fun ref hv => Nat.lt_of_lt_of_le (hvalid ref hv) hle

/-- Another slot has its value still. -/
theorem Converted.getElem? {slot other : Nat} (hconverted : Converted m m' slot v set ref)
    (hne : slot ≠ other) : m'.stack[other]? = m.stack[other]? := by
  rw [hconverted.stack, List.getElem?_set_ne hne]

theorem Converted.conversion {slot : Nat} (hconverted : Converted m m' slot v set ref)
    (hvalid : Valid m.next w) : conversion num m'.memory w = conversion num m.memory w :=
  conversion_of_kept hconverted.kept hvalid

/-- The conversion of the first argument. -/
theorem luaToCpuSetpAt_first (num : NumberOps Num) (memory : Nat → CpuSet) {next : Nat}
    {first : Value Num} (rest : List (Value Num)) (hvalid : Valid next first) :
    ConvertsAs ⟨first :: rest, memory, next⟩ 0 first
      (luaToCpuSetpAt num 1 ⟨first :: rest, memory, next⟩) (conversion num memory first) :=
  luaToCpuSetpAt_spec num rfl hvalid

end Slots

/-! ## Methods of two sets -/

/-- How a call ends, by the verdict on its arguments. -/
def PairEnds (verdict : List Conversion → Verdict)
    (result : CpuSet → CpuSet → List (Value Num) → (Nat → CpuSet) → Prop)
    (memory : Nat → CpuSet) (next : Nat) (outcome : Outcome Num)
    (conversions : List Conversion) : Prop :=
  match verdict conversions with
  | .harmless => outcome.FailsKept next memory
  | .proper => ∃ set set' rest values after, conversions = .set set :: .set set' :: rest ∧
      outcome = .returned values after ∧ result set set' values after
  | .harmful => outcome.IsLost ∨ ∃ v after, outcome = .returned [v] after

/-- The conversions that all give sets. -/
theorem forall_isSet_iff (conversions : List Conversion) :
    (∀ c ∈ conversions, c.IsSet) ↔ ∃ sets : List CpuSet, conversions = sets.map .set := by
  constructor
  · intro hall
    induction conversions with
    | nil => exact ⟨[], rfl⟩
    | cons c conversions ih =>
        obtain ⟨hc, hrest⟩ := List.forall_mem_cons.mp hall
        obtain ⟨sets, rfl⟩ := ih hrest
        cases c with
        | set set => exact ⟨set :: sets, rfl⟩
        | _ => exact hc.elim
  · rintro ⟨sets, rfl⟩ c hc
    obtain ⟨set, _, rfl⟩ := List.mem_map.mp hc
    trivial

theorem pair_allOrNothing {num : NumberOps Num} {method : Method} {memory : Nat → CpuSet}
    {next : Nat} {args : List (Value Num)} {verdict : List Conversion → Verdict}
    {result : CpuSet → CpuSet → List (Value Num) → (Nat → CpuSet) → Prop}
    (hproper : ∀ set set' rest, verdict (.set set :: .set set' :: rest) = .proper)
    (hends : PairEnds verdict result memory next (method.call num memory next args)
      (args.map (conversion num memory)))
    (hsucceeds : ∀ values after, Succeeds num memory next args values after method ↔
      OnPairs num memory args values after result)
    (hshort : ∀ set set' values after, result set set' values after → values.length ≤ 1) :
    AllOrNothing num method memory next args ↔
      PairSafely verdict (args.map (conversion num memory)) := by
  unfold PairEnds at hends
  unfold PairSafely
  cases hverdict : verdict (args.map (conversion num memory)) with
  | harmless =>
      simp only [hverdict] at hends ⊢
      exact iff_of_true (.of_failsKept hends) trivial
  | proper =>
      simp only [hverdict] at hends ⊢
      obtain ⟨set, set', rest, values, after, hconversions, hcall, hresult⟩ := hends
      rw [allOrNothing_iff_succeeds hcall (hshort _ _ _ _ hresult), hsucceeds, OnPairs,
        hconversions]
      constructor
      · rintro ⟨_, _, _, heq, hrest, _⟩
        cases heq
        exact List.forall_mem_cons.mpr ⟨trivial, List.forall_mem_cons.mpr ⟨trivial, hrest⟩⟩
      · intro hall
        exact ⟨set, set', rest, rfl,
          (List.forall_mem_cons.mp (List.forall_mem_cons.mp hall).2).2, hresult⟩
  | harmful =>
      simp only [hverdict] at hends ⊢
      rcases hends with hlost | ⟨v, after, hcall⟩
      · exact iff_of_false (not_allOrNothing_of_isLost hlost) id
      · rw [allOrNothing_iff_succeeds hcall (Nat.le_refl 1), hsucceeds]
        refine iff_of_false ?_ id
        rintro ⟨set, set', rest, hconversions, _⟩
        rw [hconversions, hproper] at hverdict
        cases hverdict

/-! ## `==`, `is_in` and `contains` -/

section Compare

variable {num : NumberOps Num} {loop : Option Nat → Option Nat → List Nat → Lua Num Bool}
  {test : CpuSet → CpuSet → Bool} {memory : Nat → CpuSet} {next : Nat}

/-- What the loop over the CPUs computes, with what it does about null pointers. -/
structure Compares (loop : Option Nat → Option Nat → List Nat → Lua Num Bool)
    (test : CpuSet → CpuSet → Bool) : Prop where
  sets : ∀ s1 s2 m, loop (some s1) (some s2) allCpus m =
    .done (test (m.memory s1) (m.memory s2)) m
  left_null : ∀ s2 m, loop none s2 allCpus m = .crashed
  right_null : ∀ s1 m, loop (some s1) none allCpus m = .crashed ∨
    ∃ rv, loop (some s1) none allCpus m = .done rv m

theorem outcome_compare {s1 s2 : Option Nat} {rv : Bool} {m : Machine Num}
    (hloop : loop s1 s2 allCpus m = .done rv m) :
    Result.outcome ((do
      let rv ← loop s1 s2 allCpus
      pop 2
      push (.boolean rv)
      pure 1 : Lua Num Nat) m) = .returned [.boolean rv] m.memory := by
  have hpop : pop 2 m = .done () { m with stack := m.stack.take (m.stack.length - 2) } := rfl
  rw [Lua.bind_of_done hloop, Lua.bind_of_done hpop]
  exact outcome_push_one (.boolean rv) _

/-- The rest of `is_in` and `==` after the first argument was converted. -/
def compareRest (num : NumberOps Num) (loop : Option Nat → Option Nat → List Nat → Lua Num Bool)
    (s1 : Option Nat) : Lua Num Nat := do
  let s2 ← luaToCpuSetpAt num 2
  let rv ← loop s1 s2 allCpus
  pop 2
  push (.boolean rv)
  pure 1

/-- With no first set, only a Lua error keeps the loop from reading it. -/
theorem compareRest_null (num : NumberOps Num) (next : Nat) (hcompares : Compares loop test)
    {m : Machine Num} {second : Value Num} (hslot : m.stack[1]? = some second)
    (hvalid : Valid m.next second) :
    match conversion num m.memory second with
    | .error => (compareRest num loop none m).outcome.FailsKept next m.memory
    | _ => (compareRest num loop none m).outcome.IsLost := by
  have hsecond := luaToCpuSetpAt_spec num hslot hvalid
  rw [compareRest]
  cases hconv : conversion num m.memory second with
  | endless =>
      rw [hconv] at hsecond
      rw [Lua.bind_of_endless hsecond]
      trivial
  | error =>
      rw [hconv] at hsecond
      obtain ⟨m', hraised, hmemory⟩ := hsecond
      rw [Lua.bind_of_raised hraised]
      exact failsKept_of_raised hmemory
  | message msg =>
      rw [hconv] at hsecond
      rw [Lua.bind_of_done hsecond, Lua.bind_of_crashed (hcompares.left_null none _)]
      trivial
  | set set =>
      rw [hconv] at hsecond
      obtain ⟨ref, m', hdone, _⟩ := hsecond
      rw [Lua.bind_of_done hdone, Lua.bind_of_crashed (hcompares.left_null (some ref) m')]
      trivial

theorem compareSets_ends (num : NumberOps Num) (memory : Nat → CpuSet)
    (hcompares : Compares loop test) {args : List (Value Num)} (hvalid : ∀ v ∈ args, Valid next v) :
    PairEnds compareVerdict (compareResult memory next test) memory next
      (compareSets num loop ⟨args, memory, next⟩).outcome
      (args.map (conversion num memory)) := by
  rw [compareSets]
  cases args with
  | nil =>
      rw [Lua.bind_of_raised (luaToCpuSetpAt_none num (Nat.le_refl 0))]
      exact Kept.refl next memory
  | cons first rest =>
      have hfirst := luaToCpuSetpAt_first num memory rest (hvalid first List.mem_cons_self)
      rw [List.map_cons]
      cases hconv : conversion num memory first with
      | endless =>
          rw [hconv] at hfirst
          rw [Lua.bind_of_endless hfirst]
          exact Or.inl trivial
      | error =>
          rw [hconv] at hfirst
          obtain ⟨m, hraised, hmemory⟩ := hfirst
          rw [Lua.bind_of_raised hraised]
          exact failsKept_of_raised hmemory
      | message msg =>
          rw [hconv] at hfirst
          rw [Lua.bind_of_done hfirst]
          cases rest with
          | nil =>
              -- the set that the conversion left on the stack is the second argument
              have hvalid' : Valid (next + 1) (Value.userdata next : Value Num) := by
                intro ref href
                cases href
                exact Nat.lt_succ_self next
              exact Or.inl (compareRest_null num next hcompares
                (m := ⟨[first, .userdata next, .nil, .string msg], memory, next + 1⟩) rfl hvalid')
          | cons second rest =>
              have hnull := compareRest_null num next hcompares
                (m := ⟨first :: second :: rest ++ [.userdata next, .nil, .string msg], memory,
                  next + 1⟩) rfl ((hvalid second (by simp)).of_le (Nat.le_succ next))
              rw [List.map_cons]
              cases hconv' : conversion num memory second with
              | error => rwa [hconv'] at hnull
              | endless =>
                  rw [hconv'] at hnull
                  exact Or.inl hnull
              | message msg' =>
                  rw [hconv'] at hnull
                  exact Or.inl hnull
              | set set =>
                  rw [hconv'] at hnull
                  exact Or.inl hnull
      | set set =>
          rw [hconv] at hfirst
          obtain ⟨ref, m, hdone, hconverted⟩ := hfirst
          rw [Lua.bind_of_done hdone]
          cases rest with
          | nil =>
              have hshort : m.stack.length ≤ 1 := by simp [hconverted.stack]
              rw [Lua.bind_of_raised (luaToCpuSetpAt_none num hshort)]
              exact hconverted.kept
          | cons second rest =>
              have hvalid' : Valid m.next second :=
                (hvalid second (by simp)).of_le hconverted.next_le
              have hsecond := luaToCpuSetpAt_spec num
                (hconverted.getElem? Nat.zero_ne_one |>.trans rfl) hvalid'
              rw [hconverted.conversion (hvalid second (by simp))] at hsecond
              rw [List.map_cons]
              cases hconv' : conversion num memory second with
              | error =>
                  rw [hconv'] at hsecond
                  obtain ⟨m', hraised, hmemory⟩ := hsecond
                  rw [Lua.bind_of_raised hraised]
                  show Kept next memory m'.memory
                  rw [hmemory]
                  exact hconverted.kept
              | endless =>
                  rw [hconv'] at hsecond
                  rw [Lua.bind_of_endless hsecond]
                  exact Or.inl trivial
              | message msg' =>
                  rw [hconv'] at hsecond
                  rw [Lua.bind_of_done hsecond]
                  rcases hcompares.right_null ref _ with hcrash | ⟨rv, hrv⟩
                  · rw [Lua.bind_of_crashed hcrash]
                    exact Or.inl trivial
                  · exact Or.inr ⟨.boolean rv, _, outcome_compare hrv⟩
              | set set' =>
                  rw [hconv'] at hsecond
                  obtain ⟨ref', m', hdone', hconverted'⟩ := hsecond
                  rw [Lua.bind_of_done hdone']
                  have hloop := hcompares.sets ref ref' m'
                  rw [hconverted'.value, hconverted'.kept ref hconverted.ref_lt,
                    hconverted.value] at hloop
                  have hkept := hconverted.kept.trans hconverted.next_le hconverted'.kept
                  exact ⟨set, set', _, _, m'.memory, rfl, outcome_compare hloop, rfl, hkept⟩

end Compare

theorem mem_allCpus (i : Nat) : i ∈ allCpus ↔ i < cpuSetSize := by
  rw [allCpus, List.mem_range']
  constructor
  · rintro ⟨j, hj, rfl⟩
    omega
  · exact fun hi => ⟨i, hi, by omega⟩

theorem all_isIn (set set' : CpuSet) :
    (allCpus.all fun i => !set.isset i || set'.isset i) = decide (set.cpus ⊆ set'.cpus) := by
  rw [Bool.eq_iff_iff, List.all_eq_true, decide_eq_true_iff]
  constructor
  · intro hall cpu hcpu
    have hbit := hall cpu ((mem_allCpus cpu).mpr (set.cpus_lt cpu hcpu))
    rw [CpuSet.isset_eq_true.mpr hcpu, Bool.not_true, Bool.false_or] at hbit
    exact CpuSet.isset_eq_true.mp hbit
  · intro hsubset cpu _
    cases hcpu : set.isset cpu with
    | false => rfl
    | true => exact CpuSet.isset_eq_true.mpr (hsubset (CpuSet.isset_eq_true.mp hcpu))

theorem all_equals (set set' : CpuSet) :
    (allCpus.all fun i => set.isset i == set'.isset i) = decide (set = set') := by
  rw [Bool.eq_iff_iff, List.all_eq_true, decide_eq_true_iff]
  constructor
  · exact fun hall => CpuSet.ext_isset fun cpu hcpu =>
      beq_iff_eq.mp (hall cpu ((mem_allCpus cpu).mpr hcpu))
  · intro heq cpu _
    rw [heq]
    exact beq_self_eq_true _

theorem isInLoop_compares : @Compares Num isInLoop
    fun set set' => decide (set.cpus ⊆ set'.cpus) where
  sets s1 s2 m := by rw [isInLoop_spec, all_isIn]
  left_null s2 m := by
    rw [allCpus_eq, isInLoop]
    exact Lua.bind_of_crashed (cpuIsset_none 0 m) _
  right_null s1 m := by
    generalize allCpus = cpus
    induction cpus with
    | nil => exact Or.inr ⟨true, rfl⟩
    | cons i cpus ih =>
        rw [isInLoop, Lua.bind_of_done (cpuIsset_apply i s1 m)]
        cases (m.memory s1).isset i with
        | true => exact Or.inl rfl
        | false => exact ih

theorem equalsLoop_compares : @Compares Num equalsLoop
    fun set set' => decide (set = set') where
  sets s1 s2 m := by rw [equalsLoop_spec, all_equals]
  left_null s2 m := by
    rw [allCpus_eq, equalsLoop]
    exact Lua.bind_of_crashed (cpuIsset_none 0 m) _
  right_null s1 m := by
    rw [allCpus_eq, equalsLoop, Lua.bind_of_done (cpuIsset_apply 0 s1 m)]
    exact Or.inl rfl

/-! ## `+` and `-` -/

section Store

variable {num : NumberOps Num} {memory : Nat → CpuSet} {next : Nat}

/-- The rest of `+` and `-` after the first argument was converted. -/
def storeRest (num : NumberOps Num) (loop : Nat → Lua Num Unit) : Lua Num Nat := do
  match ← luaToCpuSetpAt num 2 with
  | none => pure 2
  | some s2 =>
      loop s2
      pure 1

theorem storeRest_spec (num : NumberOps Num) (loop : Nat → Lua Num Unit) {m : Machine Num}
    {second : Value Num} (hslot : m.stack[1]? = some second) (hvalid : Valid m.next second) :
    match conversion num m.memory second with
    | .set set => ∃ ref m', storeRest num loop m = (do loop ref; pure 1 : Lua Num Nat) m' ∧
        Converted m m' 1 second set ref
    | .message msg => (storeRest num loop m).outcome = .returned [.nil, .string msg] m.memory
    | .error => ∃ m', storeRest num loop m = .raised m' ∧ m'.memory = m.memory
    | .endless => storeRest num loop m = .endless := by
  have hsecond := luaToCpuSetpAt_spec num hslot hvalid
  rw [storeRest]
  cases hconv : conversion num m.memory second with
  | endless =>
      rw [hconv] at hsecond
      exact Lua.bind_of_endless hsecond _
  | error =>
      rw [hconv] at hsecond
      obtain ⟨m', hraised, hmemory⟩ := hsecond
      exact ⟨m', Lua.bind_of_raised hraised _, hmemory⟩
  | message msg =>
      rw [hconv] at hsecond
      simp only [Lua.bind_of_done hsecond]
      exact outcome_message m msg
  | set set =>
      rw [hconv] at hsecond
      obtain ⟨ref, m', hdone, hconverted⟩ := hsecond
      exact ⟨ref, m', Lua.bind_of_done hdone _, hconverted⟩

/-- The second argument of `+` and `-`, which is the result itself when there is only one. -/
theorem valid_result (next : Nat) : Valid (next + 1) (Value.userdata next : Value Num) := by
  intro ref href
  cases href
  exact Nat.lt_succ_self next

/-- After both arguments were converted, the new set is on top still. -/
theorem top_of_converted {first second : Value Num} {rest : List (Value Num)} {set set' : CpuSet}
    {m m' : Machine Num} {ref ref' : Nat}
    (hfirst : Converted ⟨first :: second :: rest ++ [.userdata next], memory, next + 1⟩ m 0 first
      set ref)
    (hsecond : Converted m m' 1 second set' ref') :
    ∃ front, m'.stack = front ++ [.userdata next] := by
  refine ⟨.userdata ref :: .userdata ref' :: rest, ?_⟩
  rw [hsecond.stack, hfirst.stack]
  rfl

theorem outcome_stored {loop : Nat → Lua Num Unit} {ref : Nat} {m : Machine Num} {set : CpuSet}
    (hloop : loop ref m = .done () (m.write next set))
    (htop : ∃ front, m.stack = front ++ [.userdata next]) :
    ((do loop ref; pure 1 : Lua Num Nat) m).outcome =
      .returned [.userdata next] (m.write next set).memory := by
  obtain ⟨front, hfront⟩ := htop
  rw [Lua.bind_of_done hloop, Lua.pure_apply, Result.outcome, Machine.write_stack, hfront]
  simp

/-- How `+` and `-` end. They differ in what they do after the first argument failed with a
message, where `-` goes on with a null pointer. -/
theorem store_ends {op : CpuSet → CpuSet → CpuSet} (loop : Nat → Nat → Lua Num Unit)
    (next' : Option Nat → Lua Num Nat) {verdict : List Conversion → Verdict}
    (hloop : ∀ s1 s2 m, loop s1 s2 m =
      .done () (m.write next (op (m.memory s1) (m.memory s2))))
    (hsome : ∀ s1, next' (some s1) = storeRest num (loop s1))
    (hverdict : ∀ conversions, (∀ msg rest, conversions ≠ .message msg :: rest) →
      verdict conversions = addVerdict conversions)
    {args : List (Value Num)} (hvalid : ∀ v ∈ args, Valid next v)
    (hnone : ∀ first rest msg, args = first :: rest → conversion num memory first = .message msg →
      PairEnds verdict (storeResult memory next op) memory next
        (next' none
          ⟨first :: (rest ++ [.userdata next]) ++ [.userdata (next + 1), .nil, .string msg],
            memory, next + 1 + 1⟩).outcome (.message msg :: rest.map (conversion num memory))) :
    PairEnds verdict (storeResult memory next op) memory next
      ((luaToCpuSetpAt num 1 >>= next') ⟨args ++ [.userdata next], memory, next + 1⟩).outcome
      (args.map (conversion num memory)) := by
  cases args with
  | nil =>
      -- the result is taken for the first argument, and there is no second
      have hfirst := luaToCpuSetpAt_first num memory [] (valid_result next)
      obtain ⟨ref, m, hdone, hconverted⟩ := hfirst
      have hshort : m.stack.length ≤ 1 := by simp [hconverted.stack]
      rw [List.nil_append, Lua.bind_of_done hdone, hsome, storeRest,
        Lua.bind_of_raised (luaToCpuSetpAt_none num hshort), PairEnds, List.map_nil,
        hverdict [] (by simp)]
      exact fun other hlt => hconverted.kept other (Nat.lt_succ_of_lt hlt)
  | cons first rest =>
      have hfirst := luaToCpuSetpAt_first num memory (rest ++ [.userdata next])
        ((hvalid first List.mem_cons_self).of_le (Nat.le_succ next))
      rw [List.map_cons]
      cases hconv : conversion num memory first with
      | endless =>
          rw [hconv] at hfirst
          rw [List.cons_append, Lua.bind_of_endless hfirst, PairEnds, hverdict _ (by simp)]
          exact Or.inl trivial
      | error =>
          rw [hconv] at hfirst
          obtain ⟨m, hraised, hmemory⟩ := hfirst
          rw [List.cons_append, Lua.bind_of_raised hraised, PairEnds, hverdict _ (by simp)]
          exact failsKept_of_raised hmemory
      | message msg =>
          rw [hconv] at hfirst
          rw [List.cons_append, Lua.bind_of_done hfirst]
          exact hnone first rest msg rfl hconv
      | set set =>
          rw [hconv] at hfirst
          obtain ⟨ref, m, hdone, hconverted⟩ := hfirst
          rw [List.cons_append, Lua.bind_of_done hdone, hsome, PairEnds, hverdict _ (by simp)]
          have hkept : Kept next memory m.memory :=
            fun other hlt => hconverted.kept other (Nat.lt_succ_of_lt hlt)
          cases rest with
          | nil =>
              have hsecond := storeRest_spec num (loop ref)
                (hconverted.getElem? Nat.zero_ne_one |>.trans rfl)
                ((valid_result next).of_le hconverted.next_le)
              obtain ⟨ref', m', hrest, hconverted'⟩ := hsecond
              have hresult : ref' = next := hconverted'.isSetOf
              have htop : ∃ front, m'.stack = front ++ [.userdata next] := by
                refine ⟨[.userdata ref], ?_⟩
                rw [hconverted'.stack, hconverted.stack, hresult]
                rfl
              have houtcome := outcome_stored (hloop ref ref' m') htop
              rw [← hrest] at houtcome
              exact Or.inr ⟨.userdata next, _, houtcome⟩
          | cons second rest =>
              have hvalid' : Valid next second := hvalid second (by simp)
              have hsecond := storeRest_spec num (loop ref)
                (hconverted.getElem? Nat.zero_ne_one |>.trans rfl)
                (hvalid'.of_le (Nat.le_trans (Nat.le_succ next) hconverted.next_le))
              rw [hconverted.conversion (hvalid'.of_le (Nat.le_succ next))] at hsecond
              rw [List.map_cons]
              cases hconv' : conversion num memory second with
              | endless =>
                  rw [hconv'] at hsecond
                  rw [hsecond]
                  exact Or.inl trivial
              | error =>
                  rw [hconv'] at hsecond
                  obtain ⟨m', hraised, hmemory⟩ := hsecond
                  rw [hraised]
                  show Kept next memory m'.memory
                  rw [hmemory]
                  exact hkept
              | message msg' =>
                  rw [hconv'] at hsecond
                  rw [hsecond]
                  exact ⟨⟨msg', rfl⟩, hkept⟩
              | set set' =>
                  rw [hconv'] at hsecond
                  obtain ⟨ref', m', hrest, hconverted'⟩ := hsecond
                  have hloop' := hloop ref ref' m'
                  rw [hconverted'.value, hconverted'.kept ref hconverted.ref_lt,
                    hconverted.value] at hloop'
                  refine ⟨set, set', _, [.userdata next], _, rfl, ?_, next, rfl, Nat.le_refl next,
                    Machine.write_self m' next _, ?_⟩
                  · rw [hrest]
                    exact outcome_stored hloop' (top_of_converted hconverted hconverted')
                  · intro other hlt
                    rw [Machine.write_of_ne m' (Nat.ne_of_lt hlt)]
                    exact hkept.trans (Nat.le_trans (Nat.le_succ next) hconverted.next_le)
                      hconverted'.kept other hlt

theorem lCpuSetAdd_ends (num : NumberOps Num) {args : List (Value Num)}
    (hvalid : ∀ v ∈ args, Valid next v) :
    PairEnds addVerdict (storeResult memory next CpuSet.union) memory next
      (lCpuSetAdd num ⟨args, memory, next⟩).outcome (args.map (conversion num memory)) := by
  refine store_ends (addLoop next) (fun s1 => match s1 with
    | none => pure 2
    | some s1 => storeRest num (addLoop next s1))
    (addLoop_spec next) (fun s1 => rfl) (fun _ _ => rfl) hvalid ?_
  intro first rest msg _ _
  have houtcome := outcome_message
    (⟨first :: (rest ++ [.userdata next]), memory, next + 1⟩ : Machine Num) msg
  exact houtcome ▸ ⟨⟨msg, rfl⟩, Kept.refl next memory⟩

theorem lCpuSetSubtract_ends (num : NumberOps Num) {args : List (Value Num)}
    (hvalid : ∀ v ∈ args, Valid next v) :
    PairEnds subtractVerdict (storeResult memory next CpuSet.diff) memory next
      (lCpuSetSubtract num ⟨args, memory, next⟩).outcome (args.map (conversion num memory)) := by
  refine store_ends (fun s1 => subtractLoop next (some s1))
    (fun s1 => storeRest num (subtractLoop next s1))
    (subtractLoop_spec next) (fun s1 => rfl) ?_ hvalid ?_
  · intro conversions hconversions
    match conversions with
    | [] => rfl
    | .message msg :: rest => exact absurd rfl (hconversions msg rest)
    | .error :: _ => rfl
    | .endless :: _ => rfl
    | [.set _] => rfl
    | .set _ :: .set _ :: _ => rfl
    | .set _ :: .message _ :: _ => rfl
    | .set _ :: .error :: _ => rfl
    | .set _ :: .endless :: _ => rfl
  · intro first rest msg (hargs : args = first :: rest) _
    -- the loop reads through the null pointer unless the second conversion fails
    have hcrash : ∀ ref m, (do subtractLoop next none ref; pure 1 : Lua Num Nat) m = .crashed :=
      fun ref m => Lua.bind_of_crashed (subtractLoop_none next ref m) _
    cases rest with
    | nil =>
        have hsecond := storeRest_spec num (subtractLoop next none)
          (m := ⟨[first, .userdata next, .userdata (next + 1), .nil, .string msg], memory,
            next + 1 + 1⟩) rfl ((valid_result next).of_le (Nat.le_succ _))
        obtain ⟨ref, m', hrest, _⟩ := hsecond
        rw [hcrash] at hrest
        exact Or.inl (hrest ▸ trivial)
    | cons second rest =>
        have hmem : second ∈ args := by
          rw [hargs]
          exact List.mem_cons_of_mem first List.mem_cons_self
        have hvalid' : Valid next second := hvalid second hmem
        have hsecond := storeRest_spec num (subtractLoop next none)
          (m := ⟨first :: (second :: rest ++ [.userdata next]) ++
            [.userdata (next + 1), .nil, .string msg], memory, next + 1 + 1⟩) rfl
          (hvalid'.of_le (Nat.le_add_right next 2))
        rw [List.map_cons]
        cases hconv : conversion num memory second with
        | endless =>
            rw [hconv] at hsecond
            exact Or.inl (hsecond ▸ trivial)
        | error =>
            rw [hconv] at hsecond
            obtain ⟨m', hraised, hmemory⟩ := hsecond
            show Outcome.FailsKept next memory _
            rw [hraised]
            exact failsKept_of_raised hmemory
        | message msg' =>
            rw [hconv] at hsecond
            show Outcome.FailsKept next memory _
            rw [hsecond]
            exact ⟨⟨msg', rfl⟩, Kept.refl next memory⟩
        | set set =>
            rw [hconv] at hsecond
            obtain ⟨ref, m', hrest, _⟩ := hsecond
            rw [hcrash] at hrest
            exact Or.inl (hrest ▸ trivial)

end Store

/-! ## Each method of two sets -/

section Methods

variable {num : NumberOps Num} {memory : Nat → CpuSet} {next : Nat} {args : List (Value Num)}

theorem storeResult_short {op : CpuSet → CpuSet → CpuSet} (set set' : CpuSet)
    (values : List (Value Num)) (after : Nat → CpuSet)
    (hresult : storeResult memory next op set set' values after) : values.length ≤ 1 := by
  obtain ⟨ref, rfl, _⟩ := hresult
  exact Nat.le_refl 1

theorem compareResult_short {test : CpuSet → CpuSet → Bool} (set set' : CpuSet)
    (values : List (Value Num)) (after : Nat → CpuSet)
    (hresult : compareResult memory next test set set' values after) : values.length ≤ 1 := by
  obtain ⟨rfl, _⟩ := hresult
  exact Nat.le_refl 1

theorem add_allOrNothing (hvalid : ∀ v ∈ args, Valid next v) :
    AllOrNothing num .add memory next args ↔ Safely num memory args .add :=
  pair_allOrNothing (fun _ _ _ => rfl) (lCpuSetAdd_ends num hvalid) (fun _ _ => Iff.rfl)
    storeResult_short

theorem subtract_allOrNothing (hvalid : ∀ v ∈ args, Valid next v) :
    AllOrNothing num .subtract memory next args ↔ Safely num memory args .subtract :=
  pair_allOrNothing (fun _ _ _ => rfl) (lCpuSetSubtract_ends num hvalid) (fun _ _ => Iff.rfl)
    storeResult_short

theorem isIn_allOrNothing (hvalid : ∀ v ∈ args, Valid next v) :
    AllOrNothing num .isIn memory next args ↔ Safely num memory args .isIn :=
  pair_allOrNothing (fun _ _ _ => rfl) (compareSets_ends num memory isInLoop_compares hvalid)
    (fun _ _ => Iff.rfl) compareResult_short

theorem equals_allOrNothing (hvalid : ∀ v ∈ args, Valid next v) :
    AllOrNothing num .equals memory next args ↔ Safely num memory args .equals :=
  pair_allOrNothing (fun _ _ _ => rfl) (compareSets_ends num memory equalsLoop_compares hvalid)
    (fun _ _ => Iff.rfl) compareResult_short

/-- `contains` is `is_in` for the arguments in another order. -/
theorem lCpuSetContains_apply (num : NumberOps Num) (args : List (Value Num))
    (memory : Nat → CpuSet) (next : Nat) :
    lCpuSetContains num ⟨args, memory, next⟩ = lCpuSetIsIn num ⟨rotated args, memory, next⟩ := by
  have hpush : pushValue 1 (⟨args, memory, next⟩ : Machine Num) =
      .done () ⟨args ++ [args[0]?.getD .nil], memory, next⟩ := rfl
  have hremove : remove 1 (⟨args ++ [args[0]?.getD .nil], memory, next⟩ : Machine Num) =
      .done () ⟨rotated args, memory, next⟩ := by
    cases args with
    | nil => rfl
    | cons first rest => rfl
  rw [lCpuSetContains, Lua.bind_of_done hpush, Lua.bind_of_done hremove]

theorem rotated_map {α β : Type} (f : α → β) (l : List α) :
    (rotated l).map f = rotated (l.map f) := by
  cases l with
  | nil => rfl
  | cons a rest => rw [rotated, List.map_append, List.map_cons]; rfl

theorem mem_rotated {α : Type} {l : List α} {a : α} : a ∈ rotated l ↔ a ∈ l := by
  cases l with
  | nil => exact Iff.rfl
  | cons b rest => rw [rotated, List.mem_append, List.mem_singleton, List.mem_cons, or_comm]

/-- When all arguments are sets, `is_in` gets two sets. -/
theorem compareVerdict_rotated {set set' : CpuSet} {rest : List Conversion}
    (hrest : ∀ c ∈ rest, c.IsSet) :
    compareVerdict (rotated (.set set :: .set set' :: rest)) = .proper := by
  cases rest with
  | nil => rfl
  | cons c rest =>
      have hc := (List.forall_mem_cons.mp hrest).1
      cases c with
      | set _ => rfl
      | _ => exact hc.elim

/-- `contains` has its own result when the third set can stand for the first. -/
theorem contains_proper {conversions rest : List Conversion} {set set' : CpuSet}
    (hrotated : rotated conversions = .set set :: .set set' :: rest) :
    (∃ first second rest, conversions = .set first :: .set second :: rest ∧
      (∀ c ∈ rest, c.IsSet) ∧
        decide (set.cpus ⊆ set'.cpus) = decide (second.cpus ⊆ first.cpus)) ↔
      (∀ c ∈ conversions, c.IsSet) ∧ ThirdAsFirst conversions := by
  match conversions with
  | [] => cases hrotated
  | [c] => cases hrotated
  | [c, d] =>
      cases hrotated
      simp [Conversion.IsSet, ThirdAsFirst]
  | c :: d :: e :: more =>
      rw [rotated, List.cons_append, List.cons_append] at hrotated
      cases hrotated
      constructor
      · rintro ⟨first, second, rest, heq, hrest, hsame⟩
        cases heq
        refine ⟨?_, decide_eq_decide.mp hsame⟩
        exact List.forall_mem_cons.mpr ⟨trivial, List.forall_mem_cons.mpr ⟨trivial, hrest⟩⟩
      · rintro ⟨hall, hthird⟩
        obtain ⟨hc, hrest⟩ := List.forall_mem_cons.mp hall
        cases c with
        | set first =>
            exact ⟨first, set, _, rfl, (List.forall_mem_cons.mp hrest).2,
              decide_eq_decide.mpr hthird⟩
        | _ => exact hc.elim

theorem contains_allOrNothing (hvalid : ∀ v ∈ args, Valid next v) :
    AllOrNothing num .contains memory next args ↔ Safely num memory args .contains := by
  have hrotated : ∀ v ∈ rotated args, Valid next v := fun v hv => hvalid v (mem_rotated.mp hv)
  have hends := compareSets_ends num memory isInLoop_compares hrotated
  have hcall : Method.contains.call num memory next args =
      (lCpuSetIsIn num ⟨rotated args, memory, next⟩).outcome := by
    rw [Method.call, Method.run, lCpuSetContains_apply]
  rw [← lCpuSetIsIn, ← hcall, rotated_map, PairEnds] at hends
  rw [Safely, ContainsSafely, PairSafely]
  generalize hconversions : args.map (conversion num memory) = conversions at hends ⊢
  split at hends
  next hverdict =>
    rw [hverdict]
    refine iff_of_true (.of_failsKept hends) ⟨trivial, fun hproper => ?_⟩
    cases hproper
  next hverdict =>
    obtain ⟨set, set', rest, values, after, hrotated, hreturned, hvalues, hkept⟩ := hends
    subst hvalues
    rw [hverdict, allOrNothing_iff_succeeds hreturned (Nat.le_refl 1)]
    have hproper := contains_proper hrotated
    simp only [mem_rotated, true_imp_iff]
    rw [← hproper]
    constructor
    · rintro ⟨first, second, rest, heq, hrest, hvalue, _⟩
      rw [hconversions] at heq
      exact ⟨first, second, rest, heq, hrest,
        Value.boolean.inj (List.singleton_inj.mp hvalue)⟩
    · rintro ⟨first, second, rest, heq, hrest, hvalue⟩
      refine ⟨first, second, rest, hconversions.trans heq, hrest, ?_, hkept⟩
      rw [hvalue]
  next hverdict =>
    rw [hverdict]
    rcases hends with hlost | ⟨v, after, hreturned⟩
    · exact iff_of_false (not_allOrNothing_of_isLost hlost) fun h => h.1
    · rw [allOrNothing_iff_succeeds hreturned (Nat.le_refl 1)]
      refine iff_of_false ?_ fun h => h.1
      rintro ⟨set, set', rest, heq, hrest, _⟩
      rw [← hconversions, heq, compareVerdict_rotated hrest] at hverdict
      cases hverdict

/-! ## `count` -/

theorem length_filter_allCpus (set : CpuSet) :
    (allCpus.filter set.isset).length = set.cpus.card := by
  have heq : set.cpus = (allCpus.filter set.isset).toFinset := by
    ext cpu
    rw [List.mem_toFinset, List.mem_filter, CpuSet.isset_eq_true, mem_allCpus]
    exact ⟨fun hcpu => ⟨set.cpus_lt cpu hcpu, hcpu⟩, fun h => h.2⟩
  have hnodup : (allCpus.filter set.isset).Nodup :=
    List.Nodup.filter set.isset List.nodup_range'
  rw [heq, List.toFinset_card_of_nodup hnodup]

theorem count_allOrNothing (hvalid : ∀ v ∈ args, Valid next v) :
    AllOrNothing num .count memory next args ↔ Safely num memory args .count := by
  have hrun : Method.count.call num memory next args =
      (lCpuSetCount num ⟨args, memory, next⟩).outcome := rfl
  rw [lCpuSetCount] at hrun
  cases args with
  | nil =>
      rw [Lua.bind_of_raised (luaToCpuSetpAt_none num (Nat.le_refl 0))] at hrun
      refine iff_of_true (.of_failsKept ?_) trivial
      rw [hrun]
      exact Kept.refl next memory
  | cons first rest =>
      have hfirst := luaToCpuSetpAt_first num memory rest (hvalid first List.mem_cons_self)
      rw [Safely, List.map_cons]
      cases hconv : conversion num memory first with
      | endless =>
          rw [hconv] at hfirst
          rw [Lua.bind_of_endless hfirst] at hrun
          exact iff_of_false (not_allOrNothing_of_isLost (hrun ▸ trivial)) id
      | error =>
          rw [hconv] at hfirst
          obtain ⟨m, hraised, hmemory⟩ := hfirst
          rw [Lua.bind_of_raised hraised] at hrun
          exact iff_of_true (.of_failsKept (hrun ▸ failsKept_of_raised hmemory)) trivial
      | message msg =>
          rw [hconv] at hfirst
          rw [Lua.bind_of_done hfirst] at hrun
          refine iff_of_false (not_allOrNothing_of_isLost ?_) id
          have hcrash : ∀ m : Machine Num, countLoop none allCpus 0 m = .crashed := by
            intro m
            rw [allCpus_eq, countLoop]
            exact Lua.bind_of_crashed (cpuIsset_none 0 m) _
          rw [hrun, Lua.bind_of_crashed (hcrash _)]
          trivial
      | set set =>
          rw [hconv] at hfirst
          obtain ⟨ref, m, hdone, hconverted⟩ := hfirst
          rw [Lua.bind_of_done hdone, Lua.bind_of_done (countLoop_spec ref allCpus 0 m),
            outcome_push_one, hconverted.value, Nat.zero_add, length_filter_allCpus] at hrun
          rw [allOrNothing_iff_succeeds hrun (Nat.le_refl 1)]
          constructor
          · rintro ⟨set', rest', heq, hrest, _⟩
            rw [List.map_cons, hconv] at heq
            cases heq
            exact hrest
          · intro hrest
            exact ⟨set, rest.map (conversion num memory), by rw [List.map_cons, hconv], hrest, rfl,
              hconverted.kept⟩

end Methods

end SlurmSpank.LuaSchedutils
