import SlurmSpank.LuaSchedutils.Pairs

/-! # Methods that accumulate in the receiver

`union` and `intersect` change the receiver with each argument. When a later argument does not
convert, the receiver is as it was only if it absorbed the arguments in front of it.
-/

namespace SlurmSpank.LuaSchedutils

open Foundation Lib

variable {Num : Type}

section Accumulate

variable {num : NumberOps Num} {update : Nat → Nat → Lua Num Unit} {op : CpuSet → CpuSet → CpuSet}
  {absorbs : CpuSet → CpuSet → Prop} {memory : Nat → CpuSet} {next ref : Nat} {own : CpuSet}

/-- What the loop over the CPUs does to the first set, and when this changes it. -/
structure Accumulates (update : Nat → Nat → Lua Num Unit) (op : CpuSet → CpuSet → CpuSet)
    (absorbs : CpuSet → CpuSet → Prop) : Prop where
  spec : ∀ setp s m, update setp s m =
    .done () (m.write setp (op (m.memory setp) (m.memory s)))
  self : ∀ set, op set set = set
  keeps : ∀ own current set, op current own = current →
    op (op current set) own = op current set
  eq_iff : ∀ own current set, op current own = current →
    (op current set = own ↔ current = own ∧ absorbs own set)

theorem cpuSetUnion_accumulates : @Accumulates Num cpuSetUnion CpuSet.union
    fun set other => other.cpus ⊆ set.cpus where
  spec := cpuSetUnion_spec
  self set := CpuSet.ext (Finset.union_self set.cpus)
  keeps own current set howned := by
    have hsubset : own.cpus ⊆ current.cpus :=
      Finset.union_eq_left.mp (congrArg CpuSet.cpus howned)
    exact CpuSet.ext (Finset.union_eq_left.mpr (hsubset.trans Finset.subset_union_left))
  eq_iff own current set howned := by
    have hsubset : own.cpus ⊆ current.cpus :=
      Finset.union_eq_left.mp (congrArg CpuSet.cpus howned)
    constructor
    · intro heq
      have hcpus : current.cpus ∪ set.cpus = own.cpus := congrArg CpuSet.cpus heq
      have hcurrent : current.cpus ⊆ own.cpus := hcpus ▸ Finset.subset_union_left
      exact ⟨CpuSet.ext (hcurrent.antisymm hsubset), hcpus ▸ Finset.subset_union_right⟩
    · rintro ⟨rfl, habsorbs⟩
      exact CpuSet.ext (Finset.union_eq_left.mpr habsorbs)

theorem cpuSetIntersect_accumulates : @Accumulates Num cpuSetIntersect CpuSet.inter
    fun set other => set.cpus ⊆ other.cpus where
  spec := cpuSetIntersect_spec
  self set := CpuSet.ext (Finset.inter_self set.cpus)
  keeps own current set howned := by
    have hsubset : current.cpus ⊆ own.cpus :=
      Finset.inter_eq_left.mp (congrArg CpuSet.cpus howned)
    exact CpuSet.ext (Finset.inter_eq_left.mpr (Finset.inter_subset_left.trans hsubset))
  eq_iff own current set howned := by
    have hsubset : current.cpus ⊆ own.cpus :=
      Finset.inter_eq_left.mp (congrArg CpuSet.cpus howned)
    constructor
    · intro heq
      have hcpus : current.cpus ∩ set.cpus = own.cpus := congrArg CpuSet.cpus heq
      have hcurrent : own.cpus ⊆ current.cpus := hcpus ▸ Finset.inter_subset_left
      exact ⟨CpuSet.ext (hsubset.antisymm hcurrent), hcpus ▸ Finset.inter_subset_right⟩
    · rintro ⟨rfl, habsorbs⟩
      exact CpuSet.ext (Finset.inter_eq_left.mpr habsorbs)

/-- How the loop ends with a value of the receiver so far, by the conversions of the arguments
that are left. -/
def AccumulateEnds (op : CpuSet → CpuSet → CpuSet) (memory : Nat → CpuSet) (next ref : Nat)
    (outcome : Outcome Num) : CpuSet → List Conversion → Prop
  | current, [] => ∃ after, outcome = .returned [.userdata ref] after ∧ after ref = current ∧
      KeptBut ref next memory after
  | current, .set set :: rest => AccumulateEnds op memory next ref outcome (op current set) rest
  | current, .message msg :: _ => ∃ after, outcome = .returned [.nil, .string msg] after ∧
      after ref = current ∧ KeptBut ref next memory after
  | current, .error :: _ => ∃ after, outcome = .raised after ∧ after ref = current ∧
      KeptBut ref next memory after
  | _, .endless :: _ => outcome = .endless

/-- The machine in the loop, between the arguments that were used and those that are left. -/
structure Accumulating (op : CpuSet → CpuSet → CpuSet) (memory : Nat → CpuSet) (next ref : Nat)
    (own current : CpuSet) (front rest : List (Value Num)) (m : Machine Num) : Prop where
  stack : m.stack = .userdata ref :: front ++ rest
  value : m.memory ref = current
  keptBut : KeptBut ref next memory m.memory
  next_le : next ≤ m.next
  ref_lt : ref < m.next
  initial : ref < next → memory ref = own
  owned : op current own = current

/-- An argument that is the receiver has been changed, but that makes no difference. -/
theorem Accumulating.conversion_spec {current : CpuSet} {front rest : List (Value Num)}
    {m : Machine Num} {v : Value Num} (num : NumberOps Num)
    (haccumulates : Accumulates update op absorbs)
    (hinv : Accumulating op memory next ref own current front rest m) (hvalid : Valid next v) :
    match conversion num m.memory v with
    | .set set => ∃ set', conversion num memory v = .set set' ∧ op current set = op current set'
    | c => conversion num memory v = c := by
  have hunchanged : conversion num m.memory v = conversion num memory v →
      match conversion num m.memory v with
      | .set set =>
          ∃ set', conversion num memory v = .set set' ∧ op current set = op current set'
      | c => conversion num memory v = c := by
    intro hsame
    rw [hsame]
    cases conversion num memory v with
    | set set => exact ⟨set, rfl, rfl⟩
    | _ => rfl
  cases v with
  | userdata r =>
      have hlt := hvalid r rfl
      refine ⟨memory r, rfl, ?_⟩
      by_cases hr : r = ref
      · subst hr
        rw [hinv.value, hinv.initial hlt, haccumulates.self, hinv.owned]
      · rw [hinv.keptBut r hlt hr]
  | _ => exact hunchanged rfl

theorem accumulateLoop_ends (num : NumberOps Num) (haccumulates : Accumulates update op absorbs)
    {rest : List (Value Num)} (hvalid : ∀ v ∈ rest, Valid next v) {front : List (Value Num)}
    {current : CpuSet} {m : Machine Num}
    (hinv : Accumulating op memory next ref own current front rest m) :
    AccumulateEnds op memory next ref
      (accumulateLoop num update ref (List.range' (front.length + 2) rest.length) m).outcome
      current (rest.map (conversion num memory)) := by
  -- Over the arguments that are left: the set so far is at the first index, those in front are
  -- done.
  induction rest generalizing front current m with
  | nil =>
      have htop : setTop 1 m = .done () { m with stack := m.stack.take 1 } := rfl
      refine ⟨m.memory, ?_, hinv.value, hinv.keptBut⟩
      rw [List.length_nil, List.range'_zero, accumulateLoop, Lua.bind_of_done htop, hinv.stack]
      rfl
  | cons v rest ih =>
      obtain ⟨hv, hrest⟩ := List.forall_mem_cons.mp hvalid
      have hslot : m.stack[front.length + 1]? = some v := by
        rw [hinv.stack, List.getElem?_append_right (by simp)]
        simp
      have hconv := luaToCpuSetpAt_spec num hslot (hv.of_le hinv.next_le)
      rw [List.length_cons, List.range'_succ, accumulateLoop, List.map_cons]
      have hsame := hinv.conversion_spec num haccumulates hv
      cases hcase : conversion num m.memory v with
      | endless =>
          rw [hcase] at hconv hsame
          rw [Lua.bind_of_endless hconv, hsame]
          rfl
      | error =>
          rw [hcase] at hconv hsame
          obtain ⟨m', hraised, hmemory⟩ := hconv
          rw [Lua.bind_of_raised hraised, hsame]
          exact ⟨m'.memory, rfl, by rw [hmemory, hinv.value], hmemory ▸ hinv.keptBut⟩
      | message msg =>
          rw [hcase] at hconv hsame
          rw [Lua.bind_of_done hconv, hsame]
          exact ⟨m.memory, outcome_message m msg, hinv.value, hinv.keptBut⟩
      | set set =>
          rw [hcase] at hconv hsame
          obtain ⟨set', hset', hop⟩ := hsame
          obtain ⟨ref', m', hdone, hconverted⟩ := hconv
          have hvalue : m'.memory ref = current := by
            rw [hconverted.kept ref hinv.ref_lt, hinv.value]
          have hupdate := haccumulates.spec ref ref' m'
          rw [hconverted.value, hvalue, hop] at hupdate
          have hstack : m'.stack = .userdata ref :: (front ++ [.userdata ref']) ++ rest := by
            rw [hconverted.stack, hinv.stack]
            simp
          have hnext : Accumulating op memory next ref own (op current set')
              (front ++ [.userdata ref']) rest (m'.write ref (op current set')) := {
            stack := hstack
            value := Machine.write_self m' ref _
            keptBut := fun other hlt hne => by
              rw [Machine.write_of_ne m' hne,
                hconverted.kept other (Nat.lt_of_lt_of_le hlt hinv.next_le)]
              exact hinv.keptBut other hlt hne
            next_le := Nat.le_trans hinv.next_le hconverted.next_le
            ref_lt := Nat.lt_of_lt_of_le hinv.ref_lt hconverted.next_le
            initial := hinv.initial
            owned := haccumulates.keeps own current set' hinv.owned }
          have hends := ih hrest hnext
          rw [List.length_append, List.length_singleton] at hends
          simp only [Lua.bind_of_done hdone, Lua.bind_of_done hupdate, hset']
          exact hends

theorem AccumulateEnds.of_sets {outcome : Outcome Num} {current : CpuSet} {sets : List CpuSet}
    (hends : AccumulateEnds op memory next ref outcome current (sets.map .set)) :
    ∃ after, outcome = .returned [.userdata ref] after ∧ after ref = sets.foldl op current ∧
      KeptBut ref next memory after := by
  induction sets generalizing current with
  | nil => exact hends
  | cons set sets ih => exact ih hends

/-- The sets that were there are as they were when the receiver is. -/
theorem kept_iff {after : Nat → CpuSet} {current : CpuSet} (hvalue : after ref = current)
    (hkept : KeptBut ref next memory after) (hinitial : ref < next → memory ref = own) :
    Kept next memory after ↔ (ref < next → current = own) := by
  constructor
  · intro hall hlt
    rw [← hvalue, hall ref hlt, hinitial hlt]
  · intro hown other hlt
    by_cases hother : other = ref
    · subst hother
      rw [hvalue, hown hlt, hinitial hlt]
    · exact hkept other hlt hother

/-- When an argument does not convert, the call fails and changes nothing exactly when no
argument in front of it changed the receiver. -/
theorem failsKept_iff (haccumulates : Accumulates update op absorbs) {outcome : Outcome Num}
    {current : CpuSet} {conversions : List Conversion}
    (hends : AccumulateEnds op memory next ref outcome current conversions)
    (hnot : ¬ ∀ c ∈ conversions, c.IsSet) (howned : op current own = current)
    (hinitial : ref < next → memory ref = own) :
    outcome.FailsKept next memory ↔ (ref < next → current = own) ∧
      FailsUnchanged (fun other => ref < next → absorbs own other) conversions := by
  induction conversions generalizing current with
  | nil => exact absurd (fun c hc => absurd hc List.not_mem_nil) hnot
  | cons c conversions ih =>
      cases c with
      | set set =>
          have hrest : ¬ ∀ c ∈ conversions, c.IsSet := fun hall =>
            hnot (List.forall_mem_cons.mpr ⟨trivial, hall⟩)
          rw [ih hends hrest (haccumulates.keeps own current set howned),
            haccumulates.eq_iff own current set howned, FailsUnchanged, imp_and, and_assoc]
      | message msg =>
          obtain ⟨after, rfl, hvalue, hkept⟩ := hends
          rw [Outcome.FailsKept, kept_iff hvalue hkept hinitial]
          exact ⟨fun h => ⟨h.2, trivial⟩, fun h => ⟨⟨msg, rfl⟩, h.1⟩⟩
      | error =>
          obtain ⟨after, rfl, hvalue, hkept⟩ := hends
          rw [Outcome.FailsKept, kept_iff hvalue hkept hinitial]
          exact ⟨fun h => ⟨h, trivial⟩, fun h => h.1⟩
      | endless =>
          have hendless : outcome = .endless := hends
          rw [hendless]
          exact ⟨False.elim, fun h => h.2⟩

/-- The set that the first argument is converted to was there if the argument is a set. -/
theorem isUserdata_iff {first : Value Num} (hfirst : IsSetOf next ref first)
    (hvalid : Valid next first) : first.IsUserdata ↔ ref < next := by
  cases first with
  | userdata r =>
      have hr : ref = r := hfirst
      exact iff_of_true trivial (hr ▸ hvalid r rfl)
  | _ => exact iff_of_false id (Nat.not_lt_of_le hfirst)

/-- A call that cannot succeed is all or nothing when it fails and changes nothing. -/
theorem allOrNothing_iff_failsKept {method : Method} {args : List (Value Num)}
    (hnot : ∀ values after, ¬ Succeeds num memory next args values after method) :
    AllOrNothing num method memory next args ↔
      (method.call num memory next args).FailsKept next memory := by
  rw [AllOrNothing]
  cases method.call num memory next args with
  | returned values after => exact or_iff_right (hnot values after)
  | raised after => exact Iff.rfl
  | crashed => exact Iff.rfl
  | endless => exact Iff.rfl

theorem accumulate_allOrNothing (haccumulates : Accumulates update op absorbs) {method : Method}
    {args : List (Value Num)} (hrun : method.run num = accumulate num update)
    (hsucceeds : ∀ values after, Succeeds num memory next args values after method ↔
      AccumulatesTo num memory next args values after op)
    (hvalid : ∀ v ∈ args, Valid next v) :
    AllOrNothing num method memory next args ↔
      AccumulatesSafely absorbs (∃ first ∈ args.head?, first.IsUserdata)
        (args.map (conversion num memory)) := by
  have hcall : method.call num memory next args =
      (accumulate num update ⟨args, memory, next⟩).outcome := by rw [Method.call, hrun]
  have htop : getTop (⟨args, memory, next⟩ : Machine Num) =
      .done args.length ⟨args, memory, next⟩ := rfl
  rw [accumulate, Lua.bind_of_done htop] at hcall
  cases args with
  | nil =>
      rw [Lua.bind_of_raised (luaToCpuSetpAt_none num (Nat.le_refl 0))] at hcall
      refine iff_of_true (.of_failsKept ?_) trivial
      rw [hcall]
      exact Kept.refl next memory
  | cons first rest =>
      obtain ⟨hvalidFirst, hvalidRest⟩ := List.forall_mem_cons.mp hvalid
      have hfirst := luaToCpuSetpAt_first num memory rest hvalidFirst
      rw [List.map_cons]
      cases hconv : conversion num memory first with
      | endless =>
          rw [hconv] at hfirst
          rw [Lua.bind_of_endless hfirst] at hcall
          exact iff_of_false (not_allOrNothing_of_isLost (hcall ▸ trivial)) id
      | error =>
          rw [hconv] at hfirst
          obtain ⟨m, hraised, hmemory⟩ := hfirst
          rw [Lua.bind_of_raised hraised] at hcall
          exact iff_of_true (.of_failsKept (hcall ▸ failsKept_of_raised hmemory)) trivial
      | message msg =>
          rw [hconv] at hfirst
          simp only [Lua.bind_of_done hfirst] at hcall
          have houtcome := outcome_message (⟨first :: rest, memory, next⟩ : Machine Num) msg
          refine iff_of_true (.of_failsKept ?_) trivial
          rw [hcall, houtcome]
          exact ⟨⟨msg, rfl⟩, Kept.refl next memory⟩
      -- The first argument is the set that the others are accumulated into, its own or a copy.
      | set set =>
          rw [hconv] at hfirst
          obtain ⟨ref, m, hdone, hconverted⟩ := hfirst
          simp only [Lua.bind_of_done hdone] at hcall
          have hinitial : ref < next → memory ref = set := fun hlt => by
            rw [← hconverted.value, hconverted.kept ref hlt]
          have hinv : Accumulating op memory next ref set set [] rest m := {
            stack := hconverted.stack
            value := hconverted.value
            keptBut := fun other hlt _ => hconverted.kept other hlt
            next_le := hconverted.next_le
            ref_lt := hconverted.ref_lt
            initial := hinitial
            owned := haccumulates.self set }
          have hends := accumulateLoop_ends num haccumulates hvalidRest hinv
          have hindexes : laterIndexes (first :: rest).length =
              List.range' (([] : List (Value Num)).length + 2) rest.length := rfl
          rw [← hindexes, ← hcall] at hends
          have hisSet : (∃ v ∈ (first :: rest).head?, v.IsUserdata) ↔ ref < next := by
            rw [← isUserdata_iff hconverted.isSetOf hvalidFirst]
            simp
          rw [AccumulatesSafely, hisSet]
          -- If one of them is no set, what was done before stays in the set of the first
          -- argument.
          by_cases hall : ∀ c ∈ rest.map (conversion num memory), c.IsSet
          · obtain ⟨sets, hsets⟩ := (forall_isSet_iff _).mp hall
            rw [hsets] at hends
            obtain ⟨after, hreturned, hvalue, hkept⟩ := hends.of_sets
            rw [allOrNothing_iff_succeeds hreturned (Nat.le_refl 1), hsucceeds]
            refine iff_of_true ?_ (Or.inl hall)
            exact ⟨first, rest, set, sets, ref, rfl, hconv, hsets, hconverted.isSetOf, rfl, hvalue,
              hkept⟩
          · rw [allOrNothing_iff_failsKept, failsKept_iff haccumulates hends hall
              (haccumulates.self set) hinitial]
            · constructor
              · exact fun h => Or.inr h.2
              · intro h
                exact ⟨fun _ => rfl, h.resolve_left hall⟩
            · intro values after hsucceeded
              obtain ⟨_, _, _, sets, _, hargs, _, hsets, _⟩ :=
                (hsucceeds values after).mp hsucceeded
              cases hargs
              exact hall ((forall_isSet_iff _).mpr ⟨sets, hsets⟩)

theorem union_allOrNothing {args : List (Value Num)} (hvalid : ∀ v ∈ args, Valid next v) :
    AllOrNothing num .union memory next args ↔ Safely num memory args .union :=
  accumulate_allOrNothing cpuSetUnion_accumulates rfl (fun _ _ => Iff.rfl) hvalid

theorem intersect_allOrNothing {args : List (Value Num)} (hvalid : ∀ v ∈ args, Valid next v) :
    AllOrNothing num .intersect memory next args ↔ Safely num memory args .intersect :=
  accumulate_allOrNothing cpuSetIntersect_accumulates rfl (fun _ _ => Iff.rfl) hvalid

end Accumulate

end SlurmSpank.LuaSchedutils
