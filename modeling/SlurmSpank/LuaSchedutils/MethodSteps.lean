import SlurmSpank.LuaSchedutils.Methods

/-! # What the parts of a method do

The conversion of one argument has four outcomes, each with what it leaves on the stack. The
loops over the CPUs amount to operations on whole sets.
-/

namespace SlurmSpank.LuaSchedutils

open Foundation Lib

variable {Num : Type}

/-! ## Converting an argument -/

/-- What becomes of an argument that a set is expected for: a set, a message, a Lua error, or a
conversion that does not end. -/
inductive Conversion where
  | set (setp : CpuSet)
  | message (msg : Text)
  | error
  | endless

/-- The outcome for a nil, a number or a string. -/
def Conversion.ofResult : Option (Except Text CpuSet) → Conversion
  | none => endless
  | some (.error msg) => message msg
  | some (.ok setp) => set setp

/-- The conversion of an argument. -/
def conversion (num : NumberOps Num) (memory : Nat → CpuSet) : Value Num → Conversion
  | .userdata ref => .set (memory ref)
  | .nil => .ofResult (luaToCpuSetp .nil)
  | .number n => .ofResult (luaToCpuSetp (.number (num.toInteger n)))
  | .string s => .ofResult (luaToCpuSetp (.string s))
  | .boolean _ => .error
  | .other => .error

/-- The set that an argument is converted to is the argument itself, or new. -/
def IsSetOf (next ref : Nat) : Value Num → Prop
  | .userdata own => ref = own
  | _ => next ≤ ref

/-- An argument refers to memory that was handed out. -/
def Valid (next : Nat) (v : Value Num) : Prop := ∀ ref, v = .userdata ref → ref < next

/-- The sets that were there are as they were. -/
def Kept (next : Nat) (before after : Nat → CpuSet) : Prop :=
  ∀ ref < next, after ref = before ref

theorem Kept.refl (next : Nat) (memory : Nat → CpuSet) : Kept next memory memory :=
  fun _ _ => rfl

theorem Kept.trans {next next' : Nat} {first second third : Nat → CpuSet}
    (hfirst : Kept next first second) (hle : next ≤ next') (hsecond : Kept next' second third) :
    Kept next first third := by
  intro ref hlt
  rw [hsecond ref (Nat.lt_of_lt_of_le hlt hle), hfirst ref hlt]

theorem conversion_of_kept {num : NumberOps Num} {next : Nat} {before after : Nat → CpuSet}
    (hkept : Kept next before after) {v : Value Num} (hvalid : Valid next v) :
    conversion num after v = conversion num before v := by
  cases v with
  | userdata ref => rw [conversion, conversion, hkept ref (hvalid ref rfl)]
  | _ => rfl

/-- The machine after an argument was converted to the set at an address. -/
structure Converted (m m' : Machine Num) (slot : Nat) (v : Value Num) (set : CpuSet)
    (ref : Nat) : Prop where
  stack : m'.stack = m.stack.set slot (.userdata ref)
  value : m'.memory ref = set
  isSetOf : IsSetOf m.next ref v
  kept : Kept m.next m.memory m'.memory
  next_le : m.next ≤ m'.next
  ref_lt : ref < m'.next

/-- What a conversion of the value in a slot leaves. -/
def ConvertsAs (m : Machine Num) (slot : Nat) (v : Value Num)
    (result : Result Num (Option Nat)) : Conversion → Prop
  | .set set => ∃ ref m', result = .done (some ref) m' ∧ Converted m m' slot v set ref
  | .message msg =>
      result = .done none ⟨m.stack ++ [.userdata m.next, .nil, .string msg], m.memory, m.next + 1⟩
  | .error => ∃ m', result = .raised m' ∧ m'.memory = m.memory
  | .endless => result = .endless

theorem replace_top (stack : List (Value Num)) (memory : Nat → CpuSet) (next : Nat) {slot : Nat}
    (hslot : slot < stack.length) (v : Value Num) :
    replace (slot + 1) ⟨stack ++ [v], memory, next⟩ =
      .done () ⟨stack.set slot v, memory, next⟩ := by
  simp only [replace, Nat.add_sub_cancel, List.getLastD_concat, List.set_append_left _ _ hslot,
    List.dropLast_concat]

theorem storeSet_spec {m : Machine Num} {slot : Nat} {v : Value Num}
    (hslot : slot < m.stack.length) (hnew : IsSetOf m.next m.next v)
    (converted : Option (Except Text CpuSet)) :
    ConvertsAs m slot v (storeSet (slot + 1) m.next converted m.allocated)
      (.ofResult converted) := by
  cases converted with
  | none => rfl
  | some converted =>
      cases converted with
      | error msg =>
          have hstack : ((m.allocated.push .nil).push (.string msg)).stack =
              m.stack ++ [.userdata m.next, .nil, .string msg] := by
            simp [Machine.push, Machine.allocated]
          rw [Conversion.ofResult, ConvertsAs, ← hstack]
          rfl
      | ok set =>
          refine ⟨m.next, ⟨m.stack.set slot (.userdata m.next),
            Function.update m.memory m.next set, m.next + 1⟩, ?_, ?_⟩
          · have hreplace := replace_top m.stack (Function.update m.memory m.next set) (m.next + 1)
              hslot (.userdata m.next)
            have hwrite : writeSet m.next set m.allocated = .done ()
                ⟨m.stack ++ [.userdata m.next], Function.update m.memory m.next set, m.next + 1⟩ :=
              rfl
            rw [storeSet, Lua.bind_of_done hwrite, Lua.bind_of_done hreplace, Lua.pure_apply]
          · exact {
              stack := rfl
              value := Function.update_self m.next set m.memory
              isSetOf := hnew
              kept := fun ref hlt => Function.update_of_ne (Nat.ne_of_lt hlt) set m.memory
              next_le := Nat.le_succ m.next
              ref_lt := Nat.lt_succ_self m.next }

/-- The conversion of the value in a slot of the stack. -/
theorem luaToCpuSetpAt_spec (num : NumberOps Num) {m : Machine Num} {slot : Nat} {v : Value Num}
    (hslot : m.stack[slot]? = some v) (hvalid : Valid m.next v) :
    ConvertsAs m slot v (luaToCpuSetpAt num (slot + 1) m) (conversion num m.memory v) := by
  have hlt : slot < m.stack.length := (List.getElem?_eq_some_iff.mp hslot).1
  have hfirst : valueAt (slot + 1) m = .done (some v) m := by
    rw [valueAt, Nat.add_sub_cancel, hslot]
  have hsecond : valueAt (slot + 1) m.allocated = .done (some v) m.allocated := by
    rw [valueAt, Nat.add_sub_cancel, Machine.allocated, List.getElem?_append_left hlt, hslot]
  have hvalue : m.stack.get ⟨slot, hlt⟩ = v := (List.getElem?_eq_some_iff.mp hslot).2
  have halloc : lCpuSetAlloc m = .done m.next m.allocated := rfl
  rw [luaToCpuSetpAt, Lua.bind_of_done hfirst]
  cases v with
  | userdata ref =>
      refine ⟨ref, m, rfl, ?_⟩
      exact {
        stack := by
          rw [← hvalue]
          exact (List.set_getElem_self hlt).symm
        value := rfl
        isSetOf := rfl
        kept := Kept.refl m.next m.memory
        next_le := Nat.le_refl m.next
        ref_lt := hvalid ref rfl }
  | nil =>
      have hnew : IsSetOf m.next m.next (Value.nil : Value Num) := Nat.le_refl m.next
      simp only [Lua.bind_of_done halloc, Lua.bind_of_done hsecond]
      exact storeSet_spec hlt hnew (luaToCpuSetp .nil)
  | number n =>
      have hnew : IsSetOf m.next m.next (Value.number n) := Nat.le_refl m.next
      simp only [Lua.bind_of_done halloc, Lua.bind_of_done hsecond]
      exact storeSet_spec hlt hnew (luaToCpuSetp (.number (num.toInteger n)))
  | string s =>
      have hnew : IsSetOf m.next m.next (Value.string s : Value Num) := Nat.le_refl m.next
      simp only [Lua.bind_of_done halloc, Lua.bind_of_done hsecond]
      exact storeSet_spec hlt hnew (luaToCpuSetp (.string s))
  | boolean b =>
      simp only [Lua.bind_of_done halloc, Lua.bind_of_done hsecond]
      exact ⟨m.allocated, rfl, rfl⟩
  | other =>
      simp only [Lua.bind_of_done halloc, Lua.bind_of_done hsecond]
      exact ⟨m.allocated, rfl, rfl⟩

/-- A set is expected where the stack has nothing. -/
theorem luaToCpuSetpAt_none (num : NumberOps Num) {m : Machine Num} {slot : Nat}
    (hslot : m.stack.length ≤ slot) :
    luaToCpuSetpAt num (slot + 1) m = .raised m.allocated := by
  have hfirst : valueAt (slot + 1) m = .done none m := by
    rw [valueAt, Nat.add_sub_cancel, List.getElem?_eq_none hslot]
  have halloc : lCpuSetAlloc m = .done m.next m.allocated := rfl
  rw [luaToCpuSetpAt, Lua.bind_of_done hfirst]
  simp only [Lua.bind_of_done halloc]
  rcases Nat.eq_or_lt_of_le hslot with heq | hlt
  · have hsecond :
        valueAt (slot + 1) m.allocated = .done (some (.userdata m.next)) m.allocated := by
      rw [valueAt, Nat.add_sub_cancel, Machine.allocated, ← heq, List.getElem?_concat_length]
    simp only [Lua.bind_of_done hsecond]
    rfl
  · have hsecond : valueAt (slot + 1) m.allocated = .done none m.allocated := by
      rw [valueAt, Nat.add_sub_cancel, Machine.allocated, List.getElem?_eq_none (by simp; omega)]
    simp only [Lua.bind_of_done hsecond]
    rfl

/-! ## Loops over the CPUs -/

/-- A loop that writes each bit of one set makes the set of these bits, even when a bit comes
from the set that is written. -/
theorem eachCpu_spec {body : Nat → Lua Num Unit} (ref : Nat) (bit : Nat → (Nat → CpuSet) → Bool)
    (hbody : ∀ i < cpuSetSize, ∀ m : Machine Num,
      body i m = .done () (m.write ref ((m.memory ref).putBit i (bit i m.memory))))
    (hlocal : ∀ i before after, (∀ r, (before r).isset i = (after r).isset i) →
      bit i before = bit i after)
    {m : Machine Num} {target : CpuSet}
    (htarget : ∀ i < cpuSetSize, target.isset i = bit i m.memory) :
    eachCpu body allCpus m = .done () (m.write ref target) := by
  have hloop : ∀ count start (current : CpuSet), start + count = cpuSetSize →
      (∀ i < start, current.isset i = target.isset i) →
      (∀ i, start ≤ i → current.isset i = (m.memory ref).isset i) →
      eachCpu body (List.range' start count) (m.write ref current) =
        .done () (m.write ref target) := by
    intro count
    induction count with
    | zero =>
        intro start current hsum hdone _
        have heq : current = target :=
          CpuSet.ext_isset fun i hi => hdone i (by omega)
        rw [List.range'_zero, eachCpu, heq]
        rfl
    | succ count ih =>
        intro start current hsum hdone hrest
        have hstart : start < cpuSetSize := by omega
        -- the bits of the current turn are still as they were
        have hbit : bit start (m.write ref current).memory = target.isset start := by
          rw [htarget start hstart]
          apply hlocal
          intro r
          by_cases hr : r = ref
          · rw [hr, Machine.write_self]
            exact hrest start (Nat.le_refl start)
          · rw [Machine.write_of_ne m hr]
        rw [List.range'_succ, eachCpu, Lua.bind_of_done (hbody start hstart _), hbit,
          Machine.write_self, Machine.write_write]
        refine ih (start + 1) (current.putBit start (target.isset start)) (by omega) ?_ ?_
        · intro i hi
          rw [CpuSet.isset_putBit hstart]
          split
          next heq => rw [heq]
          next hne => exact hdone i (by omega)
        · intro i hi
          rw [CpuSet.isset_putBit hstart, if_neg (by omega)]
          exact hrest i (by omega)
  have hall := hloop cpuSetSize 0 (m.memory ref) (Nat.zero_add _)
    (fun i hi => absurd hi (Nat.not_lt_zero i)) (fun i _ => rfl)
  rw [Machine.write_memory] at hall
  exact hall

theorem cpuSet_inRange {i : Nat} (hi : i < cpuSetSize) (ref : Nat) (m : Machine Num) :
    cpuSet i (some ref) m = .done () (m.write ref ((m.memory ref).putBit i true)) := by
  rw [cpuSet, if_pos ⟨Int.natCast_nonneg i, Int.ofNat_lt.mpr hi⟩]
  rfl

theorem cpuClr_inRange {i : Nat} (hi : i < cpuSetSize) (ref : Nat) (m : Machine Num) :
    cpuClr i (some ref) m = .done () (m.write ref ((m.memory ref).putBit i false)) := by
  rw [cpuClr, if_pos ⟨Int.natCast_nonneg i, Int.ofNat_lt.mpr hi⟩]
  rfl

theorem cpuIsset_apply (i ref : Nat) (m : Machine Num) :
    cpuIsset i (some ref) m = .done ((m.memory ref).isset i) m := rfl

/-- Leaving a bit alone writes it as it is. -/
theorem write_putBit_isset {i : Nat} (hi : i < cpuSetSize) {ref : Nat} {m : Machine Num}
    {bit : Bool} (hbit : (m.memory ref).isset i = bit) :
    m.write ref ((m.memory ref).putBit i bit) = m := by
  rw [← hbit, CpuSet.putBit_isset hi, Machine.write_memory]

theorem cpuSetUnion_spec (setp s : Nat) (m : Machine Num) :
    cpuSetUnion setp s m =
      .done () (m.write setp ((m.memory setp).union (m.memory s))) := by
  refine eachCpu_spec setp (fun i memory => (memory setp).isset i || (memory s).isset i)
    (fun i hi m => ?_) (fun i before after hsame => ?_) (fun i _ => ?_)
  · rw [Lua.bind_of_done (cpuIsset_apply i s m)]
    cases (m.memory s).isset i with
    | true => simp only [if_true, cpuSet_inRange hi, Bool.or_true]
    | false =>
        rw [Bool.or_false, write_putBit_isset hi rfl]
        rfl
  · simp only [hsame]
  · exact CpuSet.isset_union _ _ i

theorem cpuSetIntersect_spec (setp s : Nat) (m : Machine Num) :
    cpuSetIntersect setp s m =
      .done () (m.write setp ((m.memory setp).inter (m.memory s))) := by
  refine eachCpu_spec setp (fun i memory => (memory setp).isset i && (memory s).isset i)
    (fun i hi m => ?_) (fun i before after hsame => ?_) (fun i _ => ?_)
  · rw [Lua.bind_of_done (cpuIsset_apply i setp m)]
    cases hsetp : (m.memory setp).isset i with
    | false =>
        rw [Bool.false_and, write_putBit_isset hi hsetp]
        rfl
    | true =>
        simp only [if_true, Bool.true_and]
        rw [Lua.bind_of_done (cpuIsset_apply i s m)]
        cases (m.memory s).isset i with
        | false => simp only [Bool.not_false, if_true, cpuClr_inRange hi]
        | true =>
            rw [write_putBit_isset hi hsetp]
            rfl
  · simp only [hsame]
  · exact CpuSet.isset_inter _ _ i

theorem addLoop_spec (result s1 s2 : Nat) (m : Machine Num) :
    addLoop result s1 s2 m =
      .done () (m.write result ((m.memory s1).union (m.memory s2))) := by
  refine eachCpu_spec result (fun i memory => (memory s1).isset i || (memory s2).isset i)
    (fun i hi m => ?_) (fun i before after hsame => ?_) (fun i _ => ?_)
  · rw [Lua.bind_of_done (cpuIsset_apply i s1 m)]
    cases (m.memory s1).isset i with
    | true => simp only [if_true, cpuSet_inRange hi, Bool.true_or]
    | false =>
        simp only [Bool.false_eq_true, if_false, Bool.false_or]
        rw [Lua.bind_of_done (cpuIsset_apply i s2 m)]
        cases (m.memory s2).isset i with
        | true => simp only [if_true, cpuSet_inRange hi]
        | false => simp only [Bool.false_eq_true, if_false, cpuClr_inRange hi]
  · simp only [hsame]
  · exact CpuSet.isset_union _ _ i

theorem subtractLoop_spec (result s1 s2 : Nat) (m : Machine Num) :
    subtractLoop result (some s1) s2 m =
      .done () (m.write result ((m.memory s1).diff (m.memory s2))) := by
  refine eachCpu_spec result (fun i memory => (memory s1).isset i && !(memory s2).isset i)
    (fun i hi m => ?_) (fun i before after hsame => ?_) (fun i _ => ?_)
  · rw [Lua.bind_of_done (cpuIsset_apply i s1 m)]
    cases (m.memory s1).isset i with
    | false => simp only [Bool.false_eq_true, if_false, cpuClr_inRange hi, Bool.false_and]
    | true =>
        simp only [if_true, Bool.true_and]
        rw [Lua.bind_of_done (cpuIsset_apply i s2 m)]
        cases (m.memory s2).isset i with
        | false => simp only [Bool.not_false, if_true, cpuSet_inRange hi]
        | true => simp only [Bool.not_true, Bool.false_eq_true, if_false, cpuClr_inRange hi]
  · simp only [hsame]
  · exact CpuSet.isset_diff _ _ i

theorem allCpus_eq : allCpus = 0 :: List.range' 1 (cpuSetSize - 1) := by
  have hsize : cpuSetSize = cpuSetSize - 1 + 1 := rfl
  rw [allCpus, hsize, List.range'_succ]
  rfl

theorem cpuIsset_none (i : Nat) (m : Machine Num) : cpuIsset i none m = .crashed := rfl

/-- The first turn reads through the null pointer. -/
theorem subtractLoop_none (result s2 : Nat) (m : Machine Num) :
    subtractLoop result none s2 m = .crashed := by
  rw [subtractLoop, allCpus_eq, eachCpu]
  exact Lua.bind_of_crashed (Lua.bind_of_crashed (cpuIsset_none 0 m) _) _

theorem isInLoop_spec (s1 s2 : Nat) (cpus : List Nat) (m : Machine Num) :
    isInLoop (some s1) (some s2) cpus m =
      .done (cpus.all fun i => !(m.memory s1).isset i || (m.memory s2).isset i) m := by
  induction cpus with
  | nil => rfl
  | cons i cpus ih =>
      rw [isInLoop, Lua.bind_of_done (cpuIsset_apply i s1 m), List.all_cons]
      cases (m.memory s1).isset i with
      | false => simpa using ih
      | true =>
          simp only [if_true, Bool.not_true, Bool.false_or]
          rw [Lua.bind_of_done (cpuIsset_apply i s2 m)]
          cases (m.memory s2).isset i with
          | false => rfl
          | true => simpa using ih

theorem equalsLoop_spec (s1 s2 : Nat) (cpus : List Nat) (m : Machine Num) :
    equalsLoop (some s1) (some s2) cpus m =
      .done (cpus.all fun i => (m.memory s1).isset i == (m.memory s2).isset i) m := by
  induction cpus with
  | nil => rfl
  | cons i cpus ih =>
      rw [equalsLoop, Lua.bind_of_done (cpuIsset_apply i s1 m),
        Lua.bind_of_done (cpuIsset_apply i s2 m), List.all_cons]
      split
      next hne =>
        rw [beq_eq_false_iff_ne.mpr hne]
        rfl
      next heq =>
        rw [beq_iff_eq.mpr (Classical.not_not.mp heq), Bool.true_and]
        exact ih

theorem countLoop_spec (setp : Nat) (cpus : List Nat) (n : Nat) (m : Machine Num) :
    countLoop (some setp) cpus n m =
      .done (n + (cpus.filter (m.memory setp).isset).length) m := by
  induction cpus generalizing n with
  | nil => rfl
  | cons i cpus ih =>
      rw [countLoop, Lua.bind_of_done (cpuIsset_apply i setp m), ih, List.filter_cons]
      cases (m.memory setp).isset i with
      | true => simp only [if_true, List.length_cons]; congr 1; omega
      | false => simp only [Bool.false_eq_true, if_false]

end SlurmSpank.LuaSchedutils

