import SlurmSpank.LuaSchedutils.ListElement

/-! # Which CPU lists are read

A list has elements of the grammar only, with commas between them. `cstr_to_cpuset` takes more
than that, it does not come to an end with a stride of zero, and the CPUs that it sets for a very
large stride go down from the first one, because the sum wraps around.
-/

namespace SlurmSpank.LuaSchedutils

open Foundation Lib

/-! ## Lists -/

/-- Elements with commas between them, or nothing. -/
def IsCpuList (str : Text) : Prop :=
  str = [] ∨ ∀ piece ∈ str.splitOn ',', ∃ a b s, IsElement piece a b s

/-- An element of the string holds a CPU. -/
def Listed (str : Text) (cpu : Nat) : Prop :=
  ∃ piece ∈ str.splitOn ',', ∃ a b s, IsElement piece a b s ∧ cpu ≤ b ∧ ∃ j, cpu = a + j * s

/-- `cstr_to_cpuset` returns, accepts lists only, and gives the CPUs of their elements. -/
def ReadsCpuList (str : Text) : Prop :=
  ∃ rc mask, cstrToCpuset str = some (rc, mask) ∧ (rc = 0 ↔ IsCpuList str) ∧
    (rc = 0 → ∀ cpu, cpu ∈ mask.cpus ↔ Listed str cpu)

/-- Of the elements, one is not taken, or something is left over behind the last one, and no
element in front has a stride of zero. -/
inductive ListRefused : List Text → Prop
  | element {piece : Text} {rest : List Text} (hnot : ∀ a b s left, ¬ Takes piece a b s left) :
      ListRefused (piece :: rest)
  | leftOver {piece left : Text} {a b s : Nat} (htakes : Takes piece a b s left) (hs : s ≠ 0)
      (hleft : left ≠ []) : ListRefused [piece]
  | later {piece left : Text} {rest : List Text} {a b s : Nat} (htakes : Takes piece a b s left)
      (hs : s ≠ 0) (hrest : ListRefused rest) : ListRefused (piece :: rest)

/-- The strings for which the reading is exact. Where the sum of a CPU and the stride of its
element wraps around, the CPUs below are in the list. What is no list is refused. -/
structure CpuListReadable (str : Text) : Prop where
  listed : IsCpuList str → ∀ piece ∈ str.splitOn ',', ∀ a b s, IsElement piece a b s →
    ∀ cpu j, cpu + j * (2 ^ 64 - ulong s) = a → Listed str cpu
  refused : ¬ IsCpuList str → ListRefused (str.splitOn ',')

/-! ## The CPUs of a range -/

/-- The CPUs that the loop comes to. -/
def Walked (a b s cpu : Nat) : Prop :=
  (cpu ≤ b ∧ ∃ j, cpu = a + j * s) ∨ ∃ j, cpu + j * (2 ^ 64 - s) = a

variable {a b s turns : Nat}

theorem setRange_zero (hle : a ≤ b) (ha : a < 2 ^ 64) (turns : Nat) (mask : CpuSet) :
    setRange b 0 turns a mask = none := by
  induction turns generalizing mask with
  | zero => rfl
  | succ turns ih =>
      rw [setRange, if_pos hle, Nat.add_zero, Nat.mod_eq_of_lt ha]
      exact ih (mask.set a)

/-- With a larger stride the sum wraps around, and the CPUs go down as far as they can. -/
theorem setRange_down (hs : s < 2 ^ 64) (hsum : 2 ^ 64 < s + cpuSetSize) (hb : b < cpuSetSize)
    (hle : a ≤ b) (hturns : a + 2 ≤ turns) (mask : CpuSet) :
    ∃ result, setRange b s turns a mask = some result ∧
      ∀ cpu, cpu ∈ result.cpus ↔ cpu ∈ mask.cpus ∨ ∃ j, cpu + j * (2 ^ 64 - s) = a := by
  induction turns generalizing a mask with
  | zero => exact absurd hturns (Nat.not_succ_le_zero _)
  | succ turns ih =>
      have ha := Nat.lt_of_le_of_lt hle hb
      unfold cpuSetSize at hsum hb ha
      rw [setRange, if_pos hle]
      by_cases hdown : 2 ^ 64 ≤ a + s
      · have hwrap : (a + s) % 2 ^ 64 = a - (2 ^ 64 - s) := by omega
        rw [hwrap]
        obtain ⟨result, hloop, hmem⟩ :=
          ih (a := a - (2 ^ 64 - s)) (by omega) (by omega) (mask.set a)
        refine ⟨result, hloop, fun cpu => ?_⟩
        rw [mem_set_iff ha hmem]
        apply or_congr_right
        constructor
        · rintro (rfl | ⟨j, hj⟩)
          · exact ⟨0, by omega⟩
          · exact ⟨j + 1, by rw [Nat.succ_mul]; omega⟩
        · rintro ⟨j, hj⟩
          cases j with
          | zero => exact Or.inl (by omega)
          | succ j =>
              rw [Nat.succ_mul] at hj
              exact Or.inr ⟨j, by omega⟩
      · rw [Nat.mod_eq_of_lt (by omega)]
        cases turns with
        | zero => omega
        | succ turns =>
            rw [setRange, if_neg (by omega)]
            refine ⟨mask.set a, rfl, fun cpu => ?_⟩
            rw [CpuSet.set_cpus ha, Finset.mem_insert, or_comm]
            apply or_congr_right
            constructor
            · rintro rfl
              exact ⟨0, by omega⟩
            · rintro ⟨j, hj⟩
              cases j with
              | zero => omega
              | succ j =>
                  rw [Nat.succ_mul] at hj
                  omega

theorem setRange_walked (hs : s ≠ 0) (hlt : s < 2 ^ 64) (hle : a ≤ b) (hb : b < cpuSetSize)
    (mask : CpuSet) : ∃ result, setRange b s (cpuSetSize + 1) a mask = some result ∧
      ∀ cpu, cpu ∈ result.cpus ↔ cpu ∈ mask.cpus ∨ Walked a b s cpu := by
  unfold Walked
  by_cases hsum : s + cpuSetSize ≤ 2 ^ 64
  · obtain ⟨result, hloop, hmem⟩ := setRange_up (Nat.pos_of_ne_zero hs) hsum hb
      (Nat.succ_pos cpuSetSize) (by omega) mask
    refine ⟨result, hloop, fun cpu =>
      (hmem cpu).trans (or_congr_right (or_iff_left_of_imp ?_).symm)⟩
    rintro ⟨j, hj⟩
    cases j with
    | zero => exact ⟨by omega, 0, by omega⟩
    | succ j =>
        rw [Nat.succ_mul] at hj
        omega
  · obtain ⟨result, hloop, hmem⟩ := setRange_down hlt (Nat.not_le.mp hsum) hb hle
      (show a + 2 ≤ cpuSetSize + 1 by omega) mask
    refine ⟨result, hloop, fun cpu =>
      (hmem cpu).trans (or_congr_right (or_iff_right_of_imp ?_).symm)⟩
    rintro ⟨hend, j, rfl⟩
    cases j with
    | zero => exact ⟨0, by omega⟩
    | succ j =>
        unfold cpuSetSize at hsum hb
        rw [Nat.succ_mul] at hend
        omega

/-- A stride that does not fit an `unsigned long` is as good as the largest one. -/
theorem walked_ulong_iff (hb : b < cpuSetSize) (cpu : Nat) :
    Walked a b (ulong s) cpu ↔
      (cpu ≤ b ∧ ∃ j, cpu = a + j * s) ∨ ∃ j, cpu + j * (2 ^ 64 - ulong s) = a := by
  refine or_congr_left (and_congr_right fun hend => exists_congr fun j => ?_)
  by_cases hs : s < 2 ^ 64
  · rw [ulong_of_lt hs]
  · have hlarge : ulong s = 2 ^ 64 - 1 := by
      unfold ulong
      omega
    unfold cpuSetSize at hb
    rw [hlarge]
    cases j with
    | zero => omega
    | succ j =>
        have hmul : 2 ^ 64 - 1 ≤ (j + 1) * s := by
          rw [Nat.succ_mul]
          omega
        omega

/-! ## The loop over the elements -/

theorem not_listRefused_nil : ¬ ListRefused [] := fun hrefused => nomatch hrefused

/-- Behind an element that is taken it is up to its stride and the others. -/
theorem listRefused_cons_iff {piece left : Text} {rest : List Text} (hpiece : ',' ∉ piece)
    (htakes : Takes piece a b s left) :
    ListRefused (piece :: rest) ↔ s ≠ 0 ∧ (rest = [] ∧ left ≠ [] ∨ ListRefused rest) := by
  constructor
  · intro hrefused
    cases hrefused with
    | element hnot => exact absurd htakes (hnot a b s left)
    | leftOver htakes' hs hleft =>
        obtain ⟨-, -, rfl, rfl⟩ := htakes.unique hpiece htakes'
        exact ⟨hs, Or.inl ⟨rfl, hleft⟩⟩
    | later htakes' hs hrest =>
        obtain ⟨-, -, rfl, -⟩ := htakes.unique hpiece htakes'
        exact ⟨hs, Or.inr hrest⟩
  · rintro ⟨hs, ⟨rfl, hleft⟩ | hrest⟩
    · exact .leftOver htakes hs hleft
    · exact .later htakes hs hrest

/-- An element that is not taken, and one with a stride of zero, is the last one that is read. -/
theorem cstrToCpusetLoop_none {p : Text} {mask : CpuSet} (hread : readRange p = none) :
    cstrToCpusetLoop p mask = some (1, mask) := by
  rw [cstrToCpusetLoop, hread]

@[inherit_doc cstrToCpusetLoop_none]
theorem cstrToCpusetLoop_endless {p left : Text} {mask : CpuSet}
    (hread : readRange p = some (a, b, 0, left)) (hle : a ≤ b) (ha : a < 2 ^ 64) :
    cstrToCpusetLoop p mask = none := by
  rw [cstrToCpusetLoop, hread]
  dsimp only
  rw [setRange_zero hle ha]
  rfl

/-- One turn of the loop, up to a comma or the end. -/
theorem cstrToCpusetLoop_cases {piece rest : Text} (hpiece : ',' ∉ piece) (hrest : AtComma rest)
    (mask : CpuSet) :
    ((∀ a b s left, ¬ Takes piece a b s left) ∧
        cstrToCpusetLoop (piece ++ rest) mask = some (1, mask)) ∨
      ∃ a b s left, Takes piece a b s left ∧
        readRange (piece ++ rest) = some (a, b, s, left ++ rest) ∧
        ((s = 0 ∧ cstrToCpusetLoop (piece ++ rest) mask = none) ∨
          s ≠ 0 ∧ ∃ result, setRange b s (cpuSetSize + 1) a mask = some result ∧
            ∀ cpu, cpu ∈ result.cpus ↔ cpu ∈ mask.cpus ∨ Walked a b s cpu) := by
  cases hread : readRange (piece ++ rest) with
  | none =>
      refine Or.inl ⟨fun a b s left htakes => ?_, cstrToCpusetLoop_none hread⟩
      have hsome := (readRange_append_iff hpiece hrest).mpr ⟨left, rfl, htakes⟩
      exact absurd (hread.symm.trans hsome) (Option.some_ne_none _).symm
  | some range =>
      obtain ⟨a, b, s, left'⟩ := range
      obtain ⟨left, rfl, htakes⟩ := (readRange_append_iff hpiece hrest).mp hread
      obtain ⟨hle, hb⟩ := htakes.bounds
      refine Or.inr ⟨a, b, s, left, htakes, rfl, ?_⟩
      by_cases hs : s = 0
      · subst hs
        have ha : a < 2 ^ 64 := (Nat.lt_of_le_of_lt hle hb).trans (by decide)
        exact Or.inl ⟨rfl, cstrToCpusetLoop_endless hread hle ha⟩
      · exact Or.inr ⟨hs, setRange_walked hs htakes.stride_lt hle hb mask⟩

/-- The loop ends with a failure exactly if the list is refused. -/
theorem cstrToCpusetLoop_failed_iff (p : Text) (mask : CpuSet) :
    (∃ rc mask', cstrToCpusetLoop p mask = some (rc, mask') ∧ rc ≠ 0) ↔
      ListRefused (p.splitOn ',') := by
  -- Over the pieces between the commas, with the mask of those in front.
  induction p using separated_induction ',' generalizing mask with
  | last piece hpiece =>
      rw [List.splitOn_eq_singleton hpiece]
      have hturn := cstrToCpusetLoop_cases hpiece (Or.inl rfl) mask
      simp only [List.append_nil] at hturn
      rcases hturn with ⟨hnot, hloop⟩ | ⟨a, b, s, left, htakes, hread, hstride⟩
      · exact iff_of_true ⟨1, mask, hloop, by decide⟩ (.element hnot)
      · rw [listRefused_cons_iff hpiece htakes]
        rcases hstride with ⟨rfl, hnone⟩ | ⟨hs, result, hset, -⟩
        · refine iff_of_false ?_ fun hrefused => hrefused.1 rfl
          rintro ⟨rc, mask', hsome, -⟩
          exact absurd (hnone.symm.trans hsome) (Option.some_ne_none _).symm
        · have hloop := cstrToCpusetLoop_last hread hset (nexttoken_last hpiece)
          rw [hloop]
          by_cases hleft : left = []
          · rw [if_neg (not_not.mpr hleft)]
            refine iff_of_false ?_ ?_
            · rintro ⟨rc, mask', hsome, hne⟩
              exact hne (Prod.mk.inj (Option.some_inj.mp hsome)).1.symm
            · rintro ⟨-, ⟨-, hne⟩ | hnil⟩
              · exact hne hleft
              · exact not_listRefused_nil hnil
          · rw [if_pos hleft]
            exact iff_of_true ⟨1, result, rfl, by decide⟩ ⟨hs, Or.inl ⟨rfl, hleft⟩⟩
  | next piece rest hpiece ih =>
      rw [List.splitOn_append_cons_self_of_not_mem hpiece]
      rcases cstrToCpusetLoop_cases hpiece (Or.inr ⟨rest, rfl⟩) mask with
        ⟨hnot, hloop⟩ | ⟨a, b, s, left, htakes, hread, hstride⟩
      · exact iff_of_true ⟨1, mask, hloop, by decide⟩ (.element hnot)
      · rw [listRefused_cons_iff hpiece htakes]
        rcases hstride with ⟨rfl, hnone⟩ | ⟨hs, result, hset, -⟩
        · refine iff_of_false ?_ fun hrefused => hrefused.1 rfl
          rintro ⟨rc, mask', hsome, -⟩
          exact absurd (hnone.symm.trans hsome) (Option.some_ne_none _).symm
        · rw [cstrToCpusetLoop_next hread hset (nexttoken_next hpiece rest), ih result,
            or_iff_right fun hend => List.splitOn_ne_nil ',' rest hend.1]
          exact (and_iff_right hs).symm

/-- The turn for an element of the grammar. -/
theorem readRange_isElement {piece rest : Text} (hpiece : ',' ∉ piece) (hrest : AtComma rest)
    (helement : ∃ a b s, IsElement piece a b s) (mask : CpuSet) :
    ∃ a b s result, readRange (piece ++ rest) = some (a, b, s, rest) ∧
      setRange b s (cpuSetSize + 1) a mask = some result ∧
        ∀ cpu, cpu ∈ result.cpus ↔ cpu ∈ mask.cpus ∨
          ∃ a b s, IsElement piece a b s ∧ Walked a b (ulong s) cpu := by
  obtain ⟨a, b, s, helement⟩ := helement
  obtain ⟨hle, hb, hs⟩ := helement.bounds
  have htakes := helement.takes
  have hne : ulong s ≠ 0 := by
    unfold ulong
    omega
  obtain ⟨result, hset, hmem⟩ := setRange_walked hne htakes.stride_lt hle hb mask
  have hread := (readRange_append_iff hpiece hrest).mpr ⟨[], rfl, htakes⟩
  refine ⟨a, b, ulong s, result, hread, hset, fun cpu => ?_⟩
  rw [hmem]
  apply or_congr_right
  constructor
  · intro hwalked
    exact ⟨a, b, s, helement, hwalked⟩
  · rintro ⟨a', b', s', helement', hwalked⟩
    obtain ⟨rfl, rfl, hsame, -⟩ := htakes.unique hpiece helement'.takes
    rwa [hsame]

/-- A list is read to its end, and gives the CPUs that the loop comes to for each element. -/
theorem cstrToCpusetLoop_listed (p : Text) (mask : CpuSet)
    (hlist : ∀ piece ∈ p.splitOn ',', ∃ a b s, IsElement piece a b s) :
    ∃ result, cstrToCpusetLoop p mask = some (0, result) ∧ ∀ cpu, cpu ∈ result.cpus ↔
      cpu ∈ mask.cpus ∨ ∃ piece ∈ p.splitOn ',', ∃ a b s, IsElement piece a b s ∧
        Walked a b (ulong s) cpu := by
  induction p using separated_induction ',' generalizing mask with
  | last piece hpiece =>
      rw [List.splitOn_eq_singleton hpiece] at hlist ⊢
      obtain ⟨a, b, s, result, hread, hset, hmem⟩ :=
        readRange_isElement hpiece (Or.inl rfl) (hlist piece List.mem_cons_self) mask
      rw [List.append_nil] at hread
      have hloop := cstrToCpusetLoop_last hread hset (nexttoken_last hpiece)
      refine ⟨result, hloop.trans (congrArg (fun rc => some (rc, result)) (if_neg ?_)), ?_⟩
      · exact not_not.mpr rfl
      · simpa only [List.mem_singleton, exists_eq_left] using hmem
  | next piece rest hpiece ih =>
      rw [List.splitOn_append_cons_self_of_not_mem hpiece] at hlist ⊢
      obtain ⟨a, b, s, added, hread, hset, hadded⟩ :=
        readRange_isElement hpiece (Or.inr ⟨rest, rfl⟩) (hlist piece List.mem_cons_self) mask
      obtain ⟨result, hloop, hmem⟩ :=
        ih added fun other hother => hlist other (List.mem_cons_of_mem piece hother)
      refine ⟨result, ?_, fun cpu => ?_⟩
      · rw [cstrToCpusetLoop_next hread hset (nexttoken_next hpiece rest), hloop]
      · rw [hmem, hadded, or_assoc, List.exists_mem_cons_iff]

/-! ## Exact reading -/

theorem not_isElement_nil : ¬ IsElement [] a b s := by
  intro helement
  have hread := (readRange_append_iff List.not_mem_nil (Or.inl rfl)).mpr
    ⟨[], rfl, helement.takes⟩
  exact absurd hread (Option.some_ne_none _).symm

/-- For the empty string there is nothing to read. -/
theorem readsCpuList_nil : ReadsCpuList [] ∧ CpuListReadable [] := by
  have hpiece : ∀ {piece : Text}, piece ∈ ([] : Text).splitOn ',' → piece = [] := by
    intro piece hmem
    rw [List.splitOn_nil] at hmem
    exact List.mem_singleton.mp hmem
  refine ⟨⟨0, .zero, rfl, iff_of_true rfl (Or.inl rfl), fun _ cpu => ?_⟩, ?_, ?_⟩
  · refine iff_of_false (Finset.notMem_empty cpu) ?_
    rintro ⟨piece, hmem, a, b, s, helement, -⟩
    exact not_isElement_nil (hpiece hmem ▸ helement)
  · intro _ piece hmem a b s helement
    exact absurd (hpiece hmem ▸ helement) not_isElement_nil
  · intro hnot
    exact absurd (Or.inl rfl) hnot

/-- A string is read exactly if and only if no wrapped sum adds a CPU to it, and a string that is
no list is refused before a stride of zero is met. -/
theorem cpu_list_read_iff (str : Text) : ReadsCpuList str ↔ CpuListReadable str := by
  by_cases hnil : str = []
  · subst hnil
    exact iff_of_true readsCpuList_nil.1 readsCpuList_nil.2
  have hread : cstrToCpuset str = cstrToCpusetLoop str .zero :=
    if_neg (List.length_pos_iff.mpr hnil).ne'
  unfold ReadsCpuList
  rw [hread]
  -- A list is never refused, and what is no list never has to be read exactly.
  by_cases hlist : IsCpuList str
  · obtain ⟨result, hloop, hmem⟩ := cstrToCpusetLoop_listed str .zero (hlist.resolve_left hnil)
    simp only [CpuSet.zero_cpus, Finset.notMem_empty, false_or] at hmem
    rw [hloop]
    constructor
    · rintro ⟨rc, mask, hsome, -, hcpus⟩
      obtain ⟨rfl, rfl⟩ := Prod.mk.inj (Option.some_inj.mp hsome)
      refine ⟨fun _ piece hpiece a b s helement cpu j hwrap => ?_, fun hnot => absurd hlist hnot⟩
      rw [← hcpus rfl, hmem]
      exact ⟨piece, hpiece, a, b, s, helement, Or.inr ⟨j, hwrap⟩⟩
    · intro hreadable
      refine ⟨0, result, rfl, iff_of_true rfl hlist, fun _ cpu => ?_⟩
      rw [hmem]
      constructor
      · rintro ⟨piece, hpiece, a, b, s, helement, hwalked⟩
        rcases (walked_ulong_iff helement.bounds.2.1 cpu).mp hwalked with hin | ⟨j, hwrap⟩
        · exact ⟨piece, hpiece, a, b, s, helement, hin⟩
        · exact hreadable.listed hlist piece hpiece a b s helement cpu j hwrap
      · rintro ⟨piece, hpiece, a, b, s, helement, hin⟩
        exact ⟨piece, hpiece, a, b, s, helement,
          (walked_ulong_iff helement.bounds.2.1 cpu).mpr (Or.inl hin)⟩
  · have hfailed := cstrToCpusetLoop_failed_iff str .zero
    constructor
    · rintro ⟨rc, mask, hsome, haccepted, -⟩
      refine ⟨fun hyes => absurd hyes hlist, fun _ => hfailed.mp ⟨rc, mask, hsome, ?_⟩⟩
      exact mt haccepted.mp hlist
    · intro hreadable
      obtain ⟨rc, mask, hsome, hne⟩ := hfailed.mpr (hreadable.refused hlist)
      exact ⟨rc, mask, hsome, iff_of_false hne hlist, fun hzero => absurd hzero hne⟩

/-- With a stride of zero the function does not return. -/
theorem zero_stride_endless :
    cstrToCpuset "0-3:0".toList = none ∧ ¬ ReadsCpuList "0-3:0".toList := by
  have hendless : cstrToCpuset "0-3:0".toList = none := by
    have hread : readRange "0-3:0".toList = some (0, 3, 0, []) := rfl
    exact cstrToCpusetLoop_endless hread (by decide) (by decide)
  refine ⟨hendless, ?_⟩
  rintro ⟨rc, mask, hsome, -⟩
  exact absurd (hendless.symm.trans hsome) (Option.some_ne_none _).symm

end SlurmSpank.LuaSchedutils
