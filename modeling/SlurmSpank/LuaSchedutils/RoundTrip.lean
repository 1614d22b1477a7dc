import Mathlib.Order.Interval.Finset.Nat
import SlurmSpank.LuaSchedutils.Convert

/-! # The list form of a CPU set is read back

The text that `cpuset_to_cstr` writes lists ranges that cover the set. Reading one range sets
its CPUs and stops at the comma or at the end, so reading the list gives the set back.
-/

namespace SlurmSpank.LuaSchedutils

open Foundation Lib

/-! ## Ranges -/

/-- A range of CPUs from the first to the last. -/
abbrev CpuRange := Nat × Nat

/-- A range as text. A range of one CPU is its number. -/
def renderRange (range : CpuRange) : Text :=
  if range.1 = range.2 then decimal range.1 else decimal range.1 ++ '-' :: decimal range.2

theorem renderRange_self (i : Nat) : renderRange (i, i) = decimal i := if_pos rfl

theorem renderRange_of_lt {first last : Nat} (hlt : first < last) :
    renderRange (first, last) = decimal first ++ '-' :: decimal last := if_neg hlt.ne

/-- The ranges cover what the set holds from CPU `i` on. -/
structure Covers (mask : CpuSet) (i : Nat) (ranges : List CpuRange) : Prop where
  bounds : ∀ range ∈ ranges, range.1 ≤ range.2 ∧ range.2 < cpuSetSize
  mem_iff : ∀ cpu, (i ≤ cpu ∧ cpu ∈ mask.cpus) ↔
    ∃ range ∈ ranges, range.1 ≤ cpu ∧ cpu ≤ range.2

namespace Covers

variable {mask : CpuSet} {i : Nat} {ranges : List CpuRange}

theorem nil (hi : cpuSetSize ≤ i) : Covers mask i [] where
  bounds := by simp
  mem_iff := by
    intro cpu
    simp only [List.not_mem_nil, false_and, exists_false, iff_false]
    rintro ⟨hle, hcpu⟩
    have hlt := mask.cpus_lt cpu hcpu
    omega

theorem skip (hi : i ∉ mask.cpus) (hcovers : Covers mask (i + 1) ranges) :
    Covers mask i ranges where
  bounds := hcovers.bounds
  mem_iff := by
    intro cpu
    rw [← hcovers.mem_iff cpu, Nat.succ_le_iff, Nat.lt_iff_le_and_ne, and_assoc]
    refine and_congr_right fun _ => ?_
    constructor
    · intro hcpu
      exact ⟨fun heq => hi (heq ▸ hcpu), hcpu⟩
    · exact And.right

theorem cons {last : Nat} (hle : i ≤ last) (hlast : last < cpuSetSize)
    (hrun : ∀ cpu, i ≤ cpu → cpu ≤ last → cpu ∈ mask.cpus)
    (hcovers : Covers mask (last + 1) ranges) : Covers mask i ((i, last) :: ranges) where
  bounds := by
    intro range hrange
    rcases List.mem_cons.mp hrange with rfl | hrange
    · exact ⟨hle, hlast⟩
    · exact hcovers.bounds range hrange
  mem_iff := by
    intro cpu
    simp only [List.mem_cons, exists_eq_or_imp]
    rw [← hcovers.mem_iff cpu]
    constructor
    · rintro ⟨hi, hcpu⟩
      by_cases hin : cpu ≤ last
      · exact Or.inl ⟨hi, hin⟩
      · exact Or.inr ⟨by omega, hcpu⟩
    · rintro (⟨hi, hin⟩ | ⟨hi, hcpu⟩)
      · exact ⟨hi, hrun cpu hi hin⟩
      · exact ⟨by omega, hcpu⟩

end Covers

/-! ## Writing -/

theorem runAfter_lt {mask : CpuSet} {i : Nat} (hi : i < cpuSetSize) :
    i + runAfter mask i < cpuSetSize := by
  have hle : runAfter mask i ≤ cpuSetSize - (i + 1) := by
    have hprefix := (List.takeWhile_prefix (mask.isset ·)
      (l := List.range' (i + 1) (cpuSetSize - (i + 1)))).length_le
    rwa [List.length_range'] at hprefix
  omega

/-- The CPUs of the run that `cpuset_to_cstr` finds at a CPU of the set. -/
theorem mem_of_le_runAfter {mask : CpuSet} {i cpu : Nat} (hi : i ∈ mask.cpus) (hle : i ≤ cpu)
    (hrun : cpu ≤ i + runAfter mask i) : cpu ∈ mask.cpus := by
  rcases Nat.eq_or_lt_of_le hle with rfl | hlt
  · exact hi
  · have hk : cpu - (i + 1) < runAfter mask i := by omega
    have hmem := List.getElem_mem hk
    have hset := List.mem_takeWhile_imp hmem
    rw [List.IsPrefix.getElem (List.takeWhile_prefix _) hk, List.getElem_range'] at hset
    have hcpu : i + 1 + 1 * (cpu - (i + 1)) = cpu := by omega
    rw [hcpu] at hset
    exact CpuSet.isset_eq_true.mp hset

/-- What `cpuset_to_cstr` writes from CPU `i` on. -/
theorem cpusetToCstrLoop_covers (mask : CpuSet) (i : Nat) (str : Text) (entryMade : Bool) :
    ∃ ranges, Covers mask i ranges ∧ cpusetToCstrLoop mask i str entryMade =
      (str ++ ranges.flatMap (renderRange · ++ [',']), entryMade || !ranges.isEmpty) := by
  -- The loop writes one CPU, two CPUs with a comma, or the ends of a longer run, or skips a CPU.
  induction i, str, entryMade using cpusetToCstrLoop.induct mask with
  | case1 i str entryMade hi hset run hrun ih =>
      change runAfter mask i = 0 at hrun
      have hmem : i ∈ mask.cpus := CpuSet.isset_eq_true.mp hset
      obtain ⟨ranges, hcovers, hloop⟩ := ih
      refine ⟨(i, i) :: ranges, hcovers.cons le_rfl hi ?_, ?_⟩
      · intro cpu hle hge
        exact Nat.le_antisymm hge hle ▸ hmem
      · rw [cpusetToCstrLoop, if_pos hi, if_pos hset]
        dsimp only
        rw [if_pos hrun, hloop]
        simp [renderRange_self]
  | case2 i str entryMade hi hset run hrun hrun' ih =>
      change ¬ runAfter mask i = 0 at hrun
      change runAfter mask i = 1 at hrun'
      have hmem : i ∈ mask.cpus := CpuSet.isset_eq_true.mp hset
      have hsucc : i + 1 ∈ mask.cpus := mem_of_le_runAfter hmem (Nat.le_succ i) (by omega)
      obtain ⟨ranges, hcovers, hloop⟩ := ih
      have hrest : Covers mask (i + 1) ((i + 1, i + 1) :: ranges) := by
        refine hcovers.cons le_rfl (mask.cpus_lt _ hsucc) ?_
        intro cpu hle hge
        exact Nat.le_antisymm hge hle ▸ hsucc
      refine ⟨(i, i) :: (i + 1, i + 1) :: ranges, hrest.cons le_rfl hi ?_, ?_⟩
      · intro cpu hle hge
        exact Nat.le_antisymm hge hle ▸ hmem
      · rw [cpusetToCstrLoop, if_pos hi, if_pos hset]
        dsimp only
        rw [if_neg hrun, if_pos hrun', hloop]
        simp [renderRange_self]
  | case3 i str entryMade hi hset run hrun hrun' ih =>
      change ¬ runAfter mask i = 0 at hrun
      change ¬ runAfter mask i = 1 at hrun'
      have hmem : i ∈ mask.cpus := CpuSet.isset_eq_true.mp hset
      obtain ⟨ranges, hcovers, hloop⟩ := ih
      refine ⟨(i, i + runAfter mask i) :: ranges, hcovers.cons (by omega) (runAfter_lt hi) ?_, ?_⟩
      · intro cpu hle hge
        exact mem_of_le_runAfter hmem hle hge
      · rw [cpusetToCstrLoop, if_pos hi, if_pos hset]
        dsimp only
        have hlt : i < i + runAfter mask i := by omega
        rw [if_neg hrun, if_neg hrun', hloop]
        simp [renderRange_of_lt hlt, run]
  | case4 i str entryMade hi hset ih =>
      obtain ⟨ranges, hcovers, hloop⟩ := ih
      refine ⟨ranges, hcovers.skip (mt CpuSet.isset_eq_true.mpr hset), ?_⟩
      rw [cpusetToCstrLoop, if_pos hi, if_neg hset, hloop]
  | case5 i str entryMade hi =>
      refine ⟨[], Covers.nil (Nat.not_lt.mp hi), ?_⟩
      rw [cpusetToCstrLoop, if_neg hi]
      simp

/-! ## Reading -/

/-- Ranges after the first one, each behind a comma. -/
def commaTail (ranges : List CpuRange) : Text := ranges.flatMap (',' :: renderRange ·)

theorem flatMap_renderRange (range : CpuRange) (ranges : List CpuRange) :
    (range :: ranges).flatMap (renderRange · ++ [',']) =
      renderRange range ++ commaTail ranges ++ [','] := by
  induction ranges generalizing range with
  | nil => simp [commaTail]
  | cons next ranges ih =>
      rw [List.flatMap_cons, ih]
      simp [commaTail]

/-- What may stand behind a range. -/
def AtComma (rest : Text) : Prop := rest = [] ∨ ∃ more, rest = ',' :: more

theorem atComma_commaTail (ranges : List CpuRange) : AtComma (commaTail ranges) := by
  cases ranges with
  | nil => exact Or.inl rfl
  | cons range ranges => exact Or.inr ⟨_, rfl⟩

theorem AtComma.head?_not_digit {rest : Text} (hrest : AtComma rest) :
    ∀ c ∈ rest.head?, c.isDigit = false := by
  rcases hrest with rfl | ⟨more, rfl⟩
  · simp
  · intro c hc
    rw [← Option.some_inj.mp hc]
    rfl

theorem nexttoken_append {word : Text} {sep : Char} (hword : sep ∉ word) (rest : Text) :
    nexttoken (some (word ++ rest)) sep = nexttoken (some rest) sep := by
  have hskip : (word ++ rest).dropWhile (· ≠ sep) = rest.dropWhile (· ≠ sep) := by
    refine List.dropWhile_append_of_pos ?_
    intro c hc
    have hne : c ≠ sep := fun heq => hword (heq ▸ hc)
    simpa using hne
  simp only [nexttoken, Option.bind_some, hskip]

theorem nexttoken_cons_self (sep : Char) (rest : Text) :
    nexttoken (some (sep :: rest)) sep = some rest := by
  simp [nexttoken]

theorem nexttoken_last {piece : Text} {sep : Char} (hpiece : sep ∉ piece) :
    nexttoken (some piece) sep = none := by
  have happend := nexttoken_append hpiece []
  rwa [List.append_nil] at happend

theorem nexttoken_next {piece : Text} {sep : Char} (hpiece : sep ∉ piece) (rest : Text) :
    nexttoken (some (piece ++ sep :: rest)) sep = some rest := by
  rw [nexttoken_append hpiece, nexttoken_cons_self]

theorem notMem_decimal {sep : Char} (hsep : sep.isDigit = false) (n : Nat) : sep ∉ decimal n := by
  intro hmem
  rw [isDigit_of_mem_decimal hmem] at hsep
  exact absurd hsep (by decide)

/-- No separator behind a range comes before its comma. -/
theorem AtComma.not_comesBefore {rest : Text} (hrest : AtComma rest) (sep : Char)
    (hsep : sep ≠ ',') :
    comesBefore (nexttoken (some rest) sep) (nexttoken (some rest) ',') = false := by
  rcases hrest with rfl | ⟨more, rfl⟩
  · rfl
  · have hskip : nexttoken (some (',' :: more)) sep = nexttoken (some more) sep :=
      @nexttoken_append [','] sep (by simpa using hsep) more
    rw [hskip, nexttoken_cons_self]
    cases hnext : nexttoken (some more) sep with
    | none => rfl
    | some c =>
        have hlt := nexttoken_length_lt hnext
        simp only [comesBefore, decide_eq_false_iff_not]
        omega

/-- A place in front of the comma comes before what is behind it. -/
theorem AtComma.comesBefore_append {rest : Text} (hrest : AtComma rest) (word : Text) :
    comesBefore (some (word ++ rest)) (nexttoken (some rest) ',') = true := by
  rcases hrest with rfl | ⟨more, rfl⟩
  · rfl
  · rw [nexttoken_cons_self]
    simp only [comesBefore, List.length_append, List.length_cons, decide_eq_true_iff]
    omega

/-- A written number does not look like one with leading zeros. -/
theorem decimal_no_leadingZero {a : Nat} {rest : Text}
    (hrest : ∀ c ∈ rest.head?, c.isDigit = false) :
    ¬ ((a ≠ 0 ∧ (decimal a ++ rest).head? = some '0') ∨
      (a = 0 ∧ (decimal a ++ rest).take 2 = ['0', '0'])) := by
  rintro (⟨hne, hhead⟩ | ⟨rfl, htake⟩)
  · rw [List.head?_append_of_ne_nil _ (decimal_ne_nil a)] at hhead
    exact decimal_head?_ne_zero hne hhead
  · cases rest with
    | nil => exact absurd htake (by decide)
    | cons c rest =>
        have hc : c = '0' := by simpa [decimal] using htake
        exact absurd (hrest c rfl) (by rw [hc]; decide)

theorem readRange_number {a : Nat} (ha : a < cpuSetSize) {rest : Text} (hrest : AtComma rest) :
    readRange (decimal a ++ rest) = some (a, a, 1, rest) := by
  have hdigit := hrest.head?_not_digit
  have hscan : strtoul (decimal a ++ rest) = (a, rest) :=
    strtoul_decimal (ha.trans (by decide)) hdigit
  have hread : ¬ (rest.length = (decimal a ++ rest).length ∨ cpuSetSize ≤ a) := by
    have hpos := decimal_length_pos a
    rw [List.length_append]
    omega
  have hcomes : comesBefore (nexttoken (some (decimal a ++ rest)) '-')
      (nexttoken (some (decimal a ++ rest)) ',') = false := by
    rw [nexttoken_append (notMem_decimal rfl a), nexttoken_append (notMem_decimal rfl a)]
    exact hrest.not_comesBefore '-' (by decide)
  unfold readRange
  rw [hscan]
  dsimp only
  rw [if_neg hread, if_neg (decimal_no_leadingZero hdigit), hcomes]
  simp

theorem readRange_range {a b : Nat} (hle : a ≤ b) (hb : b < cpuSetSize) {rest : Text}
    (hrest : AtComma rest) :
    readRange (decimal a ++ '-' :: decimal b ++ rest) = some (a, b, 1, rest) := by
  have hdigit : ∀ c ∈ ('-' :: (decimal b ++ rest)).head?, c.isDigit = false := by
    intro c hc
    rw [← Option.some_inj.mp hc]
    rfl
  have hscan : strtoul (decimal a ++ '-' :: (decimal b ++ rest)) =
      (a, '-' :: (decimal b ++ rest)) :=
    strtoul_decimal ((hle.trans_lt hb).trans (by decide)) hdigit
  have hscan' : strtoul (decimal b ++ rest) = (b, rest) :=
    strtoul_decimal (hb.trans (by decide)) hrest.head?_not_digit
  have hread : ¬ (('-' :: (decimal b ++ rest)).length =
      (decimal a ++ '-' :: (decimal b ++ rest)).length ∨ cpuSetSize ≤ a) := by
    have hpos := decimal_length_pos a
    rw [List.length_append]
    omega
  have hread' : ¬ (rest.length = (decimal b ++ rest).length ∨ cpuSetSize ≤ b) := by
    have hpos := decimal_length_pos b
    rw [List.length_append]
    omega
  have hdash : nexttoken (some (decimal a ++ '-' :: (decimal b ++ rest))) '-' =
      some (decimal b ++ rest) := by
    rw [nexttoken_append (notMem_decimal rfl a), nexttoken_cons_self]
  have hcomma : nexttoken (some (decimal a ++ '-' :: (decimal b ++ rest))) ',' =
      nexttoken (some rest) ',' := by
    have hword : ',' ∉ decimal a ++ '-' :: decimal b := by
      simp [notMem_decimal (show (',').isDigit = false from rfl)]
    have happend := nexttoken_append hword rest
    rwa [List.append_assoc] at happend
  have hcolon : comesBefore (nexttoken (some (decimal b ++ rest)) ':')
      (nexttoken (some rest) ',') = false := by
    rw [nexttoken_append (notMem_decimal rfl b)]
    exact hrest.not_comesBefore ':' (by decide)
  rw [List.append_assoc, List.cons_append, readRange, hscan]
  dsimp only
  rw [if_neg hread, if_neg (decimal_no_leadingZero hdigit), hdash, hcomma,
    if_pos (hrest.comesBefore_append _)]
  simp [hscan', hcolon, hle, decimal_ne_nil, Nat.not_le.mpr hb]

theorem readRange_render {range : CpuRange} (hle : range.1 ≤ range.2)
    (hlast : range.2 < cpuSetSize) {rest : Text} (hrest : AtComma rest) :
    readRange (renderRange range ++ rest) = some (range.1, range.2, 1, rest) := by
  unfold renderRange
  split
  next heq =>
    rw [readRange_number (hle.trans_lt hlast) hrest]
    simp [heq]
  next hne => exact readRange_range hle hlast hrest

theorem nexttoken_render (range : CpuRange) (rest : Text) :
    nexttoken (some (renderRange range ++ rest)) ',' = nexttoken (some rest) ',' := by
  refine nexttoken_append ?_ rest
  have hdigits : ∀ n, ',' ∉ decimal n := notMem_decimal rfl
  unfold renderRange
  split <;> simp [hdigits]

/-- The first CPU and those of the other turns. -/
theorem mem_set_iff {mask result : CpuSet} {first : Nat} {later : Nat → Prop}
    (hfirst : first < cpuSetSize)
    (hresult : ∀ cpu, cpu ∈ result.cpus ↔ cpu ∈ (mask.set first).cpus ∨ later cpu) (cpu : Nat) :
    cpu ∈ result.cpus ↔ cpu ∈ mask.cpus ∨ cpu = first ∨ later cpu := by
  rw [hresult, CpuSet.set_cpus hfirst, Finset.mem_insert, or_assoc, or_left_comm]

/-- With a stride that is not too large for the sum, the CPUs go up to the end of the range. -/
theorem setRange_up {a b s turns : Nat} (hs : 0 < s) (hsum : s + cpuSetSize ≤ 2 ^ 64)
    (hb : b < cpuSetSize) (hpos : 0 < turns) (hturns : b + 2 ≤ a + turns) (mask : CpuSet) :
    ∃ result, setRange b s turns a mask = some result ∧
      ∀ cpu, cpu ∈ result.cpus ↔ cpu ∈ mask.cpus ∨ (cpu ≤ b ∧ ∃ j, cpu = a + j * s) := by
  induction turns generalizing a mask with
  | zero => exact absurd hpos (Nat.lt_irrefl 0)
  | succ turns ih =>
      rw [setRange]
      split
      next hle =>
        rw [Nat.mod_eq_of_lt (by omega)]
        obtain ⟨result, hloop, hmem⟩ := ih (a := a + s) (by omega) (by omega) (mask.set a)
        refine ⟨result, hloop, fun cpu => ?_⟩
        rw [mem_set_iff (Nat.lt_of_le_of_lt hle hb) hmem]
        apply or_congr_right
        constructor
        · rintro (rfl | ⟨hend, j, rfl⟩)
          · exact ⟨hle, 0, by omega⟩
          · exact ⟨hend, j + 1, by rw [Nat.succ_mul]; omega⟩
        · rintro ⟨hend, j, rfl⟩
          cases j with
          | zero => exact Or.inl (by omega)
          | succ j => exact Or.inr ⟨hend, j, by rw [Nat.succ_mul]; omega⟩
      next hgt =>
        refine ⟨mask, rfl, fun cpu => (or_iff_left ?_).symm⟩
        rintro ⟨hend, j, rfl⟩
        omega

theorem setRange_range {range : CpuRange} (hlast : range.2 < cpuSetSize) (mask : CpuSet) :
    ∃ result, setRange range.2 1 (cpuSetSize + 1) range.1 mask = some result ∧
      ∀ cpu, cpu ∈ result.cpus ↔ cpu ∈ mask.cpus ∨ range.1 ≤ cpu ∧ cpu ≤ range.2 := by
  obtain ⟨result, hset, hmem⟩ := setRange_up (a := range.1) Nat.one_pos (by decide) hlast
    (Nat.succ_pos cpuSetSize) (by omega) mask
  refine ⟨result, hset, fun cpu => ?_⟩
  rw [hmem]
  apply or_congr_right
  constructor
  · rintro ⟨hend, j, rfl⟩
    exact ⟨by omega, hend⟩
  · rintro ⟨hfirst, hend⟩
    exact ⟨hend, cpu - range.1, by omega⟩

theorem cstrToCpusetLoop_last {p endptr : Text} {a b s : Nat} {mask result : CpuSet}
    (hread : readRange p = some (a, b, s, endptr))
    (hset : setRange b s (cpuSetSize + 1) a mask = some result)
    (hnext : nexttoken (some p) ',' = none) :
    cstrToCpusetLoop p mask = some (if endptr ≠ [] then 1 else 0, result) := by
  rw [cstrToCpusetLoop, hread]
  simp only [hset, Option.bind_eq_bind, Option.bind_some]
  split
  · rfl
  · simp_all

theorem cstrToCpusetLoop_next {p q endptr : Text} {a b s : Nat} {mask result : CpuSet}
    (hread : readRange p = some (a, b, s, endptr))
    (hset : setRange b s (cpuSetSize + 1) a mask = some result)
    (hnext : nexttoken (some p) ',' = some q) :
    cstrToCpusetLoop p mask = cstrToCpusetLoop q result := by
  rw [cstrToCpusetLoop, hread]
  simp only [hset, Option.bind_eq_bind, Option.bind_some]
  split
  · simp_all
  · simp_all

/-- Reading listed ranges adds their CPUs to the set and leaves nothing over. -/
theorem cstrToCpusetLoop_ranges (range : CpuRange) (ranges : List CpuRange)
    (hbounds : ∀ r ∈ range :: ranges, r.1 ≤ r.2 ∧ r.2 < cpuSetSize) (mask : CpuSet) :
    ∃ result, cstrToCpusetLoop (renderRange range ++ commaTail ranges) mask = some (0, result) ∧
      ∀ cpu, cpu ∈ result.cpus ↔
        cpu ∈ mask.cpus ∨ ∃ r ∈ range :: ranges, r.1 ≤ cpu ∧ cpu ≤ r.2 := by
  induction ranges generalizing range mask with
  | nil =>
      obtain ⟨hle, hlast⟩ := hbounds range List.mem_cons_self
      obtain ⟨result, hset, hmem⟩ := setRange_range hlast mask
      have hread := readRange_render hle hlast (atComma_commaTail [])
      have hnext : nexttoken (some (renderRange range ++ commaTail [])) ',' = none := by
        rw [nexttoken_render]
        rfl
      exact ⟨result, cstrToCpusetLoop_last hread hset hnext, by simpa using hmem⟩
  | cons next ranges ih =>
      obtain ⟨hle, hlast⟩ := hbounds range List.mem_cons_self
      obtain ⟨added, hset, hadded⟩ := setRange_range hlast mask
      have hread := readRange_render hle hlast (atComma_commaTail (next :: ranges))
      have hnext : nexttoken (some (renderRange range ++ commaTail (next :: ranges))) ',' =
          some (renderRange next ++ commaTail ranges) := by
        rw [nexttoken_render]
        exact nexttoken_cons_self ',' _
      obtain ⟨result, hloop, hresult⟩ :=
        ih next (fun r hr => hbounds r (List.mem_cons_of_mem range hr)) added
      refine ⟨result, (cstrToCpusetLoop_next hread hset hnext).trans hloop, ?_⟩
      intro cpu
      rw [hresult cpu, hadded cpu, or_assoc]
      simp [exists_eq_or_imp]

/-- The text of a set lists ranges that cover it. -/
theorem cpusetToCstr_covers (mask : CpuSet) :
    ∃ ranges, Covers mask 0 ranges ∧
      cpusetToCstr mask = (ranges.flatMap (renderRange · ++ [','])).dropLast := by
  obtain ⟨ranges, hcovers, hloop⟩ := cpusetToCstrLoop_covers mask 0 [] false
  refine ⟨ranges, hcovers, ?_⟩
  rw [cpusetToCstr, hloop]
  cases ranges with
  | nil => rfl
  | cons range ranges => rfl

theorem Covers.eq_of_mem_iff {mask result : CpuSet} {ranges : List CpuRange}
    (hcovers : Covers mask 0 ranges)
    (hresult : ∀ cpu, cpu ∈ result.cpus ↔ ∃ r ∈ ranges, r.1 ≤ cpu ∧ cpu ≤ r.2) :
    result = mask := by
  apply CpuSet.ext
  apply Finset.ext
  intro cpu
  rw [hresult cpu, ← hcovers.mem_iff cpu]
  simp

/-- Listed ranges start with a number that a comma or a dash ends. -/
theorem ranges_start (range : CpuRange) (ranges : List CpuRange) :
    ∃ rest, renderRange range ++ commaTail ranges = decimal range.1 ++ rest ∧
      ∀ c ∈ rest.head?, c = ',' ∨ c = '-' := by
  unfold renderRange
  split
  · refine ⟨commaTail ranges, rfl, ?_⟩
    rcases atComma_commaTail ranges with hnil | ⟨more, hmore⟩
    · simp [hnil]
    · simp [hmore]
  · refine ⟨'-' :: decimal range.2 ++ commaTail ranges, ?_, ?_⟩
    · rw [List.append_assoc]
    · simp

/-- A number with a comma or a dash behind it is not taken for a hexadecimal mask. -/
theorem not_hexMask {a : Nat} {rest : Text} (hrest : ∀ c ∈ rest.head?, c = ',' ∨ c = '-') :
    ¬ ((decimal a ++ rest).take 2 = ['0', 'x'] ∨ (decimal a ++ rest).take 2 = ['0', '0']) := by
  intro hhex
  have hhead : (decimal a).head? = some '0' := by
    have hsame : (decimal a ++ rest).head? = (decimal a).head? :=
      List.head?_append_of_ne_nil _ (decimal_ne_nil a)
    rw [← hsame]
    cases htext : decimal a ++ rest with
    | nil => simp [htext] at hhex
    | cons c more =>
        have hc : c = '0' := by
          rw [htext, List.take_succ_cons] at hhex
          exact hhex.elim (fun heq => (List.cons.inj heq).1) fun heq => (List.cons.inj heq).1
        rw [hc]
        rfl
  have hzero : a = 0 := by
    by_contra hne
    exact decimal_head?_ne_zero hne hhead
  subst hzero
  cases rest with
  | nil => exact absurd hhex (by decide)
  | cons c rest =>
      have hc : c = 'x' ∨ c = '0' := by simpa [decimal] using hhex
      rcases hrest c rfl with rfl | rfl <;> exact absurd hc (by decide)

/-- The list form of a set is read as the set. -/
theorem cstrToCpuset_cpusetToCstr (mask : CpuSet) :
    cstrToCpuset (cpusetToCstr mask) = some (0, mask) := by
  obtain ⟨ranges, hcovers, htext⟩ := cpusetToCstr_covers mask
  rw [htext]
  cases ranges with
  | nil =>
      have hempty : CpuSet.zero = mask := hcovers.eq_of_mem_iff (by simp)
      rw [← hempty]
      rfl
  | cons range ranges =>
      obtain ⟨result, hloop, hresult⟩ :=
        cstrToCpusetLoop_ranges range ranges hcovers.bounds .zero
      have hmask : result = mask := hcovers.eq_of_mem_iff (by simpa using hresult)
      have hlength : (renderRange range ++ commaTail ranges).length ≠ 0 := by
        obtain ⟨rest, hstart, -⟩ := ranges_start range ranges
        have hpos := decimal_length_pos range.1
        rw [hstart, List.length_append]
        omega
      rw [flatMap_renderRange, List.dropLast_concat, cstrToCpuset, if_neg hlength, hloop, hmask]

/-- The list form of a set is not taken for a hexadecimal mask. -/
theorem cpusetToCstr_not_hexMask (mask : CpuSet) :
    ¬ ((cpusetToCstr mask).take 2 = ['0', 'x'] ∨ (cpusetToCstr mask).take 2 = ['0', '0']) := by
  obtain ⟨ranges, -, htext⟩ := cpusetToCstr_covers mask
  rw [htext]
  cases ranges with
  | nil => decide
  | cons range ranges =>
      obtain ⟨rest, hstart, hrest⟩ := ranges_start range ranges
      rw [flatMap_renderRange, List.dropLast_concat, hstart]
      exact not_hexMask hrest

theorem luaStringToCpuSetp_cpusetToCstr (mask : CpuSet) :
    luaStringToCpuSetp (cpusetToCstr mask) = some (.ok mask) := by
  rw [luaStringToCpuSetp, if_neg (cpusetToCstr_not_hexMask mask), cstrToCpuset_cpusetToCstr]
  rfl

/-! ## The text fits the buffer -/

/-- A CPU takes up at most four digits and a separator. -/
theorem cpusetToCstrLoop_length_le (mask : CpuSet) (i : Nat) (str : Text) (entryMade : Bool) :
    (cpusetToCstrLoop mask i str entryMade).1.length ≤ str.length + 5 * (cpuSetSize - i) := by
  have hdigits : ∀ n < cpuSetSize, (decimal n).length ≤ 4 := by
    intro n hn
    have hbound : n < 10 ^ 4 := hn.trans (by decide)
    exact decimal_length_le (by decide) hbound
  induction i, str, entryMade using cpusetToCstrLoop.induct mask with
  | case1 i str entryMade hi hset run hrun ih =>
      change runAfter mask i = 0 at hrun
      rw [cpusetToCstrLoop, if_pos hi, if_pos hset]
      dsimp only
      rw [if_pos hrun]
      refine ih.trans ?_
      have hfirst := hdigits i hi
      simp only [List.length_append, List.length_singleton]
      omega
  | case2 i str entryMade hi hset run hrun hrun' ih =>
      change ¬ runAfter mask i = 0 at hrun
      change runAfter mask i = 1 at hrun'
      rw [cpusetToCstrLoop, if_pos hi, if_pos hset]
      dsimp only
      rw [if_neg hrun, if_pos hrun']
      refine ih.trans ?_
      have hlt := @runAfter_lt mask i hi
      have hfirst := hdigits i hi
      have hlast := hdigits (i + 1) (by omega)
      simp only [List.length_append, List.length_singleton]
      omega
  | case3 i str entryMade hi hset run hrun hrun' ih =>
      change ¬ runAfter mask i = 0 at hrun
      change ¬ runAfter mask i = 1 at hrun'
      rw [cpusetToCstrLoop, if_pos hi, if_pos hset]
      dsimp only
      rw [if_neg hrun, if_neg hrun']
      refine ih.trans ?_
      have hlt := @runAfter_lt mask i hi
      have hfirst := hdigits i hi
      have hlast : (decimal (i + run)).length ≤ 4 := hdigits _ hlt
      simp only [List.length_append, List.length_singleton]
      omega
  | case4 i str entryMade hi hset ih =>
      rw [cpusetToCstrLoop, if_pos hi, if_neg hset]
      refine ih.trans ?_
      omega
  | case5 i str entryMade hi =>
      rw [cpusetToCstrLoop, if_neg hi]
      exact Nat.le_add_right _ _

theorem cpuSetToString_eq (mask : CpuSet) : cpuSetToString mask = some (cpusetToCstr mask) := by
  have hlength := cpusetToCstrLoop_length_le mask 0 [] false
  refine if_pos (hlength.trans_lt ?_)
  decide

/-- A CPU set is what both readers make of its list form, and what Lua makes of its string. -/
theorem cpusetToCstr_roundTrip (mask : CpuSet) :
    cstrToCpuset (cpusetToCstr mask) = some (0, mask) ∧
      luaStringToCpuSetp (cpusetToCstr mask) = some (.ok mask) ∧
      (cpuSetToString mask).bind (fun s => lCpuSetNew (.string s)) = some (.ok mask) := by
  refine ⟨cstrToCpuset_cpusetToCstr mask, luaStringToCpuSetp_cpusetToCstr mask, ?_⟩
  rw [cpuSetToString_eq]
  exact luaStringToCpuSetp_cpusetToCstr mask

end SlurmSpank.LuaSchedutils
