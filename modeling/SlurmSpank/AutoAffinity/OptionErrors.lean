import SlurmSpank.AutoAffinity.CpuListRefused

/-! # Errors in options

Every part of the argument is checked, but each check overwrites the result of the one before,
so only the last one reaches the caller. A list of CPUs that is refused stays in the list of the
options, and is read as options again.
-/

namespace SlurmSpank.AutoAffinity

open Foundation Lib

/-! ## What a user may write -/

/-- The value of an option that takes a number. -/
def optionValue (opt : Text) : Option Text :=
  if "cpt=".toList.isPrefixOf opt then some (opt.drop 4)
  else if "cpus_per_task=".toList.isPrefixOf opt then some (opt.drop 14)
  else if "start=".toList.isPrefixOf opt then some (opt.drop 6)
  else none

/-- A number that is not negative, with nothing behind it. -/
def IsNumber (str : Text) : Prop := ∃ value : Int, scanInt str = some (value, []) ∧ 0 ≤ value

/-- Hexadecimal digits, with or without `0x` in front. -/
def IsMask (str : Text) : Prop :=
  ∃ digits : Text, digits ≠ [] ∧ (∀ c ∈ digits, (charToVal c).isSome) ∧
    (str = digits ∨ str = '0' :: 'x' :: digits)

/-- The option that takes the rest of the argument, with its list. -/
inductive ListOption where
  | cpus (l : List Text)
  | masks (l : List Text)

/-- The parts of an argument: the options up to the one that takes the rest, and that one. -/
def splitOptions : List Text → List Text × Option ListOption
  | [] => ([], none)
  | str :: l =>
      if "cpus=".toList.isPrefixOf str then ([], some (.cpus (str.drop 5 :: l)))
      else if "masks=".toList.isPrefixOf str then ([], some (.masks (str.drop 6 :: l)))
      else (str :: (splitOptions l).1, (splitOptions l).2)

/-- An option whose value is negative or not a number. -/
def OptionInvalid (opt : Text) : Prop := ∃ value ∈ optionValue opt, ¬ IsNumber value

/-- A list that `parse_cpus_list` refuses, or one with a mask that is none. -/
def ListOption.Invalid : ListOption → Prop
  | cpus l => ∃ rc rest o, parseCpusList l {} = some (rc, rest, o) ∧ rc < 0
  | masks l => ∃ mask ∈ cpuMaskListExpand l, ¬ IsMask mask

/-- Some part of the argument is invalid. -/
def SomeInvalid (parts : List Text) : Prop :=
  (∃ opt ∈ (splitOptions parts).1, OptionInvalid opt) ∨
    ∃ list ∈ (splitOptions parts).2, list.Invalid

/-- Errors are reported: the result is negative if and only if some part is invalid, and nothing
behind an invalid list option is taken as an option. -/
structure ReportsErrors (arg : Text) (remote : Bool) (o : UserOptions) : Prop where
  negative_iff : (∃ rc o', (parseUserOption (some arg) remote o).2 = .returned rc o' ∧ rc < 0) ↔
    SomeInvalid (listSplit [','] arg)
  nothing_behind : ∀ list ∈ (splitOptions (listSplit [','] arg)).2, list.Invalid →
    (parseUserOption (some arg) remote o).1.drop
      ((splitOptions (listSplit [','] arg)).1.length + 1) = []

/-! ## What the checks find -/

/-- The result of `parse_option`. -/
def optionResult (opt : Text) : Int :=
  match optionValue opt with
  | none => 0
  | some value => if str2int value < 0 then -1 else 0

/-- The result of the last of several checks. -/
def lastResult (check : Text → Int) (l : List Text) (rc : Int) : Int :=
  (l.getLast?.map check).getD rc

theorem lastResult_cons (check : Text → Int) (str : Text) (l : List Text) (rc : Int) :
    lastResult check (str :: l) rc = lastResult check l (check str) := by
  unfold lastResult
  rw [List.getLast?_cons]
  cases l.getLast? <;> rfl

theorem lastResult_neg_iff {check : Text → Int} {l : List Text} {rc : Int} (hrc : 0 ≤ rc) :
    lastResult check l rc < 0 ↔ ∃ str ∈ l.getLast?, check str < 0 := by
  unfold lastResult
  cases l.getLast? with
  | none => simp [hrc]
  | some str => simp

/-- The user has asked for help, and is there to read it. -/
def AsksHelp (remote : Bool) (opt : Text) : Prop := opt = "help".toList ∧ remote = false

theorem parseOption_help {opt : Text} {remote : Bool} (hhelp : AsksHelp remote opt)
    (o : UserOptions) : parseOption opt remote o = none := by
  obtain ⟨rfl, rfl⟩ := hhelp
  rfl

/-- Any other option is checked. -/
theorem parseOption_result {opt : Text} {remote : Bool} (hhelp : ¬ AsksHelp remote opt)
    (o : UserOptions) : ∃ o', parseOption opt remote o = some (optionResult opt, o') := by
  unfold parseOption optionResult optionValue
  split
  next heq => exact heq ▸ ⟨_, rfl⟩
  next =>
    split
    next heq => rcases heq with rfl | rfl <;> exact ⟨_, rfl⟩
    next =>
      split
      next => exact ⟨_, rfl⟩
      next =>
        split
        next => exact ⟨_, rfl⟩
        next =>
          split
          next => exact ⟨_, rfl⟩
          next =>
            split
            next => exact ⟨_, rfl⟩
            next =>
              have hstays : ¬ (opt = "help".toList ∧ remote = false) := hhelp
              rw [if_neg hstays]
              exact ⟨_, rfl⟩

theorem strToCpusetLoop_neg_iff (text : Text) (base : Nat) (mask : CpuSet) :
    (strToCpusetLoop text base mask).1 < 0 ↔ ∃ c ∈ text, charToVal c = none := by
  induction text generalizing base mask with
  | nil => exact iff_of_false (Int.lt_irrefl 0) (by simp)
  | cons c rest ih =>
      rw [strToCpusetLoop]
      cases hc : charToVal c with
      | none => exact iff_of_true (by decide : (-1 : Int) < 0) ⟨c, List.mem_cons_self, hc⟩
      | some val =>
          dsimp only
          rw [ih]
          simp [hc]

theorem isMask_iff (str : Text) :
    IsMask str ↔ maskDigits str ≠ [] ∧ ∀ c ∈ maskDigits str, (charToVal c).isSome := by
  by_cases hmarked : ∃ digits, str = '0' :: 'x' :: digits
  · obtain ⟨digits, rfl⟩ := hmarked
    have hdigits : maskDigits ('0' :: 'x' :: digits) = digits :=
      if_pos ⟨Nat.succ_lt_succ (Nat.succ_pos _), rfl⟩
    rw [hdigits]
    constructor
    · rintro ⟨other, hne, hall, rfl | heq⟩
      · exact absurd (hall 'x' (by simp)) (by decide)
      · obtain rfl : digits = other := (List.cons.inj (List.cons.inj heq).2).2
        exact ⟨hne, hall⟩
    · rintro ⟨hne, hall⟩
      exact ⟨digits, hne, hall, Or.inr rfl⟩
  · have hdigits : maskDigits str = str := by
      refine if_neg ?_
      rintro ⟨-, htake⟩
      exact hmarked ⟨str.drop 2, by rw [← List.take_append_drop 2 str, htake]; rfl⟩
    rw [hdigits]
    constructor
    · rintro ⟨other, hne, hall, rfl | heq⟩
      · exact ⟨hne, hall⟩
      · exact absurd ⟨other, heq⟩ hmarked
    · rintro ⟨hne, hall⟩
      exact ⟨str, hne, hall, Or.inl rfl⟩

/-- The check of a mask fails exactly for what is no mask, except that no digits are a mask. -/
theorem strToCpuset_neg_iff (str : Text) :
    (strToCpuset str).1 < 0 ↔ ¬ IsMask str ∧ maskDigits str ≠ [] := by
  rw [strToCpuset, strToCpusetLoop_neg_iff, isMask_iff]
  simp only [List.mem_reverse]
  constructor
  · rintro ⟨c, hmem, hnone⟩
    refine ⟨fun hmask => ?_, List.ne_nil_of_mem hmem⟩
    have hsome := hmask.2 c hmem
    rw [hnone] at hsome
    exact absurd hsome (by decide)
  · rintro ⟨hmask, hne⟩
    by_contra hall
    refine hmask ⟨hne, fun c hmem => ?_⟩
    rw [Option.isSome_iff_ne_none]
    exact fun hnone => hall ⟨c, hmem, hnone⟩

/-- The check of a number fails exactly for what is no number, except that the empty string is
one, and that a number that is no `int` may pass for another one. -/
theorem str2int_neg_iff {str : Text} (hne : str ≠ [])
    (hrange : ∀ value, scanInt str = some (value, []) → -2 ^ 31 ≤ value ∧ value < 2 ^ 31) :
    str2int str < 0 ↔ ¬ IsNumber str := by
  unfold str2int strtol IsNumber
  cases hscan : scanInt str with
  | none =>
      dsimp only
      rw [if_pos hne]
      exact iff_of_true (by decide) (by simp)
  | some scanned =>
      obtain ⟨value, rest⟩ := scanned
      dsimp only
      by_cases hrest : rest = []
      · subst hrest
        obtain ⟨hlow, hhigh⟩ := hrange value hscan
        have hclamp : max (-2 ^ 63) (min (2 ^ 63 - 1) value) = value := by omega
        have hint : toInt value = value := Int.bmod_eq_of_le (by omega) (by omega)
        rw [if_neg (not_not.mpr rfl), hclamp, hint]
        simp
      · rw [if_pos hrest]
        exact iff_of_true (by decide) (by simp [hrest])

/-- The loop of `parse_cpu_mask_list` returns what it has found out about the last mask. -/
theorem parseCpuMaskLoop_result (l : List Text) (rc : Int) (masks : List CpuSet) :
    (parseCpuMaskLoop l rc masks).1 = lastResult (fun s => (strToCpuset s).1) l rc := by
  induction l generalizing rc masks with
  | nil => rfl
  | cons s rest ih =>
      rw [parseCpuMaskLoop, lastResult_cons]
      exact ih _ _

/-! ## The loop over the options -/

section Loop

variable {remote : Bool} {str : Text} {l : List Text} {rc : Int} {o : UserOptions}

/-- Neither of the options that take the rest of the argument. -/
def IsPlain (str : Text) : Prop :=
  "cpus=".toList.isPrefixOf str = false ∧ "masks=".toList.isPrefixOf str = false

theorem parseUserOptionLoop_plain (hplain : IsPlain str) :
    parseUserOptionLoop remote (str :: l) rc o =
      match parseOption str remote o with
      | none => ([str], .exited)
      | some (rc, o) =>
          (str :: (parseUserOptionLoop remote l rc o).1,
            (parseUserOptionLoop remote l rc o).2) := by
  rw [parseUserOptionLoop, if_neg (ne_true_of_eq_false hplain.1),
    if_neg (ne_true_of_eq_false hplain.2)]
  cases parseOption str remote o with
  | none => rfl
  | some result => rfl

theorem parseUserOptionLoop_masks (hcpus : "cpus=".toList.isPrefixOf str = false)
    (hmasks : "masks=".toList.isPrefixOf str = true) :
    parseUserOptionLoop remote (str :: l) rc o =
      ([str], .returned (parseCpuMaskList (str.drop 6 :: l) o).1
        (parseCpuMaskList (str.drop 6 :: l) o).2) := by
  rw [parseUserOptionLoop, if_neg (ne_true_of_eq_false hcpus), if_pos hmasks]

theorem parseUserOptionLoop_cpus (hcpus : "cpus=".toList.isPrefixOf str = true) :
    parseUserOptionLoop remote (str :: l) rc o =
      match parseCpusList (str.drop 5 :: l) o with
      | none => ([str], .endless)
      | some (rc, rest, o) =>
          (str :: (parseUserOptionLoop remote rest rc o).1,
            (parseUserOptionLoop remote rest rc o).2) := by
  rw [parseUserOptionLoop, if_pos hcpus]
  generalize hparse : parseCpusList (str.drop 5 :: l) o = parsed
  cases parsed with
  | none => rfl
  | some result => rfl

/-- Along plain options the result is that of the last one. -/
theorem parseUserOptionLoop_options {opts : List Text} (hplain : ∀ opt ∈ opts, IsPlain opt)
    (hhelp : ∀ opt ∈ opts, ¬ AsksHelp remote opt) (rc : Int) (o : UserOptions) :
    ∃ o', parseUserOptionLoop remote (opts ++ l) rc o =
      (opts ++ (parseUserOptionLoop remote l (lastResult optionResult opts rc) o').1,
        (parseUserOptionLoop remote l (lastResult optionResult opts rc) o').2) := by
  induction opts generalizing rc o with
  | nil => exact ⟨o, rfl⟩
  | cons opt opts ih =>
      obtain ⟨next, hnext⟩ := parseOption_result (hhelp opt List.mem_cons_self) o
      obtain ⟨o', ho'⟩ := ih (fun opt hmem => hplain opt (List.mem_cons_of_mem _ hmem))
        (fun opt hmem => hhelp opt (List.mem_cons_of_mem _ hmem)) (optionResult opt) next
      refine ⟨o', ?_⟩
      rw [List.cons_append, parseUserOptionLoop_plain (hplain opt List.mem_cons_self), hnext,
        lastResult_cons]
      dsimp only
      rw [ho']
      rfl

/-- Asking for help is the last thing that is done. -/
theorem parseUserOptionLoop_help {opts : List Text} (hplain : ∀ opt ∈ opts, IsPlain opt)
    (hhelp : ∃ opt ∈ opts, AsksHelp remote opt) (rc : Int) (o : UserOptions) :
    ∃ popped, parseUserOptionLoop remote (opts ++ l) rc o = (popped, .exited) ∧
      popped.length ≤ opts.length := by
  induction opts generalizing rc o with
  | nil =>
      obtain ⟨opt, hmem, -⟩ := hhelp
      exact absurd hmem List.not_mem_nil
  | cons opt opts ih =>
      rw [List.cons_append, parseUserOptionLoop_plain (hplain opt List.mem_cons_self)]
      by_cases hthis : AsksHelp remote opt
      · refine ⟨[opt], ?_, Nat.succ_le_succ (Nat.zero_le _)⟩
        rw [parseOption_help hthis]
      · obtain ⟨next, hnext⟩ := parseOption_result hthis o
        have hlater : ∃ opt ∈ opts, AsksHelp remote opt := by
          obtain ⟨other, hmem, hother⟩ := hhelp
          rcases List.mem_cons.mp hmem with rfl | hmem
          · exact absurd hother hthis
          · exact ⟨other, hmem, hother⟩
        obtain ⟨popped, hpopped, hle⟩ := ih
          (fun opt hmem => hplain opt (List.mem_cons_of_mem _ hmem)) hlater (optionResult opt) next
        refine ⟨opt :: popped, ?_, Nat.succ_le_succ hle⟩
        rw [hnext]
        dsimp only
        rw [hpopped]

end Loop

/-- The option in front of which the parts of an argument are split. -/
theorem splitOptions_spec (parts : List Text) :
    (∀ opt ∈ (splitOptions parts).1, IsPlain opt) ∧
      match (splitOptions parts).2 with
      | none => parts = (splitOptions parts).1
      | some (.cpus l) => ∃ str rest, parts = (splitOptions parts).1 ++ str :: rest ∧
          "cpus=".toList.isPrefixOf str = true ∧ l = str.drop 5 :: rest
      | some (.masks l) => ∃ str rest, parts = (splitOptions parts).1 ++ str :: rest ∧
          "cpus=".toList.isPrefixOf str = false ∧ "masks=".toList.isPrefixOf str = true ∧
            l = str.drop 6 :: rest := by
  induction parts with
  | nil => exact ⟨fun opt hmem => absurd hmem List.not_mem_nil, rfl⟩
  | cons str l ih =>
      rw [splitOptions]
      by_cases hcpus : "cpus=".toList.isPrefixOf str = true
      · rw [if_pos hcpus]
        exact ⟨fun opt hmem => absurd hmem List.not_mem_nil, str, l, rfl, hcpus, rfl⟩
      · have hcpus' : "cpus=".toList.isPrefixOf str = false := Bool.eq_false_of_not_eq_true hcpus
        rw [if_neg hcpus]
        by_cases hmasks : "masks=".toList.isPrefixOf str = true
        · rw [if_pos hmasks]
          exact ⟨fun opt hmem => absurd hmem List.not_mem_nil, str, l, rfl, hcpus', hmasks, rfl⟩
        · have hplain : IsPlain str := ⟨hcpus', Bool.eq_false_of_not_eq_true hmasks⟩
          rw [if_neg hmasks]
          refine ⟨fun opt hmem => ?_, ?_⟩
          · rcases List.mem_cons.mp hmem with rfl | hmem
            · exact hplain
            · exact ih.1 opt hmem
          · have hrest := ih.2
            dsimp only
            generalize (splitOptions l).1 = opts at hrest ⊢
            cases hlist : (splitOptions l).2 with
            | none =>
                rw [hlist] at hrest
                exact congrArg (str :: ·) hrest
            | some list =>
                rw [hlist] at hrest
                cases list with
                | cpus items =>
                    obtain ⟨part, more, hparts, hpart⟩ := hrest
                    exact ⟨part, more, congrArg (str :: ·) hparts, hpart⟩
                | masks items =>
                    obtain ⟨part, more, hparts, hpart⟩ := hrest
                    exact ⟨part, more, congrArg (str :: ·) hparts, hpart⟩

/-! ## When errors are reported -/

/-- The last check of the argument fails: that of the last mask, or that of the last option. -/
def LastRefused (parts : List Text) : Prop :=
  match (splitOptions parts).2 with
  | some (.masks l) => ∃ mask ∈ (cpuMaskListExpand l).getLast?, (strToCpuset mask).1 < 0
  | _ => ∃ opt ∈ (splitOptions parts).1.getLast?, ∃ value ∈ optionValue opt, str2int value < 0

/-- The argument ends without the result of a check: the user asks for help, or gives a list of
CPUs. -/
def EndsUnchecked (remote : Bool) (parts : List Text) : Prop :=
  (∃ opt ∈ (splitOptions parts).1, AsksHelp remote opt) ∨
    ∃ l, (splitOptions parts).2 = some (.cpus l)

/-- No list of CPUs is refused, and there is an invalid part exactly if the last check fails. An
argument that ends without a check has no invalid part. -/
def LastDecides (remote : Bool) (parts : List Text) : Prop :=
  (∀ l, (splitOptions parts).2 = some (.cpus l) → ¬ ListRefused ((joinCommas l).take 4095)) ∧
    (EndsUnchecked remote parts → ¬ SomeInvalid parts) ∧
    (¬ EndsUnchecked remote parts → (LastRefused parts ↔ SomeInvalid parts))

theorem optionResult_neg_iff (opt : Text) :
    optionResult opt < 0 ↔ ∃ value ∈ optionValue opt, str2int value < 0 := by
  unfold optionResult
  cases optionValue opt with
  | none => simp
  | some value =>
      dsimp only
      split
      next hneg => simp [hneg]
      next hneg => simp [hneg]

theorem invalid_cpus_iff (l : List Text) :
    (ListOption.cpus l).Invalid ↔ ListRefused ((joinCommas l).take 4095) := by
  rw [← parseCpusList_refuses_iff l {}]
  constructor
  · rintro ⟨rc, rest, o, hparse, hrc⟩
    refine ⟨rc, rest, o, hparse, hrc, ?_⟩
    rw [parseCpusList_eq] at hparse
    obtain ⟨count, -, hresult⟩ := Option.map_eq_some_iff.mp hparse
    split at hresult
    next => exact (congrArg (fun result => result.2.2.cpusList) hresult).symm
    next =>
      have hzero : (0 : Int) = rc := congrArg Prod.fst hresult
      exact absurd hrc (by omega)
  · rintro ⟨rc, rest, o, hparse, hrc, -⟩
    exact ⟨rc, rest, o, hparse, hrc⟩

section Runs

variable {remote : Bool} {parts : List Text} {run : List Text × Ending}

/-- A run over the parts of an argument reports its errors. -/
def Reports (parts : List Text) (run : List Text × Ending) : Prop :=
  ((∃ rc o', run.2 = .returned rc o' ∧ rc < 0) ↔ SomeInvalid parts) ∧
    ∀ list ∈ (splitOptions parts).2, list.Invalid →
      run.1.drop ((splitOptions parts).1.length + 1) = []

/-- A run that does not come back reports no error. -/
theorem reports_of_not_returned (hreturned : ∀ rc o', run.2 ≠ .returned rc o')
    (hbehind : run.1.length ≤ (splitOptions parts).1.length + 1) :
    Reports parts run ↔ ¬ SomeInvalid parts := by
  have hnegative : ¬ ∃ rc o', run.2 = .returned rc o' ∧ rc < 0 := by
    rintro ⟨rc, o', hrun, -⟩
    exact hreturned rc o' hrun
  constructor
  · rintro ⟨hiff, -⟩ hinvalid
    exact hnegative (hiff.mpr hinvalid)
  · intro hvalid
    exact ⟨iff_of_false hnegative hvalid, fun _ _ _ => List.drop_of_length_le hbehind⟩

/-- A run that comes back right behind the last part reports what its result says. -/
theorem reports_of_returned {rc : Int} {o' : UserOptions} (hrun : run.2 = .returned rc o')
    (hbehind : ∀ list ∈ (splitOptions parts).2, list.Invalid →
      run.1.length ≤ (splitOptions parts).1.length + 1) :
    Reports parts run ↔ (rc < 0 ↔ SomeInvalid parts) := by
  have hnegative : (∃ rc o', run.2 = .returned rc o' ∧ rc < 0) ↔ rc < 0 := by
    constructor
    · rintro ⟨rc', o'', hrun', hneg⟩
      obtain ⟨rfl, -⟩ := Ending.returned.inj (hrun.symm.trans hrun')
      exact hneg
    · intro hneg
      exact ⟨rc, o', hrun, hneg⟩
  constructor
  · rintro ⟨hiff, -⟩
    exact hnegative.symm.trans hiff
  · intro hiff
    exact ⟨hnegative.trans hiff, fun list hlist hinvalid =>
      List.drop_of_length_le (hbehind list hlist hinvalid)⟩

theorem lastDecides_of_unchecked (hunchecked : EndsUnchecked remote parts) :
    LastDecides remote parts ↔ ¬ SomeInvalid parts := by
  constructor
  · rintro ⟨-, hvalid, -⟩
    exact hvalid hunchecked
  · intro hvalid
    refine ⟨fun l hlist hrefused => hvalid (Or.inr ⟨.cpus l, hlist, ?_⟩), fun _ => hvalid,
      fun hchecked => absurd hunchecked hchecked⟩
    exact (invalid_cpus_iff l).mpr hrefused

theorem lastDecides_of_checked (hchecked : ¬ EndsUnchecked remote parts) :
    LastDecides remote parts ↔ (LastRefused parts ↔ SomeInvalid parts) := by
  constructor
  · rintro ⟨-, -, hiff⟩
    exact hiff hchecked
  · intro hiff
    exact ⟨fun l hlist _ => hchecked (Or.inr ⟨l, hlist⟩), fun hunchecked =>
      absurd hunchecked hchecked, fun _ => hiff⟩

/-- The first string is popped, whatever becomes of it. -/
theorem parseUserOptionLoop_cons (str : Text) (l : List Text) (rc : Int) (o : UserOptions) :
    ∃ more, (parseUserOptionLoop remote (str :: l) rc o).1 = str :: more := by
  rw [parseUserOptionLoop]
  exact ⟨_, rfl⟩

theorem parseUserOptionLoop_nil (rc : Int) (o : UserOptions) :
    parseUserOptionLoop remote [] rc o = ([], .returned rc o) := by
  rw [parseUserOptionLoop]

theorem reports_iff_lastDecides (remote : Bool) (parts : List Text) (o : UserOptions) :
    Reports parts (parseUserOptionLoop remote parts 1 o) ↔ LastDecides remote parts := by
  obtain ⟨hplain, hparts⟩ := splitOptions_spec parts
  by_cases hhelp : ∃ opt ∈ (splitOptions parts).1, AsksHelp remote opt
  · have htail : ∃ tail, parts = (splitOptions parts).1 ++ tail := by
      split at hparts
      next => exact ⟨[], by rw [List.append_nil]; exact hparts⟩
      next =>
        obtain ⟨str, rest, hsplit, -⟩ := hparts
        exact ⟨str :: rest, hsplit⟩
      next =>
        obtain ⟨str, rest, hsplit, -⟩ := hparts
        exact ⟨str :: rest, hsplit⟩
    obtain ⟨tail, htail⟩ := htail
    obtain ⟨popped, hpopped, hle⟩ := @parseUserOptionLoop_help remote tail _ hplain hhelp 1 o
    rw [← htail] at hpopped
    rw [hpopped, lastDecides_of_unchecked (Or.inl hhelp)]
    exact reports_of_not_returned (fun rc o' => Ending.noConfusion) (Nat.le_succ_of_le hle)
  · have hnohelp : ∀ opt ∈ (splitOptions parts).1, ¬ AsksHelp remote opt := fun opt hmem hasks =>
      hhelp ⟨opt, hmem, hasks⟩
    have hrun := fun tail => @parseUserOptionLoop_options remote tail _ hplain hnohelp 1 o
    -- The plain options in front have been read; the list behind them decides, if there is one.
    cases hlist : (splitOptions parts).2 with
    | none =>
        rw [hlist] at hparts
        have hchecked : ¬ EndsUnchecked remote parts := by
          rintro (hasks | ⟨l, hcpus⟩)
          · exact hhelp hasks
          · exact absurd (hlist.symm.trans hcpus) (Option.some_ne_none _).symm
        obtain ⟨o', ho'⟩ := hrun []
        rw [List.append_nil, ← hparts, parseUserOptionLoop_nil, List.append_nil] at ho'
        rw [ho', lastDecides_of_checked hchecked, LastRefused, hlist]
        dsimp only
        rw [reports_of_returned rfl (fun list hmem => absurd (hlist.symm.trans hmem) (by simp)),
          lastResult_neg_iff (by decide)]
        simp only [optionResult_neg_iff]
        rw [← hparts]
    | some list =>
        rw [hlist] at hparts
        cases list with
        | masks l =>
            obtain ⟨str, rest, hsplit, hcpus, hmasks, rfl⟩ := hparts
            have hchecked : ¬ EndsUnchecked remote parts := by
              rintro (hasks | ⟨l, hcpus⟩)
              · exact hhelp hasks
              · exact absurd (Option.some_inj.mp (hlist.symm.trans hcpus)) (by simp)
            obtain ⟨o', ho'⟩ := hrun (str :: rest)
            rw [← hsplit, parseUserOptionLoop_masks hcpus hmasks] at ho'
            rw [ho', lastDecides_of_checked hchecked, LastRefused, hlist]
            dsimp only
            rw [reports_of_returned rfl (fun _ _ _ => List.length_append.le)]
            refine iff_congr ?_ Iff.rfl
            change (parseCpuMaskLoop (cpuMaskListExpand _) 0 []).1 < 0 ↔ _
            rw [parseCpuMaskLoop_result, lastResult_neg_iff (Int.le_refl 0)]
        | cpus l =>
            obtain ⟨str, rest, hsplit, hcpus, rfl⟩ := hparts
            have hunchecked : EndsUnchecked remote parts := Or.inr ⟨_, hlist⟩
            obtain ⟨o', ho'⟩ := hrun (str :: rest)
            rw [← hsplit, parseUserOptionLoop_cpus hcpus, parseCpusList_eq] at ho'
            rw [ho', lastDecides_of_unchecked hunchecked]
            cases hcount : cstrCount ((joinCommas (str.drop 5 :: rest)).take 4095) with
            | none =>
                exact reports_of_not_returned (fun rc o' => Ending.noConfusion)
                  List.length_append.le
            | some count =>
                rw [Option.map_some]
                dsimp only
                by_cases hle : count ≤ 0
                · -- The list stays, and its first string is popped as an option.
                  have hinvalid : (ListOption.cpus (str.drop 5 :: rest)).Invalid :=
                    (invalid_cpus_iff _).mpr (listRefused_iff.mpr ⟨count, hle, hcount⟩)
                  rw [if_pos hle]
                  refine iff_of_false ?_ (not_not.mpr (Or.inr ⟨_, hlist, hinvalid⟩))
                  rintro ⟨-, hbehind⟩
                  have hnil := hbehind _ hlist hinvalid
                  dsimp only at hnil
                  obtain ⟨more, hmore⟩ := @parseUserOptionLoop_cons remote (str.drop 5) rest (-1)
                    { o' with nlistElements := count }
                  rw [hmore, List.drop_eq_nil_iff, List.length_append, List.length_cons,
                    List.length_cons] at hnil
                  omega
                · rw [if_neg hle]
                  dsimp only
                  rw [parseUserOptionLoop_nil]
                  rw [reports_of_returned rfl (fun _ _ _ => List.length_append.le)]
                  rw [iff_false_intro (Int.lt_irrefl 0), false_iff]

end Runs

/-- Errors are reported exactly if no list of CPUs is refused and, unless the argument ends
without a check, the last check fails where some part is invalid and only there. -/
theorem option_errors_reported_iff (arg : Text) (remote : Bool) (o : UserOptions) :
    ReportsErrors arg remote o ↔ LastDecides remote (listSplit [','] arg) := by
  have hreports : ReportsErrors arg remote o ↔
      Reports (listSplit [','] arg) (parseUserOptionLoop remote (listSplit [','] arg) 1 o) :=
    ⟨fun herrors => ⟨herrors.negative_iff, herrors.nothing_behind⟩, fun hruns =>
      ⟨hruns.1, hruns.2⟩⟩
  exact hreports.trans (reports_iff_lastDecides remote _ o)

theorem listSplit_cons {sep str tok left : Text} (hnext : nextTok sep str = some (tok, left)) :
    listSplit sep str = tok :: listSplit sep left := by
  rw [listSplit]
  generalize nextTok sep str = next at hnext ⊢
  subst hnext
  rfl

theorem listSplit_nil {sep str : Text} (hnext : nextTok sep str = none) :
    listSplit sep str = [] := by
  rw [listSplit]
  generalize nextTok sep str = next at hnext ⊢
  subst hnext
  rfl

/-- The error of an option is lost behind it. -/
theorem error_in_front_lost : ¬ ReportsErrors "start=x,verbose".toList true {} := by
  have hparts : listSplit [','] "start=x,verbose".toList =
      ["start=x".toList, "verbose".toList] := by
    have hfirst : nextTok [','] "start=x,verbose".toList =
        some ("start=x".toList, "verbose".toList) := rfl
    have hsecond : nextTok [','] "verbose".toList = some ("verbose".toList, []) := rfl
    rw [listSplit_cons hfirst, listSplit_cons hsecond, listSplit_nil rfl]
  rintro ⟨hiff, -⟩
  have hplain : ∀ opt ∈ ["start=x".toList, "verbose".toList], IsPlain opt := by
    rintro opt (_ | ⟨_, _ | ⟨_, ⟨⟩⟩⟩) <;> exact ⟨rfl, rfl⟩
  have hhelp : ∀ opt ∈ ["start=x".toList, "verbose".toList], ¬ AsksHelp true opt := by
    rintro opt - ⟨-, hlocal⟩
    exact absurd hlocal (by decide)
  obtain ⟨o', ho'⟩ := @parseUserOptionLoop_options true [] _ hplain hhelp 1 {}
  rw [List.append_nil, parseUserOptionLoop_nil] at ho'
  have hinvalid : SomeInvalid ["start=x".toList, "verbose".toList] := by
    refine Or.inl ⟨"start=x".toList, List.mem_cons_self, "x".toList, rfl, ?_⟩
    rintro ⟨value, hscan, -⟩
    have hnone : scanInt "x".toList = none := rfl
    exact absurd (hnone.symm.trans hscan) (Option.some_ne_none _).symm
  rw [hparts] at hiff
  change (∃ rc o', (parseUserOptionLoop true (listSplit [','] "start=x,verbose".toList) 1 {}).2 =
    .returned rc o' ∧ rc < 0) ↔ _ at hiff
  rw [hparts, ho'] at hiff
  obtain ⟨rc, o', hrun, hneg⟩ := hiff.mpr hinvalid
  have hzero : (0 : Int) = rc := (Ending.returned.inj hrun).1
  exact absurd hneg (by omega)

end SlurmSpank.AutoAffinity
