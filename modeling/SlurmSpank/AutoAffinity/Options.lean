import SlurmSpank.AutoAffinity.CpuList
import SlurmSpank.Lib.CpuSet

/-! # The options of the user

How the plugin reads the argument of `--auto-affinity`: a list of options with commas between
them, of which `cpus=` and `masks=` take all that is left. Reading ends with a result, or with
the process where the user has asked for help, or not at all.
-/

namespace SlurmSpank.AutoAffinity

open Foundation Lib

/-- The static variables that the options set. -/
structure UserOptions where
  disabled : Bool := false
  verbose : Bool := false
  reverse : Bool := false
  startcpu : Int := 0
  requestedCpusPerTask : Int := 0
  nlistElements : Int := 0
  cpusList : Option Text := none
  cpuMaskList : Option (List CpuSet) := none

/-! ## Numbers and masks -/

/-- A `long` as an `int`. -/
def toInt (l : Int) : Int := l.bmod (2 ^ 32)

/-- `str2int`. -/
def str2int (str : Text) : Int :=
  let (l, p) := strtol str
  if p ≠ [] then -1 else toInt l

/-- `atoi`. -/
def atoi (str : Text) : Int := toInt (strtol str).1

/-- `char_to_val`, where -1 is `none`. -/
def charToVal (c : Char) : Option Nat :=
  if c.isDigit then some (c.toNat - '0'.toNat)
  else if 'a' ≤ c.toLower ∧ c.toLower ≤ 'f' then some (c.toLower.toNat + 10 - 'a'.toNat)
  else none

/-- The loop of `str_to_cpuset` over the characters from the last one to the first. -/
def strToCpusetLoop : Text → Nat → CpuSet → Int × CpuSet
  | [], _, mask => (0, mask)
  | c :: rest, base, mask =>
      match charToVal c with
      | none => (-1, mask)
      | some val =>
          let mask := if val.testBit 0 then mask.set base else mask
          let mask := if val.testBit 1 then mask.set (base + 1) else mask
          let mask := if val.testBit 2 then mask.set (base + 2) else mask
          let mask := if val.testBit 3 then mask.set (base + 3) else mask
          strToCpusetLoop rest (base + 4) mask

/-- What `str_to_cpuset` reads of a string: it skips `0x`. -/
def maskDigits (str : Text) : Text :=
  if 1 < str.length ∧ str.take 2 = ['0', 'x'] then str.drop 2 else str

/-- `str_to_cpuset`. -/
def strToCpuset (str : Text) : Int × CpuSet := strToCpusetLoop (maskDigits str).reverse 0 .zero

/-! ## Lists of strings -/

/-- `_next_tok`: the token and what is left behind the separators. -/
def nextTok (sep str : Text) : Option (Text × Text) :=
  match str.dropWhile (· ∈ sep) with
  | [] => none
  | c :: rest =>
      some ((c :: rest).takeWhile (· ∉ sep),
        ((c :: rest).dropWhile (· ∉ sep)).dropWhile (· ∈ sep))

theorem nextTok_length_lt {sep str tok left : Text} (hnext : nextTok sep str = some (tok, left)) :
    left.length < str.length := by
  unfold nextTok at hnext
  split at hnext
  next => exact absurd hnext (Option.some_ne_none _).symm
  next c rest hdrop =>
    obtain ⟨-, rfl⟩ := Prod.mk.inj (Option.some_inj.mp hnext)
    have hc : c ∉ sep := by
      have hhead := List.head?_dropWhile_not (fun d => decide (d ∈ sep)) str
      rw [hdrop] at hhead
      simpa using hhead
    have hstr := (List.dropWhile_suffix fun d => decide (d ∈ sep) : _ <:+ str).length_le
    have hrest := (List.dropWhile_suffix fun d => decide (d ∉ sep) : _ <:+ rest).length_le
    have hleft := (List.dropWhile_suffix fun d => decide (d ∈ sep) :
      _ <:+ rest.dropWhile fun d => decide (d ∉ sep)).length_le
    rw [hdrop, List.length_cons] at hstr
    rw [List.dropWhile_cons_of_pos (by simpa using hc)]
    omega

/-- `list_split`. -/
def listSplit (sep str : Text) : List Text :=
  match _hnext : nextTok sep str with
  | none => []
  | some (tok, left) => tok :: listSplit sep left
termination_by str.length
decreasing_by exact nextTok_length_lt _hnext

/-- The loop of `list_join`, with what is in the buffer of the length `len`, with `n`, and
whether the text has been cut. -/
def listJoinLoop (len : Nat) (sep : Text) : List Text → Text × Nat × Bool → Text × Nat × Bool
  | [], state => state
  | str :: rest, (result, n, truncated) =>
      if truncated then
        listJoinLoop len sep rest (result, n + str.length + sep.length, true)
      else
        let printed := str ++ sep
        if len - n ≤ printed.length then
          listJoinLoop len sep rest (result ++ printed.take (len - n - 1), n, true)
        else listJoinLoop len sep rest (result ++ printed, n + printed.length, false)

/-- `list_join`: the text that is left in the buffer, and the result. -/
def listJoin (len : Nat) (sep : Text) (l : List Text) : Text × Nat :=
  if l.length = 0 then ([], 0)
  else
    let (result, n, truncated) := listJoinLoop len sep l ([], 0, false)
    if truncated then (result.take (len - 1), n)
    else (result.take (result.length - sep.length), n)

/-! ## Options -/

/-- `parse_option`, without a result where the process exits. -/
def parseOption (opt : Text) (remote : Bool) (o : UserOptions) : Option (Int × UserOptions) :=
  if opt = "off".toList then some (0, { o with disabled := true })
  else if opt = "reverse".toList ∨ opt = "rev".toList then some (0, { o with reverse := true })
  else if "cpt=".toList.isPrefixOf opt then
    let value := str2int (opt.drop 4)
    some (if value < 0 then -1 else 0, { o with requestedCpusPerTask := value })
  else if "cpus_per_task=".toList.isPrefixOf opt then
    let value := str2int (opt.drop 14)
    some (if value < 0 then -1 else 0, { o with requestedCpusPerTask := value })
  else if "start=".toList.isPrefixOf opt then
    let value := str2int (opt.drop 6)
    some (if value < 0 then -1 else 0, { o with startcpu := value })
  else if opt = "verbose".toList ∨ opt = "v".toList then some (0, { o with verbose := true })
  else if opt = "help".toList ∧ remote = false then none
  else some (0, o)

/-- `parse_cpus_list`, with the list that it leaves. It has no result where `cstr_count` does
not come back. -/
def parseCpusList (l : List Text) (o : UserOptions) : Option (Int × List Text × UserOptions) := do
  let str := (listJoin 4096 [','] l).1
  let count ← cstrCount str
  let o := { o with nlistElements := count }
  if count < 0 then some (-1, l, o)
  else if count = 0 then some (-1, l, o)
  else some (0, [], { o with cpusList := some str })

/-- The turn of `cpu_mask_list_expand` for one string. -/
def expandMask (s : Text) : List Text :=
  match s.dropWhile (· ≠ '*') with
  | [] => [s]
  | _ :: rep => List.replicate (atoi rep).toNat (s.takeWhile (· ≠ '*'))

/-- `cpu_mask_list_expand`. -/
def cpuMaskListExpand (l : List Text) : List Text := l.flatMap expandMask

/-- The loop of `parse_cpu_mask_list`, with `rc` and the masks so far. -/
def parseCpuMaskLoop : List Text → Int → List CpuSet → Int × List CpuSet
  | [], rc, masks => (rc, masks)
  | s :: rest, _, masks =>
      let (rc, mask) := strToCpuset s
      parseCpuMaskLoop rest rc (masks ++ [mask])

/-- `parse_cpu_mask_list`, which leaves its list empty. -/
def parseCpuMaskList (l : List Text) (o : UserOptions) : Int × UserOptions :=
  let maskList := cpuMaskListExpand l
  let (rc, masks) := parseCpuMaskLoop maskList 0 []
  (rc, { o with nlistElements := maskList.length, cpuMaskList := some masks })

/-- How the reading of the options ends. -/
inductive Ending where
  | returned (rc : Int) (o : UserOptions)
  | exited
  | endless

theorem parseCpusList_rest {l rest : List Text} {o o' : UserOptions} {rc : Int}
    (hparse : parseCpusList l o = some (rc, rest, o')) : rest = l ∨ rest = [] := by
  unfold parseCpusList at hparse
  obtain ⟨count, -, hcount⟩ := Option.bind_eq_some_iff.mp hparse
  dsimp only at hcount
  split at hcount
  · exact Or.inl (Prod.mk.inj (Prod.mk.inj (Option.some_inj.mp hcount)).2).1.symm
  · split at hcount
    · exact Or.inl (Prod.mk.inj (Prod.mk.inj (Option.some_inj.mp hcount)).2).1.symm
    · exact Or.inr (Prod.mk.inj (Prod.mk.inj (Option.some_inj.mp hcount)).2).1.symm

/-- The loop of `parse_user_option`, with the strings that are popped and with how it ends. -/
def parseUserOptionLoop (remote : Bool) (l : List Text) (rc : Int) (o : UserOptions) :
    List Text × Ending :=
  match l with
  | [] => ([], .returned rc o)
  | str :: l =>
      let (popped, ending) :=
        if "cpus=".toList.isPrefixOf str then
          match _hparse : parseCpusList (str.drop 5 :: l) o with
          | none => ([], .endless)
          | some (rc, rest, o) => parseUserOptionLoop remote rest rc o
        else if "masks=".toList.isPrefixOf str then
          let (rc, o) := parseCpuMaskList (str.drop 6 :: l) o
          ([], .returned rc o)
        else
          match parseOption str remote o with
          | none => ([], .exited)
          | some (rc, o) => parseUserOptionLoop remote l rc o
      (str :: popped, ending)
termination_by (l.map fun str => str.length + 1).sum
decreasing_by
  · rcases parseCpusList_rest _hparse with rfl | rfl
    · simp only [List.map_cons, List.sum_cons, List.length_drop]
      have hcpus : "cpus=".toList.length ≤ str.length :=
        (List.isPrefixOf_iff_prefix.mp ‹_›).length_le
      have hfive : "cpus=".toList.length = 5 := rfl
      omega
    · simp only [List.map_nil, List.map_cons, List.sum_nil, List.sum_cons]
      omega
  · simp only [List.map_cons, List.sum_cons]
    omega

/-- `parse_user_option`. -/
def parseUserOption (arg : Option Text) (remote : Bool) (o : UserOptions) : List Text × Ending :=
  match arg with
  | none => ([], .returned 0 o)
  | some arg => parseUserOptionLoop remote (listSplit [','] arg) 1 o

end SlurmSpank.AutoAffinity
