import SlurmSpank.Cpuset.Bitmask
import SlurmSpank.Cpuset.Path
import SlurmSpank.Foundation.Hierarchy

/-! # The cpuset tree

Cpusets are directories of the cpuset file system, whose sets are CPUs. The plugin refers
to them by path strings, and reads back the names that it chose when it created them.
-/

namespace SlurmSpank.Cpuset

open Foundation

/-- The name of one directory. -/
abbrev Name := List Char

/-- The cpuset file system. -/
abbrev Cpusets := Hierarchy Name Nat

/-! ## Path strings and directories -/

/-- The directory that the path string of a cpuset leads to. -/
def dirOf (path : List Char) : List Name := ((path.splitOn '/').filter (· ≠ [])).reverse

/-- The path string of a directory below the root. -/
def pathText : List Name → List Char
  | [] => []
  | name :: parent => pathText parent ++ '/' :: name

/-- The path string of a directory, as `cpuset_getcpusetpath` reports it. -/
def cpusetName (dir : List Name) : List Char := if dir = [] then rootName else pathText dir

theorem dirOf_append {path : List Char} {name : Name} (hname : name ≠ []) (hslash : '/' ∉ name) :
    dirOf (path ++ '/' :: name) = name :: dirOf path := by
  rw [dirOf, List.splitOn_append_cons_self, List.splitOn_eq_singleton hslash, List.filter_append,
    List.reverse_append]
  simp [hname, dirOf]

theorem dirOf_pathText {dir : List Name} (hclean : ∀ name ∈ dir, name ≠ [] ∧ '/' ∉ name) :
    dirOf (pathText dir) = dir := by
  induction dir with
  | nil => rfl
  | cons name parent ih =>
      obtain ⟨hne, hslash⟩ := hclean name List.mem_cons_self
      rw [pathText, dirOf_append hne hslash, ih fun other hother =>
        hclean other (List.mem_cons_of_mem _ hother)]

theorem pathText_length_le {dir : List Name} {n : Nat} (hlen : ∀ name ∈ dir, name.length ≤ n) :
    (pathText dir).length ≤ dir.length * (n + 1) := by
  induction dir with
  | nil => simp [pathText]
  | cons name parent ih =>
      have hname := hlen name List.mem_cons_self
      have hparent := ih fun other hother => hlen other (List.mem_cons_of_mem _ hother)
      rw [pathText, List.length_append, List.length_cons, List.length_cons, Nat.add_mul]
      omega

theorem dirOf_cpusetName {dir : List Name} (hclean : ∀ name ∈ dir, name ≠ [] ∧ '/' ∉ name) :
    dirOf (cpusetName dir) = dir := by
  unfold cpusetName
  split
  next hroot => rw [hroot]; rfl
  next => exact dirOf_pathText hclean

/-! ## The names that the plugin uses -/

/-- The prefix of the names of orphaned user cpusets. -/
def orphanPrefix : Name := ['o', 'r', 'p', 'h', 'a', 'n', ':']

/-- The base SLURM cpuset. -/
def slurmDir : List Name := [slurmName.tail]

/-- The name `orphan:<uid>`. -/
def orphanName (uid : BitVec 32) : Name := orphanPrefix ++ printUid uid

/-- The cpuset of a user. -/
def userDir (uid : BitVec 32) : List Name := printUid uid :: slurmDir

/-- The cpuset of a user without jobs, moved out of the accounting. -/
def orphanDir (uid : BitVec 32) : List Name := orphanName uid :: slurmDir

/-- The tree of `slurm_cpuset_create` on a machine without cpusets: `/slurm` is made with all
CPUs. -/
def slurmTree (cpus : Finset Nat) : Cpusets :=
  ((Hierarchy.bare cpus).create slurmName.tail [] cpus).getD (Hierarchy.bare cpus)

theorem slurmTree_created (cpus : Finset Nat) :
    Hierarchy.Created (Hierarchy.bare cpus) (slurmTree cpus) slurmName.tail [] cpus := by
  obtain ⟨h, hcreate⟩ := @Hierarchy.create_isSome _ _ _ _ (Hierarchy.bare cpus) slurmName.tail []
    cpus (Hierarchy.root_mem _) (by simp [Hierarchy.bare]) (Finset.Subset.refl _)
  rw [slurmTree, hcreate, Option.getD_some]
  exact Hierarchy.create_eq_some hcreate

/-- A name that the accounting skips: a hidden file or an orphan. -/
def skipped (name : Name) : Bool :=
  name.head? = some '.' || name.take 7 = orphanPrefix

theorem printUid_ne_nil (uid : BitVec 32) : printUid uid ≠ [] := signedDecimal_ne_nil _

theorem printId_ne_nil (id : BitVec 32) : printId id ≠ [] := decimal_ne_nil _

theorem slash_notMem_printUid (uid : BitVec 32) : '/' ∉ printUid uid := by
  intro hmem
  rcases mem_signedDecimal hmem with heq | hdigit
  · exact absurd heq (by decide)
  · exact absurd hdigit (by decide)

theorem slash_notMem_printId (id : BitVec 32) : '/' ∉ printId id := fun hmem =>
  absurd (isDigit_of_mem_decimal hmem) (by decide)

theorem printUid_injective : Function.Injective printUid := fun _ _ heq =>
  BitVec.eq_of_toInt_eq (signedDecimal_injective heq)

theorem orphanName_injective : Function.Injective orphanName := fun _ _ heq =>
  printUid_injective (List.append_cancel_left heq)

/-- A name that starts like a numeral is neither hidden nor an orphan. -/
theorem skipped_of_numeral {name : Name} (hne : name ≠ [])
    (hchars : ∀ c ∈ name, c = '-' ∨ c.isDigit = true) : skipped name = false := by
  obtain ⟨c, rest, rfl⟩ := List.exists_cons_of_ne_nil hne
  have hc := hchars c List.mem_cons_self
  have hdot : c ≠ '.' := by
    rintro rfl
    exact absurd hc (by decide)
  have hletter : c ≠ 'o' := by
    rintro rfl
    exact absurd hc (by decide)
  simp [skipped, orphanPrefix, hdot, hletter]

@[simp] theorem skipped_printUid (uid : BitVec 32) : skipped (printUid uid) = false :=
  skipped_of_numeral (printUid_ne_nil uid) fun _ hc => mem_signedDecimal hc

@[simp] theorem skipped_printId (id : BitVec 32) : skipped (printId id) = false :=
  skipped_of_numeral (printId_ne_nil id) fun _ hc => Or.inr (isDigit_of_mem_decimal hc)

@[simp] theorem skipped_orphanName (uid : BitVec 32) : skipped (orphanName uid) = true := by
  simp [skipped, orphanName, orphanPrefix]

theorem printUid_ne_orphanName (uid other : BitVec 32) : printUid uid ≠ orphanName other := by
  intro heq
  have hskip := skipped_printUid uid
  rw [heq, skipped_orphanName] at hskip
  cases hskip

theorem orphanDir_ne_userDir (uid other : BitVec 32) : orphanDir uid ≠ userDir other := fun heq =>
  printUid_ne_orphanName other uid (List.cons.inj heq).1.symm

theorem slash_notMem_orphanName (uid : BitVec 32) : '/' ∉ orphanName uid := by
  rw [orphanName, List.mem_append, not_or]
  exact ⟨by decide, slash_notMem_printUid uid⟩

theorem orphanName_length_le (uid : BitVec 32) : (orphanName uid).length ≤ 18 := by
  have hlen := printUid_length_le uid
  rw [orphanName, List.length_append, show orphanPrefix.length = 7 from rfl]
  omega

theorem userDir_eq_dirOf (uid : BitVec 32) : dirOf (userName uid) = userDir uid := by
  rw [userName, dirOf_append (printUid_ne_nil uid) (slash_notMem_printUid uid)]
  rfl

/-- The path string of a job's cpuset leads to the child of its parent's directory. -/
theorem dirOf_job (parent : List Char) (id : BitVec 32) :
    dirOf (parent ++ '/' :: printId id) = printId id :: dirOf parent :=
  dirOf_append (printId_ne_nil id) (slash_notMem_printId id)

/-! ## Reading names as numbers -/

/-- `str2int`: the number of a string that is a numeral as a whole, and -1 otherwise. -/
def str2int (text : List Char) : Int :=
  match scanInt text with
  | none => if text = [] then 0 else -1
  | some (value, rest) =>
      if rest ≠ [] then -1
      else
        -- `strtol` stops at the bounds of `long`, and the result is cast to `int`
        (BitVec.ofInt 32 (max (-2 ^ 63) (min (2 ^ 63 - 1) value))).toInt

theorem str2int_printUid {uid : BitVec 32} (huid : 0 ≤ uid.toInt) :
    str2int (printUid uid) = uid.toInt := by
  obtain ⟨n, hn⟩ := Int.eq_ofNat_of_zero_le huid
  have hlt := BitVec.toInt_lt (x := uid)
  have hscan := @scanInt_decimal n [] (by simp)
  rw [List.append_nil] at hscan
  have hclamp : max (-2 ^ 63 : Int) (min (2 ^ 63 - 1) (n : Int)) = n := by omega
  rw [str2int, printUid, hn, signedDecimal_natCast, hscan]
  simp only [ne_eq, not_true_eq_false, ↓reduceIte, hclamp]
  rw [BitVec.toInt_ofInt, Int.bmod_eq_of_le (by omega) (by omega)]

theorem str2int_orphanName (uid : BitVec 32) : str2int (orphanName uid) = -1 := rfl

/-- The directory under `/slurm` that a name read by `str2int` stands for. -/
theorem printUid_ofInt_str2int {uid : BitVec 32} (huid : 0 ≤ uid.toInt) :
    BitVec.ofInt 32 (str2int (printUid uid)) = uid := by
  rw [str2int_printUid huid, BitVec.ofInt_toInt]

end SlurmSpank.Cpuset
