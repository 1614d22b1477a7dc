import SlurmSpank.Foundation.Decimal

/-! # Cpuset paths

The path strings that the plugin computes from the current cpuset of the process. A buffer
that a failed call leaves unset keeps its old contents, which are a parameter here.
-/

namespace SlurmSpank.Cpuset

open Foundation

/-- The numeral that `%d` prints for a user id. -/
def printUid (uid : BitVec 32) : List Char := signedDecimal uid.toInt

/-- The numeral that `%u` prints for a job, step or task id. -/
def printId (id : BitVec 32) : List Char := decimal id.toNat

/-- The root cpuset. -/
def rootName : List Char := ['/']

/-- The base SLURM cpuset. -/
def slurmName : List Char := ['/', 's', 'l', 'u', 'r', 'm']

/-- The mount point that absolute paths of cpusets start with. -/
def mountPoint : List Char := ['/', 'd', 'e', 'v', '/', 'c', 'p', 'u', 's', 'e', 't']

/-- The path `/slurm/<uid>` of a user cpuset. -/
def userName (uid : BitVec 32) : List Char := slurmName ++ '/' :: printUid uid

/-- A call of `cpuset_getcpusetpath` for the current process, by the size of the buffer;
`none` is the null pointer. -/
abbrev GetCpusetPath := Nat → Option (List Char)

/-- The documented behaviour of `cpuset_getcpusetpath` in a process whose cpuset has the
given path: it stores the path if the buffer holds it with its terminating zero. -/
structure Reports (getcpusetpath : GetCpusetPath) (current : List Char) : Prop where
  fits : ∀ size, current.length < size → getcpusetpath size = some current
  tooLong : ∀ size, size ≤ current.length → getcpusetpath size = none

/-- `snprintf`: the text that fits, and the length of the whole text. -/
def snprintf (size : Nat) (text : List Char) : List Char × Nat :=
  (text.take (size - 1), text.length)

/-- `job_cpuset_path`. The source tests the pointer that `cpuset_getcpusetpath` returns for
being negative, which it never is, so that a failed call goes unnoticed and `junk` is read. -/
def jobCpusetPath (getcpusetpath : GetCpusetPath) (junk : List Char) (id uid : BitVec 32)
    (len : Nat) : Option (List Char) :=
  let buf := (getcpusetpath 64).getD junk
  let buf := if buf = rootName ∨ buf = slurmName then (snprintf 64 (userName uid)).1 else buf
  let (path, n) := snprintf len (buf ++ '/' :: printId id)
  if n ≥ len then none else some path

/-- The path that `migrate_job_to_cpuset` moves the process to. It does not look at what
`cpuset_getcpusetpath` returns. -/
def migrateJobToCpuset (getcpusetpath : GetCpusetPath) (junk : List Char) (id uid : BitVec 32) :
    List Char :=
  let path := (getcpusetpath 4096).getD junk
  let path := if path.take 6 ≠ slurmName then (snprintf 4096 (userName uid)).1 else path
  path ++ (snprintf (4096 - path.length) ('/' :: printId id)).1

/-- `current_cpuset_path`: a process in the root cpuset is taken to be in `/slurm`. -/
def currentCpusetPath (getcpusetpath : GetCpusetPath) (len : Nat) : Option (List Char) :=
  if len < 12 then none
  else
    match getcpusetpath (len - 11) with
    | none => none
    | some name =>
        let path := mountPoint ++ name
        some (if path = mountPoint ++ rootName then path ++ slurmName.tail else path)

/-- `cpuset_path_to_name`. -/
def cpusetPathToName (path : List Char) : List Char := path.drop mountPoint.length

/-! ## Lengths -/

theorem printUid_length_le (uid : BitVec 32) : (printUid uid).length ≤ 11 := by
  refine signedDecimal_length_le (by decide) ?_
  have hlt := BitVec.toInt_lt (x := uid)
  have hle := BitVec.le_toInt uid
  omega

theorem printId_length_le (id : BitVec 32) : (printId id).length ≤ 10 :=
  decimal_length_le (by decide) (id.isLt.trans (by decide))

theorem userName_length_le (uid : BitVec 32) : (userName uid).length ≤ 18 := by
  have hlen := printUid_length_le uid
  simp only [userName, slurmName, List.length_append, List.length_cons, List.length_nil]
  omega

theorem snprintf_of_lt (size : Nat) {text : List Char} (hlt : text.length < size) :
    snprintf size text = (text, text.length) := by
  rw [snprintf, List.take_of_length_le (by omega)]

theorem userName_take (uid : BitVec 32) : (userName uid).take 6 = slurmName := by
  rw [userName, List.take_append_of_le_length (by decide)]
  rfl

theorem userName_ne_slurmName (uid : BitVec 32) : userName uid ≠ slurmName := by
  intro heq
  have hlen := congrArg List.length heq
  simp [userName] at hlen

/-! ## Where a job's cpuset is created and where the process is moved -/

section Agreement

variable {getcpusetpath : GetCpusetPath} {current junk : List Char} {id uid : BitVec 32}

/-- The directory that `job_cpuset_path` puts the job into, given the contents of its buffer. -/
def jobParent (buf : List Char) (uid : BitVec 32) : List Char :=
  if buf = rootName ∨ buf = slurmName then userName uid else buf

theorem jobCpusetPath_of_buf (hbuf : ((getcpusetpath 64).getD junk).length < 64) :
    jobCpusetPath getcpusetpath junk id uid 4096 =
      some (jobParent ((getcpusetpath 64).getD junk) uid ++ '/' :: printId id) := by
  have huser := userName_length_le uid
  have hid := printId_length_le id
  have hlen :
      (jobParent ((getcpusetpath 64).getD junk) uid ++ '/' :: printId id).length < 4096 := by
    unfold jobParent
    split <;> simp only [List.length_append, List.length_cons] <;> omega
  rw [jobCpusetPath, snprintf_of_lt 64 (by omega)]
  rw [← jobParent, snprintf_of_lt 4096 hlen]
  simp only [ge_iff_le]
  rw [if_neg (by omega)]

/-- The directory that `migrate_job_to_cpuset` looks for the job in. -/
def migrateParent (path : List Char) (uid : BitVec 32) : List Char :=
  if path.take 6 ≠ slurmName then userName uid else path

theorem migrateJobToCpuset_of_lt (hreports : Reports getcpusetpath current)
    (hlt : current.length < 4000) :
    migrateJobToCpuset getcpusetpath junk id uid =
      migrateParent current uid ++ '/' :: printId id := by
  have huser := userName_length_le uid
  have hid := printId_length_le id
  have hlen : (migrateParent current uid).length < 4000 := by
    unfold migrateParent
    split <;> omega
  rw [migrateJobToCpuset, hreports.fits 4096 (by omega), Option.getD_some,
    snprintf_of_lt 4096 (by omega)]
  rw [← migrateParent, snprintf_of_lt _]
  simp only [List.length_cons]
  omega

/-- The two directories agree exactly at the root cpuset and below `/slurm`. -/
theorem jobParent_eq_migrateParent_iff : jobParent current uid = migrateParent current uid ↔
    current = rootName ∨ current.take 6 = slurmName ∧ current ≠ slurmName := by
  unfold jobParent migrateParent
  by_cases hroot : current = rootName
  · subst hroot
    simp [rootName, slurmName]
  · by_cases hslurm : current = slurmName
    · subst hslurm
      simp only [or_true, if_true, slurmName, List.take, ne_eq, not_true_eq_false, if_false,
        and_false, or_false]
      exact iff_of_false (userName_ne_slurmName uid) (by decide)
    · by_cases hunder : current.take 6 = slurmName
      · simp [hroot, hslurm, hunder]
      · simp only [hroot, hslurm, hunder, or_self, if_false, ne_eq, not_false_eq_true, if_true,
          false_and, iff_false]
        rintro rfl
        exact hunder (userName_take uid)

/-- The paths agree, whatever an unset buffer holds, exactly when the current path fits the
64 bytes of `job_cpuset_path` and is the root or lies below `/slurm`. -/
theorem jobCpusetPath_eq_migrate_iff (hreports : Reports getcpusetpath current) :
    (∀ junk other, junk.length < 64 → other.length < 4096 →
      jobCpusetPath getcpusetpath junk id uid 4096 =
        some (migrateJobToCpuset getcpusetpath other id uid)) ↔
      current.length < 64 ∧
        (current = rootName ∨ current.take 6 = slurmName ∧ current ≠ slurmName) := by
  by_cases hfits : current.length < 64
  · have hbuf : ∀ junk, ((getcpusetpath 64).getD junk) = current := fun junk => by
      rw [hreports.fits 64 hfits, Option.getD_some]
    rw [and_iff_right hfits, ← @jobParent_eq_migrateParent_iff current uid]
    have heach : ∀ junk other, jobCpusetPath getcpusetpath junk id uid 4096 =
        some (migrateJobToCpuset getcpusetpath other id uid) ↔
          jobParent current uid = migrateParent current uid := by
      intro junk other
      rw [jobCpusetPath_of_buf (by rw [hbuf]; exact hfits), hbuf,
        migrateJobToCpuset_of_lt hreports (by omega), Option.some.injEq,
        List.append_left_inj]
    exact ⟨fun hall => (heach [] []).mp (hall [] [] (by decide) (by decide)),
      fun heq junk other _ _ => (heach junk other).mpr heq⟩
  · refine iff_of_false (fun hall => ?_) (fun hcond => hfits hcond.1)
    -- with the buffer unset, two different contents give two different paths
    have hbuf : ∀ junk, ((getcpusetpath 64).getD junk) = junk := fun junk => by
      rw [hreports.tooLong 64 (by omega), Option.getD_none]
    have hpath : ∀ c : Char, c ≠ '/' → jobCpusetPath getcpusetpath [c] id uid 4096 =
        some (c :: '/' :: printId id) := by
      intro c hc
      rw [jobCpusetPath_of_buf (by rw [hbuf]; simp), hbuf, jobParent, if_neg]
      · rfl
      · simp [rootName, slurmName, hc]
    have ha := hall ['a'] [] (by decide) (by decide)
    have hb := hall ['b'] [] (by decide) (by decide)
    rw [hpath 'a' (by decide)] at ha
    rw [hpath 'b' (by decide), ← ha] at hb
    simp at hb

/-- A call that reports the given path. -/
def reportsPath (current : List Char) : GetCpusetPath := fun size =>
  if current.length < size then some current else none

theorem reportsPath_reports (current : List Char) : Reports (reportsPath current) current where
  fits _ hlt := if_pos hlt
  tooLong _ hle := if_neg (by omega)

theorem currentCpusetPath_reports {name : List Char} (hlt : name.length < 4085) :
    currentCpusetPath (reportsPath name) 4096 =
      some (mountPoint ++ if name = rootName then slurmName else name) := by
  have hreport : reportsPath name (4096 - 11) = some name := if_pos hlt
  have hlong : ¬ 4096 < 12 := by decide
  simp only [currentCpusetPath, if_neg hlong, hreport, List.append_cancel_left_eq]
  split
  next heq => rw [heq]; rfl
  next => rfl

theorem jobCpusetPath_eq_migrate_iff_root :
    (∀ junk other, junk.length < 64 → other.length < 4096 →
      jobCpusetPath (reportsPath rootName) junk 5 1000 4096 =
        some (migrateJobToCpuset (reportsPath rootName) other 5 1000)) ↔
      rootName.length < 64 ∧
        (rootName = rootName ∨ rootName.take 6 = slurmName ∧ rootName ≠ slurmName) :=
  jobCpusetPath_eq_migrate_iff (reportsPath_reports rootName)

/-- From `/slurm`, job 5 of user 1000 is created as `/slurm/1000/5` and looked for as
`/slurm/5`; from a cpuset `/x` it is created as `/x/5` and looked for as `/slurm/1000/5`. -/
theorem job_created_and_sought_apart :
    jobCpusetPath (reportsPath slurmName) [] 5 1000 4096 =
        some (slurmName ++ ['/', '1', '0', '0', '0', '/', '5']) ∧
      migrateJobToCpuset (reportsPath slurmName) [] 5 1000 = slurmName ++ ['/', '5'] ∧
      jobCpusetPath (reportsPath ['/', 'x']) [] 5 1000 4096 = some ['/', 'x', '/', '5'] ∧
      migrateJobToCpuset (reportsPath ['/', 'x']) [] 5 1000 =
        slurmName ++ ['/', '1', '0', '0', '0', '/', '5'] := by
  decide

end Agreement

end SlurmSpank.Cpuset
