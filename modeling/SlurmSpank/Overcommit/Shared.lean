import Mathlib.Data.List.Basic
import Mathlib.Tactic.Common

/-! # The shared file of the overcommit-memory plugin

The jobs that use the plugin on a node are kept in a file that the plugin and its utility map
into memory. The first user sets the overcommit mode, and the last one removes the file and
resets the mode.
-/

namespace SlurmSpank.Overcommit

/-- `struct overcommit_job_info`. -/
structure JobInfo where
  jobid : Int
  stepid : Int
  used : Bool
  deriving DecidableEq

/-- An entry that is cleared. -/
def JobInfo.zero : JobInfo := ⟨0, 0, false⟩

/-- Whether `unregister_job` takes an entry for that of a job. -/
def JobInfo.isOf (jobid stepid : Int) (j : JobInfo) : Bool :=
  j.jobid = jobid && (stepid < 0 || j.stepid = stepid)

/-- The number of entries of `users`. -/
def tableSize : Nat := 64

/-- `maxn`: `sizeof (users) / sizeof (int)`, three times as many entries as the table has. The
ones behind the table lie in the rest of the page that is mapped. -/
def maxn : Nat := tableSize * 3

/-- `struct overcommit_shared_info`, without the semaphore. -/
structure SharedInfo where
  overcommitValue : Int
  previousOvercommitRatio : Int
  nusers : Int
  users : List JobInfo
  deriving DecidableEq

namespace SharedInfo

/-- The structure of a new file. -/
def zero : SharedInfo := ⟨0, 0, 0, List.replicate maxn .zero⟩

/-- What `memset` leaves, which does not reach behind the table. -/
def cleared (info : SharedInfo) : SharedInfo :=
  ⟨0, 0, 0, List.replicate tableSize .zero ++ info.users.drop tableSize⟩

theorem cleared_zero : zero.cleared = zero := by
  rw [cleared, zero, List.drop_replicate, List.replicate_append_replicate]
  rfl

/-- `unregister_job`. -/
def unregisterJob (jobid stepid : Int) (info : SharedInfo) : Int × SharedInfo :=
  match info.users.findIdx? (·.isOf jobid stepid) with
  | some i => (0, { info with users := info.users.set i .zero, nusers := info.nusers - 1 })
  | none => (-1, info)

/-- `register_job`. -/
def registerJob (jobid stepid : Int) (info : SharedInfo) : Int × SharedInfo :=
  match info.users.findIdx? (!·.used) with
  | some i =>
      (0, { info with users := info.users.set i ⟨jobid, stepid, true⟩, nusers := info.nusers + 1 })
  | none => (-1, info)

/-- Whether `register_job` finds a free entry. -/
def hasRoom (info : SharedInfo) : Bool := info.users.any (!·.used)

theorem registerJob_of_hasRoom {info : SharedInfo} (hroom : info.hasRoom = true)
    (jobid stepid : Int) : (info.registerJob jobid stepid).2.nusers = info.nusers + 1 ∧
      (info.registerJob jobid stepid).2.overcommitValue = info.overcommitValue := by
  obtain ⟨i, hi⟩ : ∃ i, info.users.findIdx? (!·.used) = some i :=
    Option.isSome_iff_exists.mp (List.findIdx?_isSome.trans hroom)
  simp only [registerJob, hi]
  exact ⟨trivial, trivial⟩

theorem unregisterJob_nusers (info : SharedInfo) (jobid stepid : Int) :
    info.nusers - 1 ≤ (info.unregisterJob jobid stepid).2.nusers ∧
      (info.unregisterJob jobid stepid).2.overcommitValue = info.overcommitValue := by
  unfold unregisterJob
  split
  next => exact ⟨Int.le_refl _, rfl⟩
  next => exact ⟨Int.sub_le_self _ (by decide), rfl⟩

end SharedInfo

/-- `sizeof (struct overcommit_shared_info)`. -/
def sizeofSharedInfo : Nat := 816

/-- An inode that has the name of the shared file, or has had it. The semaphore has no value
before it has been initialised. -/
structure SharedFile where
  size : Nat
  lock : Option Nat
  sem : Option Nat
  info : SharedInfo
  deriving DecidableEq

/-- A file that has been created. -/
def SharedFile.empty : SharedFile := ⟨0, none, none, .zero⟩

/-- A node: the files, which of them has the name, and the settings of the kernel. -/
structure Node where
  files : Nat → SharedFile
  created : Nat
  linked : Option Nat
  mode : Int
  ratio : Int

namespace Node

/-- A node on which the plugin has not been used. -/
def fresh (mode ratio : Int) : Node := ⟨fun _ => .empty, 0, none, mode, ratio⟩

/-- Write to a file. -/
def write (n : Node) (f : Nat) (file : SharedFile) : Node :=
  { n with files := fun g => if g = f then file else n.files g }

/-- Write to what is mapped of a file. -/
def writeInfo (n : Node) (f : Nat) (info : SharedInfo) : Node :=
  n.write f { n.files f with info }

variable (n : Node) (f : Nat) (file : SharedFile)

@[simp] theorem write_files_self : (n.write f file).files f = file := if_pos rfl

@[simp] theorem write_files_of_ne {g : Nat} (hne : g ≠ f) :
    (n.write f file).files g = n.files g := if_neg hne

@[simp] theorem write_created : (n.write f file).created = n.created := rfl

@[simp] theorem write_linked : (n.write f file).linked = n.linked := rfl

@[simp] theorem write_mode : (n.write f file).mode = n.mode := rfl

@[simp] theorem write_ratio : (n.write f file).ratio = n.ratio := rfl

/-- `open` with `O_CREAT | O_EXCL`, where the file does not exist. -/
def create : Node :=
  { n.write n.created .empty with created := n.created + 1, linked := some n.created }

/-- `overcommit_memory_set_current_state`. -/
def setCurrentState (val : Int) : Option Node :=
  if val > 2 ∨ val < 0 then none else some { n with mode := val }

/-- `overcommit_ratio_set`. -/
def ratioSet (val : Int) : Node := { n with ratio := val }

end Node

end SlurmSpank.Overcommit
