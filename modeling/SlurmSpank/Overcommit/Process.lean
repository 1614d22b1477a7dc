import SlurmSpank.Foundation.Interleaving
import SlurmSpank.Overcommit.Shared

/-! # Processes that use the shared file

A process of the plugin or of its utility, with the place in the code that it has come to. A
step is one system call, or one access to the shared structure. System calls fail where the
state of the node or another process makes them fail; the processes have the rights and the
memory that they need.
-/

namespace SlurmSpank.Overcommit

open Foundation

/-- What a process is there for: a job that sets a mode and a ratio, or the utility that cleans
up after a job, or lists the users. -/
inductive Task where
  | use (mode ratio : Int)
  | cleanup
  | list
  deriving DecidableEq

/-- Places in the code, with the file that the process has opened. -/
inductive Pc where
  /-- In front of `open`. -/
  | start
  /-- In front of the second `open` of `overcommit_shared_ctx_create`. -/
  | reopening
  /-- In front of `fd_get_write_lock`. -/
  | opened (f : Nat)
  /-- In front of `overcommit_shared_file_initialized`. -/
  | attempted (f : Nat)
  /-- Behind it, in front of `ftruncate` or of `mmap`. -/
  | sized (f : Nat) (initialized : Bool)
  /-- In front of `mmap`. -/
  | resized (f : Nat)
  /-- In front of `memset`. -/
  | mapped (f : Nat)
  /-- In front of `sem_init`. -/
  | zeroed (f : Nat)
  /-- In front of `fd_release_lock`. -/
  | prepared (f : Nat)
  /-- In front of the `sem_wait` of `overcommit_shared_ctx_create` or `_attach`. -/
  | waiting (f : Nat)
  /-- Behind it. -/
  | inside (f : Nat)
  /-- In `overcommit_in_use`, in front of the assignment to `overcommit_value`. -/
  | choosing (f : Nat)
  /-- In front of the assignment to `previous_overcommit_ratio`. -/
  | recording (f : Nat)
  /-- In front of `register_job`. -/
  | registering (f : Nat)
  /-- In front of the `sem_post` of `overcommit_in_use`. -/
  | posting (f : Nat) (rc : Bool)
  /-- In `set_overcommit_policy`, in front of `overcommit_memory_set_current_state`. -/
  | settingMode (f : Nat)
  /-- In front of `overcommit_ratio_set`. -/
  | settingRatio (f : Nat)
  /-- A job that runs, in front of the `sem_wait` of `overcommit_shared_ctx_unregister`. -/
  | running (f : Nat)
  /-- In front of `unregister_job`. -/
  | unregistering (f : Nat)
  /-- In front of the test of `overcommit_shared_ctx_destroy`, also of a job that has been
  refused. -/
  | destroying (f : Nat) (refused : Bool)
  /-- In front of `unlink`. -/
  | unlinking (f : Nat) (refused : Bool)
  /-- In front of the reset of the mode. -/
  | resettingMode (f : Nat) (refused : Bool)
  /-- In front of the reset of the ratio. -/
  | resettingRatio (f : Nat) (refused : Bool)
  /-- In front of the `sem_post` of `overcommit_shared_ctx_destroy`. -/
  | releasing (f : Nat) (refused : Bool)
  /-- The operation is over. -/
  | done
  /-- A job has been refused: its context is freed, but still that of `slurm_spank_exit`. -/
  | dangling
  /-- The process has used memory that it does not have. -/
  | crashed
  deriving DecidableEq

/-- A process. -/
structure Proc where
  jobid : Int
  stepid : Int
  task : Task
  pc : Pc
  deriving DecidableEq

/-- The steps that are told apart. -/
inductive Event where
  | silent
  | memset (f : Nat)
  | semInit (f : Nat)
  | semWait (f : Nat)
  | semPost (f : Nat)
  deriving DecidableEq

namespace Node

/-- `fd_get_write_lock`, which does not wait for the lock. -/
def getWriteLock (n : Node) (p f : Nat) : Node :=
  if (n.files f).lock = none then n.write f { n.files f with lock := some p } else n

/-- `fd_release_lock`. -/
def releaseLock (n : Node) (p f : Nat) : Node :=
  if (n.files f).lock = some p then n.write f { n.files f with lock := none } else n

/-- `sem_wait`, which waits as long as the value is zero. -/
def semWait (n : Node) (f : Nat) : Option Node :=
  match (n.files f).sem with
  | some (v + 1) => some (n.write f { n.files f with sem := some v })
  | _ => none

/-- `sem_post`. -/
def semPost (n : Node) (f : Nat) : Node :=
  n.write f { n.files f with sem := some ((n.files f).sem.getD 0 + 1) }

end Node

/-- What `overcommit_in_use` decides behind `sem_wait`, and where the other tasks go on. -/
def Proc.enter (info : SharedInfo) (f : Nat) : Task → Pc
  | .use mode _ =>
      if info.nusers > 0 ∧ info.overcommitValue ≠ mode then .posting f true
      else if info.nusers = 0 then .choosing f
      else .registering f
  | .cleanup => .unregistering f
  | .list => if info.nusers = 0 then .done else .destroying f false

/-- What the next step of a process does to the node, and where the process goes on. -/
def Proc.move (p : Nat) (n : Node) (proc : Proc) : Option (Event × Node × Pc) :=
  match proc.pc with
  | .start =>
      match proc.task, n.linked with
      | .list, none => some (.silent, n, .done)
      | .list, some f => some (.silent, n, .opened f)
      | _, none => some (.silent, n.create, .opened n.created)
      | _, some _ => some (.silent, n, .reopening)
  | .reopening =>
      match n.linked with
      | none => some (.silent, n, .crashed)
      | some f => some (.silent, n, .opened f)
  | .opened f => some (.silent, n.getWriteLock p f, .attempted f)
  | .attempted f => some (.silent, n, .sized f ((n.files f).size = sizeofSharedInfo))
  | .sized f true => some (.silent, n, .prepared f)
  | .sized f false =>
      some (.silent, n.write f { n.files f with size := sizeofSharedInfo }, .resized f)
  | .resized f => some (.silent, n, .mapped f)
  | .mapped f =>
      some (.memset f, n.write f { n.files f with sem := none, info := (n.files f).info.cleared },
        .zeroed f)
  | .zeroed f => some (.semInit f, n.write f { n.files f with sem := some 1 }, .prepared f)
  | .prepared f => some (.silent, n.releaseLock p f, .waiting f)
  | .waiting f => (n.semWait f).map fun n => (.semWait f, n, .inside f)
  | .inside f => some (.silent, n, Proc.enter (n.files f).info f proc.task)
  | .choosing f =>
      match proc.task with
      | .use mode _ =>
          some (.silent, n.writeInfo f { (n.files f).info with overcommitValue := mode },
            .recording f)
      | _ => none
  | .recording f =>
      some (.silent, n.writeInfo f { (n.files f).info with previousOvercommitRatio := n.ratio },
        .registering f)
  | .registering f =>
      some (.silent, n.writeInfo f ((n.files f).info.registerJob proc.jobid proc.stepid).2,
        .posting f false)
  | .posting f true => some (.semPost f, n.semPost f, .destroying f true)
  | .posting f false => some (.semPost f, n.semPost f, .settingMode f)
  | .settingMode f =>
      match proc.task with
      | .use mode _ =>
          match n.setCurrentState mode with
          | some n => some (.silent, n, .settingRatio f)
          | none => some (.silent, n, .running f)
      | _ => none
  | .settingRatio f =>
      match proc.task with
      | .use _ ratio => some (.silent, n.ratioSet ratio, .running f)
      | _ => none
  | .running f => (n.semWait f).map fun n => (.semWait f, n, .unregistering f)
  | .unregistering f =>
      some (.silent, n.writeInfo f ((n.files f).info.unregisterJob proc.jobid proc.stepid).2,
        .destroying f false)
  | .destroying f refused =>
      some (.silent, n,
        if (n.files f).info.nusers = 0 then .unlinking f refused else .releasing f refused)
  | .unlinking f refused => some (.silent, { n with linked := none }, .resettingMode f refused)
  | .resettingMode f refused =>
      some (.silent, if n.mode ≠ 0 then { n with mode := 0 } else n, .resettingRatio f refused)
  | .resettingRatio f refused =>
      some (.silent, n.ratioSet (n.files f).info.previousOvercommitRatio, .releasing f refused)
  | .releasing f refused =>
      some (.semPost f, n.semPost f, if refused then .dangling else .done)
  | .dangling => some (.silent, n, .crashed)
  | .done | .crashed => none

/-- The mode is set if it is one, and the ratio only behind it. -/
theorem Proc.move_settingMode {p f : Nat} {n n' : Node} {proc : Proc} {event : Event} {pc' : Pc}
    (hpc : proc.pc = .settingMode f) (hmove : proc.move p n = some (event, n', pc')) :
    event = .silent ∧ ∃ mode ratio, proc.task = .use mode ratio ∧
      (n' = { n with mode := mode } ∧ pc' = .settingRatio f ∨ n' = n ∧ pc' = .running f) := by
  obtain ⟨jobid, stepid, task, pc⟩ := proc
  obtain rfl : pc = .settingMode f := hpc
  cases task with
  | use mode ratio =>
      simp only [Proc.move, Node.setCurrentState] at hmove
      split at hmove
      next _ _ hset =>
        split at hset
        next => cases hset
        next =>
          cases hset
          cases hmove
          exact ⟨rfl, mode, ratio, rfl, Or.inl ⟨rfl, rfl⟩⟩
      next =>
        cases hmove
        exact ⟨rfl, mode, ratio, rfl, Or.inr ⟨rfl, rfl⟩⟩
  | _ => cases hmove

/-- The next step of a process. -/
def Proc.step (p : Nat) (n : Node) (proc : Proc) : Option (Event × Node × Proc) :=
  (proc.move p n).map fun (event, n, pc) => (event, n, { proc with pc })

/-- The processes on a node. -/
abbrev System := Processes Node Proc

/-- One process makes a step. -/
abbrev SystemStep : System → Nat × Event → System → Prop := Processes.Step Proc.step

/-- Processes that are about to start, with their ids and tasks, on a node on which the plugin has
not been used. -/
def System.new (mode ratio : Int) (procs : List (Int × Int × Task)) : System :=
  ⟨.fresh mode ratio, procs.map fun (jobid, stepid, task) => ⟨jobid, stepid, task, .start⟩⟩

theorem System.new_locals {mode ratio : Int} {procs : List (Int × Int × Task)} {p : Nat}
    {proc : Proc} (hp : (System.new mode ratio procs).locals[p]? = some proc) :
    proc.pc = .start ∧ (proc.jobid, proc.stepid, proc.task) ∈ procs := by
  obtain ⟨⟨jobid, stepid, task⟩, hmem, rfl⟩ := List.mem_map.mp (List.mem_of_getElem? hp)
  exact ⟨rfl, hmem⟩

end SlurmSpank.Overcommit
