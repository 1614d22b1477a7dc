import SlurmSpank.Cpuset.Daemons

/-! # What a step of a process does

A step changes the tree in an orderly way that leaves the cpusets in use with their CPUs, it
takes or gives up the lock with the process knowing about it, and it leaves a daemon where its
phase says that it is.
-/

namespace SlurmSpank.Cpuset

open Foundation Hierarchy

variable {machine : Machine} {conf : CpusetConf} {fuel : Nat} {size p : Nat}
  {h h' : Cpusets} {host host' : Host} {daemon : Daemon} {phase phase' : Phase}
  {place place' dir : List Name} {taken : List (List Name)} {action : Action}
  {inUse : List Name → Prop} {l l' : Process}

/-! ## Where a daemon is -/

/-- Where the daemon is in each phase: in the root until it has migrated to its job. -/
def Daemon.Seated (daemon : Daemon) (place : List Name) : Phase → Prop
  | .leaving rc | .ready rc => if rc = 0 then place = daemon.jobDir else place = []
  | .stepLocked | .stepCreated => place = daemon.jobDir
  | .stepLeaving _ | .stepReady _ => place = daemon.jobDir ∨ place = daemon.stepDir
  | .exited | .ended => True
  | _ => place = []

/-- The daemon is where its phase says, and in its job it has CPUs. -/
structure Daemon.Settled (daemon : Daemon) (h : Cpusets) (phase : Phase) (place : List Name) :
    Prop where
  uid_nonneg : 0 ≤ daemon.uid.toInt
  seated : daemon.Seated place phase
  nonempty : phase.inJob = true → (jobCpus h place).Nonempty

/-- What holds of each process in every tree reached. -/
def Process.Settled (h : Cpusets) : Process → Prop
  | .daemon d phase place => d.Settled h phase place
  | .agent _ => True
  | .login _ uid _ => 0 ≤ uid.toInt

theorem dirOf_jobDir (daemon : Daemon) : dirOf (cpusetName daemon.jobDir) = daemon.jobDir := by
  apply dirOf_cpusetName
  simp only [Daemon.jobDir, userDir, slurmDir, List.forall_mem_cons]
  exact ⟨⟨printId_ne_nil _, slash_notMem_printId _⟩,
    ⟨printUid_ne_nil _, slash_notMem_printUid _⟩, by decide, by simp⟩

/-- The path of a job's cpuset, which begins with that of the base cpuset. -/
theorem cpusetName_jobDir (daemon : Daemon) : cpusetName daemon.jobDir =
    slurmName ++ '/' :: printUid daemon.uid ++ '/' :: printId daemon.jobid := rfl

theorem cpusetName_jobDir_take (daemon : Daemon) :
    (cpusetName daemon.jobDir).take 6 = slurmName := by
  rw [cpusetName_jobDir, List.append_assoc]
  exact List.take_left' rfl

theorem cpusetName_jobDir_length_lt (daemon : Daemon) :
    (cpusetName daemon.jobDir).length < 64 := by
  have huid := printUid_length_le daemon.uid
  have hid := printId_length_le daemon.jobid
  simp only [cpusetName_jobDir, slurmName, List.length_append, List.length_cons, List.length_nil]
  omega

theorem migrateFrom_eq_some {works : Bool} {id uid : BitVec 32}
    (hmigrate : migrateFrom place works id uid h = some dir) :
    dir = dirOf (migrateJobToCpuset (reportsPath (cpusetName place)) [] id uid) ∧ dir ∈ h.dirs ∧
      h.items dir ≠ ∅ := by
  simp only [migrateFrom, Option.ite_none_right_eq_some, Option.some.injEq] at hmigrate
  obtain ⟨⟨-, hdir, hitems⟩, rfl⟩ := hmigrate
  exact ⟨rfl, hdir, hitems⟩

/-- A daemon in the root migrates to its job. -/
theorem migrateFrom_root {works : Bool}
    (hmigrate : migrateFrom [] works daemon.jobid daemon.uid h = some dir) :
    dir = daemon.jobDir ∧ (jobCpus h dir).Nonempty := by
  obtain ⟨heq, hdir, hitems⟩ := migrateFrom_eq_some hmigrate
  have hpath : dir = daemon.jobDir := by
    rw [heq, migrateJobToCpuset_of_lt (reportsPath_reports _) (by decide), dirOf_job]
    exact congrArg _ (userDir_eq_dirOf daemon.uid)
  refine ⟨hpath, ?_⟩
  rw [jobCpus, held_eq (hpath ▸ ofJob_cons_cons _ _) hdir]
  exact Finset.nonempty_iff_ne_empty.mpr hitems

/-- A daemon in its job migrates to its step. -/
theorem migrateFrom_jobDir {works : Bool} {uid : BitVec 32}
    (hmigrate : migrateFrom daemon.jobDir works daemon.stepid uid h = some dir) :
    dir = daemon.stepDir ∧ (jobCpus h dir).Nonempty := by
  obtain ⟨heq, hdir, hitems⟩ := migrateFrom_eq_some hmigrate
  have hpath : dir = daemon.stepDir := by
    have hlt := cpusetName_jobDir_length_lt daemon
    rw [heq, migrateJobToCpuset_of_lt (reportsPath_reports _) (by omega), dirOf_job, migrateParent,
      if_neg (not_not.mpr (cpusetName_jobDir_take daemon)), dirOf_jobDir]
    rfl
  refine ⟨hpath, ?_⟩
  rw [jobCpus, held_eq (hpath ▸ (ofJob_cons_cons _ _).cons _) hdir]
  exact Finset.nonempty_iff_ne_empty.mpr hitems

/-! ## What a step does -/

/-- What a step of a process does to the host: the tree is changed in an orderly way, and the
lock is taken or given up with the process knowing about it. -/
structure Effect (size : Nat) (taken : List (List Name)) (p : Nat) (host host' : Host)
    (holding holding' : Bool) : Prop where
  respects : Respects size (· ∈ taken) host.cpusets host'.cpusets
  lock : LockMove p host.lock holding host'.lock holding'

/-- A cpuset that is in use has CPUs after the step if it had some before. -/
theorem Effect.nonempty {holding holding' : Bool}
    (heffect : Effect size taken p host host' holding holding') (htaken : place ∈ taken)
    (hnonempty : (jobCpus host.cpusets place).Nonempty) :
    (jobCpus host'.cpusets place).Nonempty := by
  rwa [heffect.respects.kept place htaken hnonempty]

theorem Host.acquire_effect (horderly : Orderly size host.cpusets)
    (hacquire : host.acquire p = some host') : Effect size taken p host host' false true := by
  simp only [acquire, Option.ite_none_right_eq_some, Option.some.injEq] at hacquire
  obtain ⟨hfree, rfl⟩ := hacquire
  refine ⟨.refl horderly, ?_⟩
  rw [hfree]
  exact .acquire

theorem Host.release_effect (horderly : Orderly size host.cpusets) :
    Effect size taken p host host.release true false :=
  ⟨.refl horderly, .release _⟩

theorem Host.same_effect (horderly : Orderly size host.cpusets) (holding : Bool) :
    Effect size taken p host host holding holding :=
  ⟨.refl horderly, .keep _ _⟩

theorem Host.put_effect (hrespects : Respects size (· ∈ taken) host.cpusets h) (holding : Bool) :
    Effect size taken p host (host.put h) holding holding :=
  ⟨hrespects, .keep _ _⟩

/-- A process that ends gives up the lock if it has it. -/
theorem Host.finish_effect (horderly : Orderly size host.cpusets) (holding : Bool) :
    Effect size taken p host (if holding then host.release else host) holding false := by
  cases holding with
  | true => exact release_effect horderly
  | false => exact same_effect horderly false

/-- The clean-up under the lock finds the base cpuset, and returns the lock. -/
theorem Host.clean_effect (hlists : machine.Lists)
    (horderly : Orderly machine.numa.cpumaskSize host.cpusets) {tasks : List Name → Nat}
    {jobs : Option (List JobInfo)} {ok : Bool}
    (hclean : host.clean machine taken conf tasks jobs = some (ok, host')) :
    ok = true ∧ Effect machine.numa.cpumaskSize taken p host host' true true := by
  have hbusy : ∀ dir, dir ∈ taken → 0 < (activityOf taken tasks jobs).tasks dir := fun dir hdir =>
    (List.count_pos_iff.mpr hdir).trans_le (Nat.le_add_right _ _)
  obtain ⟨h', hreturns, hrespects⟩ := @slurmCpusetClean_respects machine
    (Calls.succeed [] (host.cpusets.items []) 0) conf _ host.cpusets (· ∈ taken) hlists horderly
    (Calls.succeed_succeeds _ _ _) hbusy
  have hlock : SetupCalls.succeed.lock = true := rfl
  rw [clean, slurmCpusetCreate, hlock, if_neg (by decide), if_pos horderly.slurm_mem, hreturns]
    at hclean
  obtain ⟨rfl, rfl⟩ := Prod.mk.inj (Option.some.inj hclean)
  exact ⟨rfl, put_effect hrespects true⟩

/-- A step of a daemon that is where it should be. -/
theorem Daemon.act_effect (hlists : machine.Lists)
    (horderly : Orderly machine.numa.cpumaskSize host.cpusets)
    (hsettled : daemon.Settled host.cpusets phase place)
    (htaken : phase.inJob = true → place ∈ taken)
    (hact : daemon.act machine taken p host place phase action = some (host', phase', place')) :
    Effect machine.numa.cpumaskSize taken p host host' phase.holding phase'.holding ∧
      daemon.Settled host'.cpusets phase' place' := by
  obtain ⟨huid, hseated, hnonempty⟩ := hsettled
  unfold Daemon.act at hact
  split at hact
  -- `slurm_spank_init`
  next =>
    obtain ⟨_, hacquire, rfl, rfl, rfl⟩ := Option.map_eq_some_iff.mp hact
    exact ⟨Host.acquire_effect horderly hacquire, huid, hseated, by simp [Phase.inJob]⟩
  next conf tasks jobs =>
    obtain ⟨⟨ok, _⟩, hclean, rfl, rfl, rfl⟩ := Option.map_eq_some_iff.mp hact
    obtain ⟨rfl, heffect⟩ := Host.clean_effect hlists horderly hclean
    exact ⟨heffect, huid, hseated, by simp [Phase.inJob]⟩
  next works =>
    obtain rfl : place = [] := hseated
    split at hact
    next dir hmigrate =>
      obtain ⟨rfl, rfl, rfl⟩ := Option.some.inj hact
      obtain ⟨hdir, hcpus⟩ := migrateFrom_root hmigrate
      exact ⟨Host.same_effect horderly true, huid, hdir, fun _ => hcpus⟩
    next =>
      obtain ⟨rfl, rfl, rfl⟩ := Option.some.inj hact
      exact ⟨Host.same_effect horderly true, huid, rfl, by simp [Phase.inJob]⟩
  next conf fuel staleRc =>
    obtain rfl : place = [] := hseated
    obtain ⟨result, hcall, rfl, rfl, rfl⟩ := Option.map_eq_some_iff.mp hact
    have hrespects : Respects machine.numa.cpumaskSize (· ∈ taken) host.cpusets result.cpusets :=
      createCpusetForJob_respects hlists horderly (Or.inl rfl) huid hcall
    split
    next hneg =>
      have hne : result.ret ≠ 0 := hneg.ne
      exact ⟨Host.put_effect hrespects true, huid, by simp [Seated, hne],
        by simp [Phase.inJob, hne]⟩
    next => exact ⟨Host.put_effect hrespects true, huid, rfl, by simp [Phase.inJob]⟩
  next works =>
    obtain rfl : place = [] := hseated
    split at hact
    next dir hmigrate =>
      obtain ⟨rfl, rfl, rfl⟩ := Option.some.inj hact
      obtain ⟨hdir, hcpus⟩ := migrateFrom_root hmigrate
      exact ⟨Host.same_effect horderly true, huid, hdir, fun _ => hcpus⟩
    next =>
      obtain ⟨rfl, rfl, rfl⟩ := Option.some.inj hact
      exact ⟨Host.same_effect horderly true, huid, rfl, by simp [Phase.inJob]⟩
  next rc =>
    obtain ⟨rfl, rfl, rfl⟩ := Option.some.inj hact
    exact ⟨Host.release_effect horderly, huid, hseated, hnonempty⟩
  -- `slurm_spank_init_post_opt`, in the job
  next rc =>
    split at hact
    next hzero =>
      obtain ⟨_, hacquire, rfl, rfl, rfl⟩ := Option.map_eq_some_iff.mp hact
      rw [Seated, if_pos hzero] at hseated
      have heffect : Effect machine.numa.cpumaskSize taken p host _ false true :=
        Host.acquire_effect horderly hacquire
      have hinJob : Phase.inJob (.ready rc) = true := decide_eq_true hzero
      exact ⟨heffect, huid, hseated, fun _ => heffect.nonempty (htaken hinJob) (hnonempty hinJob)⟩
    next => cases hact
  next conf fuel staleRc =>
    obtain rfl : place = daemon.jobDir := hseated
    obtain ⟨result, hcall, rfl, rfl, rfl⟩ := Option.map_eq_some_iff.mp hact
    obtain ⟨hjob, hdir, -⟩ := of_held_nonempty (hnonempty rfl)
    have hrespects : Respects machine.numa.cpumaskSize (· ∈ taken) host.cpusets result.cpusets :=
      createCpusetForStep_respects hlists horderly hdir hjob.1 rfl hcall
    have heffect : Effect machine.numa.cpumaskSize taken p host (host.put result.cpusets) true
        true := Host.put_effect hrespects true
    have hcpus := heffect.nonempty (htaken rfl) (hnonempty rfl)
    split
    next => exact ⟨heffect, huid, Or.inl rfl, fun _ => hcpus⟩
    next => exact ⟨heffect, huid, rfl, fun _ => hcpus⟩
  next works =>
    obtain rfl : place = daemon.jobDir := hseated
    split at hact
    next dir hmigrate =>
      obtain ⟨rfl, rfl, rfl⟩ := Option.some.inj hact
      obtain ⟨hdir, hcpus⟩ := migrateFrom_jobDir hmigrate
      exact ⟨Host.same_effect horderly true, huid, Or.inr hdir, fun _ => hcpus⟩
    next =>
      obtain ⟨rfl, rfl, rfl⟩ := Option.some.inj hact
      exact ⟨Host.same_effect horderly true, huid, Or.inl rfl, hnonempty⟩
  next rc =>
    obtain ⟨rfl, rfl, rfl⟩ := Option.some.inj hact
    exact ⟨Host.release_effect horderly, huid, hseated, hnonempty⟩
  next rc =>
    split at hact
    next =>
      obtain ⟨rfl, rfl, rfl⟩ := Option.some.inj hact
      exact ⟨Host.same_effect horderly false, huid, trivial, by simp [Phase.inJob]⟩
    next => cases hact
  next rc =>
    obtain ⟨rfl, rfl, rfl⟩ := Option.some.inj hact
    exact ⟨Host.same_effect horderly false, huid, trivial, by simp [Phase.inJob]⟩
  next =>
    obtain ⟨rfl, rfl, rfl⟩ := Option.some.inj hact
    exact ⟨Host.finish_effect horderly _, huid, trivial, by simp [Phase.inJob]⟩
  next => cases hact

/-- A step of the release agent. -/
theorem AgentPhase.act_effect (hlists : machine.Lists)
    (horderly : Orderly machine.numa.cpumaskSize host.cpusets) {agent agent' : AgentPhase}
    (hact : agent.act machine taken p host action = some (host', agent')) :
    Effect machine.numa.cpumaskSize taken p host host' agent.holding agent'.holding := by
  unfold AgentPhase.act at hact
  split at hact
  next =>
    obtain ⟨_, hacquire, rfl, rfl⟩ := Option.map_eq_some_iff.mp hact
    exact Host.acquire_effect horderly hacquire
  next conf tasks jobs =>
    obtain ⟨⟨ok, _⟩, hclean, rfl, rfl⟩ := Option.map_eq_some_iff.mp hact
    obtain ⟨rfl, heffect⟩ := Host.clean_effect hlists horderly hclean
    exact heffect
  next conf =>
    obtain ⟨⟨_, h'⟩, hupdate, rfl, rfl⟩ := Option.map_eq_some_iff.mp hact
    obtain ⟨_, hreturns, hrespects⟩ := @updateUserCpusets_respects machine
      (Calls.succeed [] (host.cpusets.items []) 0) conf host.cpusets (· ∈ taken) hlists horderly
      (Calls.succeed_succeeds _ _ _)
    obtain ⟨-, rfl⟩ := Prod.mk.inj (Option.some.inj (hreturns.symm.trans hupdate))
    exact Host.put_effect hrespects true
  next =>
    obtain ⟨rfl, rfl⟩ := Option.some.inj hact
    exact Host.release_effect horderly
  next =>
    obtain ⟨rfl, rfl⟩ := Option.some.inj hact
    exact Host.finish_effect horderly _
  next => cases hact

/-- The turn of a login for one job creates a cpuset for it, or changes nothing. -/
theorem jobTurn_respects (hlists : machine.Lists) (horderly : Orderly machine.numa.cpumaskSize h)
    {login : Login} {uid : BitVec 32} {hostname : List Char} {total total' : BitVec 32}
    {entry : JobInfo × Nat} {cpus : Finset Nat} {staleRc : Int} (huid : 0 ≤ uid.toInt)
    (hcalls : login.jobCalls entry.2 = Calls.succeed [] cpus staleRc)
    (hturn : jobTurn machine fuel login conf uid hostname (total, h) entry = some (total', h')) :
    Respects machine.numa.cpumaskSize inUse h h' := by
  simp only [jobTurn, hcalls] at hturn
  split at hturn
  next =>
    obtain ⟨-, rfl⟩ := Prod.mk.inj (Option.some.inj hturn)
    exact .refl horderly
  next hcounts =>
    have howner : entry.1.userId = uid := (not_not.mp hcounts).1
    split at hturn
    next =>
      obtain ⟨-, rfl⟩ := Prod.mk.inj (Option.some.inj hturn)
      exact .refl horderly
    next =>
      split at hturn
      next => cases hturn
      next result hcall =>
        have hrespects : Respects machine.numa.cpumaskSize inUse h result.cpusets :=
          createCpusetForJob_respects hlists horderly (Or.inl rfl) (howner ▸ huid) hcall
        split at hturn
        all_goals
          obtain ⟨-, rfl⟩ := Prod.mk.inj (Option.some.inj hturn)
          exact hrespects

/-- A step of a login. -/
theorem LoginPhase.act_effect (hlists : machine.Lists)
    (horderly : Orderly machine.numa.cpumaskSize host.cpusets) {calls : Login} {uid : BitVec 32}
    {login login' : LoginPhase} (huid : 0 ≤ uid.toInt)
    (hact : login.act machine taken calls uid p host action = some (host', login')) :
    Effect machine.numa.cpumaskSize taken p host host' login.holding login'.holding := by
  unfold LoginPhase.act at hact
  split at hact
  next =>
    obtain ⟨_, hacquire, rfl, rfl⟩ := Option.map_eq_some_iff.mp hact
    exact Host.acquire_effect horderly hacquire
  next conf tasks jobs =>
    obtain ⟨⟨ok, _⟩, hclean, rfl, rfl⟩ := Option.map_eq_some_iff.mp hact
    obtain ⟨rfl, heffect⟩ := Host.clean_effect hlists horderly hclean
    exact heffect
  next entry pending total conf fuel staleRc =>
    obtain ⟨⟨_, h'⟩, hturn, rfl, rfl⟩ := Option.map_eq_some_iff.mp hact
    exact Host.put_effect (jobTurn_respects hlists horderly huid rfl hturn) true
  next =>
    obtain ⟨rfl, rfl⟩ := Option.some.inj hact
    exact Host.release_effect horderly
  next =>
    obtain ⟨rfl, rfl⟩ := Option.some.inj hact
    exact Host.finish_effect horderly _
  next => cases hact

/-- A step of any process. -/
theorem Process.act_effect (hlists : machine.Lists)
    (horderly : Orderly machine.numa.cpumaskSize host.cpusets) (hsettled : l.Settled host.cpusets)
    (htaken : ∀ place ∈ l.place, place ∈ taken)
    (hact : l.act machine taken p host action = some (host', l')) :
    Effect machine.numa.cpumaskSize taken p host host' l.holding l'.holding ∧
      l'.Settled host'.cpusets := by
  cases l with
  | daemon d phase place =>
      obtain ⟨⟨_, phase', place'⟩, hstep, rfl, rfl⟩ := Option.map_eq_some_iff.mp hact
      refine d.act_effect hlists horderly hsettled (fun hinJob => htaken place ?_) hstep
      exact if_pos hinJob
  | agent phase =>
      obtain ⟨⟨_, phase'⟩, hstep, rfl, rfl⟩ := Option.map_eq_some_iff.mp hact
      exact ⟨AgentPhase.act_effect hlists horderly hstep, trivial⟩
  | login calls uid phase =>
      obtain ⟨⟨_, phase'⟩, hstep, rfl, rfl⟩ := Option.map_eq_some_iff.mp hact
      exact ⟨LoginPhase.act_effect hlists horderly hsettled hstep, hsettled⟩

end SlurmSpank.Cpuset
