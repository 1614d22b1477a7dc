import SlurmSpank.Cpuset.Atomicity
import SlurmSpank.Cpuset.DaemonSteps

/-! # Jobs keep their CPUs

However the steps of the daemons, the release agents and the logins interleave, at most one of
them has the lock, the tree stays orderly, and a daemon whose `slurm_spank_init` has succeeded
is in a cpuset of its job, which holds CPUs and keeps them as long as the daemon stays.
-/

namespace SlurmSpank.Cpuset

open Foundation Hierarchy

variable {machine : Machine} {size p q : Nat} {h : Cpusets} {host host' : Host} {daemon : Daemon}
  {phase phase' : Phase} {place place' : List Name} {taken : List (List Name)} {action : Action}
  {l l' : Process} {c c' : Processes Host Process}

/-! ## Consistent states -/

/-- The tree is orderly, the lock and the processes agree, and each process is where it should
be. -/
def Consistent (size : Nat) (c : Processes Host Process) : Prop :=
  c.Holds (fun host => Orderly size host.cpusets)
    (fun host p l => LockAgrees host.lock p l.holding ∧ l.Settled host.cpusets)

theorem mem_occupied (hlocal : c.locals[p]? = some l) (hplace : place ∈ l.place) :
    place ∈ occupied c :=
  List.mem_filterMap.mpr ⟨l, List.mem_of_getElem? hlocal, hplace⟩

/-- What the step of a process does, in a consistent state. -/
theorem HostStep.effect (hlists : machine.Lists) (hc : Consistent machine.numa.cpumaskSize c)
    (hstep : HostStep machine c (p, action) c') :
    ∃ l l', c.locals[p]? = some l ∧ c'.locals = c.locals.set p l' ∧
      l.act machine (occupied c) p c.shared action = some (c'.shared, l') ∧
      Effect machine.numa.cpumaskSize (occupied c) p c.shared c'.shared l.holding l'.holding ∧
      l'.Settled c'.shared.cpusets := by
  obtain ⟨hlocal, hact⟩ := hstep
  obtain ⟨-, hsettled⟩ := hc.locals p _ hlocal
  exact ⟨_, _, hlocal, rfl, hact, Process.act_effect hlists hc.shared hsettled
    (fun place hplace => mem_occupied hlocal hplace) hact⟩

/-- A step of another process leaves a process where it should be. -/
theorem Process.Settled.kept {taken : List (List Name)} {holding holding' : Bool}
    (hsettled : l.Settled host.cpusets)
    (heffect : Effect size taken p host host' holding holding')
    (htaken : ∀ place ∈ l.place, place ∈ taken) : l.Settled host'.cpusets := by
  cases l with
  | daemon d phase place =>
      obtain ⟨huid, hseated, hnonempty⟩ := hsettled
      exact ⟨huid, hseated, fun hinJob =>
        heffect.nonempty (htaken place (if_pos hinJob)) (hnonempty hinJob)⟩
  | agent phase => trivial
  | login calls uid phase => exact hsettled

theorem HostStep.consistent (hlists : machine.Lists)
    (hc : Consistent machine.numa.cpumaskSize c) {label : Nat × Action}
    (hstep : HostStep machine c label c') : Consistent machine.numa.cpumaskSize c' := by
  obtain ⟨p, action⟩ := label
  obtain ⟨l, l', hlocal, hlocals, -, heffect, hsettled⟩ := hstep.effect hlists hc
  have hself := (hc.locals p l hlocal).1
  have hnext : c' = ⟨c'.shared, c.locals.set p l'⟩ := Processes.ext rfl hlocals
  rw [hnext]
  refine hc.step hlocal ⟨heffect.respects.orderly, heffect.lock.self hself, hsettled⟩ ?_
  intro q k hne hq hk
  exact ⟨heffect.lock.other hne hself hk.1,
    hk.2.kept heffect fun place hplace => mem_occupied hq hplace⟩

/-- A process that has not begun; daemons are started in the root. -/
def Process.Idle : Process → Prop
  | .daemon d phase place => phase = .start ∧ place = [] ∧ 0 ≤ d.uid.toInt
  | .agent phase => phase = .start
  | .login _ uid phase => phase = .start ∧ 0 ≤ uid.toInt

/-- A host as it is found: the base cpuset has no children, the lock is free, and nobody has
begun. -/
structure Idle (size : Nat) (c : Processes Host Process) : Prop where
  fresh : Fresh size c.shared.cpusets
  free : c.shared.lock = none
  idle : ∀ (p : Nat) (l : Process), c.locals[p]? = some l → l.Idle

theorem Fresh.orderly (hfresh : Fresh size h) : Orderly size h where
  toCanonical := hfresh.canonical
  owned left right _ := by
    have hnone : h.held OfJob left = ∅ := by
      by_contra hsome
      obtain ⟨hjob, hdir, -⟩ := of_held_nonempty (Finset.nonempty_iff_ne_empty.mpr hsome)
      obtain ⟨job, user, hbelow⟩ := hjob.exists_user
      exact hfresh.childless user slurmDir (h.parent_mem _ _ (h.mem_of_suffix hdir hbelow))
        List.suffix_rfl
    rw [hnone]
    exact Finset.disjoint_empty_left _

theorem Idle.consistent (hidle : Idle size c) : Consistent size c where
  shared := hidle.fresh.orderly
  locals p l hlocal := by
    have hstart := hidle.idle p l hlocal
    have hnot : ¬ c.shared.lock = some p := by simp [hidle.free]
    cases l with
    | daemon d phase place =>
        obtain ⟨rfl, rfl, huid⟩ := hstart
        exact ⟨iff_of_false Bool.false_ne_true hnot, huid, rfl, by simp [Phase.inJob]⟩
    | agent phase =>
        obtain rfl := hstart
        exact ⟨iff_of_false Bool.false_ne_true hnot, trivial⟩
    | login calls uid phase =>
        obtain ⟨rfl, huid⟩ := hstart
        exact ⟨iff_of_false Bool.false_ne_true hnot, huid⟩

theorem run_consistent (hlists : machine.Lists) (hidle : Idle machine.numa.cpumaskSize c)
    {labels : List (Nat × Action)} (hrun : Run (HostStep machine) c labels c') :
    Consistent machine.numa.cpumaskSize c' :=
  hrun.invariant (Consistent machine.numa.cpumaskSize)
    (fun _ _ _ hc hstep => hstep.consistent hlists hc) hidle.consistent

/-! ## What is promised to the jobs -/

/-- Process `p` is a daemon that is in the given cpuset of its job. -/
def InJob (c : Processes Host Process) (p : Nat) (daemon : Daemon) (place : List Name) : Prop :=
  ∃ phase, c.locals[p]? = some (.daemon daemon phase place) ∧ phase.inJob = true

/-- Only one process has the lock. A daemon in its job has a cpuset with CPUs, those of its
step or of the whole job, and daemons of different jobs or of different steps share none. -/
structure Served (c : Processes Host Process) : Prop where
  exclusive : ∀ (p q : Nat) (l k : Process), c.locals[p]? = some l → c.locals[q]? = some k →
    l.holding = true → k.holding = true → p = q
  placed : ∀ p daemon place, InJob c p daemon place →
    (place = daemon.jobDir ∨ place = daemon.stepDir) ∧ place ∈ c.shared.cpusets.dirs ∧
      c.shared.cpusets.items place ≠ ∅
  jobs_apart : ∀ p q daemon other place place', InJob c p daemon place → InJob c q other place' →
    daemon.jobDir ≠ other.jobDir →
    Disjoint (c.shared.cpusets.items place) (c.shared.cpusets.items place')
  steps_apart : ∀ p q daemon other, InJob c p daemon daemon.stepDir →
    InJob c q other other.stepDir → daemon.stepDir ≠ other.stepDir →
    Disjoint (c.shared.cpusets.items daemon.stepDir) (c.shared.cpusets.items other.stepDir)

theorem Daemon.Seated.of_inJob (hseated : daemon.Seated place phase)
    (hinJob : phase.inJob = true) : place = daemon.jobDir ∨ place = daemon.stepDir := by
  cases phase with
  | leaving rc | ready rc =>
      rw [Seated, if_pos (of_decide_eq_true hinJob)] at hseated
      exact Or.inl hseated
  | stepLocked | stepCreated => exact Or.inl hseated
  | stepLeaving rc | stepReady rc => exact hseated
  | start | locked | stuck | cleaned | missing | created | exited | ended => cases hinJob

theorem stepDir_below (daemon : Daemon) : daemon.jobDir <:+ daemon.stepDir := List.suffix_cons _ _

/-- The cpusets of daemons with different jobs are unrelated. -/
theorem unrelated_of_jobDir_ne {other : Daemon} (hne : daemon.jobDir ≠ other.jobDir)
    (hplace : place = daemon.jobDir ∨ place = daemon.stepDir)
    (hplace' : place' = other.jobDir ∨ place' = other.stepDir) : Unrelated place place' := by
  have hbelow : daemon.jobDir <:+ place := by
    rcases hplace with rfl | rfl
    · exact List.suffix_rfl
    · exact stepDir_below daemon
  have hbelow' : other.jobDir <:+ place' := by
    rcases hplace' with rfl | rfl
    · exact List.suffix_rfl
    · exact stepDir_below other
  have hnot : ∀ dir, daemon.jobDir <:+ dir → ¬ other.jobDir <:+ dir := fun dir hleft hright =>
    hne ((List.suffix_of_suffix_length_le hleft hright le_rfl).eq_of_length rfl)
  exact ⟨fun hsuffix => hnot _ (hbelow.trans hsuffix) hbelow',
    fun hsuffix => hnot _ hbelow (hbelow'.trans hsuffix)⟩

theorem Consistent.served (hc : Consistent size c) : Served c := by
  have hplaced : ∀ p daemon place, InJob c p daemon place →
      (place = daemon.jobDir ∨ place = daemon.stepDir) ∧ place ∈ c.shared.cpusets.dirs ∧
        (jobCpus c.shared.cpusets place).Nonempty ∧
        jobCpus c.shared.cpusets place = c.shared.cpusets.items place := by
    rintro p daemon place ⟨phase, hlocal, hinJob⟩
    obtain ⟨-, -, hseated, hnonempty⟩ := hc.locals p _ hlocal
    obtain ⟨-, hdir, heq⟩ := of_held_nonempty (hnonempty hinJob)
    exact ⟨hseated.of_inJob hinJob, hdir, hnonempty hinJob, heq⟩
  have hapart : ∀ p q daemon other place place', InJob c p daemon place →
      InJob c q other place' → Unrelated place place' →
      Disjoint (c.shared.cpusets.items place) (c.shared.cpusets.items place') := by
    intro p q daemon other place place' hp hq hunrelated
    rw [← (hplaced p daemon place hp).2.2.2, ← (hplaced q other place' hq).2.2.2]
    exact hc.shared.owned place place' hunrelated
  constructor
  · intro p q l k hp hq hl hk
    have hlockP := (hc.locals p l hp).1
    have hlockQ := (hc.locals q k hq).1
    rw [hl] at hlockP
    rw [hk] at hlockQ
    exact hlockP.unique hlockQ
  · intro p daemon place hp
    obtain ⟨hplace, hdir, hnonempty, heq⟩ := hplaced p daemon place hp
    exact ⟨hplace, hdir, heq ▸ hnonempty.ne_empty⟩
  · intro p q daemon other place place' hp hq hne
    exact hapart p q daemon other place place' hp hq
      (unrelated_of_jobDir_ne hne (hplaced p daemon place hp).1 (hplaced q other place' hq).1)
  · intro p q daemon other hp hq hne
    refine hapart p q daemon other _ _ hp hq ⟨fun hsuffix => ?_, fun hsuffix => ?_⟩
    · exact hne (hsuffix.eq_of_length rfl)
    · exact hne (hsuffix.eq_of_length rfl).symm

/-- Making steps one after the other, as long as each of them can be made. -/
def takeSteps (machine : Machine) (c : Processes Host Process) (labels : List (Nat × Action)) :
    Option (Processes Host Process) :=
  labels.foldlM (fun c (p, action) => c.locals[p]?.bind fun l =>
    (l.act machine (occupied c) p c.shared action).map fun (host, l') =>
      ⟨host, c.locals.set p l'⟩) c

theorem run_of_takeSteps {labels : List (Nat × Action)} (holds : Nat × Action → Prop)
    (hholds : ∀ label ∈ labels, holds label) (hsteps : takeSteps machine c labels = some c') :
    Run (fun before label after => HostStep machine before label after ∧ holds label) c labels
      c' := by
  induction labels generalizing c with
  | nil =>
      obtain rfl := Option.some.inj hsteps
      exact .start
  | cons label rest ih =>
      obtain ⟨p, action⟩ := label
      rw [takeSteps, List.foldlM_cons] at hsteps
      obtain ⟨next, hnext, hrest⟩ := Option.bind_eq_some_iff.mp hsteps
      obtain ⟨l, hlocal, hact⟩ := Option.bind_eq_some_iff.mp hnext
      obtain ⟨⟨host, l'⟩, hmade, rfl⟩ := Option.map_eq_some_iff.mp hact
      exact (ih (fun other hother => hholds other (List.mem_cons_of_mem _ hother)) hrest).cons
        ⟨.step hlocal hmade, hholds _ List.mem_cons_self⟩

/-- In every state that the processes reach from an idle host, in any order of their steps. -/
theorem run_served (hlists : machine.Lists) (hidle : Idle machine.numa.cpumaskSize c)
    {labels : List (Nat × Action)} (hrun : Run (HostStep machine) c labels c') : Served c' :=
  (run_consistent hlists hidle hrun).served

/-- What SLURM tells the daemons of jobs that get the given number of CPUs. -/
def spankOf (ncpus : BitVec 16) : Spank where
  jobNcpus := some ncpus
  jobNodeid := none
  localTaskCount := some 1
  cpusPerTask := some ['1']
  loadJob _ := none

def firstDaemon : Daemon := ⟨1, 0, 1000, spankOf 1⟩

def secondDaemon : Daemon := ⟨2, 0, 1001, spankOf 2⟩

/-- Two daemons and a release agent on a machine with four CPUs. -/
def smallHost : Processes Host Process where
  shared := ⟨slurmTree (Finset.range 4), none⟩
  locals := [.daemon firstDaemon .start [], .daemon secondDaemon .start [], .agent .start]

theorem twoNodesMachine_lists : twoNodesMachine.Lists := Machine.plain_lists _

theorem smallHost_idle : Idle twoNodesMachine.numa.cpumaskSize smallHost where
  fresh := slurmTree_fresh 4
  free := rfl
  idle p l hlocal := by
    have hmem := List.mem_of_getElem? hlocal
    simp only [smallHost, List.mem_cons, List.not_mem_nil, or_false] at hmem
    rcases hmem with rfl | rfl | rfl
    · exact ⟨rfl, rfl, by decide⟩
    · exact ⟨rfl, rfl, by decide⟩
    · rfl

/-- The steps of a daemon that finds no cpuset of its job and creates it. -/
def initSteps (p : Nat) : List (Nat × Action) :=
  [(p, .lock), (p, .clean cpusetConfCreate (fun _ => 0) (some [])), (p, .migrate true),
    (p, .create cpusetConfCreate 0 0), (p, .migrate true), (p, .unlock)]

/-- The steps of a release agent. -/
def agentSteps (p : Nat) : List (Nat × Action) :=
  [(p, .lock), (p, .clean cpusetConfCreate (fun _ => 0) (some [])), (p, .update cpusetConfCreate),
    (p, .unlock)]

/-- Two jobs that are started one after the other, each with its CPUs. -/
theorem run_served_twoJobs : ∃ c,
    Run (HostStep twoNodesMachine) smallHost (initSteps 0 ++ initSteps 1) c ∧ Served c ∧
      c.shared.cpusets.items firstDaemon.jobDir = {0} ∧
      c.shared.cpusets.items secondDaemon.jobDir = {2, 3} := by
  have hsteps : ((takeSteps twoNodesMachine smallHost (initSteps 0 ++ initSteps 1)).map fun c =>
      (c.shared.cpusets.items firstDaemon.jobDir, c.shared.cpusets.items secondDaemon.jobDir)) =
      some ({0}, {2, 3}) := by decide +kernel
  obtain ⟨c, htaken, heq⟩ := Option.map_eq_some_iff.mp hsteps
  obtain ⟨hfirst, hsecond⟩ := Prod.mk.inj heq
  have hrun : Run (HostStep twoNodesMachine) smallHost (initSteps 0 ++ initSteps 1) c :=
    (run_of_takeSteps (fun _ => True) (fun _ _ => trivial) htaken).mono fun _ _ _ hstep => hstep.1
  exact ⟨c, hrun, run_served twoNodesMachine_lists smallHost_idle hrun, hfirst, hsecond⟩

/-! ## Jobs keep what they have -/

/-- An action that takes a daemon out of its cpuset, or into another one. -/
def Action.moves : Action → Bool
  | .migrate _ | .leave | .finish => true
  | _ => false

/-- A daemon in its job stays in its cpuset as long as it does nothing that moves it. -/
theorem Daemon.act_stays (hinJob : phase.inJob = true) (hstays : action.moves = false)
    (hact : daemon.act machine taken p host place phase action = some (host', phase', place')) :
    phase'.inJob = true ∧ place' = place := by
  unfold Daemon.act at hact
  split at hact
  case h_6 =>
    obtain ⟨rfl, rfl, rfl⟩ := Option.some.inj hact
    exact ⟨hinJob, rfl⟩
  case h_7 =>
    rw [if_pos (of_decide_eq_true hinJob)] at hact
    obtain ⟨_, -, rfl, rfl, rfl⟩ := Option.map_eq_some_iff.mp hact
    exact ⟨rfl, rfl⟩
  case h_8 =>
    obtain ⟨result, -, rfl, rfl, rfl⟩ := Option.map_eq_some_iff.mp hact
    split
    all_goals exact ⟨rfl, rfl⟩
  case h_10 =>
    obtain ⟨rfl, rfl, rfl⟩ := Option.some.inj hact
    exact ⟨rfl, rfl⟩
  -- elsewhere the daemon is not in its job, or the action moves it
  all_goals first | (cases hinJob; done) | cases hstays | cases hact

/-- A daemon in its job with the CPUs of its cpuset. -/
def Keeps (p : Nat) (daemon : Daemon) (place : List Name) (cpus : Finset Nat)
    (c : Processes Host Process) : Prop :=
  InJob c p daemon place ∧ jobCpus c.shared.cpusets place = cpus

/-- A step keeps the CPUs of the cpuset that a daemon is in, whoever makes it, and leaves the
daemon there unless it is the daemon itself that moves. -/
theorem HostStep.keeps (hlists : machine.Lists) (hc : Consistent machine.numa.cpumaskSize c)
    {label : Nat × Action} {cpus : Finset Nat} (hstep : HostStep machine c label c')
    (hstays : label.1 = p → label.2.moves = false) (hkeeps : Keeps p daemon place cpus c) :
    Keeps p daemon place cpus c' := by
  obtain ⟨⟨phase, hlocal, hinJob⟩, hcpus⟩ := hkeeps
  obtain ⟨q, action⟩ := label
  obtain ⟨l, l', hq, hlocals, hact, heffect, -⟩ := hstep.effect hlists hc
  have hnonempty := (hc.locals p _ hlocal).2.nonempty hinJob
  have htaken : place ∈ occupied c := mem_occupied hlocal (if_pos hinJob)
  refine ⟨?_, (heffect.respects.kept place htaken hnonempty).trans hcpus⟩
  by_cases hself : q = p
  · subst hself
    obtain rfl := Option.some.inj (hlocal.symm.trans hq)
    obtain ⟨⟨host', phase', place'⟩, hstep, heq⟩ := Option.map_eq_some_iff.mp hact
    obtain ⟨-, rfl⟩ := Prod.mk.inj heq
    obtain ⟨hinJob', rfl⟩ := Daemon.act_stays hinJob (hstays rfl) hstep
    refine ⟨phase', ?_, hinJob'⟩
    rw [hlocals, List.getElem?_set_self (List.getElem?_eq_some_iff.mp hq).1]
  · exact ⟨phase, by rwa [hlocals, List.getElem?_set_ne hself], hinJob⟩

/-- From any state reached, and in any order of steps: until the daemon of a job migrates,
leaves or ends, it stays in its cpuset, and this keeps exactly the CPUs that it has. -/
theorem run_keepsCpus (hlists : machine.Lists) {start : Processes Host Process}
    (hidle : Idle machine.numa.cpumaskSize start) {earlier labels : List (Nat × Action)}
    (hreached : Run (HostStep machine) start earlier c) (hinJob : InJob c p daemon place)
    (hrun : Run (fun before label after => HostStep machine before label after ∧
      (label.1 = p → label.2.moves = false)) c labels c') :
    InJob c' p daemon place ∧
      c'.shared.cpusets.items place = c.shared.cpusets.items place := by
  have hc := run_consistent hlists hidle hreached
  obtain ⟨hc', hinJob', hcpus⟩ := hrun.invariant
    (fun state => Consistent machine.numa.cpumaskSize state ∧
      Keeps p daemon place (jobCpus c.shared.cpusets place) state)
    (fun _ _ _ hholds hstep => ⟨hstep.1.consistent hlists hholds.1,
      hstep.1.keeps hlists hholds.1 hstep.2 hholds.2⟩) ⟨hc, hinJob, rfl⟩
  refine ⟨hinJob', ?_⟩
  have hheld : ∀ {state : Processes Host Process}, Consistent machine.numa.cpumaskSize state →
      InJob state p daemon place →
      jobCpus state.shared.cpusets place = state.shared.cpusets.items place := by
    rintro state hstate ⟨phase, hlocal, hin⟩
    exact (of_held_nonempty ((hstate.locals p _ hlocal).2.nonempty hin)).2.2
  rw [← hheld hc' hinJob', ← hheld hc hinJob, hcpus]

theorem exists_inJob (hplace : c.locals[p]?.bind Process.place = some place) :
    ∃ daemon, InJob c p daemon place := by
  obtain ⟨l, hlocal, hl⟩ := Option.bind_eq_some_iff.mp hplace
  cases l with
  | daemon d phase seat =>
      obtain ⟨hinJob, rfl⟩ := (Option.ite_none_right_eq_some.mp hl).imp_right Option.some.inj
      exact ⟨d, phase, hlocal, hinJob⟩
  | agent phase => cases hl
  | login calls uid phase => cases hl

/-- The first job keeps its CPU while the second one is started and the release agent runs. -/
theorem run_keepsCpus_twoJobs : ∃ before after daemon,
    Run (HostStep twoNodesMachine) smallHost (initSteps 0) before ∧
    Run (fun before label after => HostStep twoNodesMachine before label after ∧
      (label.1 = 0 → label.2.moves = false)) before (initSteps 1 ++ agentSteps 2) after ∧
    InJob after 0 daemon firstDaemon.jobDir ∧
      after.shared.cpusets.items firstDaemon.jobDir =
        before.shared.cpusets.items firstDaemon.jobDir := by
  have hsteps : ((takeSteps twoNodesMachine smallHost (initSteps 0)).bind fun before =>
      (takeSteps twoNodesMachine before (initSteps 1 ++ agentSteps 2)).map fun _ =>
        before.locals[0]?.bind Process.place) = some (some firstDaemon.jobDir) := by decide +kernel
  obtain ⟨before, hbefore, hrest⟩ := Option.bind_eq_some_iff.mp hsteps
  obtain ⟨after, hafter, hplace⟩ := Option.map_eq_some_iff.mp hrest
  obtain ⟨daemon, hinJob⟩ := exists_inJob hplace
  have hreached : Run (HostStep twoNodesMachine) smallHost (initSteps 0) before :=
    (run_of_takeSteps (fun _ => True) (fun _ _ => trivial) hbefore).mono fun _ _ _ hstep => hstep.1
  have hrun := run_of_takeSteps (fun label => label.1 = 0 → label.2.moves = false) (by decide)
    hafter
  exact ⟨before, after, daemon, hreached, hrun,
    run_keepsCpus twoNodesMachine_lists smallHost_idle hreached hinJob hrun⟩

end SlurmSpank.Cpuset
