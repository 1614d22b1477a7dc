import SlurmSpank.Cpuset.NodemapRun
import SlurmSpank.Cpuset.Operations

/-! # Isolation

The CPU sets of users, of jobs and of the steps of one job stay disjoint over any run of the
operations. The invariant behind it is that siblings which the accounting looks at have
disjoint sets. One operation breaks it: under kill-orphans, a user is taken back from the
orphans with the old CPUs if the new job is granted none.
-/

namespace SlurmSpank.Cpuset

open Foundation Hierarchy

/-- The cpusets that the accounting looks at: below `/slurm`, and not skipped. -/
def Accounted : List Name → Prop
  | [] => False
  | name :: parent => slurmDir <:+ parent ∧ skipped name = false

/-- Accounted siblings have disjoint sets. -/
def Apart (h : Cpusets) : Prop := Separated Accounted h

variable {machine : Machine} {calls : Calls} {conf : CpusetConf} {uid id : BitVec 32} {size : Nat}
  {h h' placed before start : Cpusets} {name : Name} {alloc : Option Bitmask} {mask : Bitmask}
  {orphan : Bool} {fill : Finset Nat}

theorem Fresh.apart (hfresh : Fresh size h) : Apart h := fun left _ path hleft _ _ hl _ =>
  absurd hl.1 (hfresh.childless left path hleft)

theorem accounted_userDir (uid : BitVec 32) : Accounted (userDir uid) :=
  ⟨List.suffix_rfl, skipped_printUid uid⟩

/-- A directory that still counts after a renaming counted before, unless it is the renamed
one. -/
theorem accounted_of_moved {old new : Name} {dir : List Name}
    (hmoved : Accounted (moved slurmDir old new dir))
    (hne : moved slurmDir old new dir ≠ new :: slurmDir) : Accounted dir := by
  cases dir with
  | nil => exact hmoved
  | cons name parent =>
      have hself : name :: parent ≠ old :: slurmDir := fun heq => hne (by rw [heq, moved_self])
      rw [moved_cons hself] at hmoved
      exact ⟨suffix_of_suffix_moved hmoved.1, hmoved.2⟩

/-! ## An update keeps siblings apart -/

/-- With a user's cpuset in place, all others are still apart. -/
theorem Placed.apart (hplaced : Placed calls uid h orphan placed) (hapart : Apart h) :
    Separated (fun dir => Accounted dir ∧ dir ≠ userDir uid) placed := by
  cases hplaced with
  | kept _ => exact hapart.mono fun _ _ hboth => hboth.1
  | restored _ hrenamed =>
      exact hrenamed.separated hapart fun before _ hboth => accounted_of_moved hboth.1 hboth.2
  | made _ hcreated =>
      refine hcreated.separated (hapart.mono fun _ _ hboth => hboth.1) fun hself => ?_
      exact absurd rfl hself.2

/-- The jobs of a user whose cpuset is in place hold CPUs that the user held before. -/
theorem Placed.job_subset (hplaced : Placed calls uid h orphan placed) (hcan : Canonical size h)
    (hname : name :: userDir uid ∈ placed.dirs) {cpu : Nat}
    (hcpu : cpu ∈ placed.items (name :: userDir uid)) :
    userDir uid ∈ h.dirs ∧ cpu ∈ h.items (userDir uid) := by
  by_cases hmem : userDir uid ∈ h.dirs
  · cases hplaced with
    | kept _ => exact ⟨hmem, h.items_subset _ _ hname hcpu⟩
    | restored _ hrenamed => exact absurd hmem hrenamed.fresh
    | made _ hcreated => exact absurd hmem hcreated.fresh
  · rw [hplaced.job_items hcan hmem hname] at hcpu
    exact absurd hcpu (Finset.notMem_empty cpu)

/-- An update keeps siblings apart, if the CPUs to be added are free, and if there are some
whenever the user comes back from the orphans under kill-orphans. -/
theorem Canonical.apart_updated (hlists : machine.Lists)
    (hcan : Canonical machine.numa.cpumaskSize h) (hcalls : calls.Succeeds) (huid : 0 ≤ uid.toInt)
    (hapart : Apart h)
    (hfree : ∀ cpu ∈ (alloc.map Bitmask.bits).getD ∅, ∀ name, skipped name = false →
      name :: slurmDir ∈ h.dirs → cpu ∉ h.items (name :: slurmDir))
    (hstale : conf.killOrphans = true → orphanDir uid ∈ h.dirs →
      (alloc.map Bitmask.bits).getD ∅ ≠ ∅)
    (hplaced : Placed calls uid h orphan placed)
    (hends : UpdateEnds conf uid (refillCpus machine calls.query uid alloc orphan placed) placed
      h') : Apart h' := by
  have hbut := hplaced.apart hapart
  cases hends with
  | filled _ hmodified =>
      refine hmodified.separated hbut fun _ name hne hname hcounts => ?_
      have horphan : name ≠ orphanName uid := by
        rintro rfl
        exact absurd hcounts.2 (by simp)
      obtain ⟨hmem, hitems⟩ := hplaced.frame hne horphan List.suffix_rfl
      have hold := hmem.mp hname
      rw [hitems hname, Finset.disjoint_left]
      intro cpu hcpu hother
      rcases (hplaced.mem_refillCpus hlists hcan hcalls huid cpu).mp hcpu with
        ⟨job, hjob, hitem⟩ | hadded
      · obtain ⟨huser, hheld⟩ := hplaced.job_subset hcan hjob hitem
        exact Finset.disjoint_left.mp (hapart _ _ slurmDir huser hold hne.symm
          (accounted_userDir uid) hcounts) hheld hother
      · exact hfree cpu hadded name hcounts.2 hold hother
  | left hempty hkill =>
      cases hplaced with
      | kept _ => exact hapart
      | restored hflag hrenamed =>
          refine absurd ?_ (hstale hkill hrenamed.mem)
          exact Finset.subset_empty.mp (subset_refillCpus.trans hempty.subset)
      | made _ hcreated =>
          exact hcreated.separated hapart fun _ _ _ _ _ => Finset.disjoint_empty_left _
  | orphaned _ _ hrenamed =>
      refine hrenamed.separated hbut fun before _ hcounts => ?_
      have hne : moved slurmDir (printUid uid) (orphanName uid) before ≠ orphanDir uid := by
        intro heq
        have hskip := (heq ▸ hcounts : Accounted (orphanDir uid)).2
        rw [skipped_orphanName] at hskip
        cases hskip
      refine ⟨accounted_of_moved hcounts hne, ?_⟩
      rintro rfl
      exact hne (moved_self _ _ _)

/-- The jobs of the user hold none of the CPUs that an update adds. -/
theorem UpdateEnds.job_disjoint
    (hends : UpdateEnds conf uid (refillCpus machine calls.query uid (some mask) orphan placed)
      placed before)
    (hplaced : Placed calls uid h orphan placed) (hcan : Canonical size h)
    (hfree : ∀ cpu ∈ mask.bits, userDir uid ∈ h.dirs → cpu ∉ h.items (userDir uid))
    (hname : name :: userDir uid ∈ before.dirs) :
    Disjoint mask.bits (before.items (name :: userDir uid)) := by
  cases hends with
  | filled _ hmodified =>
      rw [hmodified.items_of_ne _ (by simp [userDir]), Finset.disjoint_left]
      intro cpu hcpu hitem
      obtain ⟨huser, hheld⟩ := hplaced.job_subset hcan (hmodified.dirs_eq ▸ hname) hitem
      exact hfree cpu hcpu huser hheld
  | left hempty _ =>
      have hnone : mask.bits = ∅ := Finset.subset_empty.mp (subset_refillCpus.trans hempty.subset)
      rw [hnone]
      exact Finset.disjoint_empty_left _
  | orphaned hempty _ _ =>
      have hnone : mask.bits = ∅ := Finset.subset_empty.mp (subset_refillCpus.trans hempty.subset)
      rw [hnone]
      exact Finset.disjoint_empty_left _

/-! ## Every operation keeps siblings apart -/

/-- The operation that breaks isolation: under kill-orphans a job is created for a user who
is an orphan, and although enough CPUs are counted as available none is within reach. -/
def LeavesStale (machine : Machine) (h : Cpusets) : Operation → Prop
  | .createJob conf _ dir _ uid ncpus staleRc =>
      conf.killOrphans = true ∧ orphanDir uid ∈ h.dirs ∧
        ∃ map, createMap machine (Calls.succeed dir (h.items dir) staleRc) conf h = some map ∧
          ncpus ≤ map.navail ∧ map.reachable = ∅
  | _ => False

/-- A positive count is granted no CPU only if none is within reach. -/
theorem Grants.reachable_empty (hlists : machine.Lists) {fuel : Nat} {ncpus : Int} {map : Nodemap}
    (hgrants : Grants machine calls fuel conf ncpus h map mask) (hncpus : 1 ≤ ncpus)
    (hnone : mask.bits = ∅) : ncpus ≤ map.navail ∧ map.reachable = ∅ := by
  obtain ⟨hok, hpolicy, -⟩ := createMap_spec hlists hgrants.map_eq
  obtain ⟨map', hgranted⟩ := hgrants.granted
  obtain ⟨-, hle, hweight⟩ := (nodemapAllocate_some hok hpolicy hgranted).2.2 (by omega)
  refine ⟨hle, Finset.card_eq_zero.mp ?_⟩
  rw [Bitmask.weight, hnone, Finset.card_empty] at hweight
  split at hweight <;> omega

/-- The second pass of a clean-up keeps siblings apart: users are brought back from the
orphans there only if the same pass put them there. -/
theorem Canonical.apart_updateUserCpusets (hlists : machine.Lists)
    (hcan : Canonical machine.numa.cpumaskSize h) (hcalls : calls.Succeeds) (hapart : Apart h) :
    ∃ h', updateUserCpusets machine calls conf h = some (0, h') ∧ Apart h' := by
  have hupdate : ∀ (_ : List Name) uid now orphan placed next,
      Canonical machine.numa.cpumaskSize now →
      (Apart now ∧ (conf.killOrphans = true → now.dirs = h.dirs)) → 0 ≤ uid.toInt →
      userDir uid ∈ h.dirs → Placed calls uid now orphan placed →
      UpdateEnds conf uid (refillCpus machine calls.query uid none orphan placed) placed next →
      Apart next ∧ (conf.killOrphans = true → next.dirs = h.dirs) := by
    rintro - uid now orphan placed next hcanNow ⟨hapartNow, hsame⟩ huid hmem hplaced hends
    have hkept : conf.killOrphans = true → userDir uid ∈ now.dirs := fun hkill =>
      (hsame hkill).symm ▸ hmem
    refine ⟨hcanNow.apart_updated hlists hcalls huid hapartNow (by simp) ?_ hplaced hends, ?_⟩
    · exact fun hkill horphan => absurd horphan (hcanNow.exclusive uid (hkept hkill))
    · intro hkill
      have hplacedSame : placed = now := by
        cases hplaced with
        | kept _ => rfl
        | restored _ hrenamed => exact absurd (hkept hkill) hrenamed.fresh
        | made _ hcreated => exact absurd (hkept hkill) hcreated.fresh
      cases hends with
      | filled _ hmodified => rw [hmodified.dirs_eq, hplacedSame, hsame hkill]
      | left _ _ => rw [hplacedSame, hsame hkill]
      | orphaned _ hoff _ => simp [hkill] at hoff
  obtain ⟨h', hreturns, -, hapart', -⟩ := hcan.secondPass hlists hcalls
    (fun _ now => Apart now ∧ (conf.killOrphans = true → now.dirs = h.dirs))
    (fun _ _ _ hholds _ => hholds) hupdate ⟨hapart, fun _ => rfl⟩
  exact ⟨h', hreturns, hapart'⟩

theorem OperationStep.apart (hlists : machine.Lists)
    (hcan : Canonical machine.numa.cpumaskSize h) (hapart : Apart h) {operation : Operation}
    (hstep : OperationStep machine h operation h') (hstale : ¬ LeavesStale machine h operation) :
    Apart h' := by
  cases operation with
  | createJob conf fuel dir jobid uid ncpus staleRc =>
      obtain ⟨⟨hdir, huid, hncpus, -⟩, hperform⟩ := hstep
      obtain ⟨result, hcall, rfl⟩ := Option.map_eq_some_iff.mp hperform
      have hcalls := Calls.succeed_succeeds dir (h.items dir) staleRc
      rcases createCpusetForJob_cases hlists hcan hdir huid hcall with
        hsame | ⟨map, alloc, orphan, placed, before, hgrants, hplaced, hends, hlast⟩
      · rwa [hsame]
      have hlocated : Located h dir := by
        rcases hdir with rfl | rfl
        · exact Or.inl rfl
        · exact Or.inr ⟨hcan.slurm_mem, List.suffix_rfl, by decide⟩
      have husage : usageDir dir = slurmDir := by
        rcases hdir with rfl | rfl <;> rfl
      -- The CPUs granted are in no other cpuset, and those of the user's are not taken from it.
      have hfree : ∀ cpu ∈ alloc.bits, ∀ name, skipped name = false → name :: slurmDir ∈ h.dirs →
          cpu ∉ h.items (name :: slurmDir) := fun cpu hcpu =>
        husage ▸ (hgrants.free hlists hcan hlocated (by omega) hcpu).2
      have hbefore : Apart before := by
        refine @Canonical.apart_updated machine _ conf uid h before placed (some alloc) orphan
          hlists hcan hcalls huid hapart hfree ?_ hplaced hends
        intro hkill horphan hnone
        obtain ⟨hle, hreach⟩ := hgrants.reachable_empty hlists hncpus hnone
        exact hstale ⟨hkill, horphan, map, hgrants.map_eq, hle, hreach⟩
      rcases hlast with hsame | hcreated
      · rwa [hsame]
      · refine hcreated.separated hbefore fun _ sibling _ hsibling _ => ?_
        exact hends.job_disjoint hplaced hcan
          (fun cpu hcpu => hfree cpu hcpu _ (skipped_printUid uid)) hsibling
  | createStep conf fuel dir stepid ncpus staleRc =>
      obtain ⟨⟨hdir, hbelow, hlen, hncpus, -⟩, hperform⟩ := hstep
      obtain ⟨result, hcall, rfl⟩ := Option.map_eq_some_iff.mp hperform
      rcases createCpusetForStep_cases hcan hdir hbelow hlen hcall with
        hsame | ⟨map, alloc, hgrants, hcreated⟩
      · rwa [hsame]
      · have husage : usageDir dir = dir := by
          refine if_neg ?_
          rintro rfl
          simp at hlen
        refine hcreated.separated hapart fun _ sibling _ hsibling hcounts => ?_
        rw [Finset.disjoint_left]
        intro cpu hcpu
        have hfree := (hgrants.free hlists hcan (Or.inr ⟨hdir, hbelow, hlen.le⟩) (by omega) hcpu).2
        rw [husage] at hfree
        exact hfree sibling hcounts.2 hsibling
  | clean conf activity =>
      have hclean := hstep.2
      obtain ⟨hcleaned, heq⟩ := @slurmCpusetClean_eq machine conf _ h
        (Calls.succeed [] (h.items []) 0) hlists hcan (Calls.succeed_succeeds _ _ _) activity
      -- The first pass only removes; the second one fills the users' cpusets again.
      have hfirst : Apart (cleanEntries machine activity h) :=
        hcan.firstPass hlists Apart (fun _ _ _ hapart hremoved _ _ =>
          hremoved.separated hapart) hapart
      obtain ⟨h'', hupdate, hapart'⟩ := @Canonical.apart_updateUserCpusets machine _ conf _ hlists
        hcleaned (Calls.succeed_succeeds [] (h.items []) 0) hfirst
      rw [perform, heq, hupdate] at hclean
      exact Option.some.inj hclean ▸ hapart'
  | update conf =>
      have hupdate := hstep.2
      obtain ⟨h'', hreturns, hapart'⟩ := @Canonical.apart_updateUserCpusets machine _ conf h hlists
        hcan (Calls.succeed_succeeds [] (h.items []) 0) hapart
      rw [perform, hreturns] at hupdate
      exact Option.some.inj hupdate ▸ hapart'

/-! ## Isolation over runs -/

/-- The CPU sets of users that are no orphans, of jobs, and of the steps of a job are
disjoint, and each lies in the set above it. -/
structure Isolated (h : Cpusets) : Prop where
  users : ∀ uid other, uid ≠ other → userDir uid ∈ h.dirs → userDir other ∈ h.dirs →
    Disjoint (h.items (userDir uid)) (h.items (userDir other))
  job_subset : ∀ job user, job :: user :: slurmDir ∈ h.dirs →
    h.items (job :: user :: slurmDir) ⊆ h.items (user :: slurmDir)
  jobs : ∀ job user job' user', job :: user :: slurmDir ∈ h.dirs →
    job' :: user' :: slurmDir ∈ h.dirs → job :: user :: slurmDir ≠ job' :: user' :: slurmDir →
    Disjoint (h.items (job :: user :: slurmDir)) (h.items (job' :: user' :: slurmDir))
  step_subset : ∀ step job user, step :: job :: user :: slurmDir ∈ h.dirs →
    h.items (step :: job :: user :: slurmDir) ⊆ h.items (job :: user :: slurmDir)
  steps : ∀ step step' job user, step :: job :: user :: slurmDir ∈ h.dirs →
    step' :: job :: user :: slurmDir ∈ h.dirs → step ≠ step' →
    Disjoint (h.items (step :: job :: user :: slurmDir))
      (h.items (step' :: job :: user :: slurmDir))

/-- Siblings below a user are apart. -/
theorem Canonical.disjoint_siblings (hcan : Canonical size h) (hapart : Apart h)
    {left right : Name} {dir : List Name} (hbelow : slurmDir <:+ dir) (hne : dir ≠ slurmDir)
    (hleft : left :: dir ∈ h.dirs) (hright : right :: dir ∈ h.dirs) (hother : left ≠ right) :
    Disjoint (h.items (left :: dir)) (h.items (right :: dir)) :=
  hapart left right dir hleft hright hother ⟨hbelow, hcan.not_skipped hleft hbelow hne⟩
    ⟨hbelow, hcan.not_skipped hright hbelow hne⟩

/-- Jobs are disjoint: those of one user as siblings, those of different users as their users
are, and those of orphans as they have no CPUs. -/
theorem Canonical.disjoint_jobs (hcan : Canonical size h) (hapart : Apart h)
    {job user job' user' : Name} (hjob : job :: user :: slurmDir ∈ h.dirs)
    (hjob' : job' :: user' :: slurmDir ∈ h.dirs)
    (hne : job :: user :: slurmDir ≠ job' :: user' :: slurmDir) :
    Disjoint (h.items (job :: user :: slurmDir)) (h.items (job' :: user' :: slurmDir)) := by
  have huser := h.parent_mem _ _ hjob
  have huser' := h.parent_mem _ _ hjob'
  obtain ⟨uid, -, rfl | rfl⟩ := hcan.user_name user huser
  · obtain ⟨uid', -, rfl | rfl⟩ := hcan.user_name user' huser'
    · by_cases hsame : uid = uid'
      · subst hsame
        exact hcan.disjoint_siblings hapart (List.suffix_cons _ _) (ne_slurmDir_of_cons _) hjob
          hjob'
          fun heq => hne (by rw [heq])
      · exact hapart.disjoint_of_suffix (List.suffix_cons _ _) (List.suffix_cons _ _) hjob hjob'
          (fun heq => hsame (printUid_injective heq)) (accounted_userDir uid)
          (accounted_userDir uid')
    · rw [show job' :: orphanName uid' :: slurmDir = job' :: orphanDir uid' from rfl] at hjob' ⊢
      rw [hcan.orphan_items uid' job' hjob']
      exact Finset.disjoint_empty_right _
  · rw [show job :: orphanName uid :: slurmDir = job :: orphanDir uid from rfl] at hjob ⊢
    rw [hcan.orphan_items uid job hjob]
    exact Finset.disjoint_empty_left _

theorem Canonical.isolated (hcan : Canonical size h) (hapart : Apart h) : Isolated h where
  users uid other hne huser hother := hapart _ _ slurmDir huser hother
    (fun heq => hne (printUid_injective heq)) (accounted_userDir uid) (accounted_userDir other)
  job_subset job user hjob := h.items_subset job _ hjob
  jobs _ _ _ _ hjob hjob' hne := hcan.disjoint_jobs hapart hjob hjob' hne
  step_subset step job user hstep := h.items_subset step _ hstep
  steps _ _ job user hstep hstep' hne := hcan.disjoint_siblings hapart
    ((List.suffix_cons _ _).trans (List.suffix_cons _ _))
    (fun heq => absurd (congrArg List.length heq) (by simp [slurmDir])) hstep hstep' hne

/-- In every run without an operation that leaves a stale set, every tree reached is
isolated. -/
theorem run_isolated (hlists : machine.Lists) (hfresh : Fresh machine.numa.cpumaskSize start)
    {operations : List Operation}
    (hrun : Run (fun h operation h' => OperationStep machine h operation h' ∧
      ¬ LeavesStale machine h operation) start operations h) : Isolated h := by
  obtain ⟨hcan, hapart⟩ := hrun.invariant
    (fun h => Canonical machine.numa.cpumaskSize h ∧ Apart h)
    (fun _ _ _ hholds hstep => ⟨hstep.1.canonical hlists hholds.1,
      hstep.1.apart hlists hholds.1 hholds.2 hstep.2⟩) ⟨hfresh.canonical, hfresh.apart⟩
  exact hcan.isolated hapart

/-- Two users with a job each. -/
def twoJobs : List Operation :=
  [.createJob cpusetConfCreate 0 [] 1 1000 1 0, .createJob cpusetConfCreate 0 [] 2 1001 2 0]

theorem run_isolated_twoJobs : ∃ h,
    Run (fun h operation h' =>
        OperationStep (Machine.plain (twoNodes {0, 1} {2, 3})) h operation h' ∧
      ¬ LeavesStale (Machine.plain (twoNodes {0, 1} {2, 3})) h operation)
      (slurmTree (Finset.range 4)) twoJobs h ∧ Isolated h := by
  obtain ⟨h, hperform⟩ : ∃ h, performAll (Machine.plain (twoNodes {0, 1} {2, 3}))
      (slurmTree (Finset.range 4)) twoJobs = some h :=
    Option.isSome_iff_exists.mp (by decide +kernel)
  have hstale : ∀ h, ∀ operation ∈ twoJobs,
      ¬ LeavesStale (Machine.plain (twoNodes {0, 1} {2, 3})) h operation := by
    rintro h operation hmem hstale
    rcases List.mem_pair.mp hmem with rfl | rfl <;> exact absurd hstale.1 (by decide)
  have hrun := run_of_performAll hstale hperform
  have hfresh : Fresh (Machine.plain (twoNodes {0, 1} {2, 3})).numa.cpumaskSize
      (slurmTree (Finset.range 4)) := slurmTree_fresh 4
  exact ⟨h, hrun, run_isolated (Machine.plain_lists _) hfresh hrun⟩

/-- A user with a login and no job left becomes an orphan with CPU 0, the next job of another
user is given CPU 0, and then a job of the first user is created under kill-orphans. It asks
for the one CPU that is counted as available, which no node reaches. -/
def staleOperations : List Operation :=
  [.createJob cpusetConfCreate 0 [] 1 1 1 0,
    .clean cpusetConfCreate
      { tasks := fun dir => if dir = userDir 1 then 1 else 0, jobs := some [] },
    .createJob cpusetConfCreate 0 [] 2 2 3 0,
    .createJob { cpusetConfCreate with killOrphans := true } 0 [] 3 1 1 0]

/-- After these operations both users hold CPU 0. -/
theorem stale_run_overlaps : ∃ h,
    Run (OperationStep (Machine.plain (twoNodes {0, 2} {1, 3}))) (slurmTree (Finset.range 4))
      staleOperations h ∧
    h.items (userDir 1) = {0} ∧ h.items (userDir 2) = {0, 1, 2} ∧ ¬ Isolated h := by
  have hperform : (performAll (Machine.plain (twoNodes {0, 2} {1, 3})) (slurmTree (Finset.range 4))
      staleOperations).map (fun h => (h.items (userDir 1), h.items (userDir 2),
        decide (userDir 1 ∈ h.dirs ∧ userDir 2 ∈ h.dirs))) = some ({0}, {0, 1, 2}, true) := by
    decide +kernel
  obtain ⟨h, hperform, heq⟩ := Option.map_eq_some_iff.mp hperform
  obtain ⟨hfirst, hrest⟩ := Prod.mk.inj heq
  obtain ⟨hsecond, hmem⟩ := Prod.mk.inj hrest
  obtain ⟨huser, hother⟩ := of_decide_eq_true hmem
  have hrun := (run_of_performAll (fun _ _ _ => trivial) hperform).mono fun _ _ _ hstep => hstep.1
  refine ⟨h, hrun, hfirst, hsecond, fun hisolated => ?_⟩
  have hdisjoint := hisolated.users 1 2 (by decide) huser hother
  rw [hfirst, hsecond] at hdisjoint
  exact absurd hdisjoint (by decide)

end SlurmSpank.Cpuset
