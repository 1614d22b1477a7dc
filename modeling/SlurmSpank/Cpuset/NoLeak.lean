import SlurmSpank.Cpuset.NodemapRun
import SlurmSpank.Cpuset.Operations

/-! # No CPU is lost

After a clean-up without kill-orphans the CPUs counted as used are those of the jobs that are
left. The second pass settles one user after the other: a user keeps the cpuset with exactly
the CPUs of its jobs, or becomes an orphan.
-/

namespace SlurmSpank.Cpuset

open Foundation Hierarchy

/-- If the user is no orphan, its CPUs are those of its jobs, and there are some. -/
def Settled (uid : BitVec 32) (h : Cpusets) : Prop :=
  userDir uid ∈ h.dirs → h.items (userDir uid) ≠ ∅ ∧ ∀ cpu, cpu ∈ h.items (userDir uid) ↔
    ∃ job, job :: userDir uid ∈ h.dirs ∧ cpu ∈ h.items (job :: userDir uid)

/-- The cpuset is still there, possibly as an orphan or below one. -/
def Survives (dir : List Name) (h : Cpusets) : Prop :=
  dir ∈ h.dirs ∨ ∃ uid, moved slurmDir (printUid uid) (orphanName uid) dir ∈ h.dirs

/-- What a clean-up should leave behind: the CPUs used in `/slurm` are those of the jobs that
remain, users are settled, users without jobs are gone or orphans, and no cpuset with a live
task was removed. -/
structure NoLeak (machine : Machine) (activity : Activity) (h h' : Cpusets) : Prop where
  used : ∃ used, usedCpusBitmaskPath machine (fun _ => true) h' slurmDir false = some used ∧
    ∀ cpu, cpu ∈ used.bits ↔ ∃ job user, job :: user :: slurmDir ∈ h'.dirs ∧
      cpu ∈ h'.items (job :: user :: slurmDir)
  settled : ∀ uid, Settled uid h'
  jobless : ∀ uid, userDir uid ∈ h.dirs → (∀ job, job :: userDir uid ∉ h'.dirs) →
    userDir uid ∉ h'.dirs
  live : ∀ dir ∈ h.dirs, 0 < activity.tasks dir → Survives dir h'

variable {machine : Machine} {calls : Calls} {conf : CpusetConf} {activity : Activity}
  {uid other : BitVec 32} {size : Nat} {h h' placed start : Cpusets} {dir : List Name}
  {orphan : Bool}

/-! ## One update -/

/-- An update without kill-orphans settles its user. -/
theorem UpdateEnds.settled (hlists : machine.Lists)
    (hcan : Canonical machine.numa.cpumaskSize h) (hcalls : calls.Succeeds) (huid : 0 ≤ uid.toInt)
    (hkill : conf.killOrphans = false) (hplaced : Placed calls uid h orphan placed)
    (hends :
      UpdateEnds conf uid (refillCpus machine calls.query uid none orphan placed) placed h') :
    Settled uid h' := by
  intro hmem
  cases hends with
  | filled hfill hmodified =>
      have hself : h'.items (userDir uid) =
          refillCpus machine calls.query uid none orphan placed := hmodified.items_self
      rw [hself]
      refine ⟨hfill, fun cpu => ?_⟩
      rw [hplaced.mem_refillCpus hlists hcan hcalls huid]
      have hitems : ∀ job, h'.items (job :: userDir uid) = placed.items (job :: userDir uid) :=
        fun job => hmodified.items_of_ne _ (by simp [userDir])
      simp [hmodified.dirs_eq, hitems]
  | left _ hon => simp [hkill] at hon
  | orphaned _ _ hrenamed => exact absurd hmem hrenamed.old_notMem

/-- An update keeps the other users settled, and brings none of them into being. -/
theorem UpdateEnds.other_settled {fill : Finset Nat} (hne : other ≠ uid)
    (hplaced : Placed calls uid h orphan placed) (hends : UpdateEnds conf uid fill placed h') :
    (userDir other ∈ h'.dirs → userDir other ∈ h.dirs) ∧
      (Settled other h → Settled other h') := by
  have huser : printUid other ≠ printUid uid := fun heq => hne (printUid_injective heq)
  have hframe : ∀ dir, userDir other <:+ dir →
      (dir ∈ h'.dirs ↔ dir ∈ h.dirs) ∧ (dir ∈ h'.dirs → h'.items dir = h.items dir) := by
    intro dir hbelow
    obtain ⟨hmem, hitems⟩ := hplaced.frame huser (printUid_ne_orphanName other uid) hbelow
    obtain ⟨hmem', hitems'⟩ := hends.frame huser (printUid_ne_orphanName other uid) hbelow
    exact ⟨hmem'.trans hmem, fun hdir => (hitems' hdir).trans (hitems (hmem'.mp hdir))⟩
  obtain ⟨hself, hselfItems⟩ := hframe (userDir other) List.suffix_rfl
  refine ⟨hself.mp, fun hsettled hmem => ?_⟩
  obtain ⟨hnonempty, hjobs⟩ := hsettled (hself.mp hmem)
  rw [hselfItems hmem]
  refine ⟨hnonempty, fun cpu => (hjobs cpu).trans (exists_congr fun job => ?_)⟩
  obtain ⟨hjob, hjobItems⟩ := hframe (job :: userDir other) (List.suffix_cons _ _)
  constructor
  · rintro ⟨hdir, hcpu⟩
    exact ⟨hjob.mpr hdir, (hjobItems (hjob.mpr hdir)).symm ▸ hcpu⟩
  · rintro ⟨hdir, hcpu⟩
    exact ⟨hjob.mp hdir, hjobItems hdir ▸ hcpu⟩

/-- An update that adds no CPUs removes nothing: a cpuset stays where it is, unless its user
becomes an orphan. -/
theorem UpdateEnds.survives (hlists : machine.Lists) (hkill : conf.killOrphans = false)
    (hplaced : Placed calls uid h orphan placed)
    (hends : UpdateEnds conf uid (refillCpus machine calls.query uid none orphan placed) placed h')
    (hdir : dir ∈ h.dirs) :
    dir ∈ h'.dirs ∨ moved slurmDir (printUid uid) (orphanName uid) dir ∈ h'.dirs := by
  by_cases hmem : userDir uid ∈ h.dirs
  · have hkept : placed = h := by
      cases hplaced with
      | kept _ => rfl
      | restored _ hrenamed => exact absurd hmem hrenamed.fresh
      | made _ hcreated => exact absurd hmem hcreated.fresh
    subst hkept
    cases hends with
    | filled _ hmodified => exact Or.inl (hmodified.dirs_eq ▸ hdir)
    | left _ hon => simp [hkill] at hon
    | orphaned _ _ hrenamed => exact Or.inr ((hrenamed.mem_dirs _).mpr ⟨dir, hdir, rfl⟩)
  · -- the user was no user before, and is none afterwards
    have hempty : refillCpus machine calls.query uid none orphan placed = ∅ :=
      hplaced.refillCpus_eq hlists hmem
    have hnot : ¬ userDir uid <:+ dir := h.not_suffix_of_notMem hmem hdir
    cases hends with
    | filled hfill _ => exact absurd hempty hfill
    | left _ hon => simp [hkill] at hon
    | orphaned _ _ hrenamed =>
        refine Or.inl ((hrenamed.mem_dirs _).mpr ?_)
        cases hplaced with
        | kept hkept => exact absurd hkept hmem
        | restored _ hrestored =>
            exact ⟨_, (hrestored.mem_dirs _).mpr ⟨dir, hdir, rfl⟩, moved_moved hnot⟩
        | made _ hcreated =>
            exact ⟨dir, (hcreated.mem_dirs _).mpr (Or.inl hdir), moved_of_not_suffix hnot⟩

/-- A cpuset that survived so far survives one more update. -/
theorem Survives.updated (hlists : machine.Lists) (hkill : conf.killOrphans = false)
    (hplaced : Placed calls uid h orphan placed)
    (hends : UpdateEnds conf uid (refillCpus machine calls.query uid none orphan placed) placed h')
    (hsurvives : Survives dir h) : Survives dir h' := by
  rcases hsurvives with hdir | ⟨other, hdir⟩
  · rcases hends.survives hlists hkill hplaced hdir with hstays | hmoves
    · exact Or.inl hstays
    · exact Or.inr ⟨uid, hmoves⟩
  · by_cases hbelow : userDir other <:+ dir
    · -- it lies below an orphan, which an update does not move for good
      have horphan : orphanDir other <:+ moved slurmDir (printUid other) (orphanName other) dir :=
        new_suffix_moved hbelow
      rcases hends.survives hlists hkill hplaced hdir with hstays | hmoves
      · exact Or.inr ⟨other, hstays⟩
      · rw [moved_of_not_suffix (not_suffix_of_sibling (printUid_ne_orphanName uid other) horphan)]
          at hmoves
        exact Or.inr ⟨other, hmoves⟩
    · rw [moved_of_not_suffix hbelow] at hdir
      rcases hends.survives hlists hkill hplaced hdir with hstays | hmoves
      · exact Or.inl hstays
      · exact Or.inr ⟨uid, hmoves⟩

/-! ## The whole clean-up -/

/-- The first pass removes no cpuset with a live task. -/
theorem Canonical.live_cleanEntries (hlists : machine.Lists) (hcan : Canonical size h)
    (hdir : dir ∈ h.dirs) (hlive : 0 < activity.tasks dir) :
    dir ∈ (cleanEntries machine activity h).dirs := by
  refine hcan.firstPass hlists (fun now => dir ∈ now.dirs) ?_ hdir
  intro now next path hmem hremoved _ hidle
  refine (hremoved.mem_dirs dir).mpr ⟨hmem, ?_⟩
  rintro rfl
  omega

/-- How far the second pass has come, with the entries that were dealt with. -/
structure Progress (h : Cpusets) (done : List Name) (now : Cpusets) : Prop where
  settled : ∀ uid : BitVec 32, 0 ≤ uid.toInt → printUid uid ∈ done → Settled uid now
  known : ∀ uid, userDir uid ∈ now.dirs → userDir uid ∈ h.dirs
  survives : ∀ dir ∈ h.dirs, Survives dir now

/-- The second pass settles every user, brings none into being, and removes nothing. -/
theorem Canonical.settled_updateUserCpusets (hlists : machine.Lists)
    (hcan : Canonical machine.numa.cpumaskSize h) (hcalls : calls.Succeeds)
    (hkill : conf.killOrphans = false) :
    ∃ h', updateUserCpusets machine calls conf h = some (0, h') ∧
      Canonical machine.numa.cpumaskSize h' ∧ (∀ uid, Settled uid h') ∧
      (∀ dir ∈ h.dirs, Survives dir h') := by
  have hskip : ∀ done name now, Progress h done now → str2int name < 0 →
      Progress h (done ++ [name]) now := by
    rintro done name now hprogress hneg
    refine ⟨fun uid huid hmem => ?_, hprogress.known, hprogress.survives⟩
    rcases List.mem_append.mp hmem with hdone | hself
    · exact hprogress.settled uid huid hdone
    · have hread := str2int_printUid huid
      rw [List.mem_singleton.mp hself] at hread
      omega
  have hupdate : ∀ done uid now orphan placed next, Canonical machine.numa.cpumaskSize now →
      Progress h done now → 0 ≤ uid.toInt → userDir uid ∈ h.dirs →
      Placed calls uid now orphan placed →
      UpdateEnds conf uid (refillCpus machine calls.query uid none orphan placed) placed next →
      Progress h (done ++ [printUid uid]) next := by
    rintro done uid now orphan placed next hcanNow hprogress huid huser hplaced hends
    refine ⟨fun other hother hmem => ?_, fun other hmem => ?_, fun dir hdir => ?_⟩
    · by_cases hself : other = uid
      · subst hself
        exact hends.settled hlists hcanNow hcalls huid hkill hplaced
      · refine (hends.other_settled hself hplaced).2 (hprogress.settled other hother ?_)
        refine (List.mem_append.mp hmem).resolve_right fun hlast => hself ?_
        exact printUid_injective (List.mem_singleton.mp hlast)
    · by_cases hself : other = uid
      · exact hself ▸ huser
      · exact hprogress.known other ((hends.other_settled hself hplaced).1 hmem)
    · exact (hprogress.survives dir hdir).updated hlists hkill hplaced hends
  have hstart : Progress h [] h :=
    ⟨by simp, fun _ hmem => hmem, fun _ hdir => Or.inl hdir⟩
  obtain ⟨h', hreturns, hcan', hprogress⟩ := hcan.secondPass hlists hcalls (Progress h) hskip
    hupdate hstart
  refine ⟨h', hreturns, hcan', fun uid hmem => ?_, hprogress.survives⟩
  obtain ⟨uid', huid, heq⟩ := hcan'.user_of_not_skipped hmem (skipped_printUid uid)
  obtain rfl := printUid_injective heq
  exact hprogress.settled uid huid (hlists.lists h slurmDir _ (hprogress.known uid hmem)) hmem

/-- After any run of the operations, a clean-up without kill-orphans returns and loses no
CPU. -/
theorem run_clean_noLeak (hlists : machine.Lists) (hfresh : Fresh machine.numa.cpumaskSize start)
    {operations : List Operation} (hrun : Run (OperationStep machine) start operations h)
    (hcalls : calls.Succeeds) (hkill : conf.killOrphans = false) (activity : Activity) :
    ∃ h', slurmCpusetClean machine calls conf activity h = some (0, h') ∧
      NoLeak machine activity h h' := by
  have hcan := run_canonical hlists hfresh hrun
  obtain ⟨hcleaned, heq⟩ := @slurmCpusetClean_eq machine conf _ h calls hlists hcan
    hcalls activity
  obtain ⟨h', hreturns, hcan', hsettled, hsurvives⟩ :=
    hcleaned.settled_updateUserCpusets hlists hcalls hkill
  refine ⟨h', by rw [heq, hreturns]; rfl, ?_, hsettled, ?_, ?_⟩
  · obtain ⟨used, hused, -, hbits⟩ := @usedCpusBitmaskPath_spec machine (fun _ => true) h' slurmDir
      hlists false hcan'.slurm_mem
    refine ⟨used, hused, fun cpu => ?_⟩
    rw [hbits, if_pos rfl, hcan'.slurm_items]
    constructor
    · rintro ⟨hlt, ⟨-, hout⟩ | ⟨name, hskip, hname, -, hcpu⟩⟩
      · exact absurd (Finset.mem_range.mpr hlt) hout
      · obtain ⟨uid, -, rfl⟩ := hcan'.user_of_not_skipped hname hskip
        obtain ⟨job, hjob, hitem⟩ := ((hsettled uid hname).2 cpu).mp hcpu
        exact ⟨job, printUid uid, hjob, hitem⟩
    · rintro ⟨job, user, hjob, hcpu⟩
      have huser := h'.parent_mem _ _ hjob
      obtain ⟨uid, -, rfl | rfl⟩ := hcan'.user_name user huser
      · have hitem := h'.items_subset _ _ hjob hcpu
        refine ⟨Finset.mem_range.mp (hcan'.items_subset huser (List.suffix_cons _ _) hitem),
          Or.inr ⟨printUid uid, skipped_printUid uid, huser, rfl, hitem⟩⟩
      · have hnone := hcan'.orphan_items uid job hjob
        exact absurd (hnone ▸ hcpu : cpu ∈ (∅ : Finset Nat)) (Finset.notMem_empty cpu)
  · intro uid _ hjobless hmem
    obtain ⟨hnonempty, hjobs⟩ := hsettled uid hmem
    obtain ⟨cpu, hcpu⟩ := Finset.nonempty_iff_ne_empty.mpr hnonempty
    obtain ⟨job, hjob, -⟩ := (hjobs cpu).mp hcpu
    exact hjobless job hjob
  · exact fun dir hdir hlive => hsurvives dir (hcan.live_cleanEntries hlists hdir hlive)

/-- A user is logged in, and no job runs. -/
def loggedIn (uid : BitVec 32) : Activity where
  tasks dir := if dir = userDir uid then 1 else 0
  jobs := some []

/-- The job of a user who is still logged in has ended. -/
theorem run_clean_noLeak_loggedIn : ∃ h h',
    Run (OperationStep (Machine.plain (twoNodes {0, 1} {2, 3}))) (slurmTree (Finset.range 4))
      [.createJob cpusetConfCreate 0 [] 1 1000 1 0] h ∧
    slurmCpusetClean (Machine.plain (twoNodes {0, 1} {2, 3})) (Calls.succeed [] {0, 1, 2, 3} 0)
      cpusetConfCreate (loggedIn 1000) h = some (0, h') ∧
    NoLeak (Machine.plain (twoNodes {0, 1} {2, 3})) (loggedIn 1000) h h' := by
  obtain ⟨h, hperform⟩ : ∃ h, performAll (Machine.plain (twoNodes {0, 1} {2, 3}))
      (slurmTree (Finset.range 4)) [.createJob cpusetConfCreate 0 [] 1 1000 1 0] = some h :=
    Option.isSome_iff_exists.mp (by decide +kernel)
  have hrun := (run_of_performAll (fun _ _ _ => trivial) hperform).mono fun _ _ _ hstep => hstep.1
  have hfresh : Fresh (Machine.plain (twoNodes {0, 1} {2, 3})).numa.cpumaskSize
      (slurmTree (Finset.range 4)) := slurmTree_fresh 4
  obtain ⟨h', hclean, hnoLeak⟩ := run_clean_noLeak (Machine.plain_lists _) hfresh hrun
    (Calls.succeed_succeeds [] {0, 1, 2, 3} 0) (rfl : cpusetConfCreate.killOrphans = false)
    (loggedIn 1000)
  exact ⟨h, h', hrun, hclean, hnoLeak⟩

end SlurmSpank.Cpuset
