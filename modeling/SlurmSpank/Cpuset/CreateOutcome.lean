import SlurmSpank.Cpuset.NodemapCreate
import SlurmSpank.Cpuset.UserCpuset

/-! # What a call of `create_cpuset` leaves behind

A call stops early, or it gets as far as `cpuset_create` for the job. The claims about its
result are settled by what happens there: the structure may not have been built, the call
may fail with its return value unset, and by then the user's cpuset has been changed.
-/

namespace SlurmSpank.Cpuset

open Foundation Hierarchy

variable {machine : Machine} {calls : Calls} {fuel : Nat} {conf : CpusetConf}
  {id uid : BitVec 32} {ncpus : Int} {h h' before : Cpusets} {alloc : Bitmask}

/-! ## The job's path -/

/-- The directory of the new cpuset. -/
def Calls.jobDir (calls : Calls) (id uid : BitVec 32) : List Name :=
  printId id :: dirOf (jobParent ((calls.jobPath 64).getD calls.junk) uid)

theorem Calls.buf_lt (calls : Calls) : ((calls.jobPath 64).getD calls.junk).length < 64 := by
  cases hpath : calls.jobPath 64 with
  | none => exact calls.junk_lt
  | some path => exact calls.jobPath_lt 64 path hpath

/-- The directory whose usage a process in the given cpuset reads. -/
def usageDir (dir : List Name) : List Name := if dir = [] then slurmDir else dir

/-- The directory in which a process in the given cpuset creates the next one. -/
def parentDir (dir : List Name) (uid : BitVec 32) : List Name :=
  if dir = [] ∨ dir = slurmDir then userDir uid else dir

theorem cpusetName_eq_iff {dir : List Name} (hdir : dirOf (cpusetName dir) = dir) :
    (cpusetName dir = rootName ↔ dir = []) ∧ (cpusetName dir = slurmName ↔ dir = slurmDir) := by
  constructor <;> constructor
  · intro heq
    rw [← hdir, heq]
    rfl
  · rintro rfl
    rfl
  · intro heq
    rw [← hdir, heq]
    rfl
  · rintro rfl
    rfl

theorem usedCpusBitmask_of_dir {dir : List Name}
    (husage : calls.usagePath = reportsPath (cpusetName dir)) (hdir : dirOf (cpusetName dir) = dir)
    (hlen : (cpusetName dir).length < 4085) :
    usedCpusBitmask machine calls h =
      usedCpusBitmaskPath machine calls.query h (usageDir dir) false := by
  have hname : cpusetPathToName
      (mountPoint ++ if cpusetName dir = rootName then slurmName else cpusetName dir) =
        if cpusetName dir = rootName then slurmName else cpusetName dir := List.drop_left
  have hdirOf : dirOf (if cpusetName dir = rootName then slurmName else cpusetName dir) =
      usageDir dir := by
    unfold usageDir
    simp only [(cpusetName_eq_iff hdir).1]
    split
    next => rfl
    next => exact hdir
  rw [usedCpusBitmask, husage, currentCpusetPath_reports hlen]
  simp only [hname, hdirOf]

theorem Calls.jobDir_of_dir {dir : List Name}
    (hpath : calls.jobPath = reportsPath (cpusetName dir)) (hdir : dirOf (cpusetName dir) = dir)
    (hlen : (cpusetName dir).length < 64) :
    calls.jobDir id uid = printId id :: parentDir dir uid := by
  have hreport : reportsPath (cpusetName dir) 64 = some (cpusetName dir) := if_pos hlen
  obtain ⟨hroot, hslurm⟩ := cpusetName_eq_iff hdir
  rw [Calls.jobDir, hpath, hreport, Option.getD_some, jobParent, parentDir]
  simp only [hroot, hslurm]
  split
  next => rw [userDir_eq_dirOf]
  next => rw [hdir]

/-- What `cpuset_create` does for the job. -/
def Calls.createJob (calls : Calls) (id uid : BitVec 32) (alloc : Bitmask) (h : Cpusets) :
    Option Cpusets :=
  if calls.create then
    h.create (printId id) (calls.jobDir id uid).tail (if calls.buildJob then alloc.bits else ∅)
  else none

/-- `job_cpuset_create` always has a path, so that it always calls `cpuset_create`. -/
theorem jobCpusetCreate_eq : ∃ path, dirOf path = calls.jobDir id uid ∧
    jobCpusetCreate calls id uid alloc h =
      match calls.createJob id uid alloc h with
      | none => ⟨calls.staleRc, h, [path]⟩
      | some h' => ⟨0, h', [path]⟩ := by
  refine ⟨_, dirOf_job (jobParent ((calls.jobPath 64).getD calls.junk) uid) id, ?_⟩
  rw [jobCpusetCreate, jobCpusetPath_of_buf calls.buf_lt]
  have hset : (doCpusetCreate calls.buildJob alloc).getD ∅ =
      if calls.buildJob then alloc.bits else ∅ := by
    unfold doCpusetCreate
    split <;> rfl
  have hcall : cpusetCreate calls (jobParent ((calls.jobPath 64).getD calls.junk) uid ++
      '/' :: printId id) (doCpusetCreate calls.buildJob alloc) h =
        calls.createJob id uid alloc h := by
    simp only [cpusetCreate, dirOf_job, hset, Calls.createJob, Calls.jobDir, List.tail_cons]
  cases hcreate : calls.createJob id uid alloc h with
  | none => simp only [hcall.trans hcreate]
  | some h' => simp only [hcall.trans hcreate]

/-! ## Reaching `cpuset_create` -/

/-- The allocator grants CPUs to the call. -/
structure Grants (machine : Machine) (calls : Calls) (fuel : Nat) (conf : CpusetConf)
    (ncpus : Int) (h : Cpusets) (map : Nodemap) (alloc : Bitmask) : Prop where
  map_eq : createMap machine calls conf h = some map
  granted : ∃ map', nodemapAllocate fuel map ncpus = some (some alloc, map')

/-- The call gets as far as `cpuset_create`, with the CPUs granted and the tree at that
point. -/
structure Reaches (machine : Machine) (calls : Calls) (fuel : Nat) (conf : CpusetConf)
    (uid : BitVec 32) (ncpus : Int) (h : Cpusets) (map : Nodemap) (alloc : Bitmask)
    (before : Cpusets) : Prop extends Grants machine calls fuel conf ncpus h map alloc where
  updated : if uid.toInt ≥ 0 then
      ∃ rc, 0 ≤ rc ∧ userCpusetUpdate machine calls conf uid (some alloc) h = some (rc, before)
    else before = h

/-- A call that returns either stopped early and failed, or reached `cpuset_create`. -/
theorem createCpuset_cases {result : CreateResult}
    (hcall : createCpuset machine calls fuel conf id uid ncpus h = some result) :
    (result.ret = -1 ∧ result.created = [] ∧
      (result.cpusets = h ∨ ∃ map alloc rc, Grants machine calls fuel conf ncpus h map alloc ∧
        uid.toInt ≥ 0 ∧ rc < 0 ∧
        userCpusetUpdate machine calls conf uid (some alloc) h = some (rc, result.cpusets))) ∨
    ∃ map alloc before, Reaches machine calls fuel conf uid ncpus h map alloc before ∧
      result = { jobCpusetCreate calls id uid alloc before with
        ret := if (jobCpusetCreate calls id uid alloc before).ret < 0 then -1 else 0 } := by
  unfold createCpuset at hcall
  cases hmap : createMap machine calls conf h with
  | none =>
      simp only [hmap, Option.some.injEq] at hcall
      subst hcall
      exact Or.inl ⟨rfl, rfl, Or.inl rfl⟩
  | some map =>
      simp only [hmap] at hcall
      split at hcall
      next => cases hcall
      next =>
        obtain rfl := Option.some.inj hcall
        exact Or.inl ⟨rfl, rfl, Or.inl rfl⟩
      next alloc map' hgranted =>
        split at hcall
        next => cases hcall
        next rc before hupdate =>
          split at hcall
          next hneg =>
            obtain rfl := Option.some.inj hcall
            split at hupdate
            next huid =>
              exact Or.inl ⟨rfl, rfl, Or.inr
                ⟨map, alloc, rc, ⟨hmap, map', hgranted⟩, huid, hneg, hupdate⟩⟩
            next =>
              obtain ⟨rfl, -⟩ := Prod.mk.inj (Option.some.inj hupdate)
              exact absurd hneg (lt_irrefl 0)
          next hnonneg =>
            refine Or.inr ⟨map, alloc, before, ⟨⟨hmap, map', hgranted⟩, ?_⟩, ?_⟩
            · split at hupdate
              next huid =>
                rw [if_pos huid]
                exact ⟨rc, by omega, hupdate⟩
              next huid =>
                rw [if_neg huid]
                exact (Prod.mk.inj (Option.some.inj hupdate)).2.symm
            · exact (Option.some.inj hcall).symm

/-- The map of a call is sound, follows the configured policy and counts the usage in the
current cpuset. -/
theorem createMap_spec (hlists : machine.Lists) {map : Nodemap}
    (hmap : createMap machine calls conf h = some map) :
    map.Ok ∧ map.policy = policyOf conf ∧ map.ncpus = machine.numa.cpumaskSize ∧
      usedCpusBitmask machine calls h = some map.usedcpus := by
  unfold createMap at hmap
  split at hmap
  next =>
    cases hused : usedCpusBitmask machine calls h with
    | none => simp [hused, nodemapCreate] at hmap
    | some used =>
        rw [hused] at hmap
        have hsize : used.size = machine.numa.cpumaskSize := by
          unfold usedCpusBitmask at hused
          split at hused
          next => cases hused
          next path _ =>
            by_cases hdir : dirOf (cpusetPathToName path) ∈ h.dirs
            · obtain ⟨found, hfound, hsize, -⟩ := @usedCpusBitmaskPath_spec machine calls.query h
                (dirOf (cpusetPathToName path)) hlists false hdir
              rw [hfound] at hused
              exact Option.some.inj hused ▸ hsize
            · rw [usedCpusBitmaskPath, if_neg hdir] at hused
              cases hused
        obtain ⟨hpolicy, hncpus, husage, -⟩ := nodemapCreate_eq hmap
        exact ⟨(nodemapCreate_ok hsize hmap).1, hpolicy, hncpus, by rw [husage]⟩
  next => cases hmap

/-- A grant fits the map; it is a set of free CPUs for a count that is not negative, and
empty for one that is not positive. -/
theorem nodemapAllocate_some {map map' : Nodemap} (hok : map.Ok)
    (hpolicy : map.policy = policyOf conf)
    (hgranted : nodemapAllocate fuel map ncpus = some (some alloc, map')) :
    alloc.size = map.ncpus ∧ (ncpus ≤ 0 → alloc.bits = ∅) ∧
      (0 ≤ ncpus → map.Granted alloc map' ∧ ncpus ≤ map.navail ∧ (alloc.weight : Int) =
        if conf.policy = .worstFit then ncpus else min ncpus map.reachable.card) := by
  have hle : ncpus ≤ map.navail := by
    by_contra hgt
    rw [nodemapAllocate_refuses (by omega)] at hgranted
    simp at hgranted
  have hnonpos : ncpus ≤ 0 → alloc = Bitmask.alloc map.ncpus := by
    intro hncpus
    obtain ⟨m', hempty⟩ := @nodemapAllocate_nonpos map ncpus fuel hok hncpus
    rw [hempty] at hgranted
    simp only [Option.some.injEq, Prod.mk.injEq] at hgranted
    exact hgranted.1.symm
  have hgrants : 0 ≤ ncpus → map.Granted alloc map' ∧ (alloc.weight : Int) =
      if conf.policy = .worstFit then ncpus else min ncpus map.reachable.card := by
    intro hncpus
    obtain ⟨mask, hmask, hgrant, hweight⟩ := nodemapAllocate_grants hok hpolicy hncpus hle hgranted
    obtain rfl := Option.some.inj hmask
    exact ⟨hgrant, hweight⟩
  refine ⟨?_, fun hncpus => by rw [hnonpos hncpus]; rfl, fun hncpus =>
    ⟨(hgrants hncpus).1, hle, (hgrants hncpus).2⟩⟩
  rcases le_total ncpus 0 with hneg | hpos
  · rw [hnonpos hneg]
    rfl
  · exact (hgrants hpos).1.size_eq

theorem Grants.size_eq (hlists : machine.Lists) {map : Nodemap}
    (hgrants : Grants machine calls fuel conf ncpus h map alloc) :
    alloc.size = machine.numa.cpumaskSize := by
  obtain ⟨hok, hpolicy, hncpus, -⟩ := createMap_spec hlists hgrants.map_eq
  obtain ⟨map', hgranted⟩ := hgrants.granted
  exact (nodemapAllocate_some hok hpolicy hgranted).1.trans hncpus

theorem Grants.unique {map map' : Nodemap} {alloc' : Bitmask}
    (hgrants : Grants machine calls fuel conf ncpus h map alloc)
    (hother : Grants machine calls fuel conf ncpus h map' alloc') : alloc = alloc' := by
  obtain rfl := Option.some.inj (hgrants.map_eq.symm.trans hother.map_eq)
  obtain ⟨_, hgranted⟩ := hgrants.granted
  obtain ⟨_, hgranted'⟩ := hother.granted
  rw [hgranted] at hgranted'
  exact Option.some.inj (Prod.mk.inj (Option.some.inj hgranted')).1

/-! ## The user's cpuset when `cpuset_create` is called -/

/-- The call moves the user's cpuset to the orphans although a job is being created: it was
granted no CPU and the user's jobs have none. -/
def Orphans (machine : Machine) (calls : Calls) (conf : CpusetConf) (uid : BitVec 32)
    (alloc : Bitmask) (h : Cpusets) : Prop :=
  alloc.bits = ∅ ∧ conf.killOrphans = false ∧ calls.orphan = true ∧
    if userDir uid ∈ h.dirs then
      refillCpus machine calls.query uid (some alloc) false h = ∅ ∧ orphanDir uid ∉ h.dirs
    else orphanDir uid ∈ h.dirs → calls.unorphan = true

/-- Moving a user's cpuset to the orphans works if the call does and the name is free. -/
theorem userCpusetOrphan_mem (hmem : userDir uid ∈ h.dirs) :
    userDir uid ∈ (userCpusetOrphan calls uid h).dirs ↔
      ¬ (calls.orphan = true ∧ orphanDir uid ∉ h.dirs) := by
  unfold userCpusetOrphan
  split
  next hflag =>
    by_cases horphan : orphanDir uid ∈ h.dirs
    · have hnone : h.rename slurmDir (printUid uid) (orphanName uid) = none :=
        dif_neg fun hname => hname.2 horphan
      simp [hnone, hmem, horphan]
    · obtain ⟨h', hsome⟩ :=
        @rename_isSome _ _ _ h (printUid uid) (orphanName uid) slurmDir hmem horphan
      have hrenamed := rename_eq_some hsome
      simp only [hsome, Option.getD_some, hflag, horphan, not_false_eq_true, and_self, not_true,
        iff_false]
      exact hrenamed.old_notMem
  next hflag => simp [hflag, hmem]

/-- An orphan move that does not happen changes nothing. -/
theorem userCpusetOrphan_of_not (hnot : ¬ (calls.orphan = true ∧ orphanDir uid ∉ h.dirs)) :
    userCpusetOrphan calls uid h = h := by
  unfold userCpusetOrphan
  split
  next hflag =>
    have horphan : orphanDir uid ∈ h.dirs := not_not.mp fun hfree => hnot ⟨hflag, hfree⟩
    have hnone : h.rename slurmDir (printUid uid) (orphanName uid) = none :=
      dif_neg fun hname => hname.2 horphan
    rw [hnone, Option.getD_none]
  next => rfl

end SlurmSpank.Cpuset
