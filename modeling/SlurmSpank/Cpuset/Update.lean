import SlurmSpank.Cpuset.Canonical

/-! # Updates in a tree of the right shape

When no call fails beyond what the kernel demands, an update always returns, and it leaves
the user with exactly the CPUs of the user's jobs and those to be added.
-/

namespace SlurmSpank.Cpuset

open Foundation Hierarchy

/-- None of the calls fails for reasons of its own. -/
structure Calls.Succeeds (calls : Calls) : Prop where
  unorphan : calls.unorphan = true
  mkdir : calls.mkdir = true
  query : ∀ dir, calls.query dir = true
  buildUser : calls.buildUser = true
  modify : calls.modify = true
  orphan : calls.orphan = true
  buildJob : calls.buildJob = true
  create : calls.create = true
  ftsOpen : calls.ftsOpen = true

theorem Calls.succeed_succeeds (dir : List Name) (cpus : Finset Nat) (staleRc : Int) :
    (Calls.succeed dir cpus staleRc).Succeeds := by
  constructor <;> first | rfl | exact fun _ => rfl

variable {machine : Machine} {calls : Calls} {conf : CpusetConf} {uid : BitVec 32} {size : Nat}
  {h h' placed : Cpusets} {alloc : Option Bitmask} {orphan : Bool} {fill : Finset Nat}

/-- Putting a user's cpuset in place keeps the shape of the tree. -/
theorem Placed.canonical (hplaced : Placed calls uid h orphan placed) (hcan : Canonical size h)
    (hcalls : calls.Succeeds) (huid : 0 ≤ uid.toInt) : Canonical size placed := by
  cases hplaced with
  | kept _ => exact hcan
  | restored _ hrenamed => exact hcan.restored huid hrenamed
  | made hnone hcreated => exact hcan.userCreated huid (hnone hcalls.unorphan) hcreated

/-- The jobs of a user whose cpuset was just put in place hold no CPUs. -/
theorem Placed.job_items (hplaced : Placed calls uid h orphan placed) (hcan : Canonical size h)
    (hmem : userDir uid ∉ h.dirs) {name : Name} (hname : name :: userDir uid ∈ placed.dirs) :
    placed.items (name :: userDir uid) = ∅ := by
  cases hplaced with
  | kept hkept => exact absurd hkept hmem
  | restored _ hrenamed =>
      have hitems := hrenamed.child_items hname
      rw [userDir, hitems]
      exact hcan.orphan_items uid name ((hrenamed.child_mem_iff name).mp hname)
  | made _ hcreated =>
      rcases (hcreated.mem_dirs _).mp hname with hold | hself
      · exact absurd (h.parent_mem _ _ hold) hmem
      · exact absurd (congrArg List.length hself) (by simp [userDir])

/-- Putting a user's cpuset in place leaves the other users alone. -/
theorem Placed.frame (hplaced : Placed calls uid h orphan placed) {name : Name} {dir : List Name}
    (huser : name ≠ printUid uid) (horphan : name ≠ orphanName uid)
    (hbelow : name :: slurmDir <:+ dir) :
    (dir ∈ placed.dirs ↔ dir ∈ h.dirs) ∧ (dir ∈ placed.dirs → placed.items dir = h.items dir) := by
  cases hplaced with
  | kept _ => exact ⟨Iff.rfl, fun _ => rfl⟩
  | restored _ hrenamed =>
      exact ⟨hrenamed.mem_iff_of_sibling horphan huser hbelow, fun hdir =>
        hrenamed.items_of_sibling hdir huser hbelow⟩
  | made _ hcreated =>
      have hne : dir ≠ printUid uid :: slurmDir := by
        rintro rfl
        exact not_suffix_of_sibling huser List.suffix_rfl hbelow
      exact ⟨(hcreated.mem_dirs dir).trans (or_iff_left hne), fun _ => hcreated.items_of_ne dir hne⟩

/-- What an update collects: the CPUs of the user's jobs, and those to be added. -/
theorem Placed.mem_refillCpus (hlists : machine.Lists)
    (hplaced : Placed calls uid h orphan placed)
    (hcan : Canonical machine.numa.cpumaskSize h) (hcalls : calls.Succeeds) (huid : 0 ≤ uid.toInt)
    (cpu : Nat) : cpu ∈ refillCpus machine calls.query uid alloc orphan placed ↔
      (∃ name, name :: userDir uid ∈ placed.dirs ∧ cpu ∈ placed.items (name :: userDir uid)) ∨
        cpu ∈ (alloc.map Bitmask.bits).getD ∅ := by
  have hplacedCan := hplaced.canonical hcan hcalls huid
  rw [Cpuset.mem_refillCpus hlists hplaced.mem]
  apply or_congr_left
  constructor
  · rintro ⟨-, -, name, -, hname, -, hcpu⟩
    exact ⟨name, hname, hcpu⟩
  · rintro ⟨name, hname, hcpu⟩
    have hbelow : slurmDir <:+ userDir uid := List.suffix_cons _ _
    have hskip := hplacedCan.not_skipped hname hbelow (ne_slurmDir_of_cons _)
    have hlt := hplacedCan.items_subset hname (hbelow.trans (List.suffix_cons _ _)) hcpu
    refine ⟨?_, Finset.mem_range.mp hlt, name, hskip, hname, hcalls.query _, hcpu⟩
    by_contra horphan
    have hmem : userDir uid ∉ h.dirs := by
      cases hplaced with
      | kept _ => exact absurd rfl horphan
      | restored _ hrenamed => exact hrenamed.fresh
      | made _ hcreated => exact hcreated.fresh
    rw [hplaced.job_items hcan hmem hname] at hcpu
    exact Finset.notMem_empty cpu hcpu

/-- How an update ends, given the CPUs collected and the tree with the cpuset in place. -/
inductive UpdateEnds (conf : CpusetConf) (uid : BitVec 32) (fill : Finset Nat) (placed : Cpusets) :
    Cpusets → Prop
  | filled {h' : Cpusets} (hfill : fill ≠ ∅)
      (hmodified : Modified placed h' (printUid uid) slurmDir fill) :
      UpdateEnds conf uid fill placed h'
  | left (hempty : fill = ∅) (hkill : conf.killOrphans = true) :
      UpdateEnds conf uid fill placed placed
  | orphaned {h' : Cpusets} (hempty : fill = ∅) (hkill : conf.killOrphans = false)
      (hrenamed : Renamed placed h' slurmDir (printUid uid) (orphanName uid)) :
      UpdateEnds conf uid fill placed h'

/-- The end of an update leaves the other users alone, too. -/
theorem UpdateEnds.frame (hends : UpdateEnds conf uid fill placed h') {name : Name}
    {dir : List Name} (huser : name ≠ printUid uid) (horphan : name ≠ orphanName uid)
    (hbelow : name :: slurmDir <:+ dir) :
    (dir ∈ h'.dirs ↔ dir ∈ placed.dirs) ∧ (dir ∈ h'.dirs → h'.items dir = placed.items dir) := by
  cases hends with
  | filled _ hmodified =>
      have hne : dir ≠ printUid uid :: slurmDir := by
        rintro rfl
        exact not_suffix_of_sibling huser List.suffix_rfl hbelow
      exact ⟨by rw [hmodified.dirs_eq], fun _ => hmodified.items_of_ne dir hne⟩
  | left _ _ => exact ⟨Iff.rfl, fun _ => rfl⟩
  | orphaned _ _ hrenamed =>
      exact ⟨hrenamed.mem_iff_of_sibling huser horphan hbelow, fun hdir =>
        hrenamed.items_of_sibling hdir horphan hbelow⟩

/-- An update returns, and ends in one of the three ways. -/
theorem Canonical.update (hlists : machine.Lists) (hcan : Canonical machine.numa.cpumaskSize h)
    (hcalls : calls.Succeeds) (huid : 0 ≤ uid.toInt)
    (halloc : ∀ mask ∈ alloc, mask.size = machine.numa.cpumaskSize) :
    ∃ orphan placed h', Placed calls uid h orphan placed ∧
      userCpusetUpdate machine calls conf uid alloc h = some (0, h') ∧
      UpdateEnds conf uid (refillCpus machine calls.query uid alloc orphan placed) placed h' := by
  rcases @userCpusetUpdate_cases machine calls conf uid h alloc with
    ⟨-, hnone, -⟩ | ⟨orphan, placed, hplaced, hupdate⟩
  · exact absurd hcan.slurm_mem (hnone hcalls.mkdir)
  have hplacedCan := hplaced.canonical hcan hcalls huid
  have hmem := @Placed.mem_refillCpus machine calls uid h placed alloc orphan hlists hplaced hcan
    hcalls huid
  rw [hupdate, userCpusetRefill_eq hlists hplaced.mem halloc]
  by_cases hempty : refillCpus machine calls.query uid alloc orphan placed = ∅
  · rw [if_pos hempty]
    cases hkill : conf.killOrphans with
    | true => exact ⟨orphan, placed, placed, hplaced, rfl, .left hempty hkill⟩
    | false =>
        obtain ⟨h', hrename⟩ := rename_isSome hplaced.mem (hplacedCan.exclusive uid hplaced.mem)
        have hmoved : userCpusetOrphan calls uid placed = h' := by
          rw [userCpusetOrphan, if_pos hcalls.orphan, hrename, Option.getD_some]
        refine ⟨orphan, placed, h', hplaced, ?_, .orphaned hempty hkill (rename_eq_some hrename)⟩
        rw [hmoved]
        rfl
  · have hfits : refillCpus machine calls.query uid alloc orphan placed ⊆
        placed.items slurmDir := by
      intro cpu hcpu
      rw [hplacedCan.slurm_items]
      rcases (hmem cpu).mp hcpu with ⟨name, hname, hitem⟩ | hadded
      · exact hplacedCan.items_subset hname
          ((List.suffix_cons _ _).trans (List.suffix_cons _ _)) hitem
      · cases alloc with
        | none => exact absurd hadded (Finset.notMem_empty cpu)
        | some mask => exact Finset.mem_range.mpr (halloc mask rfl ▸ mask.bits_lt cpu hadded)
    obtain ⟨h', hloop⟩ := modifyLoop_of_fits hcalls.modify hplaced.mem hfits
      fun name hname cpu hcpu => (hmem cpu).mpr (Or.inl ⟨name, hname, hcpu⟩)
    rw [if_neg hempty, if_pos hcalls.buildUser, hloop]
    refine ⟨orphan, placed, h', hplaced, rfl, .filled hempty ?_⟩
    exact ((modifyLoop_cases hloop).resolve_left fun hfailed => by simp at hfailed).2

/-- An update keeps the shape of the tree. -/
theorem Canonical.updated (hlists : machine.Lists) (hcan : Canonical machine.numa.cpumaskSize h)
    (hcalls : calls.Succeeds) (huid : 0 ≤ uid.toInt) (hplaced : Placed calls uid h orphan placed)
    (hends : UpdateEnds conf uid (refillCpus machine calls.query uid alloc orphan placed) placed
      h') : Canonical machine.numa.cpumaskSize h' := by
  have hplacedCan := hplaced.canonical hcan hcalls huid
  cases hends with
  | filled _ hmodified => exact hplacedCan.modified hmodified
  | left _ _ => exact hplacedCan
  | orphaned hempty _ hrenamed =>
      refine hplacedCan.orphaned huid hrenamed fun name hname => ?_
      apply Finset.subset_empty.mp
      intro cpu hcpu
      rw [← hempty]
      exact (hplaced.mem_refillCpus hlists hcan hcalls huid cpu).mpr (Or.inl ⟨name, hname, hcpu⟩)

end SlurmSpank.Cpuset
