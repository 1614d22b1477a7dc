import SlurmSpank.Cpuset.Operations
import SlurmSpank.Foundation.Holdings

/-! # What jobs hold

The CPUs of the cpusets of jobs and of their steps, as one function of the directory. Updating
the users' cpusets does not change it, wherever they are moved; creating a cpuset adds to it
what nobody held; and a clean-up takes away from it only what has no tasks.
-/

namespace SlurmSpank.Cpuset

open Foundation Hierarchy

/-- The cpuset of a job, or one below it. -/
def OfJob (dir : List Name) : Prop := slurmDir <:+ dir ∧ 3 ≤ dir.length

instance : DecidablePred OfJob := fun _ => instDecidableAnd

/-- The CPUs that the cpuset of a job or of a step holds. -/
abbrev jobCpus (h : Cpusets) : List Name → Finset Nat := h.held OfJob

/-- A tree of the right shape in which no two jobs, and no two steps of a job, share a CPU. -/
structure Orderly (size : Nat) (h : Cpusets) : Prop extends Canonical size h where
  owned : Owned OfJob h

/-- A change of the tree that keeps it orderly, and leaves the CPUs of the cpusets in use. -/
structure Respects (size : Nat) (inUse : List Name → Prop) (h h' : Cpusets) : Prop where
  orderly : Orderly size h'
  kept : ∀ dir, inUse dir → (jobCpus h dir).Nonempty → jobCpus h' dir = jobCpus h dir

variable {machine : Machine} {calls : Calls} {conf : CpusetConf} {activity : Activity} {fuel : Nat}
  {id uid : BitVec 32} {ncpus staleRc : Int} {size : Nat} {h h' placed before : Cpusets}
  {dir other path : List Name} {name child : Name} {cpus : Finset Nat} {cpu : Nat}
  {alloc : Option Bitmask} {mask : Bitmask} {map : Nodemap} {orphan : Bool}
  {inUse : List Name → Prop}

theorem not_ofJob_user (name : Name) : ¬ OfJob (name :: slurmDir) := by
  simp [OfJob, slurmDir]

theorem ofJob_cons_cons (job user : Name) : OfJob (job :: user :: slurmDir) :=
  ⟨(List.suffix_cons _ _).trans (List.suffix_cons _ _), by simp [slurmDir]⟩

theorem OfJob.cons (hjob : OfJob dir) (name : Name) : OfJob (name :: dir) :=
  ⟨hjob.1.trans (List.suffix_cons _ _), hjob.2.trans (by simp)⟩

theorem OfJob.of_suffix (hjob : OfJob dir) (hbelow : dir <:+ other) : OfJob other :=
  ⟨hjob.1.trans hbelow, hjob.2.trans hbelow.length_le⟩

/-- A directory below another one lies below one of its children. -/
theorem exists_child_suffix (hbelow : path <:+ dir) (hne : dir ≠ path) :
    ∃ child, child :: path <:+ dir := by
  obtain ⟨front, rfl⟩ := hbelow
  have hfront : front ≠ [] := by
    rintro rfl
    exact hne rfl
  refine ⟨front.getLast hfront, front.dropLast, ?_⟩
  rw [List.append_cons, List.dropLast_append_getLast hfront]

/-- A job's cpuset lies in that of a user. -/
theorem OfJob.exists_user (hjob : OfJob dir) : ∃ job user, job :: user :: slurmDir <:+ dir := by
  obtain ⟨hbelow, hlen⟩ := hjob
  have hshort : slurmDir.length = 1 := rfl
  obtain ⟨user, huser⟩ := exists_child_suffix hbelow (by rintro rfl; omega)
  have htop : dir ≠ user :: slurmDir := by
    rintro rfl
    rw [List.length_cons] at hlen
    omega
  obtain ⟨job, hdir⟩ := exists_child_suffix huser htop
  exact ⟨job, user, hdir⟩

theorem Respects.refl (horderly : Orderly size h) : Respects size inUse h h :=
  ⟨horderly, fun _ _ _ => rfl⟩

theorem Respects.of_eq (horderly : Orderly size h) (hcan : Canonical size h')
    (heq : jobCpus h' = jobCpus h) : Respects size inUse h h' :=
  ⟨⟨hcan, horderly.owned.of_eq heq⟩, fun dir _ _ => by rw [heq]⟩

theorem Respects.trans {between : Cpusets} (hfirst : Respects size inUse h between)
    (hsecond : Respects size inUse between h') : Respects size inUse h h' := by
  refine ⟨hsecond.orderly, fun dir hdir hnonempty => ?_⟩
  have hkept := hfirst.kept dir hdir hnonempty
  rw [hsecond.kept dir hdir (hkept ▸ hnonempty), hkept]

/-! ## Updating users -/

/-- Whatever lies below a user whose jobs hold no CPUs holds none. -/
theorem items_eq_empty_of_children (hempty : ∀ name, name :: path ∈ h.dirs →
    h.items (name :: path) = ∅) (hdir : dir ∈ h.dirs) (hbelow : path <:+ dir) (hne : dir ≠ path) :
    h.items dir = ∅ := by
  obtain ⟨child, hchild⟩ := exists_child_suffix hbelow hne
  have hsub := h.items_subset_of_suffix hdir hchild
  rw [hempty child (h.mem_of_suffix hdir hchild)] at hsub
  exact Finset.subset_empty.mp hsub

/-- Renaming the cpuset of a user whose jobs hold no CPUs changes nothing for the jobs. -/
theorem renamed_jobCpus {old new : Name} (hrenamed : Renamed h h' slurmDir old new)
    (hempty : ∀ name, name :: old :: slurmDir ∈ h.dirs → h.items (name :: old :: slurmDir) = ∅) :
    jobCpus h' = jobCpus h := by
  refine hrenamed.held_eq fun dir hdir hbelow hcounts => ?_
  refine items_eq_empty_of_children hempty hdir hbelow ?_
  rintro rfl
  rw [moved_self] at hcounts
  exact hcounts.elim (not_ofJob_user _) (not_ofJob_user _)

theorem Placed.jobCpus_eq (hplaced : Placed calls uid h orphan placed) (hcan : Canonical size h) :
    jobCpus placed = jobCpus h := by
  cases hplaced with
  | kept _ => rfl
  | restored _ hrenamed => exact renamed_jobCpus hrenamed (hcan.orphan_items uid)
  | made _ hcreated => exact hcreated.held_eq_of_not (not_ofJob_user _)

/-- An update of a user changes nothing for the jobs: the cpuset is moved away only if none of
its jobs holds a CPU. -/
theorem UpdateEnds.jobCpus_eq (hlists : machine.Lists)
    (hcan : Canonical machine.numa.cpumaskSize h) (hcalls : calls.Succeeds) (huid : 0 ≤ uid.toInt)
    (hplaced : Placed calls uid h orphan placed)
    (hends : UpdateEnds conf uid (refillCpus machine calls.query uid alloc orphan placed) placed
      h') : jobCpus h' = jobCpus h := by
  rw [← hplaced.jobCpus_eq hcan]
  cases hends with
  | filled _ hmodified => exact hmodified.held_eq (not_ofJob_user _)
  | left _ _ => rfl
  | orphaned hempty _ hrenamed =>
      refine renamed_jobCpus hrenamed fun name hname => ?_
      apply Finset.subset_empty.mp
      intro cpu hcpu
      rw [← hempty]
      exact (hplaced.mem_refillCpus hlists hcan hcalls huid cpu).mpr (Or.inl ⟨name, hname, hcpu⟩)

/-- The pass over all users changes nothing for the jobs. -/
theorem updateUserCpusets_respects (hlists : machine.Lists)
    (horderly : Orderly machine.numa.cpumaskSize h) (hcalls : calls.Succeeds) :
    ∃ h', updateUserCpusets machine calls conf h = some (0, h') ∧
      Respects machine.numa.cpumaskSize inUse h h' := by
  obtain ⟨h', hreturns, hcan, hsame⟩ := @Canonical.secondPass machine calls conf h hlists
    horderly.toCanonical hcalls (fun _ now => jobCpus now = jobCpus h) (fun _ _ _ hsame _ => hsame)
    (fun _ _ _ _ _ _ hcanNow hsame huid _ hplaced hends =>
      (hends.jobCpus_eq hlists hcanNow hcalls huid hplaced).trans hsame) rfl
  exact ⟨h', hreturns, .of_eq horderly hcan hsame⟩

/-! ## Cleaning up -/

/-- The first pass of a clean-up takes nothing from a cpuset that has tasks. -/
theorem cleanEntries_respects (hlists : machine.Lists) (horderly : Orderly size h)
    (hbusy : ∀ dir, inUse dir → 0 < activity.tasks dir) :
    Respects size inUse h (cleanEntries machine activity h) := by
  refine horderly.firstPass hlists (Respects size inUse h) ?_ (.refl horderly)
  intro now next path hnow hremoved hne hidle
  refine hnow.trans ⟨⟨hnow.orderly.removed hremoved hne, ?_⟩, fun dir hdir _ => ?_⟩
  · refine hnow.orderly.owned.mono fun dir => ?_
    rw [hremoved.held_eq]
    by_cases hself : dir = path
    · rw [hself, Function.update_self]
      exact Finset.empty_subset _
    · rw [Function.update_of_ne hself]
  · have hother : dir ≠ path := by
      rintro rfl
      exact absurd (hbusy dir hdir) (by omega)
    rw [jobCpus, hremoved.held_eq, Function.update_of_ne hother]

/-- A clean-up returns, and leaves the cpusets that have tasks. -/
theorem slurmCpusetClean_respects (hlists : machine.Lists)
    (horderly : Orderly machine.numa.cpumaskSize h) (hcalls : calls.Succeeds)
    (hbusy : ∀ dir, inUse dir → 0 < activity.tasks dir) :
    ∃ h', slurmCpusetClean machine calls conf activity h = some (0, h') ∧
      Respects machine.numa.cpumaskSize inUse h h' := by
  have hfirst := cleanEntries_respects hlists horderly hbusy
  obtain ⟨h', hreturns, hsecond⟩ := @updateUserCpusets_respects machine calls conf _ inUse hlists
    hfirst.orderly hcalls
  refine ⟨h', ?_, hfirst.trans hsecond⟩
  rw [(slurmCpusetClean_eq hlists horderly.toCanonical hcalls activity).2, hreturns]
  rfl

/-! ## Creating cpusets -/

/-- What is granted is in no child of the cpuset whose usage was read, whatever the count. -/
theorem Grants.unused (hlists : machine.Lists) (hcan : Canonical machine.numa.cpumaskSize h)
    (hlocated : Located h dir)
    (hgrants : Grants machine (Calls.succeed dir cpus staleRc) fuel conf ncpus h map mask)
    (hcpu : cpu ∈ mask.bits) : cpu ∈ h.items (usageDir dir) ∧ ∀ name, skipped name = false →
      name :: usageDir dir ∈ h.dirs → cpu ∉ h.items (name :: usageDir dir) := by
  rcases lt_or_ge ncpus 0 with hneg | hncpus
  · obtain ⟨hok, -⟩ := createMap_spec hlists hgrants.map_eq
    obtain ⟨map', hgranted⟩ := hgrants.granted
    obtain ⟨_, hempty⟩ := @nodemapAllocate_nonpos map ncpus fuel hok hneg.le
    rw [hempty] at hgranted
    obtain ⟨hmask, -⟩ := Prod.mk.inj (Option.some.inj hgranted)
    obtain rfl := Option.some.inj hmask
    exact absurd hcpu (Finset.notMem_empty cpu)
  · exact hgrants.free hlists hcan hlocated hncpus hcpu

/-- A cpuset that is created with CPUs which nobody unrelated holds respects the others. -/
theorem created_respects (horderly : Orderly size h) (hcan : Canonical size h')
    (hcreated : Created h h' name path mask.bits) (hjob : OfJob (name :: path))
    (hfree : ∀ dir, Unrelated (name :: path) dir → ∀ cpu ∈ mask.bits, cpu ∉ jobCpus h dir) :
    Respects size inUse h h' := by
  refine ⟨⟨hcan, hcreated.owned hjob horderly.owned fun dir hunrelated =>
    Finset.disjoint_left.mpr fun cpu => hfree dir hunrelated cpu⟩, fun dir _ hnonempty => ?_⟩
  have hother : dir ≠ name :: path := by
    rintro rfl
    exact hcreated.fresh (of_held_nonempty hnonempty).2.1
  rw [jobCpus, hcreated.held_eq hjob, Function.update_of_ne hother]

/-- No job holds a CPU that none of the users has who count. -/
theorem Canonical.notMem_jobCpus (hcan : Canonical size h)
    (hfree : ∀ name, skipped name = false → name :: slurmDir ∈ h.dirs →
      cpu ∉ h.items (name :: slurmDir)) (dir : List Name) : cpu ∉ jobCpus h dir := by
  intro hcpu
  obtain ⟨hjob, hdir, hitem⟩ := mem_held.mp hcpu
  obtain ⟨job, user, hbelow⟩ := hjob.exists_user
  have hjobMem := h.mem_of_suffix hdir hbelow
  have hjobItem := h.items_subset_of_suffix hdir hbelow hitem
  have huserMem := h.parent_mem _ _ hjobMem
  obtain ⟨uid, -, rfl | rfl⟩ := hcan.user_name user huserMem
  · exact hfree _ (skipped_printUid uid) huserMem (h.items_subset _ _ hjobMem hjobItem)
  · have hempty : h.items (job :: orphanName uid :: slurmDir) = ∅ :=
      hcan.orphan_items uid job hjobMem
    rw [hempty] at hjobItem
    exact Finset.notMem_empty cpu hjobItem

theorem createCpusetForJob_respects (hlists : machine.Lists)
    (horderly : Orderly machine.numa.cpumaskSize h) (hdir : dir = [] ∨ dir = slurmDir)
    (huid : 0 ≤ uid.toInt) {result : CreateResult}
    (hcall : createCpusetForJob machine (Calls.succeed dir cpus staleRc) fuel conf id uid ncpus h =
      some result) : Respects machine.numa.cpumaskSize inUse h result.cpusets := by
  have hcan := horderly.toCanonical
  have hcalls := Calls.succeed_succeeds dir cpus staleRc
  rcases createCpusetForJob_cases hlists hcan hdir huid hcall with
    hsame | ⟨map, mask, orphan, placed, before, hgrants, hplaced, hends, hlast⟩
  · rw [hsame]
    exact .refl horderly
  have hbefore := hcan.updated hlists hcalls huid hplaced hends
  have hsame := hends.jobCpus_eq hlists hcan hcalls huid hplaced
  have hfirst : Respects machine.numa.cpumaskSize inUse h before := .of_eq horderly hbefore hsame
  rcases hlast with hlast | hcreated
  · rwa [hlast]
  have hlocated : Located h dir := by
    rcases hdir with rfl | rfl
    · exact Or.inl rfl
    · exact Or.inr ⟨hcan.slurm_mem, List.suffix_rfl, by decide⟩
  have husage : usageDir dir = slurmDir := by
    rcases hdir with rfl | rfl <;> rfl
  refine hfirst.trans (created_respects hfirst.orderly ?_ hcreated (ofJob_cons_cons _ _) ?_)
  · exact hbefore.jobCreated (List.suffix_cons _ _) (ne_slurmDir_of_cons _)
      (fun other heq => orphanDir_ne_userDir other uid heq.symm) hcreated
  · intro other _ cpu hcpu
    rw [hsame]
    have hfree := (hgrants.unused hlists hcan hlocated hcpu).2
    rw [husage] at hfree
    exact hcan.notMem_jobCpus hfree other

/-- The CPUs of a step come from its job, and from none of the other steps. -/
theorem createCpusetForStep_respects (hlists : machine.Lists)
    (horderly : Orderly machine.numa.cpumaskSize h) (hdir : dir ∈ h.dirs)
    (hbelow : slurmDir <:+ dir) (hlen : dir.length = 3) {result : CreateResult}
    (hcall : createCpusetForStep machine (Calls.succeed dir cpus staleRc) fuel conf id ncpus h =
      some result) : Respects machine.numa.cpumaskSize inUse h result.cpusets := by
  have hcan := horderly.toCanonical
  have hjob : OfJob dir := ⟨hbelow, hlen.ge⟩
  rcases createCpusetForStep_cases hcan hdir hbelow hlen hcall with
    hsame | ⟨map, mask, hgrants, hcreated⟩
  · rw [hsame]
    exact .refl horderly
  have hne : dir ≠ slurmDir := by
    rintro rfl
    simp [slurmDir] at hlen
  have hnotOrphan : ∀ other, dir ≠ orphanDir other := by
    rintro other rfl
    simp [orphanDir, slurmDir] at hlen
  have husage : usageDir dir = dir := by
    refine if_neg ?_
    rintro rfl
    simp at hlen
  refine created_respects horderly (hcan.jobCreated hbelow hne hnotOrphan hcreated) hcreated
    (hjob.cons _) ?_
  intro other hunrelated cpu hcpu hother
  obtain ⟨hparent, hfree⟩ := hgrants.unused hlists hcan (Or.inr ⟨hdir, hbelow, hlen.le⟩) hcpu
  rw [husage] at hparent hfree
  by_cases hwithin : dir <:+ other
  · -- the CPU would be held below a sibling of the new cpuset
    have hbelowOther : other ≠ dir := by
      rintro rfl
      exact hunrelated.2 (List.suffix_cons _ _)
    obtain ⟨child, hchild⟩ := exists_child_suffix hwithin hbelowOther
    obtain ⟨-, hmem, hitem⟩ := mem_held.mp hother
    have hchildMem := h.mem_of_suffix hmem hchild
    exact hfree child (hcan.not_skipped hchildMem hbelow hne) hchildMem
      (h.items_subset_of_suffix hmem hchild hitem)
  · have hunrelated' : Unrelated dir other :=
      ⟨hwithin, fun habove => hunrelated.2 (habove.trans (List.suffix_cons _ _))⟩
    exact Finset.disjoint_left.mp (horderly.owned dir other hunrelated')
      (mem_held.mpr ⟨hjob, hdir, hparent⟩) hother

end SlurmSpank.Cpuset
