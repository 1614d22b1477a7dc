import SlurmSpank.Cpuset.UserCpuset
import SlurmSpank.Foundation.Separation

/-! # The shape of the tree

The operations of the plugin leave a tree of users, jobs and steps below `/slurm`: a user has
a cpuset or an orphaned one but not both, and the jobs of an orphaned one hold no CPUs. Every
change that an operation makes to the tree keeps this shape.
-/

namespace SlurmSpank.Cpuset

open Foundation Hierarchy

/-- The shape of the tree on a machine with the given number of CPUs. -/
structure Canonical (size : Nat) (h : Cpusets) : Prop where
  slurm_mem : slurmDir ∈ h.dirs
  slurm_items : h.items slurmDir = Finset.range size
  user_name : ∀ name, name :: slurmDir ∈ h.dirs →
    ∃ uid : BitVec 32, 0 ≤ uid.toInt ∧ (name = printUid uid ∨ name = orphanName uid)
  job_name : ∀ name dir, name :: dir ∈ h.dirs → slurmDir <:+ dir → dir ≠ slurmDir →
    ∃ id, name = printId id
  orphan_items : ∀ uid name, name :: orphanDir uid ∈ h.dirs → h.items (name :: orphanDir uid) = ∅
  exclusive : ∀ uid, userDir uid ∈ h.dirs → orphanDir uid ∉ h.dirs

variable {machine : Machine} {calls : Calls} {conf : CpusetConf} {uid : BitVec 32} {size : Nat}
  {h h' placed : Cpusets} {name : Name} {dir path : List Name} {set : Finset Nat}
  {alloc : Option Bitmask}

theorem Canonical.items_subset (hcan : Canonical size h) (hdir : dir ∈ h.dirs)
    (hbelow : slurmDir <:+ dir) : h.items dir ⊆ Finset.range size :=
  hcan.slurm_items ▸ h.items_subset_of_suffix hdir hbelow

/-- Below a user nothing is skipped by the accounting. -/
theorem Canonical.not_skipped (hcan : Canonical size h) (hdir : name :: dir ∈ h.dirs)
    (hbelow : slurmDir <:+ dir) (hne : dir ≠ slurmDir) : skipped name = false := by
  obtain ⟨id, rfl⟩ := hcan.job_name name dir hdir hbelow hne
  exact skipped_printId id

/-- What the accounting looks at directly below `/slurm` are the users that are no orphans. -/
theorem Canonical.user_of_not_skipped (hcan : Canonical size h) (hdir : name :: slurmDir ∈ h.dirs)
    (hskip : skipped name = false) : ∃ uid : BitVec 32, 0 ≤ uid.toInt ∧ name = printUid uid := by
  obtain ⟨uid, huid, rfl | rfl⟩ := hcan.user_name name hdir
  · exact ⟨uid, huid, rfl⟩
  · rw [skipped_orphanName] at hskip
    cases hskip

/-- What holds of the names that the plugin uses holds of all names below `/slurm`. -/
theorem Canonical.forall_names (hcan : Canonical size h) {holds : Name → Prop}
    (hslurm : holds slurmName.tail) (huser : ∀ uid, holds (printUid uid))
    (horphan : ∀ uid, holds (orphanName uid)) (hjob : ∀ id, holds (printId id))
    (hdir : dir ∈ h.dirs) (hbelow : slurmDir <:+ dir) : ∀ name ∈ dir, holds name := by
  induction dir with
  | nil => simp
  | cons first rest ih =>
      rcases List.suffix_cons_iff.mp hbelow with heq | hrest
      · rw [← heq]
        exact List.forall_mem_singleton.mpr hslurm
      · refine List.forall_mem_cons.mpr ⟨?_, ih (h.parent_mem _ _ hdir) hrest⟩
        by_cases htop : rest = slurmDir
        · subst htop
          obtain ⟨uid, -, rfl | rfl⟩ := hcan.user_name first hdir
          · exact huser uid
          · exact horphan uid
        · obtain ⟨id, rfl⟩ := hcan.job_name first rest hdir hrest htop
          exact hjob id

/-- The path string of a cpuset below `/slurm` leads back to it. -/
theorem Canonical.dirOf_cpusetName (hcan : Canonical size h) (hdir : dir ∈ h.dirs)
    (hbelow : slurmDir <:+ dir) : dirOf (cpusetName dir) = dir := by
  apply Cpuset.dirOf_cpusetName
  refine hcan.forall_names (by decide) ?_ ?_ ?_ hdir hbelow
  · exact fun uid => ⟨printUid_ne_nil uid, slash_notMem_printUid uid⟩
  · exact fun uid => ⟨by simp [orphanName, orphanPrefix], slash_notMem_orphanName uid⟩
  · exact fun id => ⟨printId_ne_nil id, slash_notMem_printId id⟩

/-! ## Changes that keep the shape -/

theorem Canonical.removed (hcan : Canonical size h) (hremoved : Removed h h' path)
    (hne : path ≠ slurmDir) : Canonical size h' where
  slurm_mem := (hremoved.mem_dirs _).mpr ⟨hcan.slurm_mem, hne.symm⟩
  slurm_items := hremoved.items_eq ▸ hcan.slurm_items
  user_name name hname := hcan.user_name name ((hremoved.mem_dirs _).mp hname).1
  job_name name dir hname := hcan.job_name name dir ((hremoved.mem_dirs _).mp hname).1
  orphan_items uid name hname :=
    hremoved.items_eq ▸ hcan.orphan_items uid name ((hremoved.mem_dirs _).mp hname).1
  exclusive uid huser horphan :=
    hcan.exclusive uid ((hremoved.mem_dirs _).mp huser).1 ((hremoved.mem_dirs _).mp horphan).1

theorem ne_slurmDir_of_cons (name : Name) : name :: slurmDir ≠ slurmDir := fun heq =>
  absurd (congrArg List.length heq) (by simp)

/-- Setting the CPUs of a user keeps the shape. -/
theorem Canonical.modified (hcan : Canonical size h)
    (hmodified : Modified h h' name slurmDir set) : Canonical size h' where
  slurm_mem := hmodified.dirs_eq ▸ hcan.slurm_mem
  slurm_items := by
    rw [hmodified.items_of_ne _ (ne_slurmDir_of_cons name).symm]
    exact hcan.slurm_items
  user_name other hother := hcan.user_name other (hmodified.dirs_eq ▸ hother)
  job_name other dir hother := hcan.job_name other dir (hmodified.dirs_eq ▸ hother)
  orphan_items uid other hother := by
    rw [hmodified.items_of_ne _ (by simp [orphanDir])]
    exact hcan.orphan_items uid other (hmodified.dirs_eq ▸ hother)
  exclusive uid huser := by
    rw [hmodified.dirs_eq] at huser ⊢
    exact hcan.exclusive uid huser

/-- Making the cpuset of a user that is no orphan keeps the shape. -/
theorem Canonical.userCreated (hcan : Canonical size h) (huid : 0 ≤ uid.toInt)
    (hfree : orphanDir uid ∉ h.dirs) (hcreated : Created h h' (printUid uid) slurmDir set) :
    Canonical size h' where
  slurm_mem := (hcreated.mem_dirs _).mpr (Or.inl hcan.slurm_mem)
  slurm_items := by
    rw [hcreated.items_of_ne _ (ne_slurmDir_of_cons _).symm]
    exact hcan.slurm_items
  user_name other hother := by
    rcases (hcreated.mem_dirs _).mp hother with hold | hself
    · exact hcan.user_name other hold
    · exact ⟨uid, huid, Or.inl (List.cons.inj hself).1⟩
  job_name other dir hother hbelow hne := by
    rcases (hcreated.mem_dirs _).mp hother with hold | hself
    · exact hcan.job_name other dir hold hbelow hne
    · exact absurd (List.cons.inj hself).2 hne
  orphan_items other child hchild := by
    have hne : child :: orphanDir other ≠ printUid uid :: slurmDir := by simp [orphanDir]
    rw [hcreated.items_of_ne _ hne]
    exact hcan.orphan_items other child (((hcreated.mem_dirs _).mp hchild).resolve_right hne)
  exclusive other huser horphan := by
    have hold := ((hcreated.mem_dirs _).mp horphan).resolve_right (orphanDir_ne_userDir other uid)
    rcases (hcreated.mem_dirs _).mp huser with hkept | hself
    · exact hcan.exclusive other hkept hold
    · rw [printUid_injective (List.cons.inj hself).1] at hold
      exact hfree hold

/-- Creating a job's or a step's cpuset keeps the shape, below anything but an orphan. -/
theorem Canonical.jobCreated (hcan : Canonical size h) {id : BitVec 32}
    (hbelow : slurmDir <:+ path) (hne : path ≠ slurmDir) (hfree : ∀ uid, path ≠ orphanDir uid)
    (hcreated : Created h h' (printId id) path set) : Canonical size h' := by
  have hslurm : slurmDir ≠ printId id :: path := by
    intro heq
    rw [slurmDir, List.cons_eq_cons] at heq
    exact absurd (heq.2 ▸ hbelow) (by simp [slurmDir])
  have huser : ∀ name, name :: slurmDir ∈ h'.dirs ↔ name :: slurmDir ∈ h.dirs := by
    intro name
    rw [hcreated.mem_dirs, or_iff_left]
    exact fun heq => hne (List.cons.inj heq).2.symm
  constructor
  · exact (hcreated.mem_dirs _).mpr (Or.inl hcan.slurm_mem)
  · rw [hcreated.items_of_ne _ hslurm]
    exact hcan.slurm_items
  · exact fun name hname => hcan.user_name name ((huser name).mp hname)
  · intro name dir hname hdir hdirNe
    rcases (hcreated.mem_dirs _).mp hname with hold | hself
    · exact hcan.job_name name dir hold hdir hdirNe
    · exact ⟨id, (List.cons.inj hself).1⟩
  · intro uid name hname
    have hother : name :: orphanDir uid ≠ printId id :: path := fun heq =>
      hfree uid (List.cons.inj heq).2.symm
    rw [hcreated.items_of_ne _ hother]
    exact hcan.orphan_items uid name (((hcreated.mem_dirs _).mp hname).resolve_right hother)
  · exact fun uid hmem horphan =>
      hcan.exclusive uid ((huser _).mp hmem) ((huser _).mp horphan)

/-- Renaming a child of `/slurm` keeps the shape, if the new name is that of a user and the
jobs of a new orphan hold no CPUs. -/
theorem Canonical.renamed (hcan : Canonical size h) {old new : Name}
    (hrenamed : Renamed h h' slurmDir old new) (huid : 0 ≤ uid.toInt)
    (hnew : new = printUid uid ∨ new = orphanName uid)
    (hempty : new = orphanName uid → ∀ name, name :: old :: slurmDir ∈ h.dirs →
      h.items (name :: old :: slurmDir) = ∅)
    (hexclusive : ∀ other, userDir other ∈ h'.dirs → orphanDir other ∉ h'.dirs) :
    Canonical size h' := by
  have hslurm : slurmDir ∈ h'.dirs :=
    (hrenamed.mem_iff_of_not_suffix (not_cons_suffix_self _ _) (not_cons_suffix_self _ _)).mpr
      hcan.slurm_mem
  constructor
  · exact hslurm
  · rw [hrenamed.items_of_not_suffix hslurm (not_cons_suffix_self _ _)]
    exact hcan.slurm_items
  · intro name hname
    by_cases hself : name = new
    · exact ⟨uid, huid, hself ▸ hnew⟩
    · by_cases hold : name = old
      · exact absurd hname (hold ▸ hrenamed.old_notMem)
      · exact hcan.user_name name
          ((hrenamed.mem_iff_of_sibling hold hself List.suffix_rfl).mp hname)
  · intro name dir hname hbelow hne
    have hback := ((hrenamed.mem_iff _).mp hname).2
    rw [moved_cons fun heq => hne (List.cons.inj heq).2] at hback
    refine hcan.job_name name _ hback (suffix_moved hbelow) fun heq => hne ?_
    have hlen := congrArg List.length heq
    rw [length_moved] at hlen
    exact (hbelow.eq_of_length hlen.symm).symm
  · intro other name hname
    have horphan := h'.parent_mem _ _ hname
    by_cases hself : orphanName other = new
    · have hother : orphanName other = orphanName uid := by
        rcases hnew with heq | heq
        · exact absurd (heq.symm.trans hself.symm) (printUid_ne_orphanName uid other)
        · rw [hself, heq]
      rw [orphanDir, hself] at hname ⊢
      rw [hrenamed.child_items hname]
      exact hempty (by rw [← hself, hother]) name ((hrenamed.child_mem_iff name).mp hname)
    · have hold : orphanName other ≠ old := by
        rintro rfl
        exact hrenamed.old_notMem horphan
      have hsuffix : orphanName other :: slurmDir <:+ name :: orphanDir other :=
        List.suffix_cons _ _
      rw [hrenamed.items_of_sibling hname hself hsuffix]
      exact hcan.orphan_items other name ((hrenamed.mem_iff_of_sibling hold hself hsuffix).mp hname)
  · exact hexclusive

/-- Moving a user back from the orphans keeps the shape. -/
theorem Canonical.restored (hcan : Canonical size h) (huid : 0 ≤ uid.toInt)
    (hrenamed : Renamed h h' slurmDir (orphanName uid) (printUid uid)) : Canonical size h' := by
  refine hcan.renamed hrenamed huid (Or.inl rfl)
    (fun heq => absurd heq (printUid_ne_orphanName uid uid)) fun other huser horphan => ?_
  by_cases hself : other = uid
  · exact hrenamed.old_notMem (hself ▸ horphan)
  · refine hcan.exclusive other ?_ ?_
    · refine (hrenamed.mem_iff_of_sibling (printUid_ne_orphanName other uid) ?_
        List.suffix_rfl).mp huser
      exact fun heq => hself (printUid_injective heq)
    · refine (hrenamed.mem_iff_of_sibling ?_ (printUid_ne_orphanName uid other).symm
        List.suffix_rfl).mp horphan
      exact fun heq => hself (orphanName_injective heq)

/-- Moving a user whose jobs hold no CPUs to the orphans keeps the shape. -/
theorem Canonical.orphaned (hcan : Canonical size h) (huid : 0 ≤ uid.toInt)
    (hrenamed : Renamed h h' slurmDir (printUid uid) (orphanName uid))
    (hempty : ∀ name, name :: userDir uid ∈ h.dirs → h.items (name :: userDir uid) = ∅) :
    Canonical size h' := by
  refine hcan.renamed hrenamed huid (Or.inr rfl) (fun _ => hempty) fun other huser horphan => ?_
  by_cases hself : other = uid
  · exact hrenamed.old_notMem (hself ▸ huser)
  · refine hcan.exclusive other ?_ ?_
    · refine (hrenamed.mem_iff_of_sibling ?_ (printUid_ne_orphanName other uid)
        List.suffix_rfl).mp huser
      exact fun heq => hself (printUid_injective heq)
    · refine (hrenamed.mem_iff_of_sibling (printUid_ne_orphanName uid other).symm ?_
        List.suffix_rfl).mp horphan
      exact fun heq => hself (orphanName_injective heq)

end SlurmSpank.Cpuset
