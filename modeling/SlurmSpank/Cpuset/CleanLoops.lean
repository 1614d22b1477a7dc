import SlurmSpank.Cpuset.Clean
import SlurmSpank.Cpuset.Update

/-! # The loops of a clean-up

Rules for the two passes of `slurm_cpuset_clean`: the first one removes cpusets without tasks
and children, the second one updates the users that are left. Both work on a listing that was
read before, while the tree changes.
-/

namespace SlurmSpank.Cpuset

open Foundation Hierarchy

variable {machine : Machine} {calls : Calls} {conf : CpusetConf} {activity : Activity}
  {uid : BitVec 32} {size : Nat} {h h' : Cpusets} {dir : List Name} {name : Name}

/-! ## Removing cpusets -/

/-- The turn for a cpuset leaves the tree alone, or removes it as it has no tasks. -/
theorem cleanEntry_cases (hdir : dirOf (cpusetName dir) = dir) :
    cleanEntry activity h dir = h ∨
      Removed h (cleanEntry activity h dir) dir ∧ dir ≠ slurmDir ∧ activity.tasks dir = 0 := by
  have hname : cpusetPathToName (mountPoint ++ cpusetName dir) = cpusetName dir := List.drop_left
  have hrmdir : dir ≠ slurmDir → rmdirPath activity (cpusetName dir) h = h ∨
      Removed h (rmdirPath activity (cpusetName dir) h) dir ∧ dir ≠ slurmDir ∧
        activity.tasks dir = 0 := by
    intro hne
    rw [rmdirPath, hdir]
    cases hremove : h.rmdir (decide (0 < activity.tasks dir)) dir with
    | none => exact Or.inl rfl
    | some h' =>
        obtain ⟨hremoved, hidle⟩ := rmdir_eq_some hremove
        exact Or.inr ⟨hremoved, hne, Nat.eq_zero_of_not_pos (of_decide_eq_false hidle)⟩
  unfold cleanEntry
  split
  next hslurm =>
    have hne : dir ≠ slurmDir := by
      rintro rfl
      exact hslurm rfl
    simp only [slurmCpusetCleanPath, hname]
    split
    next =>
      split
      next => exact Or.inl rfl
      next => exact hrmdir hne
    next => exact hrmdir hne
  next => exact Or.inl rfl

theorem foldl_cleanEntry (holds : Cpusets → Prop)
    (hstep : ∀ h h' dir, holds h → Removed h h' dir → dir ≠ slurmDir → activity.tasks dir = 0 →
      holds h')
    {dirs : List (List Name)} (hdirs : ∀ dir ∈ dirs, dirOf (cpusetName dir) = dir)
    (hstart : holds h) : holds (dirs.foldl (cleanEntry activity) h) := by
  induction dirs generalizing h with
  | nil => exact hstart
  | cons dir rest ih =>
      refine ih (fun other hother => hdirs other (List.mem_cons_of_mem _ hother)) ?_
      rcases @cleanEntry_cases activity h dir (hdirs dir List.mem_cons_self) with
        hsame | ⟨hremoved, hne, hidle⟩
      · rwa [hsame]
      · exact hstep h _ dir hstart hremoved hne hidle

/-- What every removal keeps holds after the first pass. -/
theorem Canonical.firstPass (hlists : machine.Lists) (hcan : Canonical size h)
    (holds : Cpusets → Prop)
    (hstep : ∀ h h' dir, holds h → Removed h h' dir → dir ≠ slurmDir → activity.tasks dir = 0 →
      holds h')
    (hstart : holds h) : holds (cleanEntries machine activity h) := by
  refine foldl_cleanEntry holds hstep (fun dir hdir => ?_) hstart
  obtain ⟨hmem, hbelow⟩ := (hlists.walks h dir).mp (List.mem_reverse.mp hdir)
  exact hcan.dirOf_cpusetName hmem hbelow

/-! ## Updating the users -/

/-- An entry of `/slurm` is skipped, or it is the cpuset of a user. -/
theorem Canonical.entry_cases (hlists : machine.Lists) (hcan : Canonical size h)
    (hname : name ∈ machine.readdir h slurmDir) :
    str2int name < 0 ∨
      ∃ uid : BitVec 32, 0 ≤ uid.toInt ∧ name = printUid uid ∧ userDir uid ∈ h.dirs := by
  by_cases hdir : name :: slurmDir ∈ h.dirs
  · obtain ⟨uid, huid, rfl | rfl⟩ := hcan.user_name name hdir
    · exact Or.inr ⟨uid, huid, rfl, hdir⟩
    · rw [str2int_orphanName]
      exact Or.inl (by decide)
  · exact Or.inl (hlists.files h slurmDir name hname hdir)

theorem foldlM_updateEntry (hlists : machine.Lists) (hcalls : calls.Succeeds) {names : List Name}
    (holds : List Name → Cpusets → Prop) {known : BitVec 32 → Prop}
    (hnames : ∀ name ∈ names, str2int name < 0 ∨ ∃ uid : BitVec 32, 0 ≤ uid.toInt ∧
      name = printUid uid ∧ known uid)
    (hskip : ∀ done name h, holds done h → str2int name < 0 → holds (done ++ [name]) h)
    (hupdate : ∀ done uid h orphan placed h', Canonical machine.numa.cpumaskSize h →
      holds done h → 0 ≤ uid.toInt → known uid → Placed calls uid h orphan placed →
      UpdateEnds conf uid (refillCpus machine calls.query uid none orphan placed) placed h' →
      holds (done ++ [printUid uid]) h')
    {done : List Name} (hcan : Canonical machine.numa.cpumaskSize h) (hdone : holds done h) :
    ∃ h', names.foldlM (updateEntry machine calls conf) h = some h' ∧
      Canonical machine.numa.cpumaskSize h' ∧ holds (done ++ names) h' := by
  induction names generalizing done h with
  | nil => exact ⟨h, rfl, hcan, by rwa [List.append_nil]⟩
  | cons name rest ih =>
      obtain ⟨next, hnext, hcanNext, hholds⟩ : ∃ next,
          updateEntry machine calls conf h name = some next ∧
            Canonical machine.numa.cpumaskSize next ∧ holds (done ++ [name]) next := by
        rcases hnames name List.mem_cons_self with hneg | ⟨uid, huid, rfl, hknown⟩
        · exact ⟨h, if_pos hneg, hcan, hskip done name h hdone hneg⟩
        · obtain ⟨orphan, placed, next, hplaced, hcall, hends⟩ :=
            @Canonical.update machine calls conf uid h none hlists hcan hcalls huid (by simp)
          refine ⟨next, ?_, hcan.updated hlists hcalls huid hplaced hends, ?_⟩
          · have hread := str2int_printUid huid
            rw [updateEntry, if_neg (by omega), printUid_ofInt_str2int huid, hcall]
            rfl
          · exact hupdate done uid h orphan placed next hcan hdone huid hknown hplaced hends
      obtain ⟨h', hfold, hcan', hholds'⟩ := ih
        (fun other hother => hnames other (List.mem_cons_of_mem _ hother)) hcanNext hholds
      refine ⟨h', ?_, hcan', ?_⟩
      · rw [List.foldlM_cons, hnext]
        exact hfold
      · rwa [List.append_assoc] at hholds'

/-- The second pass returns, and what every update of a user found at the start keeps holds
after it. The predicate may depend on the entries that were dealt with. -/
theorem Canonical.secondPass (hlists : machine.Lists)
    (hcan : Canonical machine.numa.cpumaskSize h) (hcalls : calls.Succeeds)
    (holds : List Name → Cpusets → Prop)
    (hskip : ∀ done name now, holds done now → str2int name < 0 → holds (done ++ [name]) now)
    (hupdate : ∀ done uid now orphan placed next, Canonical machine.numa.cpumaskSize now →
      holds done now → 0 ≤ uid.toInt → userDir uid ∈ h.dirs → Placed calls uid now orphan placed →
      UpdateEnds conf uid (refillCpus machine calls.query uid none orphan placed) placed next →
      holds (done ++ [printUid uid]) next)
    (hstart : holds [] h) :
    ∃ h', updateUserCpusets machine calls conf h = some (0, h') ∧
      Canonical machine.numa.cpumaskSize h' ∧ holds (machine.readdir h slurmDir) h' := by
  obtain ⟨h', hloop, hcan', hholds⟩ := foldlM_updateEntry hlists hcalls holds
    (fun name hname => hcan.entry_cases hlists hname) hskip hupdate hcan hstart
  refine ⟨h', ?_, hcan', hholds⟩
  rw [updateUserCpusets, if_pos hcan.slurm_mem, hloop]
  rfl

end SlurmSpank.Cpuset
