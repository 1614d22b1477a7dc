import SlurmSpank.Cpuset.CreateOutcome
import SlurmSpank.Cpuset.NodemapRun

/-! # Which calls of `create_cpuset` are all or nothing

A call should either create the job's cpuset, with the CPUs granted and inside the user's
cpuset, or fail and leave the user's cpuset with the CPUs it had. When `cpuset_create` is
called the user's cpuset has been changed already, and nothing undoes that; moreover the
result of a failed call is what an unset variable holds.
-/

namespace SlurmSpank.Cpuset

open Foundation Hierarchy

variable {machine : Machine} {calls : Calls} {fuel : Nat} {conf : CpusetConf}
  {id uid : BitVec 32} {ncpus : Int} {h h' before placed : Cpusets} {alloc : Bitmask}
  {map : Nodemap}

/-! ## The user's cpuset when `cpuset_create` is called -/

/-- What becomes of the user's cpuset is settled when it is in place. -/
theorem Placed.orphans_iff (hlists : machine.Lists) {orphan : Bool}
    (hplaced : Placed calls uid h orphan placed) :
    Orphans machine calls conf uid alloc h ↔
      refillCpus machine calls.query uid (some alloc) orphan placed = ∅ ∧
        conf.killOrphans = false ∧ calls.orphan = true ∧ orphanDir uid ∉ placed.dirs := by
  by_cases hmem : userDir uid ∈ h.dirs
  · cases hplaced with
    | kept _ =>
        have hempty : refillCpus machine calls.query uid (some alloc) false h = ∅ →
            alloc.bits = ∅ := fun heq => Finset.subset_empty.mp (heq ▸ Finset.subset_union_right)
        rw [Orphans, if_pos hmem]
        tauto
    | restored _ hrenamed => exact absurd hmem hrenamed.fresh
    | made _ hcreated => exact absurd hmem hcreated.fresh
  · have hfree : (orphanDir uid ∈ h.dirs → calls.unorphan = true) ↔
        orphanDir uid ∉ placed.dirs := by
      cases hplaced with
      | kept hkept => exact absurd hkept hmem
      | restored hflag hrenamed => exact iff_of_true (fun _ => hflag) hrenamed.old_notMem
      | made hnone hcreated =>
          have hsame : orphanDir uid ∈ placed.dirs ↔ orphanDir uid ∈ h.dirs := by
            rw [hcreated.mem_dirs]
            exact or_iff_left (orphanDir_ne_userDir uid uid)
          rw [hsame]
          exact ⟨fun hflag horphan => hnone (hflag horphan) horphan, fun hnot horphan =>
            absurd horphan hnot⟩
    rw [Orphans, if_neg hmem, hplaced.refillCpus_eq hlists hmem, hfree]
    rfl

/-- The user's cpuset, as it is when `cpuset_create` is called for the job: unless it was
moved to the orphans it holds the CPUs granted, and if it was there before it has its old
CPUs or those collected for the user. -/
theorem Reaches.user (hlists : machine.Lists) (huid : 0 ≤ uid.toInt)
    (hreaches : Reaches machine calls fuel conf uid ncpus h map alloc before) :
    (userDir uid ∈ before.dirs ↔ ¬ Orphans machine calls conf uid alloc h) ∧
      (¬ Orphans machine calls conf uid alloc h → alloc.bits ⊆ before.items (userDir uid) ∧
        (userDir uid ∈ h.dirs → before.items (userDir uid) =
          if refillCpus machine calls.query uid (some alloc) false h = ∅ then
            h.items (userDir uid)
          else refillCpus machine calls.query uid (some alloc) false h)) := by
  have hupdated := hreaches.updated
  rw [if_pos huid] at hupdated
  obtain ⟨rc, hrc, hupdate⟩ := hupdated
  rcases @userCpusetUpdate_cases machine calls conf uid h (some alloc) with
    ⟨-, -, hfailed⟩ | ⟨orphan, placed, hplaced, hrefill⟩
  · rw [hfailed] at hupdate
    obtain ⟨rfl, -⟩ := Prod.mk.inj (Option.some.inj hupdate)
    omega
  rw [hrefill] at hupdate
  have hsize : ∀ mask ∈ some alloc, mask.size = machine.numa.cpumaskSize := fun mask hmask =>
    Option.some.inj hmask ▸ hreaches.size_eq hlists
  have hkept : userDir uid ∈ h.dirs → orphan = false ∧ placed = h := by
    intro hmem
    cases hplaced with
    | kept _ => exact ⟨rfl, rfl⟩
    | restored _ hrenamed => exact absurd hmem hrenamed.fresh
    | made _ hcreated => exact absurd hmem hcreated.fresh
  have horphans := @Placed.orphans_iff machine calls conf uid h placed alloc hlists orphan hplaced
  have hsub : alloc.bits ⊆ refillCpus machine calls.query uid (some alloc) orphan placed :=
    Finset.subset_union_right
  -- With no CPU left the cpuset is orphaned or stays; otherwise it is filled again.
  rcases userCpusetRefill_cases hlists hplaced.mem hsize hupdate with
    ⟨hempty, -, hbefore⟩ | ⟨hfill, ⟨hneg, -⟩ | ⟨-, hmodified⟩⟩
  · have hbits : alloc.bits = ∅ := Finset.subset_empty.mp (hempty ▸ hsub)
    have hstays : (userDir uid ∈ before.dirs ↔ ¬ Orphans machine calls conf uid alloc h) ∧
        (¬ Orphans machine calls conf uid alloc h → before = placed) := by
      rw [horphans, hbefore]
      by_cases hkill : conf.killOrphans = true
      · rw [if_pos hkill]
        exact ⟨iff_of_true hplaced.mem (by simp [hkill]), fun _ => rfl⟩
      · rw [if_neg hkill, userCpusetOrphan_mem hplaced.mem]
        simp only [hempty, Bool.not_eq_true _ ▸ hkill, true_and]
        exact userCpusetOrphan_of_not
    refine ⟨hstays.1, fun hnot => ?_⟩
    obtain rfl := hstays.2 hnot
    refine ⟨by simp [hbits], fun hmem => ?_⟩
    obtain ⟨rfl, rfl⟩ := hkept hmem
    rw [if_pos hempty]
  · omega
  · rw [horphans]
    have hmem : userDir uid ∈ before.dirs := hmodified.dirs_eq ▸ hplaced.mem
    refine ⟨iff_of_true hmem (fun hall => hfill hall.1), fun _ => ?_⟩
    rw [userDir, hmodified.items_self]
    refine ⟨hsub, fun hold => ?_⟩
    obtain ⟨rfl, rfl⟩ := hkept hold
    rw [if_neg hfill]

/-! ## All or nothing -/

/-- The user's cpuset is in place with the CPUs granted when the job's is created. -/
def KeepsUser (machine : Machine) (calls : Calls) (conf : CpusetConf) (uid : BitVec 32)
    (alloc : Bitmask) (h : Cpusets) : Prop :=
  if uid.toInt ≥ 0 then ¬ Orphans machine calls conf uid alloc h
  else userDir uid ∈ h.dirs ∧ alloc.bits ⊆ h.items (userDir uid)

/-- The user's cpuset, if it was there before, still has the CPUs it had. -/
def KeepsCpus (machine : Machine) (calls : Calls) (conf : CpusetConf) (uid : BitVec 32)
    (alloc : Bitmask) (h : Cpusets) : Prop :=
  userDir uid ∈ h.dirs → uid.toInt ≥ 0 → ¬ Orphans machine calls conf uid alloc h ∧
    (refillCpus machine calls.query uid (some alloc) false h = ∅ ∨
      refillCpus machine calls.query uid (some alloc) false h = h.items (userDir uid))

/-- What has to be the case when `cpuset_create` is called for the job. If it succeeds, the
structure must have been built (or no CPU granted), and the user's cpuset must be in place.
If it fails with the unset variable negative, the user's cpuset must not have been changed;
if it fails with the variable not negative, the job's cpuset must have been there already. -/
def AllOrNothing (machine : Machine) (calls : Calls) (conf : CpusetConf) (id uid : BitVec 32)
    (alloc : Bitmask) (h before : Cpusets) : Prop :=
  if (calls.createJob id uid alloc before).isSome then
    (calls.buildJob = true ∨ alloc.bits = ∅) ∧
      (KeepsUser machine calls conf uid alloc h ∨ calls.jobDir id uid = userDir uid)
  else if calls.staleRc < 0 then KeepsCpus machine calls conf uid alloc h
  else calls.jobDir id uid ∈ before.dirs ∧ before.items (calls.jobDir id uid) = alloc.bits ∧
    KeepsUser machine calls conf uid alloc h

/-- A machine with four CPUs on two nodes. -/
def twoNodesMachine : Machine := Machine.plain (twoNodes {0, 1} {2, 3})

end SlurmSpank.Cpuset
