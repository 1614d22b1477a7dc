import SlurmSpank.Cpuset.Create

/-! # Accounting and the update of a user's cpuset

What the usage mask of a directory contains, and what one update of a user's cpuset does to
the tree: it puts the cpuset in place, and then refills it, moves it to the orphans or
leaves it alone.
-/

namespace SlurmSpank.Cpuset

open Foundation Hierarchy

variable {machine : Machine} {calls : Calls} {conf : CpusetConf} {uid : BitVec 32}
  {query : List Name → Bool} {h h' placed : Cpusets} {dir : List Name} {alloc : Option Bitmask}

/-! ## Accounting -/

/-- A CPU that the accounting finds in a child of a directory. -/
def CountedIn (query : List Name → Bool) (h : Cpusets) (dir : List Name) (cpu : Nat) : Prop :=
  ∃ name, skipped name = false ∧ name :: dir ∈ h.dirs ∧ query (name :: dir) = true ∧
    cpu ∈ h.items (name :: dir)

/-- One entry adds the CPUs of a child that the accounting looks at. -/
theorem usedCpusLoop_spec {size : Nat} {used : Bitmask} (hsize : used.size = size) (name : Name) :
    (usedCpusLoop size query h dir used name).size = size ∧
      ∀ cpu, cpu ∈ (usedCpusLoop size query h dir used name).bits ↔ cpu ∈ used.bits ∨
        cpu < size ∧ skipped name = false ∧ name :: dir ∈ h.dirs ∧ query (name :: dir) = true ∧
          cpu ∈ h.items (name :: dir) := by
  by_cases hfound : skipped name = false ∧ name :: dir ∈ h.dirs ∧ query (name :: dir) = true
  · obtain ⟨hskip, hdir, hquery⟩ := hfound
    have hloop : usedCpusLoop size query h dir used name =
        used.or (Bitmask.ofFinset size (h.items (name :: dir))) used := by
      simp [usedCpusLoop, hskip, hdir, hquery]
    rw [hloop]
    refine ⟨hsize, fun cpu => ?_⟩
    have hlt : cpu ∈ used.bits → cpu < size := fun hmem => hsize ▸ used.bits_lt cpu hmem
    simp only [Bitmask.or, Bitmask.mem_ofFinset, Finset.mem_union, hsize, hskip, hdir, hquery,
      true_and]
    tauto
  · have hloop : usedCpusLoop size query h dir used name = used := by
      unfold usedCpusLoop
      split
      · rfl
      · rw [if_pos]
        by_contra hother
        refine hfound ⟨by simp_all, ?_, ?_⟩
        · exact not_not.mp fun hnot => hother (Or.inl hnot)
        · exact Bool.not_eq_false _ ▸ fun hnot => hother (Or.inr (by simp [hnot]))
    rw [hloop]
    refine ⟨hsize, fun cpu => (or_iff_left fun hright => hfound ?_).symm⟩
    exact ⟨hright.2.1, hright.2.2.1, hright.2.2.2.1⟩

theorem foldl_usedCpusLoop {size : Nat} {used : Bitmask} (hsize : used.size = size)
    (names : List Name) :
    (names.foldl (usedCpusLoop size query h dir) used).size = size ∧
      ∀ cpu, cpu ∈ (names.foldl (usedCpusLoop size query h dir) used).bits ↔ cpu ∈ used.bits ∨
        ∃ name ∈ names, cpu < size ∧ skipped name = false ∧ name :: dir ∈ h.dirs ∧
          query (name :: dir) = true ∧ cpu ∈ h.items (name :: dir) := by
  induction names generalizing used with
  | nil => simp [hsize]
  | cons name rest ih =>
      obtain ⟨hstep, hbits⟩ := @usedCpusLoop_spec query h dir size used hsize name
      obtain ⟨hsize', hbits'⟩ := ih hstep
      refine ⟨hsize', fun cpu => ?_⟩
      rw [List.foldl_cons, hbits', hbits, or_assoc]
      simp [List.mem_cons]

/-- The usage mask of a directory holds the CPUs of its children and, unless it starts out
clear, those that the directory lacks. -/
theorem usedCpusBitmaskPath_spec (hlists : machine.Lists) {clearall : Bool} (hdir : dir ∈ h.dirs) :
    ∃ used, usedCpusBitmaskPath machine query h dir clearall = some used ∧
      used.size = machine.numa.cpumaskSize ∧
      ∀ cpu, cpu ∈ used.bits ↔ cpu < machine.numa.cpumaskSize ∧
        (clearall = false ∧ cpu ∉ (if query dir then h.items dir else ∅) ∨
          CountedIn query h dir cpu) := by
  obtain ⟨start, hstart⟩ : ∃ start, start = if !clearall then
      (Bitmask.alloc machine.numa.cpumaskSize).complement
        (Bitmask.ofFinset machine.numa.cpumaskSize (if query dir then h.items dir else ∅))
    else Bitmask.alloc machine.numa.cpumaskSize := ⟨_, rfl⟩
  have hsize : start.size = machine.numa.cpumaskSize := by
    rw [hstart]
    split <;> rfl
  have hbits : ∀ cpu, cpu ∈ start.bits ↔
      cpu < machine.numa.cpumaskSize ∧ clearall = false ∧
        cpu ∉ (if query dir then h.items dir else ∅) := by
    intro cpu
    rw [hstart]
    cases clearall
    · simp only [Bool.not_false, ↓reduceIte, Bitmask.complement, Bitmask.mem_ofFinset,
        Finset.mem_sdiff, Finset.mem_range, Bitmask.alloc_size, true_and]
      tauto
    · simp
  obtain ⟨hfold, hmem⟩ := @foldl_usedCpusLoop query h dir _ start hsize (machine.readdir h dir)
  refine ⟨_, ?_, hfold, fun cpu => ?_⟩
  · rw [usedCpusBitmaskPath, if_pos hdir, hstart]
  · rw [hmem, hbits]
    constructor
    · rintro (⟨hlt, hleft⟩ | ⟨name, -, hlt, hcounted⟩)
      · exact ⟨hlt, Or.inl hleft⟩
      · exact ⟨hlt, Or.inr ⟨name, hcounted⟩⟩
    · rintro ⟨hlt, hleft | ⟨name, hcounted⟩⟩
      · exact Or.inl ⟨hlt, hleft⟩
      · exact Or.inr ⟨name, hlists.lists h dir name hcounted.2.1, hlt, hcounted⟩

/-! ## Putting the cpuset in place -/

/-- The user's cpuset is in place: it was there, it was moved back from the orphans, which
the flag says, or it was made. -/
inductive Placed (calls : Calls) (uid : BitVec 32) (h : Cpusets) : Bool → Cpusets → Prop
  | kept (hmem : userDir uid ∈ h.dirs) : Placed calls uid h false h
  | restored {placed : Cpusets} (hflag : calls.unorphan = true)
      (hrenamed : Renamed h placed slurmDir (orphanName uid) (printUid uid)) :
      Placed calls uid h true placed
  | made {placed : Cpusets} (hnone : calls.unorphan = true → orphanDir uid ∉ h.dirs)
      (hcreated : Created h placed (printUid uid) slurmDir ∅) :
      Placed calls uid h false placed

theorem Placed.mem {orphan : Bool} (hplaced : Placed calls uid h orphan placed) :
    userDir uid ∈ placed.dirs := by
  cases hplaced with
  | kept hmem => exact hmem
  | restored _ hrenamed => exact hrenamed.new_mem
  | made _ hcreated => exact (hcreated.mem_dirs _).mpr (Or.inr rfl)

/-- An update fails before it changes anything, as the cpuset cannot be made, or it goes on
with the cpuset in place. -/
theorem userCpusetUpdate_cases :
    (userDir uid ∉ h.dirs ∧ (calls.mkdir = true → slurmDir ∉ h.dirs) ∧
      userCpusetUpdate machine calls conf uid alloc h = some (-1, h)) ∨
    ∃ orphan placed, Placed calls uid h orphan placed ∧
      userCpusetUpdate machine calls conf uid alloc h =
        userCpusetRefill machine calls conf uid alloc orphan placed := by
  cases hrename : (if calls.unorphan then h.rename slurmDir (orphanName uid) (printUid uid)
      else none) with
  | some placed =>
      have hflag : calls.unorphan = true := by
        by_contra hoff
        rw [if_neg hoff] at hrename
        cases hrename
      rw [if_pos hflag] at hrename
      refine Or.inr ⟨true, placed, .restored hflag (rename_eq_some hrename), ?_⟩
      simp [userCpusetUpdate, userCpusetUnorphan, hflag, hrename]
  | none =>
      have hupdate : userCpusetUpdate machine calls conf uid alloc h =
          if (userCpusetCreate calls uid h).1 < 0 then some (-1, (userCpusetCreate calls uid h).2)
          else userCpusetRefill machine calls conf uid alloc false
            (userCpusetCreate calls uid h).2 := by
        simp [userCpusetUpdate, userCpusetUnorphan, hrename]
      rw [hupdate]
      by_cases hmem : userDir uid ∈ h.dirs
      · have hcreate : userCpusetCreate calls uid h = (0, h) := if_pos hmem
        refine Or.inr ⟨false, h, .kept hmem, ?_⟩
        rw [hcreate, if_neg (by simp)]
      · cases hmkdir : (if calls.mkdir then h.mkdir (printUid uid) slurmDir else none) with
        | none =>
            have hcreate : userCpusetCreate calls uid h = (-1, h) := by
              simp only [userCpusetCreate, if_neg hmem, hmkdir]
            refine Or.inl ⟨hmem, fun hflag hslurm => ?_, ?_⟩
            · obtain ⟨h'', hsome⟩ := create_isSome hslurm hmem (Finset.empty_subset _)
              rw [if_pos hflag, mkdir, hsome] at hmkdir
              cases hmkdir
            · rw [hcreate, if_pos (by simp)]
        | some placed =>
            have hcreate : userCpusetCreate calls uid h = (0, placed) := by
              simp only [userCpusetCreate, if_neg hmem, hmkdir]
            have hcreated : Created h placed (printUid uid) slurmDir ∅ := by
              split at hmkdir
              · exact create_eq_some hmkdir
              · cases hmkdir
            refine Or.inr ⟨false, placed, .made (fun hflag horphan => ?_) hcreated, ?_⟩
            · obtain ⟨h'', hsome⟩ := rename_isSome horphan hmem
              rw [if_pos hflag, hsome] at hrename
              cases hrename
            · rw [hcreate, if_neg (by simp)]

/-! ## Refilling it -/

/-- The CPUs that an update collects for the user: those of its jobs, unless it was an
orphan, and those to be added. -/
def refillCpus (machine : Machine) (query : List Name → Bool) (uid : BitVec 32)
    (alloc : Option Bitmask)
    (orphan : Bool) (h : Cpusets) : Finset Nat :=
  (if orphan then ∅
    else ((usedCpusBitmaskPath machine query h (userDir uid) true).map Bitmask.bits).getD ∅) ∪
  (alloc.map Bitmask.bits).getD ∅

theorem subset_refillCpus {orphan : Bool} : (alloc.map Bitmask.bits).getD ∅ ⊆
    refillCpus machine query uid alloc orphan h := Finset.subset_union_right

/-- An update collects the CPUs of the user's jobs, unless the user was an orphan, and those
to be added. -/
theorem mem_refillCpus (hlists : machine.Lists) {orphan : Bool} (hmem : userDir uid ∈ h.dirs)
    (cpu : Nat) : cpu ∈ refillCpus machine query uid alloc orphan h ↔
      orphan = false ∧ cpu < machine.numa.cpumaskSize ∧ CountedIn query h (userDir uid) cpu ∨
        cpu ∈ (alloc.map Bitmask.bits).getD ∅ := by
  obtain ⟨used, hused, -, hbits⟩ := @usedCpusBitmaskPath_spec machine query h (userDir uid) hlists
    true hmem
  rw [refillCpus, hused, Finset.mem_union]
  apply or_congr_left
  cases orphan
  · simp [hbits]
  · simp

/-- A cpuset that was just put in place has no jobs to collect CPUs from. -/
theorem Placed.refillCpus_eq (hlists : machine.Lists) {orphan : Bool}
    (hplaced : Placed calls uid h orphan placed) (hmem : userDir uid ∉ h.dirs) :
    refillCpus machine query uid alloc orphan placed = (alloc.map Bitmask.bits).getD ∅ := by
  ext cpu
  rw [mem_refillCpus hlists hplaced.mem]
  apply or_iff_right
  cases hplaced with
  | kept hkept => exact absurd hkept hmem
  | restored _ _ => simp
  | made _ hcreated =>
      rintro ⟨-, -, name, -, hchild, -⟩
      rcases (hcreated.mem_dirs _).mp hchild with hold | hself
      · exact hmem (h.parent_mem _ _ hold)
      · exact absurd (congrArg List.length hself) (by simp [userDir])

/-- Once the cpuset is in place, an update acts on the CPUs collected. -/
theorem userCpusetRefill_eq (hlists : machine.Lists) {orphan : Bool}
    (hmem : userDir uid ∈ placed.dirs)
    (halloc : ∀ mask ∈ alloc, mask.size = machine.numa.cpumaskSize) :
    userCpusetRefill machine calls conf uid alloc orphan placed =
      if refillCpus machine calls.query uid alloc orphan placed = ∅ then
        some (0, if conf.killOrphans then placed else userCpusetOrphan calls uid placed)
      else if calls.buildUser then
        modifyLoop calls uid (refillCpus machine calls.query uid alloc orphan placed) placed
      else some (-1, placed) := by
  obtain ⟨used, hused, hsize, -⟩ := @usedCpusBitmaskPath_spec machine calls.query placed
    (userDir uid) hlists true hmem
  obtain ⟨mask, hmask⟩ : ∃ mask, mask =
    addAlloc (if orphan then used.clearall else used) alloc := ⟨_, rfl⟩
  have hbits : mask.bits = refillCpus machine calls.query uid alloc orphan placed := by
    have hstart : (if orphan then used.clearall else used).bits =
        if orphan then ∅ else used.bits := by
      split <;> rfl
    have hstartSize : (if orphan then used.clearall else used).size = used.size := by
      split <;> rfl
    rw [hmask, refillCpus, hused]
    cases alloc with
    | none => simp [addAlloc, hstart]
    | some alloc =>
        have hfit := halloc alloc rfl
        simp only [addAlloc, Bitmask.or, hstartSize, hstart, Option.map_some, Option.getD_some]
        refine Bitmask.ofFinset_bits_of_lt fun cpu hcpu => ?_
        rcases Finset.mem_union.mp hcpu with hleft | hright
        · split at hleft
          · exact absurd hleft (Finset.notMem_empty cpu)
          · exact used.bits_lt cpu hleft
        · rw [hsize, ← hfit]
          exact alloc.bits_lt cpu hright
  have hweight : mask.weight = 0 ↔ mask.bits = ∅ := Finset.card_eq_zero
  rw [userCpusetRefill, hused]
  simp only [← hmask, hweight, hbits, doCpusetCreate]
  split
  · rfl
  · by_cases hbuild : calls.buildUser = true <;> simp [hbuild]

/-- Setting the CPUs fails without a change, or sets them. -/
theorem modifyLoop_cases {set : Finset Nat} {rc : Int}
    (hloop : modifyLoop calls uid set placed = some (rc, h')) :
    rc = -1 ∧ h' = placed ∨ rc = 0 ∧ Modified placed h' (printUid uid) slurmDir set := by
  unfold modifyLoop at hloop
  split at hloop
  next =>
    obtain ⟨rfl, rfl⟩ := Prod.mk.inj (Option.some.inj hloop)
    exact Or.inl ⟨rfl, rfl⟩
  next =>
    split at hloop
    next => cases hloop
    next =>
      split at hloop
      next =>
        obtain ⟨rfl, rfl⟩ := Prod.mk.inj (Option.some.inj hloop)
        exact Or.inl ⟨rfl, rfl⟩
      next h'' hmodify =>
        obtain ⟨rfl, rfl⟩ := Prod.mk.inj (Option.some.inj hloop)
        exact Or.inr ⟨rfl, modify_eq_some hmodify⟩

/-- Setting CPUs that fit between those of the jobs and those of `/slurm` succeeds. -/
theorem modifyLoop_of_fits {set : Finset Nat} (hmodify : calls.modify = true)
    (hmem : userDir uid ∈ placed.dirs) (hsubset : set ⊆ placed.items slurmDir)
    (hchildren : ∀ name, name :: userDir uid ∈ placed.dirs →
      placed.items (name :: userDir uid) ⊆ set) :
    ∃ h', modifyLoop calls uid set placed = some (0, h') := by
  obtain ⟨h', hsome⟩ := modify_isSome hmem hsubset hchildren
  refine ⟨h', ?_⟩
  have hbusy : ((placed.children (userDir uid)).any fun child =>
      !decide (placed.items (child :: userDir uid) ⊆ set)) = false := by
    rw [List.any_eq_false]
    intro child hchild
    simpa using hchildren child (mem_children.mp hchild)
  rw [modifyLoop, hbusy, hmodify, hsome]
  rfl

/-- How an update ends once the cpuset is in place: without CPUs to give to the user it
leaves the cpuset alone or moves it to the orphans, and otherwise it sets them or fails. -/
theorem userCpusetRefill_cases (hlists : machine.Lists) {orphan : Bool} {rc : Int}
    (hmem : userDir uid ∈ placed.dirs)
    (halloc : ∀ mask ∈ alloc, mask.size = machine.numa.cpumaskSize)
    (hrefill : userCpusetRefill machine calls conf uid alloc orphan placed = some (rc, h')) :
    (refillCpus machine calls.query uid alloc orphan placed = ∅ ∧ rc = 0 ∧
      h' = if conf.killOrphans then placed else userCpusetOrphan calls uid placed) ∨
    refillCpus machine calls.query uid alloc orphan placed ≠ ∅ ∧
      (rc = -1 ∧ h' = placed ∨ rc = 0 ∧ Modified placed h' (printUid uid) slurmDir
        (refillCpus machine calls.query uid alloc orphan placed)) := by
  rw [userCpusetRefill_eq hlists hmem halloc] at hrefill
  split at hrefill
  next hempty =>
    obtain ⟨rfl, rfl⟩ := Prod.mk.inj (Option.some.inj hrefill)
    exact Or.inl ⟨hempty, rfl, rfl⟩
  next hfill =>
    refine Or.inr ⟨hfill, ?_⟩
    split at hrefill
    · exact modifyLoop_cases hrefill
    · obtain ⟨rfl, rfl⟩ := Prod.mk.inj (Option.some.inj hrefill)
      exact Or.inl ⟨rfl, rfl⟩

end SlurmSpank.Cpuset
