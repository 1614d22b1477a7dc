import SlurmSpank.Overcommit.PolicyStep

/-! # The safety of the policy

Two jobs that are registered at the same time have asked for the same mode, as long as a job
gets in only by the file that has the name, and alone. A job that has opened the file before the
last user has removed it gets in by a file that no other job finds.
-/

namespace SlurmSpank.Overcommit

open Foundation

variable {labels : List (Nat × Event)} {c c' : System} {mode ratio : Int}

/-- Two jobs that are registered have asked for the same mode. -/
def PolicySafe (c : System) : Prop :=
  ∀ job ∈ c.locals, ∀ job' ∈ c.locals, job.pc.registered ≠ none → job'.pc.registered ≠ none →
    job.task.mode = job'.task.mode

/-- Jobs with their ids, modes and ratios. -/
def jobs (ids : List (Int × Int × Int × Int)) : List (Int × Int × Task) :=
  ids.map fun (jobid, stepid, mode, ratio) => (jobid, stepid, .use mode ratio)

theorem System.new_orderly (ids : List (Int × Int × Int × Int)) :
    (System.new mode ratio (jobs ids)).Orderly := by
  have hcount : ∀ holds : Proc → Bool, (∀ proc, proc.pc = .start → holds proc = false) →
      (System.new mode ratio (jobs ids)).count holds = 0 := by
    intro holds hstart
    refine List.countP_eq_zero.mpr fun proc hproc => ?_
    obtain ⟨p, hp⟩ := List.getElem?_of_mem hproc
    rw [hstart proc (System.new_locals hp).1]
    exact Bool.false_ne_true
  have hpc : ∀ (proc : Proc) (f : Nat), proc.pc = .start →
      decide (proc.pc.held = some f) = false ∧ decide (proc.pc.registered = some f) = false := by
    intro proc f hstart
    rw [hstart]
    exact ⟨rfl, rfl⟩
  refine ⟨fun f => ?_, fun f => ?_, fun p proc hp => ?_⟩
  · rw [System.holders, hcount _ fun proc hstart => (hpc proc f hstart).1]
    exact Nat.zero_le 1
  · rw [System.registrations, hcount _ fun proc hstart => (hpc proc f hstart).2]
    exact Int.le_refl 0
  · obtain ⟨hstart, hmem⟩ := System.new_locals hp
    obtain ⟨⟨jobid, stepid, mode, ratio⟩, -, heq⟩ := List.mem_map.mp hmem
    have htask : proc.task = .use mode ratio := (congrArg (·.2.2) heq).symm
    rw [hstart]
    exact ⟨mode, ratio, htask, .quiet rfl rfl fun _ _ h => (by cases h)⟩

theorem System.Orderly.policySafe (horderly : c.Orderly) : PolicySafe c := by
  intro job hjob job' hjob' hregistered hregistered'
  obtain ⟨p, hp⟩ := List.getElem?_of_mem hjob
  obtain ⟨q, hq⟩ := List.getElem?_of_mem hjob'
  obtain ⟨f, hf⟩ := Option.ne_none_iff_exists'.mp hregistered
  obtain ⟨g, hg⟩ := Option.ne_none_iff_exists'.mp hregistered'
  obtain ⟨mode, ratio, htask, hp⟩ := horderly.jobs p job hp
  obtain ⟨mode', ratio', htask', hq⟩ := horderly.jobs q job' hq
  obtain ⟨hlinked, hvalue⟩ := hp.registered f hf
  obtain ⟨hlinked', hvalue'⟩ := hq.registered g hg
  have hsame : f = g := Option.some_inj.mp (hlinked.symm.trans hlinked')
  rw [htask, htask', Task.mode, Task.mode, ← hvalue, ← hvalue', hsame]

/-- In a run of jobs whose steps are orderly, two jobs that are registered have asked for the
same mode. -/
theorem policy_safe {ids : List (Int × Int × Int × Int)}
    (hrun : Run (fun c label c' => SystemStep c label c' ∧ orderly c label.1 = true)
      (System.new mode ratio (jobs ids)) labels c') : PolicySafe c' := by
  have horderly : c'.Orderly ∧ c'.Opened := by
    induction hrun with
    | start => exact ⟨System.new_orderly ids, System.new_opened⟩
    | extend prior last ih => exact ⟨ih.1.step ih.2 last.1 last.2, ih.2.step last.1⟩
  exact horderly.1.policySafe

/-- The second job is refused, and the third one is registered with the first. -/
theorem policy_safe_three : ∃ labels c',
    Run (fun c label c' => SystemStep c label c' ∧ orderly c label.1 = true)
      (System.new 0 50 (jobs [(7, 0, 1, 90), (8, 0, 2, 90), (9, 0, 1, 90)])) labels c' ∧
    c'.locals.map Proc.pc = [.running 0, .dangling, .running 0] ∧ PolicySafe c' := by
  obtain ⟨labels, c', hrun, hpcs⟩ := Processes.exists_run_of_schedule Proc.step orderly
    (List.replicate 16 0 ++ List.replicate 11 1 ++ List.replicate 12 2)
    (System.new 0 50 (jobs [(7, 0, 1, 90), (8, 0, 2, 90), (9, 0, 1, 90)]))
    (fun _ c' => c'.locals.map Proc.pc = [.running 0, .dangling, .running 0]) (by decide +kernel)
  exact ⟨labels, c', hrun, hpcs, policy_safe hrun⟩

/-- The second job has opened the file before the first one removes it, and is registered there.
The third job finds no file and creates another one. -/
theorem policy_unsafe : ∃ labels c',
    Run SystemStep (System.new 0 50 (jobs [(7, 0, 1, 90), (8, 0, 2, 90), (9, 0, 1, 90)]))
      labels c' ∧
    c'.locals.map Proc.pc = [.done, .running 0, .running 1] ∧ ¬PolicySafe c' := by
  obtain ⟨labels, c', hrun, hpcs, hunsafe⟩ := Processes.exists_run_of_schedule Proc.step
    (fun _ _ => true)
    (List.replicate 16 0 ++ List.replicate 6 1 ++ List.replicate 7 0 ++ List.replicate 8 1 ++
      List.replicate 16 2)
    (System.new 0 50 (jobs [(7, 0, 1, 90), (8, 0, 2, 90), (9, 0, 1, 90)]))
    (fun _ c' => c'.locals.map Proc.pc = [.done, .running 0, .running 1] ∧
      ∃ job ∈ c'.locals, ∃ job' ∈ c'.locals, job.pc.registered ≠ none ∧
        job'.pc.registered ≠ none ∧ job.task.mode ≠ job'.task.mode) (by decide +kernel)
  refine ⟨labels, c', hrun.mono fun _ _ _ hstep => hstep.1, hpcs, fun hsafe => ?_⟩
  obtain ⟨job, hjob, job', hjob', hregistered, hregistered', hmode⟩ := hunsafe
  exact hmode (hsafe job hjob job' hjob' hregistered hregistered')

end SlurmSpank.Overcommit
