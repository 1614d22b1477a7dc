import SlurmSpank.Overcommit.RestoreStep

/-! # The settings of the kernel are restored

When no job is registered, the mode and the ratio are those that there have been, as long as the
mode has been 0, a cleanup finds the file, and each job takes its own entry from the table. The
mode is not saved, and a cleanup that creates the file takes the ratio 0 that is in it.
-/

namespace SlurmSpank.Overcommit

open Foundation

variable {mode₀ ratio₀ : Int} {n n' : Node} {p q f g : Nat} {proc : Proc} {event : Event}
  {pc pc' : Pc} {task : Task} {c c' : System} {label : Nat × Event} {e : JobInfo}

/-- Steps that leave the table alone, and a job registered where it is. -/
theorem Proc.table (hopened : n.Opened) (hmove : proc.move p n = some (event, n', pc'))
    (hmapped : ∀ f, proc.pc = .mapped f → (n.files f).info = .zero)
    (hregistering : ∀ f, proc.pc ≠ .registering f)
    (hunregistering : ∀ f, proc.pc ≠ .unregistering f) :
    (∀ g, (n'.files g).info.users = (n.files g).info.users ∧
      (n'.files g).info.nusers = (n.files g).info.nusers) ∧
    (proc.task.mode ≠ none → pc'.registered = proc.pc.registered) := by
  have hkeep : ∀ {n' : Node} {pc' : Pc}, (∀ g, (n'.files g).info = (n.files g).info) →
      pc'.registered = proc.pc.registered →
      (∀ g, (n'.files g).info.users = (n.files g).info.users ∧
        (n'.files g).info.nusers = (n.files g).info.nusers) ∧
      (proc.task.mode ≠ none → pc'.registered = proc.pc.registered) := by
    intro n' pc' hinfo hregistered
    refine ⟨fun g => ?_, fun _ => hregistered⟩
    rw [hinfo]
    exact ⟨rfl, rfl⟩
  have hwriteInfo : ∀ {f : Nat} {info : SharedInfo} {pc' : Pc},
      info.users = (n.files f).info.users → info.nusers = (n.files f).info.nusers →
      pc'.registered = proc.pc.registered →
      (∀ g, ((n.writeInfo f info).files g).info.users = (n.files g).info.users ∧
        ((n.writeInfo f info).files g).info.nusers = (n.files g).info.nusers) ∧
      (proc.task.mode ≠ none → pc'.registered = proc.pc.registered) := by
    intro f info pc' husers hnusers hregistered
    refine ⟨fun g => ?_, fun _ => hregistered⟩
    by_cases hg : g = f
    · subst hg
      rw [Node.writeInfo_info]
      exact ⟨husers, hnusers⟩
    · rw [Node.writeInfo, Node.write_files_of_ne _ _ _ hg]
      exact ⟨rfl, rfl⟩
  -- One case for each place: nothing is written, or a field other than the table.
  obtain ⟨jobid, stepid, task, pc⟩ := proc
  cases pc with
  | start =>
      simp only [Proc.move] at hmove
      split at hmove
      next =>
        cases hmove
        exact hkeep (fun _ => rfl) rfl
      next =>
        cases hmove
        exact hkeep (fun _ => rfl) rfl
      next =>
        cases hmove
        exact hkeep (fun g => by rw [hopened.create_files]) rfl
      next =>
        cases hmove
        exact hkeep (fun _ => rfl) rfl
  | reopening =>
      simp only [Proc.move] at hmove
      split at hmove
      next =>
        cases hmove
        exact hkeep (fun _ => rfl) rfl
      next =>
        cases hmove
        exact hkeep (fun _ => rfl) rfl
  | opened f =>
      cases hmove
      unfold Node.getWriteLock
      split
      next => exact hkeep (write_info rfl) rfl
      next => exact hkeep (fun _ => rfl) rfl
  | sized f initialized =>
      cases initialized with
      | true =>
          cases hmove
          exact hkeep (fun _ => rfl) rfl
      | false =>
          cases hmove
          exact hkeep (write_info rfl) rfl
  | mapped f =>
      have hinfo := hmapped f rfl
      cases hmove
      refine hkeep (write_info ?_) rfl
      rw [hinfo, SharedInfo.cleared_zero]
  | zeroed f =>
      cases hmove
      exact hkeep (write_info rfl) rfl
  | prepared f =>
      cases hmove
      unfold Node.releaseLock
      split
      next => exact hkeep (write_info rfl) rfl
      next => exact hkeep (fun _ => rfl) rfl
  | waiting f | running f =>
      obtain ⟨_, hwait, hresult⟩ := Option.map_eq_some_iff.mp hmove
      cases hresult
      exact hkeep (Node.Same.semWait hwait).info rfl
  | inside f =>
      cases hmove
      refine ⟨fun _ => ⟨rfl, rfl⟩, fun hmode => ?_⟩
      cases task with
      | use mode ratio =>
          simp only [Proc.enter]
          split
          next => rfl
          next =>
            split
            next => rfl
            next => rfl
      | cleanup => exact absurd rfl hmode
      | list => exact absurd rfl hmode
  | choosing f =>
      cases task with
      | use mode ratio =>
          cases hmove
          exact hwriteInfo rfl rfl rfl
      | _ => cases hmove
  | recording f =>
      cases hmove
      exact hwriteInfo rfl rfl rfl
  | registering f => exact absurd rfl (hregistering f)
  | posting f rc =>
      cases rc with
      | _ =>
          cases hmove
          exact hkeep (write_info rfl) rfl
  | settingMode f =>
      obtain ⟨rfl, mode, ratio, -, ⟨rfl, rfl⟩ | ⟨rfl, rfl⟩⟩ := Proc.move_settingMode rfl hmove
      · exact hkeep (fun _ => rfl) rfl
      · exact hkeep (fun _ => rfl) rfl
  | settingRatio f =>
      cases task with
      | use mode ratio =>
          cases hmove
          exact hkeep (fun _ => rfl) rfl
      | _ => cases hmove
  | unregistering f => exact absurd rfl (hunregistering f)
  | destroying f refused =>
      cases hmove
      refine hkeep (fun _ => rfl) ?_
      split
      next => rfl
      next => rfl
  | unlinking f refused | resettingRatio f refused =>
      cases hmove
      exact hkeep (fun _ => rfl) rfl
  | resettingMode f refused =>
      cases hmove
      refine hkeep (fun _ => ?_) rfl
      split
      next => rfl
      next => rfl
  | releasing f refused =>
      cases hmove
      refine hkeep (write_info rfl) ?_
      cases refused with
      | _ => rfl
  | attempted f | resized f | dangling =>
      cases hmove
      exact hkeep (fun _ => rfl) rfl
  | done | crashed => cases hmove

/-! ## Runs -/

/-- Whether a job has an entry in the table of a file, as far as the job knows. -/
def Proc.occupies (f : Nat) (e : JobInfo) (proc : Proc) : Bool :=
  proc.pc.registered = some f && proc.task.mode ≠ none && proc.entry = e

/-- The jobs that may have an entry. -/
def System.occupants (f : Nat) (e : JobInfo) (c : System) : Nat := c.count (·.occupies f e)

/-- All processes are between two operations. -/
def AtRest (c : System) : Prop := ∀ proc ∈ c.locals, proc.pc.resting = true

/-- Whether a job runs that has an entry in the table. -/
def Proc.isRegistered (n : Node) (proc : Proc) : Bool :=
  match proc.pc with
  | .running f => (n.files f).info.users.contains proc.entry
  | _ => false

/-- No job is registered. -/
def NoneRegistered (c : System) : Prop :=
  ∀ job ∈ c.locals, job.isRegistered c.shared = false

instance (c : System) : Decidable (AtRest c) :=
  inferInstanceAs (Decidable (∀ proc ∈ c.locals, proc.pc.resting = true))

instance (c : System) : Decidable (NoneRegistered c) :=
  inferInstanceAs (Decidable (∀ job ∈ c.locals, job.isRegistered c.shared = false))

/-- What the steps of complete operations keep: the users are counted, each entry is that of a
job, and the process that is at work finds what it relies on. -/
structure System.Restoring (mode₀ ratio₀ : Int) (c : System) : Prop where
  opened : c.Opened
  tabled : ∀ f, (c.shared.files f).info.Tabled
  entries : ∀ f e, e.used = true → (c.shared.files f).info.users.count e ≤ c.occupants f e
  settled : AtRest c → c.shared.Settled mode₀ ratio₀
  doing : ∀ (p : Nat) (proc : Proc), c.locals[p]? = some proc → alone c p = true →
    Doing mode₀ ratio₀ c.shared proc.task proc.pc

theorem System.new_restoring (procs : List (Int × Int × Task)) :
    (System.new mode₀ ratio₀ procs).Restoring mode₀ ratio₀ := by
  have hsettled : (System.new mode₀ ratio₀ procs).shared.Settled mode₀ ratio₀ :=
    ⟨fun g hg => absurd hg (Nat.not_lt_zero g), fun f hf => (by cases hf), fun _ => ⟨rfl, rfl⟩⟩
  refine ⟨System.new_opened, fun f => SharedInfo.zero_tabled, fun f e hused => ?_,
    fun _ => hsettled, fun p proc hp _ => ?_⟩
  · have hcount : SharedInfo.zero.users.count e = 0 := by
      refine List.count_eq_zero.mpr fun he => ?_
      rw [List.eq_of_mem_replicate he] at hused
      cases hused
    exact le_of_eq_of_le hcount (Nat.zero_le _)
  · rw [(System.new_locals hp).1]
    exact hsettled

theorem doing_of_resting (hresting : pc.resting = true)
    (hdoing : Doing mode₀ ratio₀ n task pc) : n.Settled mode₀ ratio₀ := by
  cases pc with
  | start | done | dangling | crashed => exact hdoing
  | running f => exact hdoing.1
  | _ => cases hresting

theorem doing_of_settled (hresting : pc.resting = true) (hsettled : n.Settled mode₀ ratio₀)
    (hfile : ∀ f, pc.file = some f → f < n.created) : Doing mode₀ ratio₀ n task pc := by
  cases pc with
  | start | done | dangling | crashed => exact hsettled
  | running f => exact ⟨hsettled, hfile f rfl⟩
  | _ => cases hresting

/-- The process at work finds what it relies on at the next place. -/
theorem System.Restoring.next (hrestoring : c.Restoring mode₀ ratio₀)
    (hlocal : c.locals[p]? = some proc) (halone : alone c p = true)
    (hallowed : restores mode₀ c p = true) (hmove : proc.move p c.shared = some (event, n', pc')) :
    Doing mode₀ ratio₀ n' proc.task pc' := by
  have hdoing := hrestoring.doing p proc hlocal halone
  rw [restores, hlocal] at hallowed
  by_cases hstart : proc.pc = .start
  · rw [hstart] at hdoing
    refine Doing.start hdoing hrestoring.opened.shared hstart (fun htask => ?_) hmove
    simpa [hstart, htask] using hallowed
  · cases hworks : proc.pc.works with
    | none => exact hdoing.opening hrestoring.opened.shared hworks hstart hmove
    | some f =>
        refine hdoing.working hrestoring.opened.shared hrestoring.tabled hworks
          (fun refused hpc => ?_) hmove
        simpa [hpc] using hallowed

/-- A step keeps what complete operations rely on, if it does so with the tables. -/
theorem System.Restoring.of_step (hrestoring : c.Restoring mode₀ ratio₀)
    (hopened : System.Opened ⟨n', c.locals.set p { proc with pc := pc' }⟩)
    (hlocal : c.locals[p]? = some proc) (halone : alone c p = true)
    (hpc' : Doing mode₀ ratio₀ n' proc.task pc')
    (htabled : ∀ f, (n'.files f).info.Tabled)
    (hentries : ∀ f e, e.used = true → (n'.files f).info.users.count e = 0 ∨
      (n'.files f).info.users.count e + (proc.occupies f e).toNat ≤
        (c.shared.files f).info.users.count e +
          (Proc.occupies f e { proc with pc := pc' }).toNat) :
    System.Restoring mode₀ ratio₀ ⟨n', c.locals.set p { proc with pc := pc' }⟩ := by
  have hself : (c.locals.set p { proc with pc := pc' })[p]? = some { proc with pc := pc' } := by
    rw [List.getElem?_set_self (List.getElem?_eq_some_iff.mp hlocal).1]
  refine ⟨hopened, htabled, fun f e hused => ?_, fun hrest => ?_, fun q k hq hq' => ?_⟩
  · have hcount : System.occupants f e ⟨n', c.locals.set p { proc with pc := pc' }⟩ +
        (proc.occupies f e).toNat =
        c.occupants f e + (Proc.occupies f e { proc with pc := pc' }).toNat :=
      Processes.count_set _ hlocal n'
    have hbefore := hrestoring.entries f e hused
    rcases hentries f e hused with hzero | hle
    · exact le_of_eq_of_le hzero (Nat.zero_le _)
    · show (n'.files f).info.users.count e ≤ _
      omega
  · exact doing_of_resting (hrest _ (List.mem_of_getElem? hself)) hpc'
  · rcases Processes.of_locals_set hq with ⟨rfl, rfl⟩ | ⟨hne, hq⟩
    · exact hpc'
    · -- Another process rests, and so does this one when the other one may go on.
      have hk : k.pc.resting = true := List.all_eq_true.mp halone k
        (List.mem_eraseIdx_iff_getElem?.mpr ⟨q, hne, hq⟩)
      have hpc : pc'.resting = true := List.all_eq_true.mp hq' { proc with pc := pc' }
        (List.mem_eraseIdx_iff_getElem?.mpr ⟨p, hne.symm, hself⟩)
      exact doing_of_settled hk (doing_of_resting hpc hpc') (hopened.locals q k (by
        rw [List.getElem?_set_ne hne.symm]
        exact hq))

/-- A step that leaves the tables alone keeps them, and who has an entry there. -/
theorem Proc.table_kept (hopened : n.Opened) (hmove : proc.move p n = some (event, n', pc'))
    (hmapped : ∀ f, proc.pc = .mapped f → (n.files f).info = .zero)
    (hregistering : ∀ f, proc.pc ≠ .registering f)
    (hunregistering : ∀ f, proc.pc ≠ .unregistering f) (htabled : (n.files g).info.Tabled) :
    (n'.files g).info.Tabled ∧
      (n'.files g).info.users.count e + (proc.occupies g e).toNat =
        (n.files g).info.users.count e +
          (Proc.occupies g e { proc with pc := pc' }).toNat := by
  obtain ⟨hsame, hregistered⟩ :=
    Proc.table hopened hmove hmapped hregistering hunregistering
  obtain ⟨husers, hnusers⟩ := hsame g
  refine ⟨⟨?_, ?_⟩, ?_⟩
  · rw [husers]
    exact htabled.length
  · rw [husers, hnusers]
    exact htabled.counted
  · have hoccupies : Proc.occupies g e { proc with pc := pc' } = proc.occupies g e := by
      by_cases hmode : proc.task.mode = none
      · simp [Proc.occupies, hmode]
      · simp only [Proc.occupies, hregistered hmode]
        rfl
    rw [husers, hoccupies]

/-- A job that is registered takes a free entry. -/
theorem registering_entries (hpc : proc.pc = .registering f) (hmode : proc.task.mode ≠ none)
    (hself : (n'.files f).info = ((n.files f).info.registerJob proc.jobid proc.stepid).2)
    (hothers : ∀ g, g ≠ f → n'.files g = n.files g) (hused : e.used = true) :
    (n'.files g).info.users.count e + (proc.occupies g e).toNat ≤
      (n.files g).info.users.count e +
        (Proc.occupies g e { proc with pc := .posting f false }).toNat := by
  have hbefore : proc.occupies g e = false := by simp [Proc.occupies, hpc, Pc.registered]
  rw [hbefore]
  by_cases hg : g = f
  · subst hg
    have hafter : Proc.occupies g e { proc with pc := .posting g false } =
        decide (e = ⟨proc.jobid, proc.stepid, true⟩) := by
      simp [Proc.occupies, Pc.registered, hmode, Proc.entry, eq_comm]
    rw [hself, hafter]
    exact SharedInfo.registerJob_count hused
  · rw [hothers g hg]
    exact Nat.le_add_right _ _

/-- A job takes its own entry from the table, and a cleanup takes no more than one. -/
theorem unregistering_entries (hpc : proc.pc = .unregistering f)
    (hentry : proc.task.mode ≠ none → proc.entry ∈ (n.files f).info.users →
      (n.files f).info.entryOf proc.jobid proc.stepid = some proc.entry)
    (hself : (n'.files f).info = ((n.files f).info.unregisterJob proc.jobid proc.stepid).2)
    (hothers : ∀ g, g ≠ f → n'.files g = n.files g) (hused : e.used = true) :
    (n'.files g).info.users.count e = 0 ∨
      (n'.files g).info.users.count e + (proc.occupies g e).toNat ≤
        (n.files g).info.users.count e +
          (Proc.occupies g e { proc with pc := .destroying f false }).toNat := by
  by_cases hg : g = f
  · subst hg
    have hle : (n'.files g).info.users.count e ≤ (n.files g).info.users.count e := by
      rw [hself]
      exact SharedInfo.unregisterJob_count_le hused
    cases hoccupies : proc.occupies g e with
    | false => exact Or.inr (Nat.add_le_add hle (Nat.zero_le _))
    | true =>
        have hmode : proc.task.mode ≠ none ∧ proc.entry = e := by
          simpa [Proc.occupies, hpc, Pc.registered] using hoccupies
        obtain ⟨hmode, rfl⟩ := hmode
        by_cases hmem : proc.entry ∈ (n.files g).info.users
        · have hone := SharedInfo.unregisterJob_count_self hused (hentry hmode hmem)
          rw [← hself] at hone
          exact Or.inr (Nat.le_add_right_of_le (Nat.le_of_eq hone))
        · have hzero := List.count_eq_zero.mpr hmem
          exact Or.inl (Nat.le_zero.mp (hzero ▸ hle))
  · have hbefore : proc.occupies g e = false := by
      simp [Proc.occupies, hpc, Pc.registered, Ne.symm hg]
    rw [hothers g hg, hbefore]
    exact Or.inr (Nat.le_add_right _ _)

/-- A step of a complete operation keeps what the next one relies on. -/
theorem System.Restoring.step (hrestoring : c.Restoring mode₀ ratio₀)
    (hstep : SystemStep c label c') (halone : alone c label.1 = true)
    (hallowed : restores mode₀ c label.1 = true) : c'.Restoring mode₀ ratio₀ := by
  have hopened := hrestoring.opened.step hstep
  obtain ⟨proc, n', pc', hlocal, hmove, rfl⟩ := hstep.move
  obtain ⟨p, event⟩ := label
  have hpc' := hrestoring.next hlocal halone hallowed hmove
  have hdoing := hrestoring.doing _ proc hlocal halone
  have hself : ∀ f info, ((c.shared.writeInfo f info).files f).info = info :=
    fun f info => Node.writeInfo_info info
  have hothers : ∀ f info g, g ≠ f → (c.shared.writeInfo f info).files g = c.shared.files g :=
    fun f info g hg => Node.write_files_of_ne _ _ _ hg
  -- Only `registering` and `unregistering` change the table of the users.
  cases hpc : proc.pc with
  | registering f =>
      rw [hpc] at hdoing
      simp only [Proc.move, hpc] at hmove
      cases hmove
      refine hrestoring.of_step hopened hlocal halone hpc' (fun g => ?_) fun g e hused =>
        Or.inr (registering_entries hpc hdoing.2.2 (hself f _) (hothers f _) hused)
      by_cases hg : g = f
      · subst hg
        rw [hself]
        exact SharedInfo.registerJob_tabled (hrestoring.tabled g)
      · rw [hothers f _ g hg]
        exact hrestoring.tabled g
  | unregistering f =>
      -- The assumption on the run: an entry that is removed is the one of this process.
      have htaken : (proc.task.mode ≠ none → proc.entry ∈ (c.shared.files f).info.users →
          (c.shared.files f).info.entryOf proc.jobid proc.stepid = some proc.entry) ∧
          ∀ j, (c.shared.files f).info.entryOf proc.jobid proc.stepid = some j →
            j.used = true := by
        rw [restores, hlocal] at hallowed
        simp only [Option.all_some, hpc] at hallowed
        split at hallowed
        next hmem =>
          have hfound := of_decide_eq_true hallowed
          refine ⟨fun _ _ => hfound, fun j hj => ?_⟩
          cases hfound.symm.trans hj
          rfl
        next hnot =>
          refine ⟨fun hmode hmem => absurd ⟨hmode, hmem⟩ hnot, fun j hj => ?_⟩
          rw [hj] at hallowed
          exact hallowed
      simp only [Proc.move, hpc] at hmove
      cases hmove
      refine hrestoring.of_step hopened hlocal halone hpc' (fun g => ?_) fun g e hused =>
        unregistering_entries hpc htaken.1 (hself f _) (hothers f _) hused
      by_cases hg : g = f
      · subst hg
        rw [hself]
        exact SharedInfo.unregisterJob_tabled (hrestoring.tabled g) htaken.2
      · rw [hothers f _ g hg]
        exact hrestoring.tabled g
  | _ =>
      have hmapped : ∀ f, proc.pc = .mapped f → (c.shared.files f).info = .zero := by
        intro f hf
        rw [hf] at hdoing
        exact hdoing.2.1
      have hregistering : ∀ f, proc.pc ≠ .registering f := by
        rw [hpc]
        exact fun _ h => (by cases h)
      have hunregistering : ∀ f, proc.pc ≠ .unregistering f := by
        rw [hpc]
        exact fun _ h => (by cases h)
      refine hrestoring.of_step hopened hlocal halone hpc' (fun g => ?_) fun g e _ => Or.inr ?_
      · exact (Proc.table_kept (e := .zero) hrestoring.opened.shared hmove hmapped hregistering
          hunregistering (hrestoring.tabled g)).1
      · exact Nat.le_of_eq (Proc.table_kept hrestoring.opened.shared hmove hmapped hregistering
          hunregistering (hrestoring.tabled g)).2

/-- In a run of complete operations whose steps are allowed, the settings of the kernel are those
of the start when no job is registered. -/
theorem settings_restored {procs : List (Int × Int × Task)} {labels : List (Nat × Event)}
    (hrun : Run (fun c label c' => SystemStep c label c' ∧
      (alone c label.1 && restores mode₀ c label.1) = true)
      (System.new mode₀ ratio₀ procs) labels c') (hrest : AtRest c')
    (hnone : NoneRegistered c') : c'.shared.mode = mode₀ ∧ c'.shared.ratio = ratio₀ := by
  have hrestoring : c'.Restoring mode₀ ratio₀ := by
    clear hrest hnone
    induction hrun with
    | start => exact System.new_restoring procs
    | extend prior last ih =>
        obtain ⟨halone, hallowed⟩ := Bool.and_eq_true_iff.mp last.2
        exact ih.step last.1 halone hallowed
  refine (hrestoring.settled hrest).reset (Option.eq_none_iff_forall_ne_some.mpr fun f hf => ?_)
  -- The file that has the name has a user, whose entry is that of a job.
  have hused := (hrestoring.settled hrest).used f hf
  have hpos : 0 < (c'.shared.files f).info.users.countP (·.used) := by
    have hcounted := (hrestoring.tabled f).counted
    omega
  obtain ⟨e, hmem, he⟩ := List.countP_pos_iff.mp hpos
  have hoccupants : 0 < c'.occupants f e :=
    Nat.lt_of_lt_of_le (List.count_pos_iff.mpr hmem) (hrestoring.entries f e he)
  obtain ⟨job, hjob, hoccupies⟩ := List.countP_pos_iff.mp hoccupants
  have hfound : (job.pc.registered = some f ∧ job.task.mode ≠ none) ∧ job.entry = e := by
    simpa [Proc.occupies] using hoccupies
  obtain ⟨⟨hregistered, -⟩, rfl⟩ := hfound
  have hresting := hrest job hjob
  cases hpc : job.pc with
  | running g =>
      rw [hpc] at hregistered
      cases hregistered
      have hnot := hnone job hjob
      rw [Proc.isRegistered, hpc] at hnot
      exact absurd (List.contains_iff_mem.mpr hmem) (Bool.eq_false_iff.mp hnot)
  | start | done | dangling | crashed =>
      rw [hpc] at hregistered
      cases hregistered
  | _ =>
      rw [hpc] at hresting
      cases hresting

/-- Two jobs are registered, the users are listed, one job is cleaned up and the other one
ends. -/
theorem settings_restored_four : ∃ labels c',
    Run (fun c label c' => SystemStep c label c' ∧
        (alone c label.1 && restores 0 c label.1) = true)
      (System.new 0 50 [(7, 0, .use 2 90), (8, 0, .use 2 80), (7, -1, .cleanup), (-1, -1, .list)])
      labels c' ∧
    c'.locals.map Proc.pc = [.running 0, .done, .done, .done] ∧
    c'.shared.mode = 0 ∧ c'.shared.ratio = 50 := by
  obtain ⟨labels, c', hrun, hrest, hnone, hpcs⟩ := Processes.exists_run_of_schedule Proc.step
    (fun c p => alone c p && restores 0 c p)
    (List.replicate 16 0 ++ List.replicate 12 1 ++ List.replicate 9 3 ++ List.replicate 11 2 ++
      List.replicate 7 1)
    (System.new 0 50 [(7, 0, .use 2 90), (8, 0, .use 2 80), (7, -1, .cleanup), (-1, -1, .list)])
    (fun _ c' => AtRest c' ∧ NoneRegistered c' ∧
      c'.locals.map Proc.pc = [.running 0, .done, .done, .done]) (by decide +kernel)
  exact ⟨labels, c', hrun, hpcs, settings_restored hrun hrest hnone⟩

/-- Complete operations after which no job is registered leave a mode and a ratio. -/
def Leaves (mode₀ ratio₀ : Int) (procs : List (Int × Int × Task)) (mode ratio : Int) : Prop :=
  ∃ labels c', Run (fun c label c' => SystemStep c label c' ∧ alone c label.1 = true)
      (System.new mode₀ ratio₀ procs) labels c' ∧
    AtRest c' ∧ NoneRegistered c' ∧ c'.shared.mode = mode ∧ c'.shared.ratio = ratio

/-- The mode 1 is lost with the only job. The ratio is lost by a cleanup that finds no users. The
entry of a batch step, which takes that of another step from the table, stays for ever. -/
theorem settings_lost :
    Leaves 1 50 [(7, 0, .use 2 90)] 0 50 ∧ Leaves 0 50 [(7, -1, .cleanup)] 0 0 ∧
    Leaves 0 50 [(7, 0, .use 2 90), (7, -2, .use 2 90)] 2 90 := by
  refine ⟨?_, ?_, ?_⟩
  · exact Processes.exists_run_of_schedule Proc.step alone (List.replicate 23 0)
      (System.new 1 50 [(7, 0, .use 2 90)]) (fun _ c' => AtRest c' ∧ NoneRegistered c' ∧
        c'.shared.mode = 0 ∧ c'.shared.ratio = 50) (by decide +kernel)
  · exact Processes.exists_run_of_schedule Proc.step alone (List.replicate 16 0)
      (System.new 0 50 [(7, -1, .cleanup)]) (fun _ c' => AtRest c' ∧ NoneRegistered c' ∧
        c'.shared.mode = 0 ∧ c'.shared.ratio = 0) (by decide +kernel)
  · exact Processes.exists_run_of_schedule Proc.step alone
      (List.replicate 16 0 ++ List.replicate 16 1 ++ List.replicate 4 0)
      (System.new 0 50 [(7, 0, .use 2 90), (7, -2, .use 2 90)])
      (fun _ c' => AtRest c' ∧ NoneRegistered c' ∧
        c'.shared.mode = 2 ∧ c'.shared.ratio = 90) (by decide +kernel)

end SlurmSpank.Overcommit
