import SlurmSpank.Overcommit.Semaphore

/-! # One step of the policy

The jobs that are registered have their mode in common with the file that has the name, and are
counted there. A job that has entered the file is alone in it, and decides by what it finds.
-/

namespace SlurmSpank.Overcommit

open Foundation

/-! ## Jobs and their registration -/

/-- The mode that a job asks for. -/
def Task.mode : Task → Option Int
  | .use mode _ => some mode
  | _ => none

namespace Pc

/-- The file in which a job is registered: `register_job` has been called for it, and
`unregister_job` has not. -/
def registered : Pc → Option Nat
  | .posting f false | .settingMode f | .settingRatio f | .running f | .unregistering f => some f
  | _ => none

/-- The file on whose semaphore a process has waited, as long as it has not removed the name. -/
def entered : Pc → Option Nat
  | .inside f | .choosing f | .recording f | .registering f | .posting f _ | .unregistering f
  | .destroying f false | .unlinking f false => some f
  | _ => none

variable {pc : Pc} {f : Nat}

theorem held_of_entered (hentered : pc.entered = some f) : pc.held = some f := by
  cases pc with
  | destroying g refused | unlinking g refused =>
      cases refused with
      | true => cases hentered
      | false => exact hentered
  | resettingMode g refused | resettingRatio g refused | releasing g refused => cases hentered
  | _ => exact hentered

end Pc

/-- The jobs that are registered in a file. -/
def System.registrations (f : Nat) (c : System) : Nat :=
  c.count fun proc => proc.pc.registered = some f

/-- No file is zeroed while it is used. A job gets in by the file that has the name, and alone,
and finds a free entry. A job that has been refused does not find that there are no users. -/
def orderly (c : System) (p : Nat) : Bool :=
  c.locals[p]?.all fun proc =>
    match proc.pc with
    | .mapped f => c.holders f = 0 && c.registrations f = 0
    | .waiting f => c.shared.linked = some f && c.holders f = 0
    | .running f => c.holders f = 0
    | .registering f => (c.shared.files f).info.hasRoom
    | .destroying f true => (c.shared.files f).info.nusers ≠ 0
    | _ => true

/-- What a job relies on that asks for a mode. -/
structure Pc.Orderly (n : Node) (mode : Int) (pc : Pc) : Prop where
  registered : ∀ f, pc.registered = some f →
    n.linked = some f ∧ (n.files f).info.overcommitValue = mode
  entered : ∀ f, pc.entered = some f → n.linked = some f
  choosing : ∀ f, pc = .choosing f → (n.files f).info.nusers = 0
  chosen : ∀ f, pc = .recording f ∨ pc = .registering f →
    (n.files f).info.overcommitValue = mode
  unlinking : ∀ f refused, pc = .unlinking f refused →
    refused = false ∧ (n.files f).info.nusers = 0

/-- The users are counted, one process at most is between its wait and its post, and the jobs
find what they rely on. -/
structure System.Orderly (c : System) : Prop where
  single : ∀ f, c.holders f ≤ 1
  counted : ∀ f, (c.registrations f : Int) ≤ (c.shared.files f).info.nusers
  jobs : ∀ (p : Nat) (proc : Proc), c.locals[p]? = some proc →
    ∃ mode ratio, proc.task = .use mode ratio ∧ proc.pc.Orderly c.shared mode

variable {labels : List (Nat × Event)} {n n' : Node} {p q f g : Nat} {proc : Proc}
  {event : Event} {pc pc' : Pc} {c c' : System} {label : Nat × Event} {mode ratio : Int}

namespace Pc.Orderly

/-- A job that is neither registered nor between its wait and its post relies on nothing. -/
theorem quiet (hregistered : pc.registered = none) (hentered : pc.entered = none)
    (hunlinking : ∀ f refused, pc ≠ .unlinking f refused) : pc.Orderly n mode where
  registered f hf := by simp [hregistered] at hf
  entered f hf := by simp [hentered] at hf
  choosing f hf := by simp [hf, Pc.entered] at hentered
  chosen f hf := by
    rcases hf with hf | hf
    · simp [hf, Pc.entered] at hentered
    · simp [hf, Pc.entered] at hentered
  unlinking f refused hf := absurd hf (hunlinking f refused)

/-- A job that has its mode relies on the file it has entered. -/
theorem ofEntered (hregistered : ∀ f, pc.registered = some f →
      n.linked = some f ∧ (n.files f).info.overcommitValue = mode)
    (hentered : ∀ f, pc.entered = some f → n.linked = some f)
    (hchoosing : ∀ f, pc ≠ .choosing f) (hrecording : ∀ f, pc ≠ .recording f)
    (hregistering : ∀ f, pc ≠ .registering f)
    (hunlinking : ∀ f refused, pc ≠ .unlinking f refused) : pc.Orderly n mode where
  registered := hregistered
  entered := hentered
  choosing f hf := absurd hf (hchoosing f)
  chosen f hf := (hf.elim (hrecording f) (hregistering f)).elim
  unlinking f refused hf := absurd hf (hunlinking f refused)

/-- What a job relies on stays as long as the name, the mode where it is registered, and what it
has entered do. -/
theorem kept (horderly : pc.Orderly n mode)
    (hlinked : ∀ f, n.linked = some f → n'.linked = some f)
    (hregistered : ∀ f, pc.registered = some f →
      (n'.files f).info.overcommitValue = (n.files f).info.overcommitValue)
    (hentered : ∀ f, pc.entered = some f → (n'.files f).info = (n.files f).info) :
    pc.Orderly n' mode where
  registered f hf := by
    rw [hregistered f hf]
    exact ⟨hlinked f (horderly.registered f hf).1, (horderly.registered f hf).2⟩
  entered f hf := hlinked f (horderly.entered f hf)
  choosing f hf := by
    rw [hentered f (by rw [hf]; rfl)]
    exact horderly.choosing f hf
  chosen f hf := by
    have hf' : pc.entered = some f := by
      rcases hf with hf | hf
      · rw [hf]
        rfl
      · rw [hf]
        rfl
    rw [hentered f hf']
    exact horderly.chosen f hf
  unlinking f refused hf := by
    obtain ⟨hrefused, hnusers⟩ := horderly.unlinking f refused hf
    subst hrefused
    rw [hentered f (by rw [hf]; rfl)]
    exact ⟨rfl, hnusers⟩

end Pc.Orderly

/-- A step keeps a system in order, if it does so with the job that makes it, with what the
others rely on, with the number of users and with the semaphores. -/
theorem System.Orderly.of_step (horderly : c.Orderly) (hlocal : c.locals[p]? = some proc)
    (htask : proc.task = .use mode ratio) (hpc' : pc'.Orderly n' mode)
    (hothers : ∀ q k mode, q ≠ p → c.locals[q]? = some k → k.pc.Orderly c.shared mode →
      k.pc.Orderly n' mode)
    (hcounted : ∀ f, (c.registrations f : Int) + (decide (pc'.registered = some f)).toNat ≤
      (n'.files f).info.nusers + (decide (proc.pc.registered = some f)).toNat)
    (hheld : ∀ f, pc'.held = some f → proc.pc.held = some f ∨ c.holders f = 0) :
    System.Orderly ⟨n', c.locals.set p { proc with pc := pc' }⟩ where
  single f := by
    have hcount : System.holders f ⟨n', c.locals.set p { proc with pc := pc' }⟩ +
        (decide (proc.pc.held = some f)).toNat =
        c.holders f + (decide (pc'.held = some f)).toNat := Processes.count_set _ hlocal n'
    have hsingle := horderly.single f
    by_cases hf : pc'.held = some f
    · rcases hheld f hf with hbefore | hnone
      · rw [decide_eq_true hf, decide_eq_true hbefore] at hcount
        omega
      · rw [hnone, decide_eq_true hf] at hcount
        simp only [Bool.toNat_true] at hcount
        omega
    · rw [decide_eq_false hf] at hcount
      simp only [Bool.toNat_false] at hcount
      omega
  counted f := by
    have hcount : System.registrations f ⟨n', c.locals.set p { proc with pc := pc' }⟩ +
        (decide (proc.pc.registered = some f)).toNat =
        c.registrations f + (decide (pc'.registered = some f)).toNat :=
      Processes.count_set _ hlocal n'
    have hchange := hcounted f
    show (System.registrations f _ : Int) ≤ (n'.files f).info.nusers
    omega
  jobs q k hq := by
    rcases Processes.of_locals_set hq with ⟨rfl, rfl⟩ | ⟨hne, hq⟩
    · exact ⟨mode, ratio, htask, hpc'⟩
    · obtain ⟨mode, ratio, htask, hk⟩ := horderly.jobs q k hq
      exact ⟨mode, ratio, htask, hothers q k mode hne hq hk⟩

/-- A step that leaves the structures of the files and the name alone. -/
theorem System.Orderly.stay (horderly : c.Orderly) (hlocal : c.locals[p]? = some proc)
    (htask : proc.task = .use mode ratio) (hpc' : pc'.Orderly c.shared mode)
    (hlinked : ∀ f, c.shared.linked = some f → n'.linked = some f)
    (hinfo : ∀ f, (n'.files f).info = (c.shared.files f).info)
    (hregistered : ∀ f, pc'.registered = some f → proc.pc.registered = some f)
    (hheld : ∀ f, pc'.held = some f → proc.pc.held = some f ∨ c.holders f = 0) :
    System.Orderly ⟨n', c.locals.set p { proc with pc := pc' }⟩ := by
  refine horderly.of_step hlocal htask ?_ (fun q k mode _ _ hk => ?_) (fun f => ?_) hheld
  · exact hpc'.kept hlinked (fun f _ => by rw [hinfo]) fun f _ => hinfo f
  · exact hk.kept hlinked (fun f _ => by rw [hinfo]) fun f _ => hinfo f
  · have hcounted := horderly.counted f
    rw [hinfo]
    by_cases hf : pc'.registered = some f
    · rw [decide_eq_true hf, decide_eq_true (hregistered f hf)]
      omega
    · rw [decide_eq_false hf]
      simp only [Bool.toNat_false]
      omega

/-- A step to a place where the job relies on nothing. -/
theorem System.Orderly.quiet (horderly : c.Orderly) (hlocal : c.locals[p]? = some proc)
    (htask : proc.task = .use mode ratio) (hregistered : pc'.registered = none)
    (hentered : pc'.entered = none) (hunlinking : ∀ f refused, pc' ≠ .unlinking f refused)
    (hheld : ∀ f, pc'.held = some f → proc.pc.held = some f)
    (hlinked : ∀ f, c.shared.linked = some f → n'.linked = some f)
    (hinfo : ∀ f, (n'.files f).info = (c.shared.files f).info) :
    System.Orderly ⟨n', c.locals.set p { proc with pc := pc' }⟩ := by
  refine horderly.stay hlocal htask (.quiet hregistered hentered hunlinking) hlinked hinfo
    (fun f hf => ?_) fun f hf => Or.inl (hheld f hf)
  rw [hregistered] at hf
  cases hf

theorem write_info {file' : SharedFile} (hfile : file'.info = (n.files f).info) (g : Nat) :
    ((n.write f file').files g).info = (n.files g).info := by
  by_cases hg : g = f
  · rw [hg, Node.write_files_self, hfile]
  · rw [Node.write_files_of_ne _ _ _ hg]

/-- Another job has not entered the file of a process between its wait and its post. -/
theorem System.Orderly.not_entered {k : Proc} (horderly : c.Orderly)
    (hlocal : c.locals[p]? = some proc) (hheld : proc.pc.held = some f) (hne : q ≠ p)
    (hq : c.locals[q]? = some k) : k.pc.entered ≠ some f := by
  intro hentered
  have htwo : 2 ≤ c.holders f := Processes.two_le_count hne.symm hlocal hq
    (decide_eq_true hheld) (decide_eq_true (Pc.held_of_entered hentered))
  exact absurd (horderly.single f) (Nat.not_le.mpr htwo)

/-- A process between its wait and its post writes to the structure, and leaves the mode alone
as long as there are jobs registered. -/
theorem System.Orderly.writeInfo {info : SharedInfo} (horderly : c.Orderly)
    (hlocal : c.locals[p]? = some proc) (htask : proc.task = .use mode ratio)
    (hheld : proc.pc.held = some f)
    (hvalue : info.overcommitValue = (c.shared.files f).info.overcommitValue ∨
      c.registrations f = 0)
    (hnusers : (c.registrations f : Int) + (decide (pc'.registered = some f)).toNat ≤
      info.nusers + (decide (proc.pc.registered = some f)).toNat)
    (hregistered : ∀ g, g ≠ f → pc'.registered ≠ some g)
    (hheld' : ∀ g, pc'.held = some g → g = f)
    (hpc' : pc'.Orderly (c.shared.writeInfo f info) mode) :
    System.Orderly ⟨c.shared.writeInfo f info, c.locals.set p { proc with pc := pc' }⟩ := by
  have hother : ∀ g, g ≠ f → (c.shared.writeInfo f info).files g = c.shared.files g :=
    fun g hg => Node.write_files_of_ne _ _ _ hg
  have hself : ((c.shared.writeInfo f info).files f).info = info := by
    rw [Node.writeInfo, Node.write_files_self]
  refine horderly.of_step hlocal htask hpc' (fun q k mode hne hq hk => ?_) (fun g => ?_)
    fun g hg => Or.inl (hheld' g hg ▸ hheld)
  · refine hk.kept (fun _ => id) (fun g hg => ?_) (fun g hg => ?_)
    · by_cases heq : g = f
      · subst heq
        rw [hself]
        refine hvalue.resolve_right fun hzero => ?_
        have hpos : 0 < c.registrations g := Processes.count_pos hq (decide_eq_true hg)
        exact absurd hzero (Nat.ne_of_gt hpos)
      · rw [hother g heq]
    · rw [hother g fun heq => horderly.not_entered hlocal hheld hne hq (heq ▸ hg)]
  · by_cases heq : g = f
    · subst heq
      rw [hself]
      exact hnusers
    · rw [hother g heq, decide_eq_false (hregistered g heq)]
      have hcounted := horderly.counted g
      simp only [Bool.toNat_false]
      omega

/-- The first steps of a job, up to `sem_wait`. -/
theorem System.Orderly.opening (horderly : c.Orderly) (hopened : c.shared.Opened)
    (hlocal : c.locals[p]? = some proc) (htask : proc.task = .use mode ratio)
    (hworks : proc.pc.works = none) (hpc : ∀ f, proc.pc ≠ .mapped f)
    (hmove : proc.move p c.shared = some (event, n', pc')) :
    System.Orderly ⟨n', c.locals.set p { proc with pc := pc' }⟩ := by
  -- Nothing is registered before the wait, so it is enough that the name and the tables stay.
  have hstay : ∀ {n' : Node} {pc' : Pc}, pc'.registered = none → pc'.held = none →
      pc'.entered = none → (∀ f refused, pc' ≠ .unlinking f refused) →
      (∀ f, c.shared.linked = some f → n'.linked = some f) →
      (∀ f, (n'.files f).info = (c.shared.files f).info) →
      System.Orderly ⟨n', c.locals.set p { proc with pc := pc' }⟩ := by
    intro n' pc' hregistered hheld hentered hunlinking hlinked hinfo
    refine horderly.quiet hlocal htask hregistered hentered hunlinking (fun f hf => ?_) hlinked
      hinfo
    rw [hheld] at hf
    cases hf
  obtain ⟨jobid, stepid, task, pc⟩ := proc
  cases htask
  cases pc with
  | start =>
      simp only [Proc.move] at hmove
      split at hmove
      next heq _ => cases heq
      next heq _ => cases heq
      next hlinked _ =>
        cases hmove
        refine hstay rfl rfl rfl (fun _ _ h => by cases h) (fun f hf => ?_) fun f => ?_
        · rw [hlinked] at hf
          cases hf
        · rw [hopened.create_files]
      next =>
        cases hmove
        exact hstay rfl rfl rfl (fun _ _ h => by cases h) (fun _ => id) fun _ => rfl
  | reopening =>
      simp only [Proc.move] at hmove
      split at hmove
      next =>
        cases hmove
        exact hstay rfl rfl rfl (fun _ _ h => by cases h) (fun _ => id) fun _ => rfl
      next =>
        cases hmove
        exact hstay rfl rfl rfl (fun _ _ h => by cases h) (fun _ => id) fun _ => rfl
  | opened f =>
      cases hmove
      unfold Node.getWriteLock
      split
      next => exact hstay rfl rfl rfl (fun _ _ h => by cases h) (fun _ => id) (write_info rfl)
      next => exact hstay rfl rfl rfl (fun _ _ h => by cases h) (fun _ => id) fun _ => rfl
  | sized f initialized =>
      cases initialized with
      | true =>
          cases hmove
          exact hstay rfl rfl rfl (fun _ _ h => by cases h) (fun _ => id) fun _ => rfl
      | false =>
          cases hmove
          exact hstay rfl rfl rfl (fun _ _ h => by cases h) (fun _ => id) (write_info rfl)
  | mapped f => exact absurd rfl (hpc f)
  | zeroed f =>
      cases hmove
      exact hstay rfl rfl rfl (fun _ _ h => by cases h) (fun _ => id) (write_info rfl)
  | prepared f =>
      cases hmove
      unfold Node.releaseLock
      split
      next => exact hstay rfl rfl rfl (fun _ _ h => by cases h) (fun _ => id) (write_info rfl)
      next => exact hstay rfl rfl rfl (fun _ _ h => by cases h) (fun _ => id) fun _ => rfl
  | attempted f | resized f | dangling =>
      cases hmove
      exact hstay rfl rfl rfl (fun _ _ h => by cases h) (fun _ => id) fun _ => rfl
  | done | crashed => cases hmove
  | _ => cases hworks

/-- A job zeroes a file that is not used. -/
theorem System.Orderly.memset (horderly : c.Orderly) (hlocal : c.locals[p]? = some proc)
    (htask : proc.task = .use mode ratio) (hpc : proc.pc = .mapped f)
    (hallowed : orderly c p = true) (hmove : proc.move p c.shared = some (event, n', pc')) :
    System.Orderly ⟨n', c.locals.set p { proc with pc := pc' }⟩ := by
  have hunused : c.holders f = 0 ∧ c.registrations f = 0 := by
    rw [orderly, hlocal] at hallowed
    simpa [hpc] using hallowed
  simp only [Proc.move, hpc] at hmove
  cases hmove
  refine horderly.of_step hlocal htask (.quiet rfl rfl (fun _ _ h => by cases h))
    (fun q k mode _ hq hk => ?_) (fun g => ?_) (fun g hg => (by cases hg))
  · refine hk.kept (fun _ => id) (fun g hg => ?_) (fun g hg => ?_)
    · rw [Node.write_files_of_ne]
      rintro rfl
      have hpos : 0 < c.registrations g := Processes.count_pos hq (decide_eq_true hg)
      exact absurd hunused.2 (Nat.ne_of_gt hpos)
    · rw [Node.write_files_of_ne]
      rintro rfl
      have hpos : 0 < c.holders g :=
        Processes.count_pos hq (decide_eq_true (Pc.held_of_entered hg))
      exact absurd hunused.1 (Nat.ne_of_gt hpos)
  · rw [hpc]
    by_cases hg : g = f
    · subst hg
      rw [hunused.2, Node.write_files_self]
      exact Int.le_refl _
    · rw [Node.write_files_of_ne _ _ _ hg]
      exact Int.add_le_add_right (horderly.counted g) _

/-- What `overcommit_in_use` decides for a job that has entered the file. -/
theorem System.Orderly.enter (horderly : c.Orderly) (hlocal : c.locals[p]? = some proc)
    (htask : proc.task = .use mode ratio) (hjob : proc.pc.Orderly c.shared mode)
    (hpc : proc.pc = .inside f) (hmove : proc.move p c.shared = some (event, n', pc')) :
    System.Orderly ⟨n', c.locals.set p { proc with pc := pc' }⟩ := by
  have hlinked : c.shared.linked = some f := hjob.entered f (by rw [hpc]; rfl)
  have hentered : ∀ g, g = f → c.shared.linked = some g := fun g hg => hg ▸ hlinked
  simp only [Proc.move, hpc, htask, Proc.enter] at hmove
  have hstay : ∀ {pc' : Pc}, pc'.Orderly c.shared mode → pc'.registered = none →
      pc'.held = some f →
      System.Orderly ⟨c.shared, c.locals.set p { proc with pc := pc' }⟩ := by
    intro pc' hpc' hregistered hheld
    refine horderly.stay hlocal htask hpc' (fun _ => id) (fun _ => rfl) (fun g hg => ?_)
      fun g hg => ?_
    · rw [hregistered] at hg
      cases hg
    · rw [hheld] at hg
      rw [hpc]
      exact Or.inl hg
  -- `overcommit_in_use` refuses, finds no user and chooses, or finds users that agree.
  split at hmove
  next hconflict =>
    cases hmove
    refine hstay ⟨fun g hg => (by cases hg), fun g hg => hentered g ?_, fun _ h => (by cases h),
      fun _ => ?_, fun _ _ h => (by cases h)⟩ rfl rfl
    · exact (Option.some_inj.mp hg).symm
    · rintro (hg | hg) <;> cases hg
  next hagree =>
    split at hmove
    next hnone =>
      cases hmove
      refine hstay ⟨fun g hg => (by cases hg), fun g hg => hentered g ?_, fun g hg => ?_,
        fun _ => ?_, fun _ _ h => (by cases h)⟩ rfl rfl
      · exact (Option.some_inj.mp hg).symm
      · cases hg
        exact hnone
      · rintro (hg | hg) <;> cases hg
    next hsome =>
      cases hmove
      have hcounted := horderly.counted f
      -- The users are counted at least as often as they are registered.
      have hvalue : (c.shared.files f).info.overcommitValue = mode := by
        by_contra hne
        exact hagree ⟨by omega, hne⟩
      refine hstay ⟨fun g hg => (by cases hg), fun g hg => hentered g ?_, fun _ h => (by cases h),
        fun g => ?_, fun _ _ h => (by cases h)⟩ rfl rfl
      · exact (Option.some_inj.mp hg).symm
      · rintro (hg | hg)
        · cases hg
        · cases hg
          exact hvalue

/-- A job enters the file that has the name, while no other process is in it. -/
theorem System.Orderly.semWait (horderly : c.Orderly) (hlocal : c.locals[p]? = some proc)
    (htask : proc.task = .use mode ratio) (hlinked : c.shared.linked = some f)
    (halone : c.holders f = 0) (hvalue : ∀ g, pc'.registered = some g → g = f ∧
      proc.pc.registered = some f ∧ (c.shared.files f).info.overcommitValue = mode)
    (hpc' : pc' = .inside f ∨ pc' = .unregistering f) (hwait : c.shared.semWait f = some n') :
    System.Orderly ⟨n', c.locals.set p { proc with pc := pc' }⟩ := by
  have hinfo : ∀ g, (n'.files g).info = (c.shared.files g).info ∧ n'.linked = c.shared.linked := by
    intro g
    unfold Node.semWait at hwait
    split at hwait
    next =>
      cases hwait
      by_cases hg : g = f
      · subst hg
        rw [Node.write_files_self]
        exact ⟨rfl, rfl⟩
      · rw [Node.write_files_of_ne _ _ _ hg]
        exact ⟨rfl, rfl⟩
    next => cases hwait
  have hheld : pc'.held = some f ∧ pc'.entered = some f := by
    rcases hpc' with rfl | rfl
    · exact ⟨rfl, rfl⟩
    · exact ⟨rfl, rfl⟩
  refine horderly.stay hlocal htask (.ofEntered (fun g hg => ?_) (fun g hg => ?_)
    (fun _ => ?_) (fun _ => ?_) (fun _ => ?_) (fun _ _ => ?_)) (fun g hg => ?_)
    (fun g => (hinfo g).1) (fun g hg => ?_) (fun g hg => ?_)
  · obtain ⟨rfl, -, hvalue⟩ := hvalue g hg
    exact ⟨hlinked, hvalue⟩
  · rw [hheld.2] at hg
    exact hg ▸ hlinked
  · rcases hpc' with rfl | rfl <;> (intro h; cases h)
  · rcases hpc' with rfl | rfl <;> (intro h; cases h)
  · rcases hpc' with rfl | rfl <;> (intro h; cases h)
  · rcases hpc' with rfl | rfl <;> (intro h; cases h)
  · rw [(hinfo g).2, hg]
  · obtain ⟨rfl, hbefore, -⟩ := hvalue g hg
    exact hbefore
  · rw [hheld.1] at hg
    exact Or.inr (Option.some_inj.mp hg ▸ halone)

/-- A job between its wait and its post changes the structure. -/
theorem System.Orderly.changing (horderly : c.Orderly) (hlocal : c.locals[p]? = some proc)
    (htask : proc.task = .use mode ratio) (hjob : proc.pc.Orderly c.shared mode)
    (hpc : proc.pc = .choosing f ∨ proc.pc = .recording f ∨ proc.pc = .registering f ∨
      proc.pc = .unregistering f)
    (hallowed : orderly c p = true) (hmove : proc.move p c.shared = some (event, n', pc')) :
    System.Orderly ⟨n', c.locals.set p { proc with pc := pc' }⟩ := by
  have hcounted := horderly.counted f
  have hself : ∀ info, ((c.shared.writeInfo f info).files f).info = info := fun info => by
    rw [Node.writeInfo, Node.write_files_self]
  have hheld : proc.pc.held = some f := by
    rcases hpc with hpc | hpc | hpc | hpc <;> rw [hpc] <;> rfl
  have hlinked : c.shared.linked = some f := hjob.entered f (by
    rcases hpc with hpc | hpc | hpc | hpc <;> rw [hpc] <;> rfl)
  have hentered : ∀ g, f = g → c.shared.linked = some g := fun g hg => hg ▸ hlinked
  have hchosen := hjob.chosen f
  -- No user is registered before the policy is chosen, so the other jobs need not agree with it.
  rcases hpc with hpc | hpc | hpc | hpc
  · have hnone : c.registrations f = 0 := by
      have hnusers := hjob.choosing f hpc
      omega
    simp only [Proc.move, hpc, htask] at hmove
    cases hmove
    refine horderly.writeInfo hlocal htask hheld (.inr hnone) ?_ (fun _ _ h => by cases h)
      (fun g hg => (Option.some_inj.mp hg).symm) ⟨fun g h => (by cases h), fun g hg => ?_,
        fun g h => (by cases h), fun g hg => ?_, fun g _ h => (by cases h)⟩
    · simpa [hpc, Pc.registered] using hcounted
    · exact hentered g (Option.some_inj.mp hg)
    · rcases hg with hg | hg
      · cases hg
        rw [hself]
      · cases hg
  · simp only [Proc.move, hpc] at hmove
    cases hmove
    refine horderly.writeInfo hlocal htask hheld (.inl rfl) ?_ (fun _ _ h => by cases h)
      (fun g hg => (Option.some_inj.mp hg).symm) ⟨fun g h => (by cases h), fun g hg => ?_,
        fun g h => (by cases h), fun g hg => ?_, fun g _ h => (by cases h)⟩
    · simpa [hpc, Pc.registered] using hcounted
    · exact hentered g (Option.some_inj.mp hg)
    · rcases hg with hg | hg
      · cases hg
      · cases hg
        rw [hself]
        exact hchosen (.inl hpc)
  · have hroom : (c.shared.files f).info.hasRoom = true := by
      rw [orderly, hlocal] at hallowed
      simpa [hpc] using hallowed
    obtain ⟨hnusers, hvalue⟩ :=
      SharedInfo.registerJob_of_hasRoom hroom proc.jobid proc.stepid
    simp only [Proc.move, hpc] at hmove
    cases hmove
    refine horderly.writeInfo hlocal htask hheld (.inl hvalue) ?_ (fun g hne hg => ?_)
      (fun g hg => (Option.some_inj.mp hg).symm) ⟨fun g hg => ?_, fun g hg => ?_,
        fun g h => (by cases h), fun g hg => ?_, fun g _ h => (by cases h)⟩
    · rw [hnusers]
      simpa [hpc, Pc.registered] using hcounted
    · exact hne (Option.some_inj.mp hg).symm
    · cases hg
      rw [hself, hvalue]
      exact ⟨hlinked, hchosen (.inr hpc)⟩
    · exact hentered g (Option.some_inj.mp hg)
    · rcases hg with hg | hg <;> cases hg
  · obtain ⟨hnusers, hvalue⟩ :=
      (c.shared.files f).info.unregisterJob_nusers proc.jobid proc.stepid
    simp only [Proc.move, hpc] at hmove
    cases hmove
    refine horderly.writeInfo hlocal htask hheld (.inl hvalue) ?_ (fun _ _ h => by cases h)
      (fun g hg => (Option.some_inj.mp hg).symm) ⟨fun g h => (by cases h), fun g hg => ?_,
        fun g h => (by cases h), fun g hg => ?_, fun g _ h => (by cases h)⟩
    · have hbefore : proc.pc.registered = some f := by
        rw [hpc]
        rfl
      rw [decide_eq_true hbefore, decide_eq_false (fun heq => by cases heq)]
      simp only [Bool.toNat_true, Bool.toNat_false]
      omega
    · exact hentered g (Option.some_inj.mp hg)
    · rcases hg with hg | hg <;> cases hg

/-- A job between its wait and its post, of which there are no users left, removes the name. -/
theorem System.Orderly.unlink (horderly : c.Orderly) (hlocal : c.locals[p]? = some proc)
    (htask : proc.task = .use mode ratio) (hjob : proc.pc.Orderly c.shared mode)
    {refused : Bool} (hpc : proc.pc = .unlinking f refused)
    (hmove : proc.move p c.shared = some (event, n', pc')) :
    System.Orderly ⟨n', c.locals.set p { proc with pc := pc' }⟩ := by
  obtain ⟨rfl, hnusers⟩ := hjob.unlinking f refused hpc
  have hheld : proc.pc.held = some f := by
    rw [hpc]
    rfl
  have hlinked : c.shared.linked = some f := hjob.entered f (by rw [hpc]; rfl)
  have hnone : c.registrations f = 0 := by
    have hcounted := horderly.counted f
    omega
  simp only [Proc.move, hpc] at hmove
  cases hmove
  refine horderly.of_step hlocal htask (.quiet rfl rfl fun _ _ h => (by cases h))
    (fun q k mode hne hq hk => ?_) (fun g => ?_) fun g hg => Or.inl ?_
  · -- Nobody else relies on the name: the other jobs are neither registered nor have they entered.
    have hsame : ∀ g, c.shared.linked = some g → g = f := fun g hg =>
      Option.some_inj.mp (hg.symm.trans hlinked)
    refine .quiet ?_ ?_ fun g refused hg => ?_
    · refine Option.eq_none_iff_forall_ne_some.mpr fun g hg => ?_
      have hpos : 0 < c.registrations g := Processes.count_pos hq (decide_eq_true hg)
      rw [hsame g (hk.registered g hg).1, hnone] at hpos
      exact absurd hpos (Nat.lt_irrefl 0)
    · refine Option.eq_none_iff_forall_ne_some.mpr fun g hg => ?_
      have heq := hsame g (hk.entered g hg)
      exact horderly.not_entered hlocal hheld hne hq (heq ▸ hg)
    · obtain ⟨rfl, -⟩ := hk.unlinking g refused hg
      have hentered : k.pc.entered = some g := by
        rw [hg]
        rfl
      have heq := hsame g (hk.entered g hentered)
      exact horderly.not_entered hlocal hheld hne hq (heq ▸ hentered)
  · have hcounted := horderly.counted g
    rw [hpc]
    exact Int.add_le_add_right hcounted _
  · cases hg
    exact hheld

/-- A job that is registered sets the mode and the ratio. -/
theorem System.Orderly.set (horderly : c.Orderly) (hlocal : c.locals[p]? = some proc)
    (htask : proc.task = .use mode ratio) (hjob : proc.pc.Orderly c.shared mode)
    (hregistered : proc.pc.registered = some f)
    (hpc' : pc' = .settingMode f ∨ pc' = .settingRatio f ∨ pc' = .running f)
    (hlinked : n'.linked = c.shared.linked)
    (hinfo : ∀ f, (n'.files f).info = (c.shared.files f).info) :
    System.Orderly ⟨n', c.locals.set p { proc with pc := pc' }⟩ := by
  have hfield : pc'.registered = some f ∧ pc'.held = none ∧ pc'.entered = none := by
    rcases hpc' with rfl | rfl | rfl <;> exact ⟨rfl, rfl, rfl⟩
  refine horderly.stay hlocal htask (.ofEntered (fun g hg => ?_) (fun g hg => ?_)
    (fun _ => ?_) (fun _ => ?_) (fun _ => ?_) fun _ _ => ?_) (fun g hg => hlinked.trans hg) hinfo
    (fun g hg => ?_) fun g hg => ?_
  · rw [hfield.1] at hg
    exact hjob.registered g (hregistered.trans hg)
  · rw [hfield.2.2] at hg
    cases hg
  · rcases hpc' with rfl | rfl | rfl <;> (intro h; cases h)
  · rcases hpc' with rfl | rfl | rfl <;> (intro h; cases h)
  · rcases hpc' with rfl | rfl | rfl <;> (intro h; cases h)
  · rcases hpc' with rfl | rfl | rfl <;> (intro h; cases h)
  · rw [hfield.1] at hg
    exact hregistered.trans hg
  · rw [hfield.2.1] at hg
    cases hg

/-- The test of `overcommit_shared_ctx_destroy`. -/
theorem System.Orderly.destroy (horderly : c.Orderly) (hlocal : c.locals[p]? = some proc)
    (htask : proc.task = .use mode ratio) (hjob : proc.pc.Orderly c.shared mode)
    {refused : Bool} (hpc : proc.pc = .destroying f refused) (hallowed : orderly c p = true)
    (hmove : proc.move p c.shared = some (event, n', pc')) :
    System.Orderly ⟨n', c.locals.set p { proc with pc := pc' }⟩ := by
  have hallowed : refused = true → (c.shared.files f).info.nusers ≠ 0 := by
    rintro rfl
    rw [orderly, hlocal] at hallowed
    simpa [hpc] using hallowed
  simp only [Proc.move, hpc] at hmove
  cases hmove
  split
  next hnone =>
    cases refused with
    | true => exact absurd hnone (hallowed rfl)
    | false =>
        refine horderly.stay hlocal htask ⟨fun g h => (by cases h), fun g hg => ?_,
          fun g h => (by cases h), fun g hg => ?_, fun g refused hg => ?_⟩ (fun _ => id)
          (fun _ => rfl) (fun g h => by cases h)
          fun g hg => Or.inl ?_
        · cases hg
          exact hjob.entered f (by rw [hpc]; rfl)
        · rcases hg with hg | hg <;> cases hg
        · cases hg
          exact ⟨rfl, hnone⟩
        · rw [hpc]
          exact hg
  next =>
    refine horderly.quiet hlocal htask rfl rfl (fun _ _ h => by cases h) (fun g hg => ?_)
      (fun _ => id) fun _ => rfl
    rw [hpc]
    cases refused with
    | true => cases hg
    | false => exact hg

/-- A step of a job keeps a system in order. -/
theorem System.Orderly.step (horderly : c.Orderly) (hopened : c.Opened)
    (hstep : SystemStep c label c') (hallowed : orderly c label.1 = true) : c'.Orderly := by
  obtain ⟨proc, n', pc', hlocal, hmove, rfl⟩ := hstep.move
  obtain ⟨mode, ratio, htask, hjob⟩ := horderly.jobs _ proc hlocal
  generalize label.1 = p at *
  generalize label.2 = event at *
  -- Each place has its lemma: before `sem_wait`, between it and `sem_post`, and behind.
  cases hpc : proc.pc with
  | mapped f => exact horderly.memset hlocal htask hpc hallowed hmove
  | waiting f =>
      have hfree : c.shared.linked = some f ∧ c.holders f = 0 := by
        rw [orderly, hlocal] at hallowed
        simpa [hpc] using hallowed
      simp only [Proc.move, hpc] at hmove
      obtain ⟨_, hwait, hresult⟩ := Option.map_eq_some_iff.mp hmove
      cases hresult
      exact horderly.semWait hlocal htask hfree.1 hfree.2 (fun g h => by cases h) (.inl rfl) hwait
  | inside f => exact horderly.enter hlocal htask hjob hpc hmove
  | choosing f => exact horderly.changing hlocal htask hjob (.inl hpc) hallowed hmove
  | recording f => exact horderly.changing hlocal htask hjob (.inr (.inl hpc)) hallowed hmove
  | registering f =>
      exact horderly.changing hlocal htask hjob (.inr (.inr (.inl hpc))) hallowed hmove
  | unregistering f =>
      exact horderly.changing hlocal htask hjob (.inr (.inr (.inr hpc))) hallowed hmove
  | posting f rc =>
      cases rc with
      | true =>
          simp only [Proc.move, hpc] at hmove
          cases hmove
          exact horderly.quiet hlocal htask rfl rfl (fun _ _ h => by cases h)
            (fun _ h => by cases h) (fun _ => id) (write_info rfl)
      | false =>
          have hregistered : proc.pc.registered = some f := by rw [hpc]; rfl
          simp only [Proc.move, hpc] at hmove
          cases hmove
          exact horderly.set hlocal htask hjob hregistered (.inl rfl) rfl (write_info rfl)
  | settingMode f =>
      have hregistered : proc.pc.registered = some f := by rw [hpc]; rfl
      obtain ⟨-, mode', ratio', -, ⟨rfl, rfl⟩ | ⟨rfl, rfl⟩⟩ := Proc.move_settingMode hpc hmove
      · exact horderly.set hlocal htask hjob hregistered (.inr (.inl rfl)) rfl fun _ => rfl
      · exact horderly.set hlocal htask hjob hregistered (.inr (.inr rfl)) rfl fun _ => rfl
  | settingRatio f =>
      have hregistered : proc.pc.registered = some f := by rw [hpc]; rfl
      simp only [Proc.move, hpc, htask] at hmove
      cases hmove
      exact horderly.set hlocal htask hjob hregistered (.inr (.inr rfl)) rfl fun _ => rfl
  | running f =>
      have hregistered : proc.pc.registered = some f := by rw [hpc]; rfl
      have hfree : c.holders f = 0 := by
        rw [orderly, hlocal] at hallowed
        simpa [hpc] using hallowed
      obtain ⟨hlinked, hvalue⟩ := hjob.registered f hregistered
      simp only [Proc.move, hpc] at hmove
      obtain ⟨_, hwait, hresult⟩ := Option.map_eq_some_iff.mp hmove
      cases hresult
      exact horderly.semWait hlocal htask hlinked hfree
        (fun g hg => ⟨(Option.some_inj.mp hg).symm, hregistered, hvalue⟩) (.inr rfl) hwait
  | destroying f refused => exact horderly.destroy hlocal htask hjob hpc hallowed hmove
  | unlinking f refused => exact horderly.unlink hlocal htask hjob hpc hmove
  | resettingMode f refused =>
      simp only [Proc.move, hpc] at hmove
      cases hmove
      refine horderly.quiet hlocal htask rfl rfl (fun _ _ h => by cases h) (fun g hg => ?_)
        (fun g hg => ?_) fun g => ?_
      · rw [hpc]
        cases refused with
        | true => cases hg
        | false => exact hg
      · split <;> exact hg
      · split <;> rfl
  | resettingRatio f refused =>
      simp only [Proc.move, hpc] at hmove
      cases hmove
      refine horderly.quiet hlocal htask rfl rfl (fun _ _ h => by cases h) (fun g hg => ?_)
        (fun _ => id) fun _ => rfl
      rw [hpc]
      cases refused with
      | true => cases hg
      | false => exact hg
  | releasing f refused =>
      simp only [Proc.move, hpc] at hmove
      cases hmove
      cases refused with
      | true =>
          exact horderly.quiet hlocal htask rfl rfl (fun _ _ h => by cases h)
            (fun _ h => by cases h) (fun _ => id) (write_info rfl)
      | false =>
          exact horderly.quiet hlocal htask rfl rfl (fun _ _ h => by cases h)
            (fun _ h => by cases h) (fun _ => id) (write_info rfl)
  | _ =>
      exact horderly.opening hopened.shared hlocal htask (by rw [hpc]; rfl)
        (by rw [hpc]; exact fun _ h => (by cases h)) hmove

end SlurmSpank.Overcommit
