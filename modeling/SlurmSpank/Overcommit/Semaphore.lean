import SlurmSpank.Overcommit.Places

/-! # The balance of the semaphore

Each `sem_wait` is matched by one `sem_post` of the same process, as long as no job is refused
and no list of the users is asked for while there are none. `overcommit_in_use` posts also for a
job that it refuses, which then posts again when it destroys its context, and the list of no
users is left without a post.
-/

namespace SlurmSpank.Overcommit

open Foundation

/-! ## Waits and posts of one process -/

/-- The file on which a process has waited since it has posted, behind an event. A second wait,
and a post without a wait, are not balanced. -/
def Event.balance (held : Option Nat) : Event → Option (Option Nat)
  | .semWait f => if held = none then some (some f) else none
  | .semPost f => if held = some f then some none else none
  | _ => some held

/-- The file on which a process has waited since it has posted, if its steps are balanced. -/
def balance (p : Nat) (labels : List (Nat × Event)) : Option (Option Nat) :=
  (labels.filter (·.1 = p)).foldlM (fun held label => label.2.balance held) none

/-- The file on whose semaphore a process has waited, by the place that it has come to. -/
def Pc.held : Pc → Option Nat
  | .inside f | .choosing f | .recording f | .registering f | .posting f _ | .unregistering f
  | .destroying f false | .unlinking f false | .resettingMode f false | .resettingRatio f false
  | .releasing f false => some f
  | _ => none

/-- Whether the process is that of a job that has been refused. -/
def Pc.refused : Pc → Bool
  | .posting _ true | .destroying _ true | .unlinking _ true | .resettingMode _ true
  | .resettingRatio _ true | .releasing _ true => true
  | _ => false

/-- The processes between their wait and their post on a file. -/
def System.holders (f : Nat) (c : System) : Nat := c.count fun proc => proc.pc.held = some f

/-- No file is zeroed or initialised while a process is between its wait and its post, no job
finds users with another mode, and no list of the users finds none. -/
def balanced (c : System) (p : Nat) : Bool :=
  c.locals[p]?.all fun proc =>
    match proc.pc, proc.task with
    | .mapped f, _ | .zeroed f, _ => c.holders f = 0
    | .inside f, .use mode _ =>
        (c.shared.files f).info.nusers ≤ 0 || (c.shared.files f).info.overcommitValue = mode
    | .inside f, .list => (c.shared.files f).info.nusers ≠ 0
    | _, _ => true

variable {labels : List (Nat × Event)} {n n' : Node} {p q f g : Nat} {proc : Proc}
  {event : Event} {pc pc' : Pc} {c c' : System} {label : Nat × Event} {mode ratio : Int}
  {procs : List (Int × Int × Task)}

theorem balance_append_self {held : Option Nat} (hbalance : balance p labels = some held) :
    balance p (labels ++ [(p, event)]) = event.balance held := by
  have hfilter : [(p, event)].filter (·.1 = p) = [(p, event)] :=
    List.filter_cons_of_pos (decide_eq_true rfl)
  rw [balance, List.filter_append, List.foldlM_append, ← balance, hbalance, hfilter]
  simp

theorem balance_append_of_ne (hne : q ≠ p) :
    balance q (labels ++ [(p, event)]) = balance q labels := by
  have hfilter : [(p, event)].filter (·.1 = q) = [] :=
    List.filter_cons_of_neg (by simpa using Ne.symm hne)
  rw [balance, List.filter_append, hfilter, List.append_nil, balance]

theorem write_sem {file' : SharedFile} (hevent : ∀ sem, g ≠ f → event.sem g sem = sem)
    (hfile : file'.sem = event.sem f (n.files f).sem) :
    ((n.write f file').files g).sem = event.sem g (n.files g).sem := by
  by_cases hg : g = f
  · subst hg
    rw [Node.write_files_self, hfile]
  · rw [Node.write_files_of_ne _ _ _ hg, hevent _ hg]

/-- What a step does to the semaphores of the files. -/
theorem Proc.sem (hnode : n.Opened) (hmove : proc.move p n = some (event, n', pc')) (g : Nat) :
    (n'.files g).sem = event.sem g (n.files g).sem := by
  cases hworks : proc.pc.works with
  | some f => exact (Proc.usedBy hworks hmove).2.1.sem g
  | none =>
      obtain ⟨jobid, stepid, task, pc⟩ := proc
      -- Before it uses the file, a process zeroes its semaphore or initialises it, if anything.
      cases pc with
      | start =>
          simp only [Proc.move] at hmove
          split at hmove
          next =>
            cases hmove
            rfl
          next =>
            cases hmove
            rfl
          next =>
            cases hmove
            rw [hnode.create_files]
            rfl
          next =>
            cases hmove
            rfl
      | reopening =>
          simp only [Proc.move] at hmove
          split at hmove
          next =>
            cases hmove
            rfl
          next =>
            cases hmove
            rfl
      | opened f =>
          cases hmove
          unfold Node.getWriteLock
          split
          next => exact write_sem (fun _ _ => rfl) rfl
          next => rfl
      | sized f initialized =>
          cases initialized with
          | true =>
              cases hmove
              rfl
          | false =>
              cases hmove
              exact write_sem (fun _ _ => rfl) rfl
      | mapped f | zeroed f =>
          cases hmove
          exact write_sem (fun _ hg => if_neg (Ne.symm hg)) (if_pos rfl).symm
      | prepared f =>
          cases hmove
          unfold Node.releaseLock
          split
          next => exact write_sem (fun _ _ => rfl) rfl
          next => rfl
      | attempted f | resized f | dangling =>
          cases hmove
          rfl
      | done | crashed => cases hmove
      | _ => cases hworks

/-- A file is initialised by a process that has found it empty. -/
theorem Proc.initializes (hmove : proc.move p n = some (event, n', pc'))
    (hinit : event.initializes = some f) : proc.pc = .mapped f ∨ proc.pc = .zeroed f := by
  cases hworks : proc.pc.works with
  | some g =>
      rw [(Proc.usedBy hworks hmove).1] at hinit
      cases hinit
  | none =>
      obtain ⟨jobid, stepid, task, pc⟩ := proc
      cases pc with
      | mapped g =>
          cases hmove
          cases hinit
          exact Or.inl rfl
      | zeroed g =>
          cases hmove
          cases hinit
          exact Or.inr rfl
      | start | reopening =>
          simp only [Proc.move] at hmove
          split at hmove <;> cases hmove <;> cases hinit
      | sized g initialized => cases initialized <;> cases hmove <;> cases hinit
      | done | crashed => cases hmove
      | opened | attempted | resized | prepared | dangling =>
          cases hmove
          cases hinit
      | _ => cases hworks

/-- A process passes a semaphore whose value is not zero. -/
theorem Proc.semWait (hmove : proc.move p n = some (.semWait f, n', pc')) :
    ∃ v, (n.files f).sem = some (v + 1) := by
  obtain ⟨jobid, stepid, task, pc⟩ := proc
  cases pc with
  | waiting g | running g =>
      obtain ⟨n', hwait, hresult⟩ := Option.map_eq_some_iff.mp hmove
      cases hresult
      unfold Node.semWait at hwait
      split at hwait
      next v hv => exact ⟨v, hv⟩
      next => cases hwait
  | start | reopening =>
      simp only [Proc.move] at hmove
      split at hmove <;> cases hmove
  | sized g holds | posting g holds => cases holds <;> cases hmove
  | choosing g | settingRatio g => cases task <;> cases hmove
  | settingMode g =>
      obtain ⟨hsilent, -⟩ := Proc.move_settingMode rfl hmove
      cases hsilent
  | _ => cases hmove

/-- A step of a process that is balanced leaves it so. -/
theorem Proc.balance (hmove : proc.move p n = some (event, n', pc'))
    (hrefused : proc.pc.refused = false)
    (henter : ∀ f, proc.pc = .inside f →
      (Proc.enter (n.files f).info f proc.task).held = some f ∧
      (Proc.enter (n.files f).info f proc.task).refused = false) :
    event.balance proc.pc.held = some pc'.held ∧ pc'.refused = false := by
  obtain ⟨jobid, stepid, task, pc⟩ := proc
  -- `waiting` and `running` wait, `posting` and `releasing` post, and no other place does either.
  cases pc with
  | start =>
      simp only [Proc.move] at hmove
      split at hmove
      next =>
        cases hmove
        exact ⟨rfl, rfl⟩
      next =>
        cases hmove
        exact ⟨rfl, rfl⟩
      next =>
        cases hmove
        exact ⟨rfl, rfl⟩
      next =>
        cases hmove
        exact ⟨rfl, rfl⟩
  | reopening =>
      simp only [Proc.move] at hmove
      split at hmove
      next =>
        cases hmove
        exact ⟨rfl, rfl⟩
      next =>
        cases hmove
        exact ⟨rfl, rfl⟩
  | attempted f =>
      cases hmove
      exact ⟨rfl, rfl⟩
  | sized f initialized =>
      cases initialized with
      | _ =>
          cases hmove
          exact ⟨rfl, rfl⟩
  | waiting f | running f =>
      obtain ⟨_, -, hresult⟩ := Option.map_eq_some_iff.mp hmove
      cases hresult
      exact ⟨rfl, rfl⟩
  | inside f =>
      cases hmove
      obtain ⟨hheld, hnot⟩ := henter f rfl
      exact ⟨congrArg some hheld.symm, hnot⟩
  | choosing f =>
      cases task with
      | use mode ratio =>
          cases hmove
          exact ⟨rfl, rfl⟩
      | _ => cases hmove
  | posting f rc =>
      cases rc with
      | true => cases hrefused
      | false =>
          cases hmove
          exact ⟨if_pos rfl, rfl⟩
  | settingMode f =>
      obtain ⟨rfl, mode, ratio, -, ⟨rfl, rfl⟩ | ⟨rfl, rfl⟩⟩ := Proc.move_settingMode rfl hmove
      · exact ⟨rfl, rfl⟩
      · exact ⟨rfl, rfl⟩
  | settingRatio f =>
      cases task with
      | use mode ratio =>
          cases hmove
          exact ⟨rfl, rfl⟩
      | _ => cases hmove
  | destroying f refused =>
      cases refused with
      | true => cases hrefused
      | false =>
          cases hmove
          split
          next => exact ⟨rfl, rfl⟩
          next => exact ⟨rfl, rfl⟩
  | unlinking f refused | resettingMode f refused | resettingRatio f refused =>
      cases refused with
      | true => cases hrefused
      | false =>
          cases hmove
          exact ⟨rfl, rfl⟩
  | releasing f refused =>
      cases refused with
      | true => cases hrefused
      | false =>
          cases hmove
          exact ⟨if_pos rfl, rfl⟩
  | done | crashed => cases hmove
  | _ =>
      cases hmove
      exact ⟨rfl, rfl⟩

/-! ## Runs -/

/-- Each process has waited where it has come to, and the value of a semaphore that has been
initialised is one, without those that have waited. -/
structure SemaphoreBalanced (labels : List (Nat × Event)) (c : System) : Prop where
  matched : ∀ (p : Nat) (proc : Proc), c.locals[p]? = some proc →
    balance p labels = some proc.pc.held
  single : ∀ f, c.holders f ≤ 1
  value : ∀ f v, (c.shared.files f).sem = some v → v + c.holders f = 1

/-- What the steps of balanced processes keep. -/
structure System.Balanced (labels : List (Nat × Event)) (c : System) : Prop where
  opened : c.Opened
  matched : ∀ (p : Nat) (proc : Proc), c.locals[p]? = some proc →
    balance p labels = some proc.pc.held ∧ proc.pc.refused = false
  none : ∀ f, (c.shared.files f).sem = none → c.holders f = 0
  value : ∀ f v, (c.shared.files f).sem = some v → v + c.holders f = 1

theorem System.Balanced.semaphore (hbalanced : c.Balanced labels) :
    SemaphoreBalanced labels c where
  matched p proc hp := (hbalanced.matched p proc hp).1
  single f := by
    cases hsem : (c.shared.files f).sem with
    | none => exact le_of_eq_of_le (hbalanced.none f hsem) (Nat.zero_le 1)
    | some v => exact hbalanced.value f v hsem ▸ Nat.le_add_left _ _
  value := hbalanced.value

theorem System.new_balanced : (System.new mode ratio procs).Balanced [] := by
  have hholders : ∀ f, (System.new mode ratio procs).holders f = 0 := by
    intro f
    refine List.countP_eq_zero.mpr fun proc hproc => ?_
    obtain ⟨p, hp⟩ := List.getElem?_of_mem hproc
    rw [(System.new_locals hp).1]
    exact of_decide_eq_true rfl
  refine ⟨System.new_opened, fun p proc hp => ?_, fun f _ => hholders f, fun f v hv => ?_⟩
  · rw [(System.new_locals hp).1]
    exact ⟨rfl, rfl⟩
  · cases hv

/-- Where a balanced process goes on behind `sem_wait`. -/
theorem enter_held (hallowed : balanced c p = true) (hlocal : c.locals[p]? = some proc)
    (hpc : proc.pc = .inside f) :
    (Proc.enter (c.shared.files f).info f proc.task).held = some f ∧
      (Proc.enter (c.shared.files f).info f proc.task).refused = false := by
  rw [balanced, hlocal] at hallowed
  obtain ⟨jobid, stepid, task, pc⟩ := proc
  cases hpc
  cases task with
  | use mode ratio =>
      simp only [Option.all_some, Bool.or_eq_true, decide_eq_true_eq] at hallowed
      simp only [Proc.enter]
      rw [if_neg fun hconflict => hconflict.2 (hallowed.resolve_left
        (Int.not_le.mpr hconflict.1))]
      split
      next => exact ⟨rfl, rfl⟩
      next => exact ⟨rfl, rfl⟩
  | cleanup => exact ⟨rfl, rfl⟩
  | list =>
      simp only [Option.all_some, ne_eq, decide_not, Bool.not_eq_true',
        decide_eq_false_iff_not] at hallowed
      simp only [Proc.enter, if_neg hallowed]
      exact ⟨rfl, rfl⟩

/-- What an event does to the value of a semaphore and to the number of those that have waited
on it. -/
theorem Event.sem_holders {held held' : Option Nat} {sem : Option Nat} {h h' : Nat}
    (hbalance : event.balance held = some held')
    (hcount : h' + (decide (held = some f)).toNat = h + (decide (held' = some f)).toNat)
    (hnone : sem = none → h = 0) (hvalue : ∀ v, sem = some v → v + h = 1)
    (hzero : event.initializes = some f → h = 0)
    (hwait : event = .semWait f → ∃ v, sem = some (v + 1)) :
    (event.sem f sem = none → h' = 0) ∧ ∀ v, event.sem f sem = some v → v + h' = 1 := by
  cases event with
  | silent =>
      cases hbalance
      cases Nat.add_right_cancel hcount
      exact ⟨hnone, hvalue⟩
  | memset g =>
      cases hbalance
      cases Nat.add_right_cancel hcount
      simp only [Event.sem]
      split
      next heq => exact ⟨fun _ => hzero (congrArg some heq), fun v hv => (by cases hv)⟩
      next => exact ⟨hnone, hvalue⟩
  | semInit g =>
      cases hbalance
      cases Nat.add_right_cancel hcount
      simp only [Event.sem]
      split
      next heq =>
        refine ⟨fun hv => (by cases hv), fun v hv => ?_⟩
        cases hv
        rw [hzero (congrArg some heq)]
      next => exact ⟨hnone, hvalue⟩
  | semWait g =>
      simp only [Event.balance] at hbalance
      split at hbalance
      next hheld =>
        cases hbalance
        subst hheld
        simp only [Event.sem]
        split
        next heq =>
          subst heq
          obtain ⟨v, hv⟩ := hwait rfl
          subst hv
          have hone := hvalue (v + 1) rfl
          have hone' : h' = h + 1 := by simpa using hcount
          refine ⟨fun hnone => (by cases hnone), fun w hw => ?_⟩
          cases hw
          show v + h' = 1
          omega
        next hne =>
          have hsame : h' = h := by simpa [hne] using hcount
          rw [hsame]
          exact ⟨hnone, hvalue⟩
      next => cases hbalance
  | semPost g =>
      simp only [Event.balance] at hbalance
      split at hbalance
      next hheld =>
        cases hbalance
        subst hheld
        simp only [Event.sem]
        split
        next heq =>
          subst heq
          have hone : h' + 1 = h := by simpa using hcount
          refine ⟨fun hnone => (by cases hnone), fun w hw => ?_⟩
          cases hw
          -- A process that has waited has found the semaphore initialised.
          cases sem with
          | none =>
              rw [hnone rfl] at hone
              cases hone
          | some v =>
              have hvalue := hvalue v rfl
              rw [Option.getD_some]
              omega
        next hne =>
          have hsame : h' = h := by simpa [hne] using hcount
          rw [hsame]
          exact ⟨hnone, hvalue⟩
      next => cases hbalance

/-- A step of a balanced process keeps the semaphores balanced. -/
theorem System.Balanced.step (hbalanced : c.Balanced labels) (hstep : SystemStep c label c')
    (hallowed : Overcommit.balanced c label.1 = true) : c'.Balanced (labels ++ [label]) := by
  have hopened := hbalanced.opened.step hstep
  obtain ⟨proc, n', pc', hlocal, hmove, rfl⟩ := hstep.move
  obtain ⟨p, event⟩ := label
  obtain ⟨hmatched, hrefused⟩ := hbalanced.matched p proc hlocal
  obtain ⟨hevent, hrefused'⟩ := Proc.balance hmove hrefused
    fun f hpc => enter_held hallowed hlocal hpc
  have hcount : ∀ f, System.holders f ⟨n', c.locals.set p { proc with pc := pc' }⟩ +
      (decide (proc.pc.held = some f)).toNat =
      c.holders f + (decide (pc'.held = some f)).toNat := fun f =>
    Processes.count_set _ hlocal n'
  have hzero : ∀ f, event.initializes = some f → c.holders f = 0 := by
    intro f hinit
    rw [Overcommit.balanced, hlocal] at hallowed
    rcases Proc.initializes hmove hinit with hpc | hpc
    · simpa [hpc] using hallowed
    · simpa [hpc] using hallowed
  have hvalue : ∀ f, _ := fun f => Event.sem_holders hevent (hcount f) (hbalanced.none f)
    (hbalanced.value f) (hzero f) fun heq => Proc.semWait (heq ▸ hmove)
  refine ⟨hopened, fun q k hq => ?_, fun f hnone => ?_, fun f v hv => ?_⟩
  · rcases Processes.of_locals_set hq with ⟨rfl, rfl⟩ | ⟨hne, hq⟩
    · exact ⟨(balance_append_self hmatched).trans hevent, hrefused'⟩
    · rw [balance_append_of_ne hne]
      exact hbalanced.matched q k hq
  · rw [Proc.sem hbalanced.opened.shared hmove] at hnone
    exact (hvalue f).1 hnone
  · rw [Proc.sem hbalanced.opened.shared hmove] at hv
    exact (hvalue f).2 v hv

/-- In a run from a node without the shared file, whose steps are allowed, the semaphores are
balanced. -/
theorem semaphore_balanced
    (hrun : Run (fun c label c' => SystemStep c label c' ∧ balanced c label.1 = true)
      (System.new mode ratio procs) labels c') : SemaphoreBalanced labels c' := by
  refine System.Balanced.semaphore ?_
  induction hrun with
  | start => exact System.new_balanced
  | extend prior last ih => exact ih.step last.1 last.2

/-- Two jobs with the same mode, of which the first one ends. -/
theorem semaphore_balanced_two : ∃ labels c',
    Run (fun c label c' => SystemStep c label c' ∧ balanced c label.1 = true)
      (System.new 0 50 [(7, 0, .use 1 90), (8, 0, .use 1 90)]) labels c' ∧
    c'.locals.map Proc.pc = [.done, .running 0] ∧ (c'.shared.files 0).sem = some 1 ∧
    SemaphoreBalanced labels c' := by
  obtain ⟨labels, c', hrun, hpcs, hsem⟩ := Processes.exists_run_of_schedule Proc.step balanced
    (List.replicate 16 0 ++ List.replicate 12 1 ++ [0, 0, 0, 0])
    (System.new 0 50 [(7, 0, .use 1 90), (8, 0, .use 1 90)])
    (fun _ c' => c'.locals.map Proc.pc = [.done, .running 0] ∧
      (c'.shared.files 0).sem = some 1) (by decide +kernel)
  exact ⟨labels, c', hrun, hpcs, hsem, semaphore_balanced hrun⟩

/-- A job with another mode posts twice. A list of the users, while there are none, leaves the
semaphore to nobody. -/
theorem semaphore_unbalanced :
    (∃ labels c',
      Run SystemStep (System.new 0 50 [(7, 0, .use 1 90), (8, 0, .use 2 90)]) labels c' ∧
      balance 1 labels = none ∧ (c'.shared.files 0).sem = some 2 ∧ System.holders 0 c' = 0 ∧
      ¬SemaphoreBalanced labels c') ∧
    ∃ labels c',
      Run SystemStep (System.new 0 50 [(7, 0, .use 1 90), (-1, -1, .list)]) labels c' ∧
      balance 1 labels = some (some 0) ∧ c'.locals[1]?.map Proc.pc = some .done ∧
      (c'.shared.files 0).sem = some 0 ∧ System.holders 0 c' = 0 ∧
      ¬SemaphoreBalanced labels c' := by
  refine ⟨?_, ?_⟩
  · obtain ⟨labels, c', hrun, hbalance, hsem, hholders⟩ := Processes.exists_run_of_schedule
      Proc.step (fun _ _ => true) (List.replicate 16 0 ++ List.replicate 11 1)
      (System.new 0 50 [(7, 0, .use 1 90), (8, 0, .use 2 90)])
      (fun labels c' => balance 1 labels = none ∧ (c'.shared.files 0).sem = some 2 ∧
        System.holders 0 c' = 0) (by decide +kernel)
    refine ⟨labels, c', hrun.mono fun _ _ _ hstep => hstep.1, hbalance, hsem, hholders, ?_⟩
    intro hbalanced
    have hvalue := hbalanced.value 0 2 hsem
    rw [hholders] at hvalue
    cases hvalue
  · obtain ⟨labels, c', hrun, hbalance, hpc, hsem, hholders⟩ := Processes.exists_run_of_schedule
      Proc.step (fun _ _ => true) (List.replicate 8 0 ++ List.replicate 7 1)
      (System.new 0 50 [(7, 0, .use 1 90), (-1, -1, .list)])
      (fun labels c' => balance 1 labels = some (some 0) ∧
        c'.locals[1]?.map Proc.pc = some .done ∧ (c'.shared.files 0).sem = some 0 ∧
        System.holders 0 c' = 0) (by decide +kernel)
    refine ⟨labels, c', hrun.mono fun _ _ _ hstep => hstep.1, hbalance, hpc, hsem, hholders, ?_⟩
    intro hbalanced
    have hvalue := hbalanced.value 0 0 hsem
    rw [hholders] at hvalue
    cases hvalue

end SlurmSpank.Overcommit
