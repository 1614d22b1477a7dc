import SlurmSpank.Overcommit.Process

/-! # Places in the code

What a process has to do with a file, by the place in the code that it has come to, and what it
does to a node while it uses a file.
-/

namespace SlurmSpank.Overcommit

open Foundation

/-- The file that an event initialises. -/
def Event.initializes : Event → Option Nat
  | .memset f | .semInit f => some f
  | _ => none

/-- What an event does to the value of the semaphore of a file. -/
def Event.sem (f : Nat) (sem : Option Nat) : Event → Option Nat
  | .silent => sem
  | .memset g => if g = f then none else sem
  | .semInit g => if g = f then some 1 else sem
  | .semWait g => if g = f then sem.map (· - 1) else sem
  | .semPost g => if g = f then some (sem.getD 0 + 1) else sem

theorem Event.sem_ne_none {event : Event} {f : Nat} {sem : Option Nat}
    (hinit : event.initializes = none) (hsem : sem ≠ none) : event.sem f sem ≠ none := by
  cases event with
  | silent => exact hsem
  | memset g => cases hinit
  | semInit g => cases hinit
  | semWait g =>
      simp only [Event.sem]
      split
      next => simpa using hsem
      next => exact hsem
  | semPost g =>
      simp only [Event.sem]
      split
      next => exact Option.some_ne_none _
      next => exact hsem

namespace Pc

/-- The file that is going to be initialised. -/
def initializing : Pc → Option Nat
  | .sized f false | .resized f | .mapped f | .zeroed f => some f
  | _ => none

/-- The file that a process has come to use, with `sem_wait` as its first step. -/
def works : Pc → Option Nat
  | .waiting f | .inside f | .choosing f | .recording f | .registering f | .posting f _
  | .settingMode f | .settingRatio f | .running f | .unregistering f | .destroying f _
  | .unlinking f _ | .resettingMode f _ | .resettingRatio f _ | .releasing f _ => some f
  | _ => none

/-- The file that has been initialised, as far as the process knows. -/
def uses : Pc → Option Nat
  | .sized f true | .prepared f => some f
  | pc => pc.works

/-- The file that is open. -/
def file : Pc → Option Nat
  | .opened f | .attempted f => some f
  | pc => pc.initializing.or pc.uses

/-- The file whose lock the process may have. -/
def locking : Pc → Option Nat
  | .attempted f | .sized f _ | .resized f | .mapped f | .zeroed f | .prepared f => some f
  | _ => none

variable {pc : Pc} {f : Nat}

theorem uses_of_works (hworks : pc.works = some f) : pc.uses = some f := by
  cases pc with
  | sized g initialized => cases hworks
  | prepared g => cases hworks
  | _ => exact hworks

theorem locking_of_works (hworks : pc.works = some f) : pc.locking = none := by
  cases pc with
  | attempted | sized | resized | mapped | zeroed | prepared => cases hworks
  | _ => rfl

theorem initializing_of_uses (huses : pc.uses = some f) : pc.initializing = none := by
  cases pc with
  | sized g initialized =>
      cases initialized with
      | true => rfl
      | false => cases huses
  | resized | mapped | zeroed => cases huses
  | _ => rfl

theorem file_of_uses (huses : pc.uses = some f) : pc.file = some f := by
  have hor : pc.initializing.or pc.uses = some f := by
    rw [initializing_of_uses huses, Option.none_or, huses]
  cases pc with
  | opened | attempted => cases huses
  | _ => exact hor

theorem file_of_initializing (hinit : pc.initializing = some f) : pc.file = some f := by
  have hor : pc.initializing.or pc.uses = some f := by rw [hinit, Option.some_or]
  cases pc with
  | opened | attempted => cases hinit
  | _ => exact hor

end Pc

variable {n n' : Node} {p f : Nat} {proc : Proc} {event : Event} {pc' : Pc} {file' : SharedFile}

/-- What a process that uses a file does to a node: it changes the structure and the semaphore
of this file, the settings of the kernel, or removes the name. -/
structure Node.UsedBy (event : Event) (f : Nat) (n n' : Node) : Prop where
  created : n'.created = n.created
  linked : ∀ g, n'.linked = some g → n.linked = some g
  others : ∀ g, g ≠ f → n'.files g = n.files g
  size : (n'.files f).size = (n.files f).size
  lock : (n'.files f).lock = (n.files f).lock
  sem : ∀ g, (n'.files g).sem = event.sem g (n.files g).sem

namespace Node.UsedBy

theorem refl : UsedBy .silent f n n := ⟨rfl, fun _ => id, fun _ _ => rfl, rfl, rfl, fun _ => rfl⟩

theorem settings (mode ratio : Int) : UsedBy .silent f n { n with mode, ratio } :=
  ⟨rfl, fun _ => id, fun _ _ => rfl, rfl, rfl, fun _ => rfl⟩

theorem write (hsize : file'.size = (n.files f).size) (hlock : file'.lock = (n.files f).lock)
    (hsem : file'.sem = event.sem f (n.files f).sem)
    (hothers : ∀ g sem, g ≠ f → event.sem g sem = sem) : UsedBy event f n (n.write f file') where
  created := rfl
  linked _ := id
  others g hg := Node.write_files_of_ne _ _ _ hg
  size := by rw [Node.write_files_self, hsize]
  lock := by rw [Node.write_files_self, hlock]
  sem g := by
    by_cases hg : g = f
    · subst hg
      rw [Node.write_files_self]
      exact hsem
    · rw [Node.write_files_of_ne _ _ _ hg, hothers g _ hg]

theorem writeInfo (info : SharedInfo) : UsedBy .silent f n (n.writeInfo f info) :=
  .write rfl rfl rfl fun _ _ _ => rfl

theorem semPost : UsedBy (.semPost f) f n (n.semPost f) :=
  .write rfl rfl (if_pos rfl).symm fun _ _ hg => if_neg (Ne.symm hg)

theorem semWait (hwait : n.semWait f = some n') : UsedBy (.semWait f) f n n' := by
  unfold Node.semWait at hwait
  split at hwait
  next v hv =>
    cases hwait
    refine .write rfl rfl ?_ fun _ _ hg => if_neg (Ne.symm hg)
    rw [Event.sem, if_pos rfl, hv]
    rfl
  next => cases hwait

theorem sem_ne_none (hused : UsedBy event f n n') (hinit : event.initializes = none)
    (hsem : (n.files f).sem ≠ none) : (n'.files f).sem ≠ none := by
  rw [hused.sem]
  exact Event.sem_ne_none hinit hsem

end Node.UsedBy

/-- What a process does while it uses a file. -/
theorem Proc.usedBy (hworks : proc.pc.works = some f)
    (hmove : proc.move p n = some (event, n', pc')) :
    event.initializes = none ∧ n.UsedBy event f n' ∧ pc'.locking = none ∧
      (pc'.works = some f ∨ pc'.file = none) := by
  obtain ⟨jobid, stepid, task, pc⟩ := proc
  -- Each place changes this file alone, or the settings of the kernel, or removes the name.
  cases pc with
  | waiting g | running g =>
      cases hworks
      obtain ⟨_, hwait, hresult⟩ := Option.map_eq_some_iff.mp hmove
      cases hresult
      exact ⟨rfl, .semWait hwait, rfl, .inl rfl⟩
  | inside g =>
      cases hworks
      cases hmove
      refine ⟨rfl, .refl, ?_⟩
      unfold Proc.enter
      split
      next =>
        split
        next => exact ⟨rfl, .inl rfl⟩
        next =>
          split
          next => exact ⟨rfl, .inl rfl⟩
          next => exact ⟨rfl, .inl rfl⟩
      next => exact ⟨rfl, .inl rfl⟩
      next =>
        split
        next => exact ⟨rfl, .inr rfl⟩
        next => exact ⟨rfl, .inl rfl⟩
  | choosing g =>
      cases hworks
      cases task with
      | use mode ratio =>
          cases hmove
          exact ⟨rfl, .writeInfo _, rfl, .inl rfl⟩
      | _ => cases hmove
  | recording g | registering g | unregistering g =>
      cases hworks
      cases hmove
      exact ⟨rfl, .writeInfo _, rfl, .inl rfl⟩
  | posting g rc =>
      cases hworks
      cases rc with
      | _ =>
          cases hmove
          exact ⟨rfl, .semPost, rfl, .inl rfl⟩
  | releasing g refused =>
      cases hworks
      cases hmove
      refine ⟨rfl, .semPost, ?_⟩
      cases refused with
      | _ => exact ⟨rfl, .inr rfl⟩
  | settingMode g =>
      cases hworks
      obtain ⟨rfl, mode, ratio, -, ⟨rfl, rfl⟩ | ⟨rfl, rfl⟩⟩ := Proc.move_settingMode rfl hmove
      · exact ⟨rfl, .settings _ _, rfl, .inl rfl⟩
      · exact ⟨rfl, .refl, rfl, .inl rfl⟩
  | settingRatio g =>
      cases hworks
      cases task with
      | use mode ratio =>
          cases hmove
          exact ⟨rfl, .settings _ _, rfl, .inl rfl⟩
      | _ => cases hmove
  | destroying g refused =>
      cases hworks
      cases hmove
      refine ⟨rfl, .refl, ?_⟩
      split
      next => exact ⟨rfl, .inl rfl⟩
      next => exact ⟨rfl, .inl rfl⟩
  | unlinking g refused =>
      cases hworks
      cases hmove
      refine ⟨rfl, ⟨rfl, fun _ heq => ?_, fun _ _ => rfl, rfl, rfl, fun _ => rfl⟩, rfl, .inl rfl⟩
      cases heq
  | resettingMode g refused =>
      cases hworks
      cases hmove
      refine ⟨rfl, ?_, rfl, .inl rfl⟩
      split
      next => exact .settings _ _
      next => exact .refl
  | resettingRatio g refused =>
      cases hworks
      cases hmove
      exact ⟨rfl, .settings _ _, rfl, .inl rfl⟩
  | sized g initialized => cases initialized with | _ => cases hworks
  | _ => cases hworks

/-! ## Files that have been created -/

/-- A file that has not been created is as new. -/
structure Node.Opened (n : Node) : Prop where
  linked : ∀ f, n.linked = some f → f < n.created
  later : ∀ f, n.created ≤ f → n.files f = .empty

namespace Node.Opened

theorem write (hnode : n.Opened) (hf : f < n.created) : (n.write f file').Opened where
  linked := hnode.linked
  later g hg := by
    rw [Node.write_files_of_ne _ _ _ (Nat.ne_of_gt (Nat.lt_of_lt_of_le hf hg))]
    exact hnode.later g hg

theorem usedBy (hnode : n.Opened) (hf : f < n.created) (hused : n.UsedBy event f n') :
    n'.Opened where
  linked g hg := by
    rw [hused.created]
    exact hnode.linked g (hused.linked g hg)
  later g hg := by
    rw [hused.created] at hg
    rw [hused.others g (Nat.ne_of_gt (Nat.lt_of_lt_of_le hf hg))]
    exact hnode.later g hg

theorem create_files (hnode : n.Opened) : n.create.files = n.files := by
  funext g
  by_cases hg : g = n.created
  · subst hg
    exact (Node.write_files_self n _ _).trans (hnode.later _ (Nat.le_refl _)).symm
  · exact Node.write_files_of_ne n _ _ hg

theorem create (hnode : n.Opened) : n.create.Opened where
  linked f hf := by
    cases hf
    exact Nat.lt_succ_self _
  later f hf := by
    rw [hnode.create_files]
    exact hnode.later f (Nat.le_of_succ_le hf)

theorem getWriteLock (hnode : n.Opened) (hf : f < n.created) : (n.getWriteLock p f).Opened := by
  unfold Node.getWriteLock
  split
  next => exact hnode.write hf
  next => exact hnode

theorem releaseLock (hnode : n.Opened) (hf : f < n.created) : (n.releaseLock p f).Opened := by
  unfold Node.releaseLock
  split
  next => exact hnode.write hf
  next => exact hnode

end Node.Opened

theorem Node.getWriteLock_created : (n.getWriteLock p f).created = n.created := by
  unfold Node.getWriteLock
  split
  next => rfl
  next => rfl

theorem Node.releaseLock_created : (n.releaseLock p f).created = n.created := by
  unfold Node.releaseLock
  split
  next => rfl
  next => rfl

/-- A process opens files that have been created. -/
theorem Proc.opened (hnode : n.Opened) (hfile : ∀ f, proc.pc.file = some f → f < n.created)
    (hmove : proc.move p n = some (event, n', pc')) :
    n'.Opened ∧ n.created ≤ n'.created ∧ ∀ f, pc'.file = some f → f < n'.created := by
  have hstay : ∀ {pc' : Pc}, pc'.file = proc.pc.file →
      n.Opened ∧ n.created ≤ n.created ∧ ∀ f, pc'.file = some f → f < n.created :=
    fun heq => ⟨hnode, Nat.le_refl _, fun f hf => hfile f (heq ▸ hf)⟩
  have hnew : ∀ f, n.linked = some f →
      n.Opened ∧ n.created ≤ n.created ∧ ∀ g, (Pc.opened f).file = some g → g < n.created :=
    fun f hf => ⟨hnode, Nat.le_refl _, fun g hg => Option.some_inj.mp hg ▸ hnode.linked f hf⟩
  -- Between `sem_wait` and `sem_post` the process has its file; before, it looks for one.
  cases hworks : proc.pc.works with
  | some f =>
      have hf := hfile f (Pc.file_of_uses (Pc.uses_of_works hworks))
      obtain ⟨-, hused, -, hpc'⟩ := Proc.usedBy hworks hmove
      refine ⟨hnode.usedBy hf hused, Nat.le_of_eq hused.created.symm, fun g hg => ?_⟩
      rcases hpc' with hpc' | hpc'
      · rw [Pc.file_of_uses (Pc.uses_of_works hpc')] at hg
        cases hg
        exact hused.created ▸ hf
      · rw [hpc'] at hg
        cases hg
  | none =>
      obtain ⟨jobid, stepid, task, pc⟩ := proc
      cases pc with
      | start =>
          simp only [Proc.move] at hmove
          split at hmove
          next =>
            cases hmove
            exact hstay rfl
          next hlinked =>
            cases hmove
            exact hnew _ hlinked
          next =>
            cases hmove
            refine ⟨hnode.create, Nat.le_succ _, fun g hg => ?_⟩
            cases hg
            exact Nat.lt_succ_self _
          next =>
            cases hmove
            exact hstay rfl
      | reopening =>
          simp only [Proc.move] at hmove
          split at hmove
          next =>
            cases hmove
            exact hstay rfl
          next hlinked =>
            cases hmove
            exact hnew _ hlinked
      | opened f =>
          cases hmove
          refine ⟨hnode.getWriteLock (hfile f rfl), ?_⟩
          rw [Node.getWriteLock_created]
          exact ⟨Nat.le_refl _, fun g hg => hfile g hg⟩
      | attempted f =>
          cases hmove
          cases hsize : decide ((n.files f).size = sizeofSharedInfo) with
          | true => exact hstay rfl
          | false => exact hstay rfl
      | sized f initialized =>
          cases initialized with
          | true =>
              cases hmove
              exact hstay rfl
          | false =>
              cases hmove
              exact ⟨hnode.write (hfile f rfl), Nat.le_refl _, fun g hg => hfile g hg⟩
      | resized f =>
          cases hmove
          exact hstay rfl
      | mapped f | zeroed f =>
          cases hmove
          exact ⟨hnode.write (hfile f rfl), Nat.le_refl _, fun g hg => hfile g hg⟩
      | prepared f =>
          cases hmove
          refine ⟨hnode.releaseLock (hfile f rfl), ?_⟩
          rw [Node.releaseLock_created]
          exact ⟨Nat.le_refl _, fun g hg => hfile g hg⟩
      | done | crashed => cases hmove
      | dangling =>
          cases hmove
          exact hstay rfl
      | _ => cases hworks

/-- The files that the processes have opened have been created. -/
abbrev System.Opened (c : System) : Prop :=
  c.Holds Node.Opened fun n _ proc => ∀ f, proc.pc.file = some f → f < n.created

/-- The step of a process, as a move. -/
theorem SystemStep.move {c c' : System} {label : Nat × Event} (hstep : SystemStep c label c') :
    ∃ proc n' pc', c.locals[label.1]? = some proc ∧
      proc.move label.1 c.shared = some (label.2, n', pc') ∧
      c' = ⟨n', c.locals.set label.1 { proc with pc := pc' }⟩ := by
  cases hstep with
  | @step p proc proc' event n' hlocal hstep =>
      obtain ⟨⟨event, n', pc'⟩, hmove, hresult⟩ := Option.map_eq_some_iff.mp hstep
      cases hresult
      exact ⟨proc, n', pc', hlocal, hmove, rfl⟩

theorem System.Opened.step {c c' : System} {label : Nat × Event} (hopened : c.Opened)
    (hstep : SystemStep c label c') : c'.Opened := by
  obtain ⟨proc, n', pc', hlocal, hmove, rfl⟩ := hstep.move
  obtain ⟨hnode, hcreated, hpc'⟩ :=
    Proc.opened hopened.shared (hopened.locals _ proc hlocal) hmove
  exact Processes.Holds.step hopened hlocal ⟨hnode, hpc'⟩ fun q k _ _ hk f hf =>
    Nat.lt_of_lt_of_le (hk f hf) hcreated

theorem System.new_opened {mode ratio : Int} {procs : List (Int × Int × Task)} :
    (System.new mode ratio procs).Opened where
  shared := ⟨fun f hf => (by cases hf), fun _ _ => rfl⟩
  locals p proc hp f hf := by
    rw [(System.new_locals hp).1] at hf
    cases hf

end SlurmSpank.Overcommit
