import SlurmSpank.Overcommit.PolicyStep
import SlurmSpank.Overcommit.Table

/-! # One step of an operation

While the other processes rest, each place in the code of an operation has what holds of the
files, of the name and of the settings of the kernel there.
-/

namespace SlurmSpank.Overcommit

open Foundation

/-! ## What holds of a node -/

namespace Node

/-- The files have been initialised, and the ratio has been recorded in them. -/
def Recorded (ratio₀ : Int) (n : Node) : Prop :=
  ∀ g, g < n.created → (n.files g).info.previousOvercommitRatio = ratio₀ ∧
    (n.files g).size = sizeofSharedInfo

/-- Between two operations, the file that has the name has users. Without such a file, the
settings of the kernel are as they have been. -/
structure Settled (mode₀ ratio₀ : Int) (n : Node) : Prop where
  recorded : n.Recorded ratio₀
  used : ∀ f, n.linked = some f → 0 < (n.files f).info.nusers
  reset : n.linked = none → n.mode = mode₀ ∧ n.ratio = ratio₀

/-- A process has created a file, and there are no users yet. A process that does not set a mode
has nothing to record. -/
structure Creating (mode₀ ratio₀ : Int) (f : Nat) (task : Task) (n : Node) : Prop where
  linked : n.linked = some f
  others : ∀ g, g < n.created → g ≠ f →
    (n.files g).info.previousOvercommitRatio = ratio₀ ∧ (n.files g).size = sizeofSharedInfo
  nusers : (n.files f).info.nusers = 0
  mode : n.mode = mode₀
  ratio : n.ratio = ratio₀
  recorded : task.mode = none → (n.files f).info.previousOvercommitRatio = ratio₀
  task : task ≠ .list

/-- A process is about to leave a file, of which it may have been the last user. -/
structure Leaving (mode₀ ratio₀ : Int) (f : Nat) (n : Node) : Prop where
  recorded : n.Recorded ratio₀
  created : f < n.created
  used : ∀ g, n.linked = some g → g ≠ f → 0 < (n.files g).info.nusers
  reset : n.linked = none → n.mode = mode₀ ∧ n.ratio = ratio₀

end Node

/-- What holds of the node, by the place in the code of the process that is at work. -/
def Doing (mode₀ ratio₀ : Int) (n : Node) (task : Task) : Pc → Prop
  | .start | .done | .dangling | .crashed | .releasing _ _ => n.Settled mode₀ ratio₀
  | .running f => n.Settled mode₀ ratio₀ ∧ f < n.created
  | .reopening => n.Settled mode₀ ratio₀ ∧ n.linked ≠ none
  | .opened f | .attempted f => (n.Settled mode₀ ratio₀ ∧ n.linked = some f) ∨
      (n.Creating mode₀ ratio₀ f task ∧ (n.files f).info = .zero ∧
        (n.files f).size ≠ sizeofSharedInfo)
  | .sized f false => n.Creating mode₀ ratio₀ f task ∧ (n.files f).info = .zero
  | .resized f | .mapped f | .zeroed f => n.Creating mode₀ ratio₀ f task ∧
      (n.files f).info = .zero ∧ (n.files f).size = sizeofSharedInfo
  | .prepared f | .waiting f | .inside f => (n.Settled mode₀ ratio₀ ∧ n.linked = some f) ∨
      (n.Creating mode₀ ratio₀ f task ∧ (n.files f).size = sizeofSharedInfo)
  | .choosing f | .recording f => n.Creating mode₀ ratio₀ f task ∧
      (n.files f).size = sizeofSharedInfo ∧ task.mode ≠ none
  | .registering f => n.Recorded ratio₀ ∧ n.linked = some f ∧ task.mode ≠ none
  | .sized f true | .posting f _ | .settingMode f | .settingRatio f | .destroying f true =>
      n.Settled mode₀ ratio₀ ∧ n.linked = some f
  | .unregistering f | .destroying f false => n.Leaving mode₀ ratio₀ f
  | .unlinking f _ => n.Recorded ratio₀ ∧ f < n.created
  | .resettingMode f _ => n.Recorded ratio₀ ∧ f < n.created ∧ n.linked = none
  | .resettingRatio f _ =>
      n.Recorded ratio₀ ∧ f < n.created ∧ n.linked = none ∧ n.mode = mode₀

/-- Whether a process is between two operations. -/
def Pc.resting : Pc → Bool
  | .start | .running _ | .done | .dangling | .crashed => true
  | _ => false

/-- The other processes are between two operations. -/
def alone (c : System) (p : Nat) : Bool := (c.locals.eraseIdx p).all (·.pc.resting)

/-- The entry of a job in the table. -/
def Proc.entry (proc : Proc) : JobInfo := ⟨proc.jobid, proc.stepid, true⟩

/-- The settings that a step may reset are those that there have been: the mode is reset to 0,
and a cleanup finds the file, or a ratio of 0. An entry that is taken from the table is in use,
and that of the job itself, if it has one. -/
def restores (mode₀ : Int) (c : System) (p : Nat) : Bool :=
  c.locals[p]?.all fun proc =>
    match proc.pc, proc.task with
    | .start, .cleanup => c.shared.linked ≠ none || c.shared.ratio = 0
    | .resettingMode _ _, _ => mode₀ = 0
    | .unregistering f, task =>
        let info := (c.shared.files f).info
        if task.mode ≠ none ∧ proc.entry ∈ info.users then
          info.entryOf proc.jobid proc.stepid = some proc.entry
        else (info.entryOf proc.jobid proc.stepid).all (·.used)
    | _, _ => true

variable {mode₀ ratio₀ : Int} {n n' : Node} {p q f g : Nat} {proc : Proc} {event : Event}
  {pc pc' : Pc} {task : Task} {c c' : System} {label : Nat × Event}

/-- What `Doing` speaks of is the same for two nodes. -/
structure Node.Same (n n' : Node) : Prop where
  created : n'.created = n.created
  linked : n'.linked = n.linked
  mode : n'.mode = n.mode
  ratio : n'.ratio = n.ratio
  info : ∀ g, (n'.files g).info = (n.files g).info
  size : ∀ g, (n'.files g).size = (n.files g).size

theorem Node.Same.write {file' : SharedFile} (hinfo : file'.info = (n.files f).info)
    (hsize : file'.size = (n.files f).size) : n.Same (n.write f file') where
  created := rfl
  linked := rfl
  mode := rfl
  ratio := rfl
  info := write_info hinfo
  size g := by
    by_cases hg : g = f
    · rw [hg, Node.write_files_self, hsize]
    · rw [Node.write_files_of_ne _ _ _ hg]

theorem Node.Same.semWait (hwait : n.semWait f = some n') : n.Same n' := by
  unfold Node.semWait at hwait
  split at hwait
  next =>
    cases hwait
    exact .write rfl rfl
  next => cases hwait

namespace Node

theorem Recorded.same (hrecorded : n.Recorded ratio₀) (hsame : n.Same n') :
    n'.Recorded ratio₀ := by
  intro g hg
  rw [hsame.info, hsame.size]
  exact hrecorded g (hsame.created ▸ hg)

theorem Settled.same (hsettled : n.Settled mode₀ ratio₀) (hsame : n.Same n') :
    n'.Settled mode₀ ratio₀ where
  recorded := hsettled.recorded.same hsame
  used f hf := by
    rw [hsame.info]
    exact hsettled.used f (hsame.linked ▸ hf)
  reset hf := by
    rw [hsame.mode, hsame.ratio]
    exact hsettled.reset (hsame.linked ▸ hf)

theorem Creating.same (hcreating : n.Creating mode₀ ratio₀ f task) (hsame : n.Same n') :
    n'.Creating mode₀ ratio₀ f task where
  linked := hsame.linked.trans hcreating.linked
  others g hg := by
    rw [hsame.info, hsame.size]
    exact hcreating.others g (hsame.created ▸ hg)
  nusers := by
    rw [hsame.info]
    exact hcreating.nusers
  mode := hsame.mode.trans hcreating.mode
  ratio := hsame.ratio.trans hcreating.ratio
  recorded := by
    rw [hsame.info]
    exact hcreating.recorded
  task := hcreating.task

/-- The process writes to the file that it creates. -/
theorem Creating.write {file' : SharedFile} (hcreating : n.Creating mode₀ ratio₀ f task)
    (hnusers : file'.info.nusers = 0)
    (hrecorded : task.mode = none → file'.info.previousOvercommitRatio = ratio₀) :
    (n.write f file').Creating mode₀ ratio₀ f task where
  linked := hcreating.linked
  others g hg hne := by
    rw [write_files_of_ne _ _ _ hne]
    exact hcreating.others g hg hne
  nusers := by
    rw [write_files_self]
    exact hnusers
  mode := hcreating.mode
  ratio := hcreating.ratio
  recorded := by
    rw [write_files_self]
    exact hrecorded
  task := hcreating.task

end Node

/-- A process opens the file that has the name, or creates it. -/
theorem Doing.start (hsettled : n.Settled mode₀ ratio₀) (hopened : n.Opened)
    (hpc : proc.pc = .start)
    (hcleanup : proc.task = .cleanup → n.linked ≠ none ∨ n.ratio = 0)
    (hmove : proc.move p n = some (event, n', pc')) : Doing mode₀ ratio₀ n' proc.task pc' := by
  simp only [Proc.move, hpc] at hmove
  split at hmove
  next =>
    cases hmove
    exact hsettled
  next _ hlinked =>
    cases hmove
    exact Or.inl ⟨hsettled, hlinked⟩
  next hlinked hlist =>
    cases hmove
    have hfiles := hopened.create_files
    have hempty := hopened.later n.created (Nat.le_refl _)
    refine Or.inr ⟨⟨rfl, fun g hg hne => ?_, ?_, ?_, ?_, fun htask => ?_, ?_⟩, ?_, ?_⟩
    · rw [hfiles]
      exact hsettled.recorded g (Nat.lt_of_le_of_ne (Nat.le_of_lt_succ hg) hne)
    · rw [hfiles, hempty]
      rfl
    · exact (hsettled.reset hlinked).1
    · exact (hsettled.reset hlinked).2
    · -- A cleanup that creates the file records nothing: the ratio there is 0.
      rw [hfiles, hempty]
      have hzero : n.ratio = 0 := by
        cases htask' : proc.task with
        | use mode ratio =>
            rw [htask'] at htask
            cases htask
        | cleanup => exact (hcleanup htask').resolve_left fun hne => hne hlinked
        | list => exact (hlist htask').elim
      exact hzero.symm.trans (hsettled.reset hlinked).2
    · exact hlist
    · rw [hfiles, hempty]
      rfl
    · rw [hfiles, hempty]
      exact Nat.zero_ne_add_one _
  next hlinked _ =>
    cases hmove
    refine ⟨hsettled, ?_⟩
    rw [hlinked]
    exact Option.some_ne_none _

/-- A process looks at the file, and initialises it if it has created it. -/
theorem Doing.opening (hdoing : Doing mode₀ ratio₀ n proc.task proc.pc) (hopened : n.Opened)
    (hworks : proc.pc.works = none) (hpc : proc.pc ≠ .start)
    (hmove : proc.move p n = some (event, n', pc')) : Doing mode₀ ratio₀ n' proc.task pc' := by
  obtain ⟨jobid, stepid, task, pc⟩ := proc
  -- The file is the one that has users, or this process has created it.
  cases pc with
  | start => exact absurd rfl hpc
  | reopening =>
      obtain ⟨hsettled, hlinked⟩ := hdoing
      simp only [Proc.move] at hmove
      split at hmove
      next hnone => exact absurd hnone hlinked
      next hsome =>
        cases hmove
        exact Or.inl ⟨hsettled, hsome⟩
  | opened f =>
      cases hmove
      have hsame : n.Same (n.getWriteLock p f) := by
        unfold Node.getWriteLock
        split
        next => exact .write rfl rfl
        next => exact ⟨rfl, rfl, rfl, rfl, fun _ => rfl, fun _ => rfl⟩
      refine hdoing.imp (fun h => ⟨h.1.same hsame, hsame.linked.trans h.2⟩)
        fun h => ⟨h.1.same hsame, ?_, ?_⟩
      · rw [hsame.info]
        exact h.2.1
      · rw [hsame.size]
        exact h.2.2
  | attempted f =>
      cases hmove
      cases hsize : decide ((n.files f).size = sizeofSharedInfo) with
      | true =>
          refine hdoing.resolve_right fun h => ?_
          exact h.2.2 (of_decide_eq_true hsize)
      | false =>
          rcases hdoing with h | h
          · have hrecorded := h.1.recorded f (hopened.linked f h.2)
            exact absurd hrecorded.2 (of_decide_eq_false hsize)
          · exact ⟨h.1, h.2.1⟩
  | sized f initialized =>
      cases initialized with
      | true =>
          cases hmove
          exact Or.inl hdoing
      | false =>
          cases hmove
          refine ⟨hdoing.1.write hdoing.1.nusers hdoing.1.recorded, ?_, ?_⟩
          · rw [Node.write_files_self]
            exact hdoing.2
          · rw [Node.write_files_self]
  | resized f =>
      cases hmove
      exact hdoing
  | mapped f =>
      cases hmove
      obtain ⟨hcreating, hinfo, hsize⟩ := hdoing
      have hcleared : (n.files f).info.cleared = (n.files f).info := by
        rw [hinfo, SharedInfo.cleared_zero]
      rw [hcleared]
      refine ⟨hcreating.write hcreating.nusers hcreating.recorded, ?_, ?_⟩
      · rw [Node.write_files_self]
        exact hinfo
      · rw [Node.write_files_self]
        exact hsize
  | zeroed f =>
      cases hmove
      have hsame : n.Same (n.write f { n.files f with sem := some 1 }) := .write rfl rfl
      refine Or.inr ⟨hdoing.1.same hsame, ?_⟩
      rw [hsame.size]
      exact hdoing.2.2
  | prepared f =>
      cases hmove
      have hsame : n.Same (n.releaseLock p f) := by
        unfold Node.releaseLock
        split
        next => exact .write rfl rfl
        next => exact ⟨rfl, rfl, rfl, rfl, fun _ => rfl, fun _ => rfl⟩
      refine hdoing.imp (fun h => ⟨h.1.same hsame, hsame.linked.trans h.2⟩)
        fun h => ⟨h.1.same hsame, ?_⟩
      rw [hsame.size]
      exact h.2
  | dangling =>
      cases hmove
      exact hdoing
  | done | crashed => cases hmove
  | _ => cases hworks

theorem Node.writeInfo_info (info : SharedInfo) : ((n.writeInfo f info).files f).info = info := by
  rw [Node.writeInfo, Node.write_files_self]

theorem Node.writeInfo_size (info : SharedInfo) (g : Nat) :
    ((n.writeInfo f info).files g).size = (n.files g).size := by
  by_cases hg : g = f
  · rw [hg, Node.writeInfo, Node.write_files_self]
  · rw [Node.writeInfo, Node.write_files_of_ne _ _ _ hg]

/-- The ratio stays recorded in a file that is written to. -/
theorem Node.Recorded.writeInfo {info : SharedInfo} (hrecorded : n.Recorded ratio₀)
    (hinfo : info.previousOvercommitRatio = (n.files f).info.previousOvercommitRatio) :
    (n.writeInfo f info).Recorded ratio₀ := by
  intro g hg
  rw [Node.writeInfo_size]
  by_cases heq : g = f
  · subst heq
    rw [Node.writeInfo_info, hinfo]
    exact hrecorded g hg
  · rw [Node.writeInfo, Node.write_files_of_ne _ _ _ heq]
    exact hrecorded g hg

theorem Node.Creating.recorded_all (hcreating : n.Creating mode₀ ratio₀ f task)
    (hratio : (n.files f).info.previousOvercommitRatio = ratio₀)
    (hsize : (n.files f).size = sizeofSharedInfo) : n.Recorded ratio₀ := by
  intro g hg
  by_cases heq : g = f
  · subst heq
    exact ⟨hratio, hsize⟩
  · exact hcreating.others g hg heq

/-- What `overcommit_in_use` decides, and where the other tasks go on. -/
theorem Doing.enter (hdoing : (n.Settled mode₀ ratio₀ ∧ n.linked = some f) ∨
      (n.Creating mode₀ ratio₀ f task ∧ (n.files f).size = sizeofSharedInfo))
    (hopened : n.Opened) : Doing mode₀ ratio₀ n task (Proc.enter (n.files f).info f task) := by
  have hleaving : ∀ {task : Task}, task.mode = none →
      (n.Settled mode₀ ratio₀ ∧ n.linked = some f) ∨
        (n.Creating mode₀ ratio₀ f task ∧ (n.files f).size = sizeofSharedInfo) →
      n.Leaving mode₀ ratio₀ f := by
    intro task hmode hdoing
    have hlinked : n.linked = some f := hdoing.elim (·.2) (·.1.linked)
    refine ⟨?_, hopened.linked f hlinked, fun g hg hne => ?_, fun hnone => ?_⟩
    · rcases hdoing with h | h
      · exact h.1.recorded
      · exact h.1.recorded_all (h.1.recorded hmode) h.2
    · exact absurd (Option.some_inj.mp (hg.symm.trans hlinked)) hne
    · rw [hlinked] at hnone
      cases hnone
  cases task with
  | use mode ratio =>
      simp only [Proc.enter]
      split
      -- A conflict of policies needs a user, so the file is not the one of this process.
      next hconflict =>
        refine hdoing.resolve_right fun h => ?_
        exact absurd h.1.nusers (Int.ne_of_gt hconflict.1)
      next =>
        split
        next hnone =>
          rcases hdoing with h | h
          · exact absurd hnone (Int.ne_of_gt (h.1.used f h.2))
          · exact ⟨h.1, h.2, Option.some_ne_none mode⟩
        next hsome =>
          rcases hdoing with h | h
          · exact ⟨h.1.recorded, h.2, Option.some_ne_none mode⟩
          · exact absurd h.1.nusers hsome
  | cleanup => exact hleaving rfl hdoing
  | list =>
      simp only [Proc.enter]
      split
      next hnone =>
        rcases hdoing with h | h
        · exact absurd hnone (Int.ne_of_gt (h.1.used f h.2))
        · exact absurd rfl h.1.task
      next => exact hleaving rfl hdoing

/-- A job that is registered may change the settings. -/
theorem Node.Settled.settings (hsettled : n.Settled mode₀ ratio₀) (hlinked : n.linked = some f)
    (mode ratio : Int) : Node.Settled mode₀ ratio₀ { n with mode, ratio } where
  recorded := hsettled.recorded
  used := hsettled.used
  reset hnone := by cases hnone.symm.trans hlinked

/-- A process uses the file, up to the end of its operation. -/
theorem Doing.working (hdoing : Doing mode₀ ratio₀ n proc.task proc.pc) (hopened : n.Opened)
    (htabled : ∀ f, (n.files f).info.Tabled) (hworks : proc.pc.works = some f)
    (hmode : ∀ refused, proc.pc = .resettingMode f refused → mode₀ = 0)
    (hmove : proc.move p n = some (event, n', pc')) : Doing mode₀ ratio₀ n' proc.task pc' := by
  obtain ⟨jobid, stepid, task, pc⟩ := proc
  cases pc with
  | waiting g =>
      cases hworks
      obtain ⟨_, hwait, hresult⟩ := Option.map_eq_some_iff.mp hmove
      cases hresult
      have hsame := Node.Same.semWait hwait
      refine hdoing.imp (fun h => ⟨h.1.same hsame, hsame.linked.trans h.2⟩)
        fun h => ⟨h.1.same hsame, ?_⟩
      rw [hsame.size]
      exact h.2
  | inside g =>
      cases hworks
      cases hmove
      exact Doing.enter hdoing hopened
  -- The file is new, and nobody is registered in it, until the ratio has been recorded.
  | choosing g =>
      cases hworks
      obtain ⟨hcreating, hsize, hmode⟩ := hdoing
      cases task with
      | use mode ratio =>
          cases hmove
          refine ⟨hcreating.write hcreating.nusers (fun h => by cases h), ?_, hmode⟩
          rw [Node.writeInfo_size]
          exact hsize
      | _ => cases hmove
  | recording g =>
      cases hworks
      cases hmove
      obtain ⟨hcreating, hsize, hmode⟩ := hdoing
      have hwritten : Node.Creating mode₀ ratio₀ f task
          (n.writeInfo f { (n.files f).info with previousOvercommitRatio := n.ratio }) :=
        hcreating.write hcreating.nusers fun _ => hcreating.ratio
      refine ⟨hwritten.recorded_all ?_ ?_, hcreating.linked, hmode⟩
      · rw [Node.writeInfo_info]
        exact hcreating.ratio
      · rw [Node.writeInfo_size]
        exact hsize
  | registering g =>
      cases hworks
      cases hmove
      obtain ⟨hrecorded, hlinked, -⟩ := hdoing
      refine ⟨⟨hrecorded.writeInfo SharedInfo.registerJob_previousOvercommitRatio,
        fun g hg => ?_, fun hnone => ?_⟩, hlinked⟩
      · cases Option.some_inj.mp (hg.symm.trans hlinked)
        rw [Node.writeInfo_info]
        exact SharedInfo.registerJob_nusers_pos (htabled f)
      · cases hnone.symm.trans hlinked
  | posting g rc =>
      cases hworks
      have hsame : n.Same (n.semPost f) := .write rfl rfl
      cases rc with
      | _ =>
          cases hmove
          exact ⟨hdoing.1.same hsame, hdoing.2⟩
  | settingMode g =>
      cases hworks
      obtain ⟨hsettled, hlinked⟩ := hdoing
      obtain ⟨rfl, mode, ratio, -, ⟨rfl, rfl⟩ | ⟨rfl, rfl⟩⟩ := Proc.move_settingMode rfl hmove
      · exact ⟨hsettled.settings hlinked mode n.ratio, hlinked⟩
      · exact ⟨hsettled, hopened.linked f hlinked⟩
  | settingRatio g =>
      cases hworks
      obtain ⟨hsettled, hlinked⟩ := hdoing
      cases task with
      | use mode ratio =>
          cases hmove
          exact ⟨hsettled.settings hlinked n.mode ratio, hopened.linked f hlinked⟩
      | _ => cases hmove
  | running g =>
      cases hworks
      obtain ⟨_, hwait, hresult⟩ := Option.map_eq_some_iff.mp hmove
      cases hresult
      have hsame := Node.Same.semWait hwait
      have hsettled := hdoing.1.same hsame
      exact ⟨hsettled.recorded, hsame.created ▸ hdoing.2, fun g hg _ => hsettled.used g hg,
        hsettled.reset⟩
  | unregistering g =>
      cases hworks
      cases hmove
      refine ⟨hdoing.recorded.writeInfo SharedInfo.unregisterJob_previousOvercommitRatio,
        hdoing.created, fun g hg hne => ?_, hdoing.reset⟩
      rw [Node.writeInfo, Node.write_files_of_ne _ _ _ hne]
      exact hdoing.used g hg hne
  | destroying g refused =>
      cases hworks
      cases hmove
      cases refused with
      | true =>
          split
          next hnone => exact absurd hnone (Int.ne_of_gt (hdoing.1.used f hdoing.2))
          next => exact hdoing.1
      | false =>
          split
          next => exact ⟨hdoing.recorded, hdoing.created⟩
          next hsome =>
            refine ⟨hdoing.recorded, fun g hg => ?_, hdoing.reset⟩
            by_cases heq : g = f
            · subst heq
              have hnonneg := (htabled g).nusers_nonneg
              omega
            · exact hdoing.used g hg heq
  | unlinking g refused =>
      cases hworks
      cases hmove
      exact ⟨hdoing.1, hdoing.2, rfl⟩
  | resettingMode g refused =>
      cases hworks
      cases hmove
      have hzero := hmode refused rfl
      split
      next => exact ⟨hdoing.1, hdoing.2.1, hdoing.2.2, hzero.symm⟩
      next hmode =>
        exact ⟨hdoing.1, hdoing.2.1, hdoing.2.2, (not_not.mp hmode).trans hzero.symm⟩
  | resettingRatio g refused =>
      cases hworks
      cases hmove
      obtain ⟨hrecorded, hcreated, hlinked, hreset⟩ := hdoing
      refine ⟨hrecorded, fun g hg => ?_, fun _ => ⟨hreset, (hrecorded f hcreated).1⟩⟩
      cases hlinked.symm.trans hg
  | releasing g refused =>
      cases hworks
      cases hmove
      have hsame : n.Same (n.semPost f) := .write rfl rfl
      cases refused with
      | _ => exact Node.Settled.same hdoing hsame
  | sized g initialized => cases initialized <;> cases hworks
  | _ => cases hworks

end SlurmSpank.Overcommit
