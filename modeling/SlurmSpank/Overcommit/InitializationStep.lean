import SlurmSpank.Overcommit.Places

/-! # One step of the initialisation

A process that initialises the shared file has its lock. The steps of the other processes leave
such a file alone, and what has been initialised stays so.
-/

namespace SlurmSpank.Overcommit

/-! ## What holds of the lock and of the semaphore -/

/-- The steps of a run that initialise a file. -/
def initializations (f : Nat) (labels : List (Nat × Event)) : List (Nat × Event) :=
  labels.filter fun label => label.2 = .memset f || label.2 = .semInit f

/-- A file whose semaphore has not been initialised is as new. One that has its size and is not
locked has been initialised. -/
structure SharedFile.Sound (labels : List (Nat × Event)) (f : Nat) (file : SharedFile) :
    Prop where
  blank : file.sem = none → file.info = .zero
  sized : file.sem ≠ none → file.size = sizeofSharedInfo
  free : file.lock = none → file.sem = none →
    file.size ≠ sizeofSharedInfo ∧ initializations f labels = []
  once : file.sem ≠ none → ∃ p, initializations f labels = [(p, .memset f), (p, .semInit f)]
  ordered : ∃ p, initializations f labels <+: [(p, .memset f), (p, .semInit f)]

/-- Everything is in order with the files of a node. -/
def Node.Sound (labels : List (Nat × Event)) (n : Node) : Prop :=
  ∀ f, (n.files f).Sound labels f

/-- A process that initialises a file has its lock, and one that uses it does so later. -/
structure Pc.Sound (labels : List (Nat × Event)) (n : Node) (p : Nat) (pc : Pc) : Prop where
  held : ∀ f, (n.files f).lock = some p → pc.locking = some f
  attempted : ∀ f, pc = .attempted f → (n.files f).lock = some p → (n.files f).sem = none →
    (n.files f).size ≠ sizeofSharedInfo ∧ initializations f labels = []
  initializing : ∀ f, pc.initializing = some f →
    (n.files f).lock = some p ∧ (n.files f).sem = none ∧
      (pc ≠ .sized f false → (n.files f).size = sizeofSharedInfo) ∧
      initializations f labels = if pc = .zeroed f then [(p, .memset f)] else []
  uses : ∀ f, pc.uses = some f → (n.files f).sem ≠ none

variable {labels : List (Nat × Event)} {n n' : Node} {p q f g : Nat} {proc : Proc}
  {event : Event} {pc pc' : Pc} {file' : SharedFile}

theorem initializations_append :
    initializations f (labels ++ [(p, event)]) = initializations f labels ++
      if event = .memset f ∨ event = .semInit f then [(p, event)] else [] := by
  rw [initializations, List.filter_append]
  congr 1
  by_cases hevent : event = .memset f ∨ event = .semInit f
  · rw [if_pos hevent]
    exact List.filter_cons_of_pos (by simpa using hevent)
  · rw [if_neg hevent]
    exact List.filter_cons_of_neg (by simpa using hevent)

theorem initializations_append_of_ne (hmemset : event ≠ .memset f) (hinit : event ≠ .semInit f) :
    initializations f (labels ++ [(p, event)]) = initializations f labels := by
  rw [initializations_append, if_neg (not_or.mpr ⟨hmemset, hinit⟩), List.append_nil]

theorem initializations_append_of_initializes (hevent : event.initializes ≠ some f) :
    initializations f (labels ++ [(p, event)]) = initializations f labels := by
  refine initializations_append_of_ne ?_ ?_
  · rintro rfl
    exact hevent rfl
  · rintro rfl
    exact hevent rfl

theorem SharedFile.Sound.append (hsound : file'.Sound labels f)
    (hevent : event.initializes ≠ some f) : file'.Sound (labels ++ [(p, event)]) f where
  blank := hsound.blank
  sized := hsound.sized
  free := by
    rw [initializations_append_of_initializes hevent]
    exact hsound.free
  once := by
    rw [initializations_append_of_initializes hevent]
    exact hsound.once
  ordered := by
    rw [initializations_append_of_initializes hevent]
    exact hsound.ordered

theorem SharedFile.Sound.silent (hsound : file'.Sound labels f) (p : Nat) :
    file'.Sound (labels ++ [(p, .silent)]) f :=
  hsound.append (fun heq => by cases heq)

/-- A step that writes to one file keeps a node in order, if it does so with this file. -/
theorem Node.Sound.write (hsound : n.Sound labels)
    (hfile : file'.Sound (labels ++ [(p, event)]) f)
    (hevent : ∀ g, event.initializes = some g → g = f) :
    (n.write f file').Sound (labels ++ [(p, event)]) := by
  intro g
  by_cases hg : g = f
  · subst hg
    rw [Node.write_files_self]
    exact hfile
  · rw [Node.write_files_of_ne _ _ _ hg]
    exact (hsound g).append fun heq => hg (hevent g heq)

/-! ## One step -/

/-- A step of a process that uses an initialised file keeps the node in order. -/
theorem Node.Sound.usedBy (hsound : n.Sound labels) (hsem : (n.files f).sem ≠ none)
    (hused : n.UsedBy event f n') (hevent : event.initializes = none) :
    n'.Sound (labels ++ [(p, event)]) := by
  intro g
  by_cases hg : g = f
  · subst hg
    have hsound := hsound g
    refine ⟨fun hnone => absurd hnone (hused.sem_ne_none hevent hsem), fun _ => ?_,
      fun _ hnone => absurd hnone (hused.sem_ne_none hevent hsem), fun _ => ?_, ?_⟩
    · rw [hused.size]
      exact hsound.sized hsem
    · rw [initializations_append_of_initializes (by simp [hevent])]
      exact hsound.once hsem
    · rw [initializations_append_of_initializes (by simp [hevent])]
      exact hsound.ordered
  · rw [hused.others g hg]
    exact (hsound g).append (by simp [hevent])

/-- A silent step that leaves the files alone keeps the node in order. -/
theorem Node.Sound.silent (hsound : n.Sound labels) (hfiles : n'.files = n.files) :
    n'.Sound (labels ++ [(p, .silent)]) := by
  intro f
  rw [hfiles]
  exact (hsound f).silent p

/-- What a process relies on while another one makes a step. -/
structure Node.Kept (q : Nat) (labels labels' : List (Nat × Event)) (n n' : Node) : Prop where
  lock : ∀ f, (n'.files f).lock = some q ↔ (n.files f).lock = some q
  sem : ∀ f, (n.files f).sem ≠ none → (n'.files f).sem ≠ none
  locked : ∀ f, (n.files f).lock = some q → (n'.files f).size = (n.files f).size ∧
    ((n'.files f).sem = none ↔ (n.files f).sem = none) ∧
    initializations f labels' = initializations f labels

theorem Pc.Sound.kept {labels' : List (Nat × Event)} (hsound : pc.Sound labels n q)
    (hkept : n.Kept q labels labels' n') : pc.Sound labels' n' q where
  held f hf := hsound.held f ((hkept.lock f).mp hf)
  attempted f hpc hlock hsem := by
    have hlock := (hkept.lock f).mp hlock
    obtain ⟨hsize, hnone, hinits⟩ := hkept.locked f hlock
    rw [hsize, hinits]
    exact hsound.attempted f hpc hlock (hnone.mp hsem)
  initializing f hf := by
    obtain ⟨hlock, hsem, hresized, heq⟩ := hsound.initializing f hf
    obtain ⟨hsize, hnone, hinits⟩ := hkept.locked f hlock
    rw [hsize, hinits]
    exact ⟨(hkept.lock f).mpr hlock, hnone.mpr hsem, hresized, heq⟩
  uses f hf := hkept.sem f (hsound.uses f hf)

namespace Node.Kept

/-- A silent step that leaves the files alone. -/
theorem silent (hfiles : n'.files = n.files) :
    n.Kept q labels (labels ++ [(p, .silent)]) n' where
  lock f := by rw [hfiles]
  sem f := by
    rw [hfiles]
    exact id
  locked f _ := by
    rw [hfiles]
    exact ⟨rfl, Iff.rfl, initializations_append_of_initializes (by simp [Event.initializes])⟩

/-- A step that writes to a file that the other process has not locked. -/
theorem write (hlock : (n.files f).lock ≠ some q) (hlock' : file'.lock ≠ some q)
    (hsem : (n.files f).sem ≠ none → file'.sem ≠ none)
    (hevent : ∀ g, event.initializes = some g → g = f) :
    n.Kept q labels (labels ++ [(p, event)]) (n.write f file') where
  lock g := by
    by_cases hg : g = f
    · subst hg
      rw [Node.write_files_self]
      exact iff_of_false hlock' hlock
    · rw [Node.write_files_of_ne _ _ _ hg]
  sem g := by
    by_cases hg : g = f
    · subst hg
      rw [Node.write_files_self]
      exact hsem
    · rw [Node.write_files_of_ne _ _ _ hg]
      exact id
  locked g hlocked := by
    have hg : g ≠ f := fun heq => hlock (heq ▸ hlocked)
    rw [Node.write_files_of_ne _ _ _ hg]
    exact ⟨rfl, Iff.rfl, initializations_append_of_initializes fun heq => hg (hevent g heq)⟩

/-- A step of a process that uses an initialised file. -/
theorem usedBy (hsem : (n.files f).sem ≠ none) (hused : n.UsedBy event f n')
    (hevent : event.initializes = none) : n.Kept q labels (labels ++ [(p, event)]) n' where
  lock g := by
    by_cases hg : g = f
    · rw [hg, hused.lock]
    · rw [hused.others g hg]
  sem g := by
    by_cases hg : g = f
    · subst hg
      exact hused.sem_ne_none hevent
    · rw [hused.others g hg]
      exact id
  locked g _ := by
    have hinits : initializations g (labels ++ [(p, event)]) = initializations g labels :=
      initializations_append_of_initializes (by simp [hevent])
    by_cases hg : g = f
    · subst hg
      exact ⟨hused.size, iff_of_false (hused.sem_ne_none hevent hsem) hsem, hinits⟩
    · rw [hused.others g hg]
      exact ⟨rfl, Iff.rfl, hinits⟩

end Node.Kept

/-- A process without a file, and without a lock, is in order. -/
theorem Pc.Sound.away (hfile : pc.file = none) (hheld : ∀ f, (n.files f).lock ≠ some p) :
    pc.Sound labels n p where
  held f hf := absurd hf (hheld f)
  attempted f hpc := by simp [hpc, Pc.file] at hfile
  initializing f hf := by simp [Pc.file_of_initializing hf] at hfile
  uses f hf := by simp [Pc.file_of_uses hf] at hfile

/-- A process that uses an initialised file, and has its lock at most, is in order. -/
theorem Pc.Sound.use (huses : pc.uses = some f)
    (hheld : ∀ g, (n.files g).lock = some p → pc.locking = some g)
    (hsem : (n.files f).sem ≠ none) : pc.Sound labels n p where
  held := hheld
  attempted g hpc := by
    subst hpc
    cases huses
  initializing g hg := by
    rw [Pc.initializing_of_uses huses] at hg
    cases hg
  uses g hg := by
    rw [huses] at hg
    exact Option.some_inj.mp hg ▸ hsem

/-- A process that initialises a file has its lock, and is in order. -/
theorem Pc.Sound.initializer (hinit : pc.initializing = some f)
    (hheld : ∀ g, (n.files g).lock = some p → g = f) (hlocking : pc.locking = some f)
    (hlock : (n.files f).lock = some p) (hsem : (n.files f).sem = none)
    (hsize : pc ≠ .sized f false → (n.files f).size = sizeofSharedInfo)
    (hinits : initializations f labels = if pc = .zeroed f then [(p, .memset f)] else []) :
    pc.Sound labels n p where
  held g hg := by rw [hheld g hg, hlocking]
  attempted g hpc := by
    subst hpc
    cases hinit
  initializing g hg := by
    rw [hinit] at hg
    cases hg
    exact ⟨hlock, hsem, hsize, hinits⟩
  uses g hg := by
    rw [Pc.initializing_of_uses hg] at hinit
    cases hinit

/-- A process that has opened a file is in order. -/
theorem Pc.Sound.opened (hfree : ∀ g, (n.files g).lock ≠ some p) :
    (Pc.opened f).Sound labels n p where
  held g hg := absurd hg (hfree g)
  attempted _ hpc := by cases hpc
  initializing _ hg := by cases hg
  uses _ hg := by cases hg

/-- A process that has no lock to release has none. -/
theorem Pc.Sound.free (hsound : pc.Sound labels n p) (hlocking : pc.locking = none) (g : Nat) :
    (n.files g).lock ≠ some p := by
  intro hlock
  have hsome := hsound.held g hlock
  rw [hlocking] at hsome
  cases hsome

theorem Pc.Sound.only (hsound : pc.Sound labels n p) (hlocking : pc.locking = some f)
    (hlock : (n.files g).lock = some p) : g = f := by
  have hsome := hsound.held g hlock
  rw [hlocking] at hsome
  exact (Option.some_inj.mp hsome).symm

/-- What a process needs to know of its own step. -/
abbrev Node.Stepped (p : Nat) (labels labels' : List (Nat × Event)) (n n' : Node) (pc' : Pc) :
    Prop :=
  n'.Sound labels' ∧ pc'.Sound labels' n' p ∧ ∀ q, q ≠ p → n.Kept q labels labels' n'

theorem Node.Sound.stay (hnode : n.Sound labels)
    (hpc' : pc'.Sound (labels ++ [(p, .silent)]) n p) :
    n.Stepped p labels (labels ++ [(p, .silent)]) n pc' :=
  ⟨hnode.silent rfl, hpc', fun _ _ => .silent rfl⟩

/-- A step that writes to a file that no other process has locked. -/
theorem Node.Sound.stepWrite (hnode : n.Sound labels)
    (hfile : file'.Sound (labels ++ [(p, event)]) f)
    (hlock : ∀ q, (n.files f).lock = some q → q = p) (hlock' : ∀ q, file'.lock = some q → q = p)
    (hsem : (n.files f).sem ≠ none → file'.sem ≠ none)
    (hevent : ∀ g, event.initializes = some g → g = f)
    (hpc' : pc'.Sound (labels ++ [(p, event)]) (n.write f file') p) :
    n.Stepped p labels (labels ++ [(p, event)]) (n.write f file') pc' :=
  ⟨hnode.write hfile hevent, hpc', fun q hq => .write (fun heq => hq (hlock q heq))
    (fun heq => hq (hlock' q heq)) hsem hevent⟩

theorem only_write (honly : ∀ g, (n.files g).lock = some p → g = f)
    (hlock : ((n.write f file').files g).lock = some p) : g = f := by
  by_cases hg : g = f
  · exact hg
  · rw [Node.write_files_of_ne _ _ _ hg] at hlock
    exact honly g hlock

theorem initializations_silent (f : Nat) (labels : List (Nat × Event)) (p : Nat) :
    initializations f (labels ++ [(p, .silent)]) = initializations f labels :=
  initializations_append_of_ne (fun heq => by cases heq) (fun heq => by cases heq)

theorem not_initializes_silent (g : Nat) (heq : Event.silent.initializes = some g) : g = f := by
  cases heq

theorem Node.Sound.start (hnode : n.Sound labels) (hopened : n.Opened)
    (hproc : proc.pc.Sound labels n p)
    (hpc : proc.pc = .start ∨ proc.pc = .reopening)
    (hmove : proc.move p n = some (event, n', pc')) :
    n.Stepped p labels (labels ++ [(p, event)]) n' pc' := by
  have hfree : ∀ g, (n.files g).lock ≠ some p :=
    hproc.free (by rcases hpc with hpc | hpc <;> rw [hpc] <;> rfl)
  rcases hpc with hpc | hpc
  · simp only [Proc.move, hpc] at hmove
    split at hmove
    next =>
      cases hmove
      exact hnode.stay (.away rfl hfree)
    next =>
      cases hmove
      exact hnode.stay (.opened hfree)
    next =>
      cases hmove
      have hfiles := hopened.create_files
      refine ⟨hnode.silent hfiles, .opened fun g => ?_, fun q _ => .silent hfiles⟩
      rw [hfiles]
      exact hfree g
    next =>
      cases hmove
      exact hnode.stay (.away rfl hfree)
  · simp only [Proc.move, hpc] at hmove
    split at hmove
    next =>
      cases hmove
      exact hnode.stay (.away rfl hfree)
    next =>
      cases hmove
      exact hnode.stay (.opened hfree)

theorem Node.Sound.getWriteLock (hnode : n.Sound labels)
    (hproc : (Pc.opened f).Sound labels n p) :
    n.Stepped p labels (labels ++ [(p, .silent)]) (n.getWriteLock p f) (.attempted f) := by
  have hfree := hproc.free rfl
  have hfile := hnode f
  unfold Node.getWriteLock
  split
  next hlock =>
    obtain ⟨hblank, hsized, -, honce, hordered⟩ := hfile.silent p
    refine hnode.stepWrite ⟨hblank, hsized, fun hlock => (by cases hlock), honce, hordered⟩
      (fun q hq => by simp [hlock] at hq) (fun q hq => (Option.some_inj.mp hq).symm) id
      not_initializes_silent ⟨fun g hg => ?_, fun g hg _ hsem => ?_,
        fun g hg => (by cases hg), fun g hg => (by cases hg)⟩
    · rw [only_write (fun g hg => absurd hg (hfree g)) hg]
      rfl
    · cases hg
      rw [Node.write_files_self] at hsem ⊢
      rw [initializations_silent]
      exact hfile.free hlock hsem
  next hlock =>
    exact hnode.stay ⟨fun g hg => absurd hg (hfree g),
      fun g _ hg => absurd hg (hfree g), fun g hg => (by cases hg), fun g hg => (by cases hg)⟩

/-- The test of the size decides for the initialisation at most once. -/
theorem Node.Sound.fileInitialized (hnode : n.Sound labels)
    (hproc : (Pc.attempted f).Sound labels n p)
    (hlooks : (n.files f).lock = some p ∨ (n.files f).sem ≠ none) :
    n.Stepped p labels (labels ++ [(p, .silent)]) n
      (.sized f ((n.files f).size = sizeofSharedInfo)) := by
  have honly : ∀ g, (n.files g).lock = some p → g = f := fun g hg => hproc.only rfl hg
  refine hnode.stay ?_
  cases hsize : decide ((n.files f).size = sizeofSharedInfo) with
  | true =>
      have hsem : (n.files f).sem ≠ none := by
        intro hnone
        have hlock := hlooks.resolve_right (fun hsem => hsem hnone)
        exact (hproc.attempted f rfl hlock hnone).1 (of_decide_eq_true hsize)
      exact .use rfl (fun g hg => by rw [honly g hg]; rfl) hsem
  | false =>
      have hsem : (n.files f).sem = none := by
        by_contra hsem
        exact of_decide_eq_false hsize ((hnode f).sized hsem)
      have hlock := hlooks.resolve_right (fun hne => hne hsem)
      refine .initializer rfl honly rfl hlock hsem (fun hne => absurd rfl hne) ?_
      rw [initializations_silent]
      exact (hproc.attempted f rfl hlock hsem).2

theorem Pc.Sound.owner (hsound : pc.Sound labels n p) (hinit : pc.initializing = some f)
    (q : Nat) (hlock : (n.files f).lock = some q) : q = p := by
  rw [(hsound.initializing f hinit).1] at hlock
  exact (Option.some_inj.mp hlock).symm

theorem Node.Sound.ftruncate (hnode : n.Sound labels)
    (hproc : (Pc.sized f false).Sound labels n p) :
    n.Stepped p labels (labels ++ [(p, .silent)])
      (n.write f { n.files f with size := sizeofSharedInfo }) (.resized f) := by
  obtain ⟨hlock, hsem, -, hinits⟩ := hproc.initializing f rfl
  obtain ⟨hblank, -, -, honce, hordered⟩ := (hnode f).silent p
  refine hnode.stepWrite ⟨hblank, fun _ => rfl, fun hnone => ?_, honce, hordered⟩
    (hproc.owner rfl) (hproc.owner rfl) id not_initializes_silent
    (.initializer rfl (fun g hg => only_write (fun g hg => hproc.only rfl hg) hg) rfl
      ?_ ?_ (fun _ => ?_) ?_)
  · rw [hlock] at hnone
    cases hnone
  · rw [Node.write_files_self]
    exact hlock
  · rw [Node.write_files_self]
    exact hsem
  · rw [Node.write_files_self]
  · rw [initializations_silent]
    exact hinits

theorem Node.Sound.memset (hnode : n.Sound labels) (hproc : (Pc.mapped f).Sound labels n p) :
    n.Stepped p labels (labels ++ [(p, .memset f)])
      (n.write f { n.files f with sem := none, info := (n.files f).info.cleared })
      (.zeroed f) := by
  obtain ⟨hlock, hsem, hsize, hinits⟩ := hproc.initializing f rfl
  have hinfo := (hnode f).blank hsem
  have hinits' : initializations f (labels ++ [(p, .memset f)]) = [(p, .memset f)] := by
    rw [initializations_append, hinits, if_pos (Or.inl rfl)]
    rfl
  have hordered : initializations f (labels ++ [(p, .memset f)]) <+:
      [(p, .memset f), (p, .semInit f)] := by
    rw [hinits']
    exact List.prefix_append [_] [_]
  refine hnode.stepWrite ⟨fun _ => ?_, fun hne => absurd rfl hne, fun hnone => ?_,
    fun hne => absurd rfl hne, ⟨p, hordered⟩⟩ (hproc.owner rfl) (hproc.owner rfl)
    (fun hne => absurd hsem hne)
    (fun g hg => (Option.some_inj.mp hg).symm)
    (.initializer rfl (fun g hg => only_write (fun g hg => hproc.only rfl hg) hg) rfl
      ?_ ?_ (fun _ => ?_) ?_)
  · rw [hinfo, SharedInfo.cleared_zero]
  · rw [hlock] at hnone
    cases hnone
  · rw [Node.write_files_self]
    exact hlock
  · rw [Node.write_files_self]
  · rw [Node.write_files_self]
    exact hsize (fun heq => by cases heq)
  · rw [hinits', if_pos rfl]

theorem Node.Sound.semInit (hnode : n.Sound labels) (hproc : (Pc.zeroed f).Sound labels n p) :
    n.Stepped p labels (labels ++ [(p, .semInit f)])
      (n.write f { n.files f with sem := some 1 }) (.prepared f) := by
  obtain ⟨hlock, hsem, hsize, hinits⟩ := hproc.initializing f rfl
  have hinits' : initializations f (labels ++ [(p, .semInit f)]) =
      [(p, .memset f), (p, .semInit f)] := by
    rw [initializations_append, hinits, if_pos (Or.inr rfl), if_pos rfl]
    rfl
  refine hnode.stepWrite ⟨fun hnone => (by cases hnone),
    fun _ => hsize (fun heq => by cases heq), fun _ hnone => (by cases hnone),
    fun _ => ⟨p, hinits'⟩, ⟨p, hinits' ▸ List.prefix_rfl⟩⟩ (hproc.owner rfl) (hproc.owner rfl)
    (fun _ => Option.some_ne_none _)
    (fun g hg => (Option.some_inj.mp hg).symm) (.use rfl (fun g hg => ?_) ?_)
  · rw [only_write (fun g hg => hproc.only rfl hg) hg]
    rfl
  · rw [Node.write_files_self]
    exact Option.some_ne_none _

theorem Node.Sound.releaseLock (hnode : n.Sound labels)
    (hproc : (Pc.prepared f).Sound labels n p) :
    n.Stepped p labels (labels ++ [(p, .silent)]) (n.releaseLock p f) (.waiting f) := by
  have hsem := hproc.uses f rfl
  obtain ⟨hblank, hsized, -, honce, hordered⟩ := (hnode f).silent p
  unfold Node.releaseLock
  split
  next hlock =>
    refine hnode.stepWrite ⟨hblank, hsized, fun _ hnone => absurd hnone hsem, honce, hordered⟩
      (fun q hq => by rw [hlock] at hq; exact (Option.some_inj.mp hq).symm)
      (fun q hq => by cases hq) id not_initializes_silent
      (.use rfl (fun g hg => ?_) (by rw [Node.write_files_self]; exact hsem))
    have hg' := only_write (fun g hg => hproc.only rfl hg) hg
    rw [hg', Node.write_files_self] at hg
    cases hg
  next hlock =>
    refine hnode.stay (.use rfl (fun g hg => absurd ?_ hlock) hsem)
    rw [← hproc.only rfl hg]
    exact hg

/-- A step keeps everything in order, for the node and for each process. -/
theorem Node.Sound.step (hnode : n.Sound labels) (hopened : n.Opened)
    (hproc : proc.pc.Sound labels n p)
    (hlooks : ∀ f, proc.pc = .attempted f → (n.files f).lock = some p ∨ (n.files f).sem ≠ none)
    (hmove : proc.move p n = some (event, n', pc')) :
    n.Stepped p labels (labels ++ [(p, event)]) n' pc' := by
  -- Where the process works no file is initialised, so only the lock has to be looked at.
  cases hworks : proc.pc.works with
  | some f =>
      have huses := Pc.uses_of_works hworks
      have hsem := hproc.uses f huses
      obtain ⟨hevent, hused, hlocking, hpc'⟩ := Proc.usedBy hworks hmove
      have hfree : ∀ g, (n'.files g).lock ≠ some p := by
        intro g hg
        refine hproc.free (Pc.locking_of_works hworks) g ?_
        by_cases heq : g = f
        · rw [heq] at hg ⊢
          rw [← hused.lock, hg]
        · rw [← hused.others g heq, hg]
      refine ⟨hnode.usedBy hsem hused hevent, ?_, fun q _ => .usedBy hsem hused hevent⟩
      rcases hpc' with hpc' | hpc'
      · exact .use (Pc.uses_of_works hpc') (fun g hg => absurd hg (hfree g))
          (hused.sem_ne_none hevent hsem)
      · exact .away hpc' hfree
  | none =>
      obtain ⟨jobid, stepid, task, pc⟩ := proc
      cases pc with
      | start => exact hnode.start hopened hproc (.inl rfl) hmove
      | reopening => exact hnode.start hopened hproc (.inr rfl) hmove
      | opened f =>
          cases hmove
          exact hnode.getWriteLock hproc
      -- The size is looked at with the lock, or when the semaphore is there already.
      | attempted f =>
          cases hmove
          exact hnode.fileInitialized hproc (hlooks f rfl)
      | sized f initialized =>
          cases initialized with
          | true =>
              cases hmove
              exact hnode.stay (.use rfl (fun g hg => hproc.held g hg)
                (hproc.uses f rfl))
          | false =>
              cases hmove
              exact hnode.ftruncate hproc
      | resized f =>
          cases hmove
          obtain ⟨hlock, hsem, hsize, hinits⟩ := hproc.initializing f rfl
          refine hnode.stay (.initializer rfl
            (fun g hg => hproc.only rfl hg) rfl hlock hsem
            (fun _ => hsize (fun heq => by cases heq)) ?_)
          rw [initializations_silent]
          exact hinits
      | mapped f =>
          cases hmove
          exact hnode.memset hproc
      | zeroed f =>
          cases hmove
          exact hnode.semInit hproc
      | prepared f =>
          cases hmove
          exact hnode.releaseLock hproc
      | done | crashed => cases hmove
      | dangling =>
          cases hmove
          exact hnode.stay (.away rfl (hproc.free rfl))
      | _ => cases hworks

end SlurmSpank.Overcommit
