import SlurmSpank.Overcommit.InitializationStep

/-! # The initialisation of the shared file

The shared structure is zeroed and its semaphore is initialised by the process that has found
the file empty. As long as no process looks at the file without the lock before that, this
happens once. But the lock is not waited for, and a process that does not get it goes on.
-/

namespace SlurmSpank.Overcommit

open Foundation

/-- A process looks at the size of a file with its lock, or the file has been initialised. -/
def looksLocked (c : System) (p : Nat) : Bool :=
  c.locals[p]?.all fun proc =>
    match proc.pc with
    | .attempted f => (c.shared.files f).lock = some p || (c.shared.files f).sem ≠ none
    | _ => true

/-- Everything is in order with the initialisation of the files. -/
abbrev System.Sound (labels : List (Nat × Event)) (c : System) : Prop :=
  c.Holds (Node.Sound labels) fun n p proc => proc.pc.Sound labels n p

variable {c c' : System} {labels : List (Nat × Event)} {label : Nat × Event} {mode ratio : Int}
  {procs : List (Int × Int × Task)}

theorem System.new_sound : (System.new mode ratio procs).Sound [] where
  shared f := ⟨fun _ => rfl, fun hne => absurd rfl hne, fun _ _ => ⟨Nat.zero_ne_add_one _, rfl⟩,
    fun hne => absurd rfl hne, ⟨0, List.nil_prefix⟩⟩
  locals p proc hp := by
    rw [(System.new_locals hp).1]
    exact .away rfl fun f hf => by cases hf

/-- A step in which a process does not look too early keeps everything in order. -/
theorem System.Sound.step (hsound : c.Sound labels) (hopened : c.Opened)
    (hstep : SystemStep c label c') (hlooks : looksLocked c label.1 = true) :
    c'.Sound (labels ++ [label]) := by
  obtain ⟨proc, n', pc', hlocal, hmove, rfl⟩ := hstep.move
  have hlooks : ∀ f, proc.pc = .attempted f →
      (c.shared.files f).lock = some label.1 ∨ (c.shared.files f).sem ≠ none := by
    intro f hpc
    rw [looksLocked, hlocal] at hlooks
    simpa [hpc] using hlooks
  have hproc := hsound.locals label.1 proc hlocal
  obtain ⟨hnode, hpc', hkept⟩ := hsound.shared.step hopened.shared hproc hlooks hmove
  refine ⟨hnode, fun q k hq => ?_⟩
  rcases Processes.of_locals_set hq with ⟨rfl, rfl⟩ | ⟨hne, hq⟩
  · exact hpc'
  · exact (hsound.locals q k hq).kept (hkept q hne)

theorem System.Sound.run (hsound : c.Sound []) (hopened : c.Opened)
    (hrun : Run (fun c label c' => SystemStep c label c' ∧ looksLocked c label.1 = true) c
      labels c') : c'.Sound labels ∧ c'.Opened := by
  induction hrun with
  | start => exact ⟨hsound, hopened⟩
  | extend prior last ih => exact ⟨ih.1.step ih.2 last.1 last.2, ih.2.step last.1⟩

/-- The initialisation of each file is that of one process, is over when a process uses the
file, and erases no user. -/
structure InitializedOnce (labels : List (Nat × Event)) (c : System) : Prop where
  ordered : ∀ f, ∃ p, initializations f labels <+: [(p, .memset f), (p, .semInit f)]
  before : ∀ (q : Nat) (proc : Proc) (f : Nat), c.locals[q]? = some proc → proc.pc.uses = some f →
    ∃ p, initializations f labels = [(p, .memset f), (p, .semInit f)]
  kept : ∀ (q : Nat) (proc : Proc) (f : Nat), c.locals[q]? = some proc → proc.pc = .mapped f →
    ∀ j ∈ (c.shared.files f).info.users, j.used = false

/-- In a run from a node without the shared file, in which a process looks at the size of a file
with its lock or behind the initialisation, each file is initialised once. -/
theorem initialized_once
    (hrun : Run (fun c label c' => SystemStep c label c' ∧ looksLocked c label.1 = true)
      (System.new mode ratio procs) labels c') : InitializedOnce labels c' := by
  have hsound := (System.new_sound.run System.new_opened hrun).1
  refine ⟨fun f => (hsound.shared f).ordered, fun q proc f hq huses => ?_,
    fun q proc f hq hpc => ?_⟩
  · exact (hsound.shared f).once ((hsound.locals q proc hq).uses f huses)
  · have hinit : proc.pc.initializing = some f := by
      rw [hpc]
      rfl
    have hsem := ((hsound.locals q proc hq).initializing f hinit).2.1
    rw [(hsound.shared f).blank hsem]
    intro j hj
    rw [List.eq_of_mem_replicate hj]
    rfl

/-- The second job does not get the lock, but looks at the file behind the initialisation. -/
theorem initialized_once_two : ∃ labels c',
    Run (fun c label c' => SystemStep c label c' ∧ looksLocked c label.1 = true)
      (System.new 0 50 [(7, 0, .use 1 90), (8, 0, .use 1 90)]) labels c' ∧
    initializations 0 labels = [(0, .memset 0), (0, .semInit 0)] ∧
    c'.locals.map Proc.pc = [.waiting 0, .waiting 0] ∧ InitializedOnce labels c' := by
  obtain ⟨labels, c', hrun, hinits, hpcs⟩ := Processes.exists_run_of_schedule Proc.step looksLocked
    [0, 0, 1, 1, 1, 0, 0, 0, 0, 0, 1, 0, 1, 1]
    (System.new 0 50 [(7, 0, .use 1 90), (8, 0, .use 1 90)])
    (fun labels c' => initializations 0 labels = [(0, .memset 0), (0, .semInit 0)] ∧
      c'.locals.map Proc.pc = [.waiting 0, .waiting 0]) (by decide +kernel)
  exact ⟨labels, c', hrun, hinits, hpcs, initialized_once hrun⟩

/-- The second job does not get the lock, finds the file empty and is about to zero it while the
first job is registered. -/
theorem initialized_twice : ∃ labels c', 
    Run SystemStep (System.new 0 50 [(7, 0, .use 1 90), (8, 0, .use 1 90)]) labels c' ∧
    initializations 0 labels = [(0, .memset 0), (0, .semInit 0)] ∧
    c'.locals[1]?.map Proc.pc = some (.mapped 0) ∧
    ⟨7, 0, true⟩ ∈ (c'.shared.files 0).info.users ∧ ¬InitializedOnce labels c' := by
  obtain ⟨labels, c', hrun, hinits, hpc, hregistered⟩ := Processes.exists_run_of_schedule
    Proc.step (fun _ _ => true) [0, 0, 1, 1, 1, 1, 0, 0, 0, 0, 0, 0, 0, 0, 0, 0, 0, 1, 1]
    (System.new 0 50 [(7, 0, .use 1 90), (8, 0, .use 1 90)])
    (fun labels c' => initializations 0 labels = [(0, .memset 0), (0, .semInit 0)] ∧
      c'.locals[1]?.map Proc.pc = some (.mapped 0) ∧
      ⟨7, 0, true⟩ ∈ (c'.shared.files 0).info.users) (by decide +kernel)
  refine ⟨labels, c', hrun.mono fun _ _ _ hstep => hstep.1, hinits, hpc, hregistered, ?_⟩
  intro honce
  obtain ⟨proc, hproc, hmapped⟩ := Option.map_eq_some_iff.mp hpc
  exact absurd (honce.kept 1 proc 0 hproc hmapped _ hregistered) (by decide)

end SlurmSpank.Overcommit
