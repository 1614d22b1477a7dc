import Mathlib.Data.List.Basic
import SlurmSpank.Foundation.Run

/-! # Processes that share a state

Any number of processes take turns in any order. A step is made by one process: it may change
the shared state and its own local state, and it has a label. A process that has to wait has
no step. Invariants of the shared state and of each process are proved from what a step does
for the process that makes it and for another one; processes in some local states are counted.
-/

namespace SlurmSpank.Foundation

universe u v w

variable {Shared : Type u} {Local : Type v} {Event : Type w}

/-- The shared state, and the local state of each process. -/
@[ext] structure Processes (Shared : Type u) (Local : Type v) where
  shared : Shared
  locals : List Local

namespace Processes

/-- The step of a process, unless it has to wait. -/
abbrev Program (Shared : Type u) (Local : Type v) (Event : Type w) :=
  Nat → Shared → Local → Option (Event × Shared × Local)

/-- One process makes a step. -/
inductive Step (program : Program Shared Local Event) :
    Processes Shared Local → Nat × Event → Processes Shared Local → Prop
  | step {c : Processes Shared Local} {p : Nat} {l l' : Local} {event : Event} {shared : Shared}
      (hlocal : c.locals[p]? = some l) (hstep : program p c.shared l = some (event, shared, l')) :
      Step program c (p, event) ⟨shared, c.locals.set p l'⟩

/-- The run in which the processes make their steps in a given order, if no step has to wait and
each is allowed. -/
def schedule (program : Program Shared Local Event)
    (allowed : Processes Shared Local → Nat → Bool) :
    List Nat → Processes Shared Local → Option (List (Nat × Event) × Processes Shared Local)
  | [], c => some ([], c)
  | p :: order, c =>
      if allowed c p then
        (c.locals[p]?.bind (program p c.shared)).bind fun (event, shared, l') =>
          (schedule program allowed order ⟨shared, c.locals.set p l'⟩).map fun (labels, c') =>
            ((p, event) :: labels, c')
      else none

/-- What a schedule computes is a run. -/
theorem run_schedule {program : Program Shared Local Event}
    {allowed : Processes Shared Local → Nat → Bool} {order : List Nat}
    {c c' : Processes Shared Local} {labels : List (Nat × Event)}
    (hschedule : schedule program allowed order c = some (labels, c')) :
    Run (fun c label c' => Step program c label c' ∧ allowed c label.1 = true) c labels c' := by
  induction order generalizing c labels with
  | nil =>
      cases hschedule
      exact .start
  | cons p order ih =>
      unfold schedule at hschedule
      split at hschedule
      next hallowed =>
        simp only [Option.bind_eq_some_iff, Option.map_eq_some_iff, Prod.mk.injEq,
          Prod.exists] at hschedule
        obtain ⟨event, shared, l', ⟨l, hl, hstep⟩, labels', _, hrest, rfl, rfl⟩ := hschedule
        exact (ih hrest).cons ⟨.step hl hstep, hallowed⟩
      next => cases hschedule

theorem exists_run_of_schedule (program : Program Shared Local Event)
    (allowed : Processes Shared Local → Nat → Bool) (order : List Nat)
    (c : Processes Shared Local) (holds : List (Nat × Event) → Processes Shared Local → Prop)
    (hschedule : ∃ r ∈ schedule program allowed order c, holds r.1 r.2) :
    ∃ labels c', Run (fun c label c' => Step program c label c' ∧ allowed c label.1 = true) c
      labels c' ∧ holds labels c' := by
  obtain ⟨⟨labels, c'⟩, hresult, hholds⟩ := hschedule
  exact ⟨labels, c', run_schedule hresult, hholds⟩

/-- The processes whose local state has a property. -/
def count (holds : Local → Bool) (c : Processes Shared Local) : Nat := c.locals.countP holds

variable {program : Program Shared Local Event} {c c' : Processes Shared Local} {p q : Nat}
  {l l' k : Local} {shared : Shared}

/-- Behind a step of a process, each local state is the new one or an old one of another
process. -/
theorem of_locals_set (hq : (c.locals.set p l')[q]? = some k) :
    (q = p ∧ k = l') ∨ (q ≠ p ∧ c.locals[q]? = some k) := by
  rw [List.getElem?_set] at hq
  split at hq
  next heq =>
    split at hq
    next => exact Or.inl ⟨heq.symm, (Option.some_inj.mp hq).symm⟩
    next => exact absurd hq (by simp)
  next hne => exact Or.inr ⟨fun heq => hne heq.symm, hq⟩

/-- An invariant that speaks about the shared state and each process by itself. -/
structure Holds (sharedHolds : Shared → Prop) (localHolds : Shared → Nat → Local → Prop)
    (c : Processes Shared Local) : Prop where
  shared : sharedHolds c.shared
  locals : ∀ p l, c.locals[p]? = some l → localHolds c.shared p l

/-- A step keeps such an invariant if it does so for the process itself, and leaves what holds
for another process. -/
theorem Holds.step {sharedHolds : Shared → Prop} {localHolds : Shared → Nat → Local → Prop}
    (hholds : c.Holds sharedHolds localHolds) (hlocal : c.locals[p]? = some l)
    (hself : sharedHolds shared ∧ localHolds shared p l')
    (hother : ∀ q k, q ≠ p → c.locals[q]? = some k → localHolds c.shared q k →
      localHolds shared q k) :
    Holds sharedHolds localHolds ⟨shared, c.locals.set p l'⟩ where
  shared := hself.1
  locals q k hq := by
    rcases of_locals_set hq with ⟨rfl, rfl⟩ | ⟨hne, hq⟩
    · exact hself.2
    · exact hother q k hne hq (hholds.locals q k hq)

/-- The number of processes with a property changes with the one that makes the step. -/
theorem count_set (holds : Local → Bool) (hlocal : c.locals[p]? = some l) (shared : Shared) :
    count holds ⟨shared, c.locals.set p l'⟩ + (holds l).toNat =
      c.count holds + (holds l').toNat := by
  have hlt : p < c.locals.length := (List.getElem?_eq_some_iff.mp hlocal).1
  have hl : c.locals[p] = l := (List.getElem?_eq_some_iff.mp hlocal).2
  have hpos : holds l = true → 0 < c.locals.countP holds := fun hholds =>
    List.countP_pos_iff.mpr ⟨l, hl ▸ List.getElem_mem hlt, hholds⟩
  simp only [count, List.countP_set hlt, hl]
  cases hholds : holds l <;> cases holds l'
  · simp
  · simp
  · have hcount := hpos hholds
    simp only [if_true, Bool.toNat_true, Bool.false_eq_true, if_false, Bool.toNat_false]
    omega
  · have hcount := hpos hholds
    simp only [if_true, Bool.toNat_true]
    omega

/-- Two processes with a property are counted as two. -/
theorem two_le_count {holds : Local → Bool} (hne : p ≠ q) (hp : c.locals[p]? = some l)
    (hq : c.locals[q]? = some k) (hl : holds l = true) (hk : holds k = true) :
    2 ≤ c.count holds := by
  have hsplit : ∀ {i j : Nat} {a b : Local}, i < j → c.locals[i]? = some a →
      c.locals[j]? = some b → holds a = true → holds b = true → 2 ≤ c.count holds := by
    intro i j a b hlt hi hj ha hb
    have hfirst : 0 < (c.locals.take j).countP holds := by
      refine List.countP_pos_iff.mpr ⟨a, List.mem_of_getElem? (i := i) ?_, ha⟩
      rw [List.getElem?_take_of_lt hlt, hi]
    have hsecond : 0 < (c.locals.drop j).countP holds := by
      refine List.countP_pos_iff.mpr ⟨b, List.mem_of_getElem? (i := 0) ?_, hb⟩
      rw [List.getElem?_drop, Nat.add_zero, hj]
    rw [count, ← List.take_append_drop j c.locals, List.countP_append]
    omega
  rcases Nat.lt_or_gt_of_ne hne with hlt | hgt
  · exact hsplit hlt hp hq hl hk
  · exact hsplit hgt hq hp hk hl

theorem count_pos {holds : Local → Bool} (hp : c.locals[p]? = some l) (hl : holds l = true) :
    0 < c.count holds :=
  List.countP_pos_iff.mpr ⟨l, List.mem_of_getElem? hp, hl⟩

end Processes

end SlurmSpank.Foundation
