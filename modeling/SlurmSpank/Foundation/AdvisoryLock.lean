import SlurmSpank.Foundation.Interleaving

/-! # Advisory locks

A lock that the processes sharing a state take in turns: a process that asks for it waits until
nobody has it, and the lock is given up by its holder only, at the latest when that process
ends. The lock names its holder, and each process knows whether it is the one.
-/

namespace SlurmSpank.Foundation

/-- What a step of process `p` does to the lock, and to whether the process holds it. -/
inductive LockMove (p : Nat) : Option Nat → Bool → Option Nat → Bool → Prop
  | keep (lock : Option Nat) (holding : Bool) : LockMove p lock holding lock holding
  | acquire : LockMove p none false (some p) true
  | release (lock : Option Nat) : LockMove p lock true none false

/-- The lock and a process agree on whether the process holds it. -/
def LockAgrees (lock : Option Nat) (p : Nat) (holding : Bool) : Prop :=
  holding = true ↔ lock = some p

variable {p q : Nat} {lock lock' : Option Nat} {holding holding' holds : Bool}

theorem LockMove.self (hmove : LockMove p lock holding lock' holding')
    (hagrees : LockAgrees lock p holding) : LockAgrees lock' p holding' := by
  cases hmove with
  | keep => exact hagrees
  | acquire => exact iff_of_true rfl rfl
  | release => exact iff_of_false Bool.false_ne_true (by simp)

/-- A step leaves what the lock says of the other processes. -/
theorem LockMove.other (hmove : LockMove p lock holding lock' holding') (hne : q ≠ p)
    (hself : LockAgrees lock p holding) (hagrees : LockAgrees lock q holds) :
    LockAgrees lock' q holds := by
  cases hmove with
  | keep => exact hagrees
  | acquire =>
      unfold LockAgrees at hagrees ⊢
      rw [hagrees]
      exact iff_of_false (by simp) fun heq => hne (Option.some.inj heq).symm
  | release =>
      unfold LockAgrees at hself hagrees ⊢
      rw [hagrees, hself.mp rfl]
      exact iff_of_false (fun heq => hne (Option.some.inj heq).symm) (by simp)

/-- Two processes that hold the lock are one. -/
theorem LockAgrees.unique (hp : LockAgrees lock p true) (hq : LockAgrees lock q true) : p = q :=
  Option.some.inj ((hp.mp rfl).symm.trans (hq.mp rfl))

end SlurmSpank.Foundation
