import SlurmSpank.Foundation.Environ
import SlurmSpank.Lib.List

/-! # The preserve-env plugin

In `srun`, the `SLURM_*` variables are saved under new names. In the task, what SLURM made of
the `SLURM_*` variables is removed, and the saved variables get their old names back. A buffer
that an entry is copied to has `none` where a NUL was written.
-/

namespace SlurmSpank.PreserveEnv

open Foundation Lib

universe u

/-- The loop of `get_env_var`, with the characters still to copy, the buffer and the position
that `*valp` points to. -/
def getEnvVarLoop : List Char → List (Option Char) → Option Nat → List (Option Char) × Option Nat
  | [], buf, val => (buf, val)
  | c :: rest, buf, val =>
      if c = '=' then getEnvVarLoop rest (buf ++ [none]) (some (buf.length + 1))
      else getEnvVarLoop rest (buf ++ [some c]) val

/-- `get_env_var`: the buffer, and where the value is. -/
def getEnvVar (entry : List Char) : List (Option Char) × Option Nat := getEnvVarLoop entry [] none

/-- The string that begins at a position of the buffer. -/
def stringAt (buf : List (Option Char)) (pos : Nat) : List Char :=
  ((buf.drop pos).takeWhile Option.isSome).filterMap id

/-- The string that `var` points to. -/
def varOf (entry : List Char) : List Char := stringAt (getEnvVar entry).1 0

/-- The string that `val` points to, when it points to one. -/
def valOf (entry : List Char) : Option (List Char) :=
  (getEnvVar entry).2.map (stringAt (getEnvVar entry).1)

/-- `strncmp` with a whole name says equal. -/
def startsWith (name : String) (entry : List Char) : Bool := name.toList.isPrefixOf entry

/-- The new name of a saved variable. -/
def saved (name : List Char) : List Char := "save_".toList ++ name

/-- `preserve_slurm_var`, with its return value. There is no result for an entry without a
value, which would be set to a null pointer. -/
def preserveSlurmVar (entry : List Char) (env : List Entry) : Option (Int × List Entry) :=
  if (saved (varOf entry)).length ≥ 1023 then some (-1, env)
  else (valOf entry).map fun val => (0, Environ.setenv env (saved (varOf entry)) val)

/-- The variables that `preserve_slurm_env` saves. -/
def preserves (entry : List Char) : Bool :=
  startsWith "SLURM_" entry && !startsWith "SLURM_RLIMIT" entry &&
    !startsWith "SLURM_UMASK" entry && !startsWith "SLURM_PRIO" entry

/-- The entries of an environment that pass a test, pushed on a list one after the other. -/
def collect (test : List Char → Bool) (env : List Entry) : List (List Char) :=
  env.foldl (fun l entry => if test entry.text then listPush l entry.text else l) []

/-- The second loop of `preserve_slurm_env`. -/
def preserveLoop : List (List Char) → List Entry → Option (Int × List Entry)
  | [], env => some (0, env)
  | entry :: l, env =>
      (preserveSlurmVar entry env).bind fun (rc, env) =>
        if rc < 0 then some (-1, env) else preserveLoop l env

/-- `preserve_slurm_env`. -/
def preserveSlurmEnv (env : List Entry) : Option (Int × List Entry) :=
  preserveLoop (collect preserves env) env

variable {E : Type u}

/-- The loop of `slurm_spank_task_init` that unsets variables. -/
def unsetLoop (ops : EnvOps E) : List (List Char) → E → E
  | [], sp => sp
  | entry :: l, sp => unsetLoop ops l (ops.unsetenv sp (varOf entry))

/-- The loop that sets the saved variables again. There is no result for an entry without a
value, for which `val` was not set. -/
def restoreLoop (ops : EnvOps E) : List (List Char) → E → Option E
  | [], sp => some sp
  | entry :: l, sp =>
      (valOf entry).bind fun val =>
        restoreLoop ops l
          (ops.unsetenv (ops.setenv sp ((varOf entry).drop 5) val) (varOf entry))

/-- `slurm_spank_task_init`, with its return value. -/
def slurmSpankTaskInit (ops : EnvOps E) (enabled : Bool) (sp : E) : Option (Int × E) :=
  if !enabled then some (0, sp)
  else
    match ops.items sp with
    | none => some (-1, sp)
    | some env =>
        let sp := unsetLoop ops
          (collect (fun entry => startsWith "SLURM_" entry || startsWith "MPIRUN_" entry) env) sp
        match ops.items sp with
        | none => some (-1, sp)
        | some env =>
            (restoreLoop ops (collect (startsWith "save_SLURM_") env) sp).map fun sp => (0, sp)

end SlurmSpank.PreserveEnv
