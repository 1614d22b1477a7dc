/-! # Configuration of the cpuset plugin

The settings of `conf.c` that allocation and cpuset creation read, and their accessors. A
setter returns 0 or -1 with the settings after the call. It refuses a null pointer, which has
no counterpart here.
-/

namespace SlurmSpank.Cpuset

/-- The characters of a string or of a file. There is no NUL among them. -/
abbrev Text := List Char

/-- `strcasecmp` finds no difference. -/
def strcaseEq (s t : Text) : Prop := s.map Char.toLower = t.map Char.toLower

instance (s t : Text) : Decidable (strcaseEq s t) :=
  inferInstanceAs (Decidable (s.map Char.toLower = t.map Char.toLower))

/-- `enum fit_policy`. -/
inductive FitPolicy where
  | bestFit
  | firstFit
  | worstFit
  deriving DecidableEq, Repr

/-- `struct cpuset_conf`. -/
structure CpusetConf where
  policy : FitPolicy
  reverseOrder : Bool
  allocIdleNodes : Bool
  useIdleIfMultiple : Bool
  constrainMems : Bool
  killOrphans : Bool
  deriving DecidableEq, Repr

/-- The defaults that `cpuset_conf_create` sets. -/
def cpusetConfCreate : CpusetConf where
  policy := .bestFit
  reverseOrder := false
  allocIdleNodes := true
  useIdleIfMultiple := true
  constrainMems := true
  killOrphans := false

namespace CpusetConf

/-- `cpuset_conf_alloc_idle`. -/
def allocIdle (conf : CpusetConf) : Bool := conf.allocIdleNodes

/-- `cpuset_conf_alloc_idle_gt`. -/
def allocIdleGt (conf : CpusetConf) : Bool := conf.allocIdleNodes && !conf.useIdleIfMultiple

/-- `cpuset_conf_alloc_idle_multiple`. -/
def allocIdleMultiple (conf : CpusetConf) : Bool := conf.allocIdleNodes && conf.useIdleIfMultiple

/-! ## Setters -/

/-- `cpuset_conf_set_policy`. -/
def setPolicy (conf : CpusetConf) (policy : FitPolicy) : Int × CpusetConf :=
  (0, { conf with policy := policy })

/-- `cpuset_conf_set_policy_string`. -/
def setPolicyString (conf : CpusetConf) (name : Text) : Int × CpusetConf :=
  if name = "best-fit".toList then conf.setPolicy .bestFit
  else if name = "worst-fit".toList then conf.setPolicy .worstFit
  else if name = "first-fit".toList then conf.setPolicy .firstFit
  else (-1, conf)

/-- `cpuset_conf_set_alloc_idle`. -/
def setAllocIdle (conf : CpusetConf) (allocIdle : Bool) : Int × CpusetConf :=
  (0, { conf with allocIdleNodes := allocIdle })

/-- `cpuset_conf_set_alloc_idle_mode`. -/
def setAllocIdleMode (conf : CpusetConf) (multipleOnly : Bool) : Int × CpusetConf :=
  (0, { conf with useIdleIfMultiple := multipleOnly })

/-- `cpuset_conf_set_alloc_idle_string`. -/
def setAllocIdleString (conf : CpusetConf) (s : Text) : Int × CpusetConf :=
  if s = "0".toList ∨ strcaseEq s "never".toList ∨ strcaseEq s "no".toList then
    conf.setAllocIdle false
  else if s = "1".toList ∨ strcaseEq s "yes".toList then conf.setAllocIdle true
  else if strcaseEq s "multiple".toList ∨ strcaseEq s "mult".toList then
    conf.setAllocIdleMode true
  else if strcaseEq s "gt".toList ∨ strcaseEq s "greater".toList then conf.setAllocIdleMode false
  else (-1, conf)

/-- `cpuset_conf_set_constrain_mem`. -/
def setConstrainMem (conf : CpusetConf) (constrainMem : Bool) : Int × CpusetConf :=
  (0, { conf with constrainMems := constrainMem })

/-- `cpuset_conf_set_kill_orphans`. -/
def setKillOrphans (conf : CpusetConf) (killOrphans : Bool) : Int × CpusetConf :=
  (0, { conf with killOrphans := killOrphans })

/-- `cpuset_conf_set_order`. -/
def setOrder (conf : CpusetConf) (reverse : Bool) : Int × CpusetConf :=
  (0, { conf with reverseOrder := reverse })

end CpusetConf

end SlurmSpank.Cpuset
