import SlurmSpank.Cpuset.Conf

/-! # Settings of the cpuset plugin

What a statement of the configuration file or an option of the plugin asks for, apart from
how it is written: one field is given a value, and the others keep theirs.
-/

namespace SlurmSpank.Cpuset

/-- A value for one field of the configuration. -/
inductive Setting where
  | policy (fit : FitPolicy)
  | allocIdle (on : Bool)
  | allocIdleMode (multipleOnly : Bool)
  | constrainMem (on : Bool)
  | killOrphans (on : Bool)
  | order (reverse : Bool)
  deriving DecidableEq

/-- The configuration with the value. -/
def Setting.apply : Setting → CpusetConf → CpusetConf
  | .policy fit, conf => { conf with policy := fit }
  | .allocIdle on, conf => { conf with allocIdleNodes := on }
  | .allocIdleMode multipleOnly, conf => { conf with useIdleIfMultiple := multipleOnly }
  | .constrainMem on, conf => { conf with constrainMems := on }
  | .killOrphans on, conf => { conf with killOrphans := on }
  | .order reverse, conf => { conf with reverseOrder := reverse }

/-! ## Names -/

/-- The names of the policies. -/
inductive PolicyName : Text → Setting → Prop
  | bestFit : PolicyName "best-fit".toList (.policy .bestFit)
  | worstFit : PolicyName "worst-fit".toList (.policy .worstFit)
  | firstFit : PolicyName "first-fit".toList (.policy .firstFit)

/-- The names of the ways to use idle nodes. All but the numbers may be written in any case. -/
inductive IdleName : Text → Setting → Prop
  | zero : IdleName "0".toList (.allocIdle false)
  | never {name : Text} (hname : strcaseEq name "never".toList) : IdleName name (.allocIdle false)
  | no {name : Text} (hname : strcaseEq name "no".toList) : IdleName name (.allocIdle false)
  | one : IdleName "1".toList (.allocIdle true)
  | yes {name : Text} (hname : strcaseEq name "yes".toList) : IdleName name (.allocIdle true)
  | multiple {name : Text} (hname : strcaseEq name "multiple".toList) :
      IdleName name (.allocIdleMode true)
  | mult {name : Text} (hname : strcaseEq name "mult".toList) : IdleName name (.allocIdleMode true)
  | gt {name : Text} (hname : strcaseEq name "gt".toList) : IdleName name (.allocIdleMode false)
  | greater {name : Text} (hname : strcaseEq name "greater".toList) :
      IdleName name (.allocIdleMode false)

/-- The names of the orders, in any case. -/
inductive OrderName : Text → Setting → Prop
  | reverse {name : Text} (hname : strcaseEq name "reverse".toList) : OrderName name (.order true)
  | normal {name : Text} (hname : strcaseEq name "normal".toList) : OrderName name (.order false)

/-! ## Setters -/

/-- A setter sets what its argument names. If that is nothing, it fails without any effect. -/
structure SetsNamed (conf : CpusetConf) (named : Setting → Prop) (result : Int × CpusetConf) :
    Prop where
  sets : ∀ s, named s → result = (0, s.apply conf)
  refuses : (∀ s, ¬ named s) → result.1 < 0 ∧ result.2 = conf

namespace CpusetConf

variable (conf : CpusetConf) (name : Text)

theorem setPolicyString_sets :
    SetsNamed conf (PolicyName name) (conf.setPolicyString name) where
  sets := by
    intro s hname
    cases hname with
    | bestFit => rfl
    | worstFit => rfl
    | firstFit => rfl
  refuses := by
    intro hnone
    unfold setPolicyString
    split
    next heq =>
      obtain rfl := heq
      exact absurd .bestFit (hnone _)
    next =>
      split
      next heq =>
        obtain rfl := heq
        exact absurd .worstFit (hnone _)
      next =>
        split
        next heq =>
          obtain rfl := heq
          exact absurd .firstFit (hnone _)
        next => exact ⟨show (-1 : Int) < 0 by decide, rfl⟩

/-- Any other name than a number counts whatever case it is in. -/
theorem setAllocIdleString_congr {word : Text} (hzero : ¬ strcaseEq "0".toList word)
    (hone : ¬ strcaseEq "1".toList word) (hname : strcaseEq name word) :
    conf.setAllocIdleString name = conf.setAllocIdleString word := by
  have hnot : ∀ digit, ¬ strcaseEq digit word → name ≠ digit ∧ word ≠ digit := by
    intro digit hdigit
    constructor
    · rintro rfl
      exact hdigit hname
    · rintro rfl
      exact hdigit rfl
  have hsame : ∀ other, strcaseEq name other ↔ strcaseEq word other := by
    intro other
    rw [strcaseEq, strcaseEq, show name.map Char.toLower = word.map Char.toLower from hname]
  simp only [setAllocIdleString, hnot _ hzero, hnot _ hone, hsame]

theorem setAllocIdleString_sets :
    SetsNamed conf (IdleName name) (conf.setAllocIdleString name) where
  sets := by
    have hword : ∀ word, ¬ strcaseEq "0".toList word → ¬ strcaseEq "1".toList word →
        strcaseEq name word → conf.setAllocIdleString name = conf.setAllocIdleString word :=
      fun _ hzero hone hname => conf.setAllocIdleString_congr name hzero hone hname
    intro s hname
    cases hname with
    | zero => rfl
    | one => rfl
    | never hname => exact hword _ (by decide) (by decide) hname
    | no hname => exact hword _ (by decide) (by decide) hname
    | yes hname => exact hword _ (by decide) (by decide) hname
    | multiple hname => exact hword _ (by decide) (by decide) hname
    | mult hname => exact hword _ (by decide) (by decide) hname
    | gt hname => exact hword _ (by decide) (by decide) hname
    | greater hname => exact hword _ (by decide) (by decide) hname
  refuses := by
    intro hnone
    unfold setAllocIdleString
    split
    next heq =>
      rcases heq with rfl | heq | heq
      · exact absurd .zero (hnone _)
      · exact absurd (.never heq) (hnone _)
      · exact absurd (.no heq) (hnone _)
    next =>
      split
      next heq =>
        rcases heq with rfl | heq
        · exact absurd .one (hnone _)
        · exact absurd (.yes heq) (hnone _)
      next =>
        split
        next heq =>
          rcases heq with heq | heq
          · exact absurd (.multiple heq) (hnone _)
          · exact absurd (.mult heq) (hnone _)
        next =>
          split
          next heq =>
            rcases heq with heq | heq
            · exact absurd (.gt heq) (hnone _)
            · exact absurd (.greater heq) (hnone _)
          next => exact ⟨show (-1 : Int) < 0 by decide, rfl⟩

end CpusetConf

end SlurmSpank.Cpuset
