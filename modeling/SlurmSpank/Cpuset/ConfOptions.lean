import SlurmSpank.Cpuset.ConfGrammar

/-! # Options of the cpuset plugin

`cpuset_conf_parse_opt`, which the plugin and the PAM module call for each of their arguments,
and the forms of an option. A form is recognised by its whole text or by a prefix, and the
rest of the text is left to a setter.
-/

namespace SlurmSpank.Cpuset

namespace CpusetConf

/-- `cpuset_conf_parse_opt`. -/
def parseOpt (inputs : Inputs) (conf : CpusetConf) (opt : Text) : Int × CpusetConf :=
  let (rc, conf) := conf.setPolicyString opt
  if rc = 0 then (0, conf)
  else
    let (rc, conf) :=
      if "policy=".toList <+: opt then conf.setPolicyString (opt.drop 7) else (0, conf)
    if rc < 0 then (-1, conf)
    -- A policy that was set does not return here.
    else if "conf=".toList <+: opt then conf.parse inputs (opt.drop 5)
    else if "!idle-1st".toList = opt ∨ "no-idle".toList = opt then conf.setAllocIdle false
    else if "idle-1st=".toList <+: opt then conf.setAllocIdleString (opt.drop 9)
    else if "idle-first=".toList <+: opt then conf.setAllocIdleString (opt.drop 11)
    else if "!mem".toList = opt ∨ "nomem".toList = opt ∨ "!constrain-mem".toList = opt then
      conf.setConstrainMem false
    else if "mem".toList = opt ∨ "constrain-mem".toList = opt then conf.setConstrainMem true
    else if "reverse".toList = opt ∨ "order=reverse".toList = opt then conf.setOrder true
    else if "order=normal".toList = opt then conf.setOrder false
    else (-1, conf)

/-- `parse_one_option`. The debug level is no part of the configuration. -/
def parseOneOption (inputs : Inputs) (conf : CpusetConf) (opt : Text) : Int × CpusetConf :=
  if "debug=".toList <+: opt then (0, conf)
  else if "debug".toList = opt then (0, conf)
  else conf.parseOpt inputs opt

/-- What `set_user_options` does with one option in the job step. -/
def setUserOption (inputs : Inputs) (conf : CpusetConf) (opt : Text) : Int × CpusetConf :=
  if opt = "tasks".toList then (0, conf)
  else if "debug=".toList <+: opt then (0, conf)
  else if "debug".toList = opt then (0, conf)
  else conf.parseOneOption inputs opt

end CpusetConf

/-! ## Forms -/

/-- The forms of an option, and what they ask for. -/
inductive OptForm : Text → Setting → Prop
  | policy {name : Text} {s : Setting} (hname : PolicyName name s) : OptForm name s
  | policyEq {name : Text} {s : Setting} (hname : PolicyName name s) :
      OptForm ("policy=".toList ++ name) s
  | reverse : OptForm "reverse".toList (.order true)
  | orderReverse : OptForm "order=reverse".toList (.order true)
  | orderNormal : OptForm "order=normal".toList (.order false)
  | noIdle : OptForm "no-idle".toList (.allocIdle false)
  | notIdle1st : OptForm "!idle-1st".toList (.allocIdle false)
  | idleFirst {name : Text} {s : Setting} (hname : IdleName name s) :
      OptForm ("idle-first=".toList ++ name) s
  | idle1st {name : Text} {s : Setting} (hname : IdleName name s) :
      OptForm ("idle-1st=".toList ++ name) s
  | mem : OptForm "mem".toList (.constrainMem true)
  | constrainMem : OptForm "constrain-mem".toList (.constrainMem true)
  | nomem : OptForm "nomem".toList (.constrainMem false)
  | notMem : OptForm "!mem".toList (.constrainMem false)
  | notConstrainMem : OptForm "!constrain-mem".toList (.constrainMem false)

/-- The form that sets a policy and returns an error all the same. -/
def IsPolicyEq (opt : Text) : Prop := ∃ name s, opt = "policy=".toList ++ name ∧ PolicyName name s

variable {inputs : Inputs} {conf : CpusetConf} {opt name : Text} {s : Setting}

/-- A valid policy behind `policy=` is set, but the option counts as unknown. -/
theorem parseOpt_policyEq (hname : PolicyName name s) :
    conf.parseOpt inputs ("policy=".toList ++ name) = (-1, s.apply conf) := by
  cases hname with
  | bestFit => rfl
  | worstFit => rfl
  | firstFit => rfl

/-- Every other form returns 0. All of them have the effect of their setting. -/
theorem parseOpt_form (hform : OptForm opt s) :
    conf.parseOpt inputs opt = (0, s.apply conf) ∨
      IsPolicyEq opt ∧ conf.parseOpt inputs opt = (-1, s.apply conf) := by
  cases hform with
  | policyEq hname => exact Or.inr ⟨⟨_, s, rfl, hname⟩, parseOpt_policyEq hname⟩
  | policy hname =>
      cases hname with
      | bestFit => exact Or.inl rfl
      | worstFit => exact Or.inl rfl
      | firstFit => exact Or.inl rfl
  | @idleFirst name _ hname => exact Or.inl ((conf.setAllocIdleString_sets name).sets s hname)
  | @idle1st name _ hname => exact Or.inl ((conf.setAllocIdleString_sets name).sets s hname)
  | _ => exact Or.inl rfl

theorem parseOpt_effect (hform : OptForm opt s) :
    (conf.parseOpt inputs opt).2 = s.apply conf := by
  rcases @parseOpt_form inputs conf opt s hform with hresult | ⟨-, hresult⟩
  · exact congrArg Prod.snd hresult
  · exact congrArg Prod.snd hresult

/-- What is behind a prefix is left to a setter. -/
theorem SetsNamed.behind {named : Text → Setting → Prop} {setter : Text → Int × CpusetConf}
    (hsets : ∀ name, SetsNamed conf (named name) (setter name)) {word : Text} {n : Nat}
    (hlength : word.length = n) (hbegins : word <+: opt)
    (hnone : ∀ name s, opt = word ++ name → ¬ named name s) :
    (setter (opt.drop n)).1 < 0 ∧ (setter (opt.drop n)).2 = conf := by
  obtain ⟨name, rfl⟩ := hbegins
  rw [List.drop_left' hlength]
  exact (hsets name).refuses fun s => hnone name s rfl

/-- What has none of the forms is refused. -/
theorem parseOpt_unknown (hnone : ∀ s, ¬ OptForm opt s) (hconf : ¬ "conf=".toList <+: opt) :
    (conf.parseOpt inputs opt).1 < 0 ∧ (conf.parseOpt inputs opt).2 = conf := by
  have hunknown : (-1 : Int) < 0 := by decide
  obtain ⟨hneg, hsame⟩ := (conf.setPolicyString_sets opt).refuses
    fun s hname => hnone s (.policy hname)
  unfold CpusetConf.parseOpt
  simp only [hsame, if_neg (Int.ne_of_lt hneg)]
  by_cases hpolicy : "policy=".toList <+: opt
  · have hbehind : (conf.setPolicyString (opt.drop 7)).1 < 0 ∧
        (conf.setPolicyString (opt.drop 7)).2 = conf :=
      SetsNamed.behind conf.setPolicyString_sets rfl hpolicy
        fun name s heq hname => hnone s (heq ▸ .policyEq hname)
    simp only [if_pos hpolicy, if_pos hbehind.1, hbehind.2]
    exact ⟨hunknown, trivial⟩
  simp only [if_neg hpolicy, if_neg hconf, if_neg (Int.lt_irrefl 0)]
  split
  next heq =>
    rcases heq with rfl | rfl
    · exact absurd .notIdle1st (hnone _)
    · exact absurd .noIdle (hnone _)
  next =>
  split
  next hbegins =>
    exact SetsNamed.behind conf.setAllocIdleString_sets rfl hbegins
      fun name s heq hname => hnone s (heq ▸ .idle1st hname)
  next =>
  split
  next hbegins =>
    exact SetsNamed.behind conf.setAllocIdleString_sets rfl hbegins
      fun name s heq hname => hnone s (heq ▸ .idleFirst hname)
  next =>
  split
  next heq =>
    rcases heq with rfl | rfl | rfl
    · exact absurd .notMem (hnone _)
    · exact absurd .nomem (hnone _)
    · exact absurd .notConstrainMem (hnone _)
  next =>
  split
  next heq =>
    rcases heq with rfl | rfl
    · exact absurd .mem (hnone _)
    · exact absurd .constrainMem (hnone _)
  next =>
  split
  next heq =>
    rcases heq with rfl | rfl
    · exact absurd .reverse (hnone _)
    · exact absurd .orderReverse (hnone _)
  next =>
  split
  next heq =>
    obtain rfl := heq
    exact absurd .orderNormal (hnone _)
  next => exact ⟨hunknown, rfl⟩

/-- An option of any form but `policy=` is accepted with just its setting, and any other is
refused without effect. -/
theorem parseOpt_exact (inputs : Inputs) (conf : CpusetConf) (opt : Text)
    (hconf : ¬ "conf=".toList <+: opt) :
    SetsNamed conf (OptForm opt) (conf.parseOpt inputs opt) ↔ ¬ IsPolicyEq opt := by
  constructor
  · rintro hsets ⟨name, s, rfl, hname⟩
    have hresult := hsets.sets s (.policyEq hname)
    rw [parseOpt_policyEq hname] at hresult
    exact absurd (congrArg Prod.fst hresult) (show (-1 : Int) ≠ 0 by decide)
  · intro hpolicy
    exact ⟨fun s hform => (parseOpt_form hform).resolve_right fun hother => hpolicy hother.1,
      fun hnone => parseOpt_unknown hnone hconf⟩

/-- `reverse` is such an option. -/
theorem parseOpt_exact_reverse :
    SetsNamed cpusetConfCreate (OptForm "reverse".toList)
        (cpusetConfCreate.parseOpt ⟨fun _ => false, fun _ => none, []⟩ "reverse".toList) ↔
      ¬ IsPolicyEq "reverse".toList :=
  parseOpt_exact ⟨fun _ => false, fun _ => none, []⟩ cpusetConfCreate "reverse".toList (by decide)

/-- `policy=worst-fit` sets the policy and is refused. -/
theorem policy_worstFit_refused :
    ¬ SetsNamed cpusetConfCreate (OptForm "policy=worst-fit".toList)
        (cpusetConfCreate.parseOpt ⟨fun _ => false, fun _ => none, []⟩
          "policy=worst-fit".toList) := by
  intro hsets
  have hresult := hsets.sets (.policy .worstFit) (.policyEq .worstFit)
  exact absurd hresult (by decide)

end SlurmSpank.Cpuset
