import Mathlib.Data.List.Forall2
import SlurmSpank.Cpuset.ConfOptions
import SlurmSpank.Cpuset.Nodemap

/-! # The idle policy after a sequence of settings

The configuration file, the arguments of the plugin and the options of the user are taken in
turn. The idle policy is kept in two fields: `no-idle`, `no` and `yes` write one of them, and
the modes write the other.
-/

namespace SlurmSpank.Cpuset

open Lib

variable {inputs : Inputs} {conf : CpusetConf} {opt : Text} {s : Setting} {ss : List Setting}

/-! ## Sources of settings -/

/-- Where settings come from. -/
inductive ConfSource where
  | system
  | argument (opt : Text)
  | userOption (opt : Text)

/-- The configuration after a source has been read. -/
def ConfSource.read (inputs : Inputs) (conf : CpusetConf) : ConfSource → CpusetConf
  | .system => (conf.parseSystem inputs).2
  | .argument opt => (conf.parseOneOption inputs opt).2
  | .userOption opt => (conf.setUserOption inputs opt).2

/-- The settings of a file that can be read and that is valid. -/
def FileAsks (inputs : Inputs) (path : Text) (ss : List Setting) : Prop :=
  ∃ text, inputs.opened path = some text ∧ IsFile (ConfRule.tokens text) ss

/-- A valid argument, with its settings. -/
inductive ArgumentAsks (inputs : Inputs) : Text → List Setting → Prop
  | form {opt : Text} {s : Setting} (hform : OptForm opt s) : ArgumentAsks inputs opt [s]
  | conf {path : Text} {ss : List Setting} (hfile : FileAsks inputs path ss) :
      ArgumentAsks inputs ("conf=".toList ++ path) ss
  | debug : ArgumentAsks inputs "debug".toList []
  | debugEq {level : Text} : ArgumentAsks inputs ("debug=".toList ++ level) []

/-- A valid source, with its settings. -/
inductive Asks (inputs : Inputs) : ConfSource → List Setting → Prop
  | absent (habsent : inputs.present CpusetConf.defaultConfig = false) : Asks inputs .system []
  | system {ss : List Setting} (hpresent : inputs.present CpusetConf.defaultConfig = true)
      (hfile : FileAsks inputs CpusetConf.defaultConfig ss) : Asks inputs .system ss
  | argument {opt : Text} {ss : List Setting} (hasks : ArgumentAsks inputs opt ss) :
      Asks inputs (.argument opt) ss
  | userOption {opt : Text} {ss : List Setting} (hasks : ArgumentAsks inputs opt ss) :
      Asks inputs (.userOption opt) ss
  | tasks : Asks inputs (.userOption "tasks".toList) []

/-! ## What is set -/

theorem parse_asks {path : Text} (hfile : FileAsks inputs path ss) :
    conf.parse inputs path = (0, applyAll ss conf) := by
  obtain ⟨text, hopen, hfile⟩ := hfile
  simp only [CpusetConf.parse, hopen, CpusetConf.parseText, hfile.yyparse conf]
  rfl

/-- How an option that sets something begins. -/
theorem OptForm.head (hform : OptForm opt s) : ∃ c, opt.head? = some c ∧ c ≠ 'd' ∧ c ≠ 't' := by
  cases hform with
  | policy hname =>
      cases hname with
      | bestFit => exact ⟨_, rfl, by decide, by decide⟩
      | worstFit => exact ⟨_, rfl, by decide, by decide⟩
      | firstFit => exact ⟨_, rfl, by decide, by decide⟩
  | _ => exact ⟨_, rfl, by decide, by decide⟩

/-- The options for the log and for tasks leave the configuration alone, and no option that
sets something is taken for one of them. -/
theorem argument_asks (hasks : ArgumentAsks inputs opt ss) :
    (conf.parseOneOption inputs opt).2 = applyAll ss conf ∧
      (conf.setUserOption inputs opt).2 = applyAll ss conf := by
  have hother : ∀ c, opt.head? = some c → c ≠ 'd' → c ≠ 't' →
      ¬ "debug=".toList <+: opt ∧ "debug".toList ≠ opt ∧ opt ≠ "tasks".toList := by
    intro c hhead hd ht
    refine ⟨?_, ?_, ?_⟩
    · rintro ⟨level, rfl⟩
      exact hd (Option.some_inj.mp hhead).symm
    · rintro rfl
      exact hd (Option.some_inj.mp hhead).symm
    · rintro rfl
      exact ht (Option.some_inj.mp hhead).symm
  have hboth : ∀ c, opt.head? = some c → c ≠ 'd' → c ≠ 't' →
      (conf.parseOpt inputs opt).2 = applyAll ss conf →
        (conf.parseOneOption inputs opt).2 = applyAll ss conf ∧
          (conf.setUserOption inputs opt).2 = applyAll ss conf := by
    intro c hhead hd ht hopt
    obtain ⟨hlevel, hdebug, htasks⟩ := hother c hhead hd ht
    have hone : conf.parseOneOption inputs opt = conf.parseOpt inputs opt := by
      rw [CpusetConf.parseOneOption, if_neg hlevel, if_neg hdebug]
    have huser : conf.setUserOption inputs opt = conf.parseOneOption inputs opt := by
      rw [CpusetConf.setUserOption, if_neg htasks, if_neg hlevel, if_neg hdebug]
    rw [huser, hone]
    exact ⟨hopt, hopt⟩
  cases hasks with
  | @form _ s hform =>
      obtain ⟨c, hhead, hd, ht⟩ := hform.head
      apply hboth c hhead hd ht
      exact parseOpt_effect hform
  | @conf path _ hfile =>
      apply hboth 'c' rfl (by decide) (by decide)
      have hparse : conf.parseOpt inputs ("conf=".toList ++ path) = conf.parse inputs path := rfl
      rw [hparse, parse_asks hfile]
  | debug => exact ⟨rfl, rfl⟩
  | debugEq => exact ⟨rfl, rfl⟩

/-- A valid source has the effect of its settings. -/
theorem read_asks {source : ConfSource} (hasks : Asks inputs source ss) :
    source.read inputs conf = applyAll ss conf := by
  cases hasks with
  | absent habsent =>
      simp only [ConfSource.read, CpusetConf.parseSystem, CpusetConf.parseIfExists, habsent]
      rfl
  | system hpresent hfile =>
      have hread : (inputs.read CpusetConf.defaultConfig).isNone = false := by
        obtain ⟨text, hopened, -⟩ := hfile
        have hread : inputs.opened CpusetConf.defaultConfig =
            inputs.read CpusetConf.defaultConfig := rfl
        rw [← hread, hopened]
        rfl
      simp only [ConfSource.read, CpusetConf.parseSystem, CpusetConf.parseIfExists, hpresent,
        hread, parse_asks hfile]
      rfl
  | argument hasks => exact (argument_asks hasks).1
  | userOption hasks => exact (argument_asks hasks).2
  | tasks => rfl

/-- Valid sources have the effect of all their settings in order. -/
theorem foldl_read {sources : List ConfSource} {settings : List (List Setting)}
    (hasks : List.Forall₂ (Asks inputs) sources settings) :
    sources.foldl (ConfSource.read inputs) conf = applyAll settings.flatten conf := by
  induction hasks generalizing conf with
  | nil => rfl
  | cons hsource _ ih =>
      rw [List.foldl_cons, read_asks hsource, ih, List.flatten_cons, applyAll_append]

/-! ## The idle policy -/

/-- The ways to use idle nodes. -/
inductive IdleBehaviour where
  | off
  | greaterOrEqual
  | multiplesOnly
  deriving DecidableEq

/-- The behaviour of a mode. -/
def IdleBehaviour.ofMode (multipleOnly : Bool) : IdleBehaviour :=
  if multipleOnly then .multiplesOnly else .greaterOrEqual

/-- How idle nodes are used under a policy. -/
def Policy.idleBehaviour (policy : Policy) : IdleBehaviour :=
  if policy.allocIdleFirst then .ofMode policy.allocIdleMultiplesOnly else .off

/-- The behaviour decides whether idle nodes are allocated first. -/
theorem shouldAllocateIdleNodes_behaviour (m : Nodemap) (count : Int) :
    shouldAllocateIdleNodes m count =
      match m.policy.idleBehaviour with
      | .off => false
      | .greaterOrEqual => (listFindFirst (findNodeLtSize count) m.nodelist).isSome
      | .multiplesOnly => (listFindFirst (findMultipleOfNodeSize count) m.nodelist).isSome := by
  unfold shouldAllocateIdleNodes Policy.idleBehaviour IdleBehaviour.ofMode
  cases m.policy.allocIdleFirst with
  | false => rfl
  | true =>
      cases m.policy.allocIdleMultiplesOnly with
      | false => rfl
      | true => rfl

/-- The setting switches the use of idle nodes on or off. -/
def Setting.switch : Setting → Option Bool
  | .allocIdle on => some on
  | _ => none

/-- The setting names a mode. -/
def Setting.mode : Setting → Option Bool
  | .allocIdleMode multipleOnly => some multipleOnly
  | _ => none

/-- The setting is about idle nodes. -/
def Setting.isIdle : Setting → Bool
  | .allocIdle _ | .allocIdleMode _ => true
  | _ => false

/-- The last setting about idle nodes. -/
def lastIdle (ss : List Setting) : Option Setting := ss.reverse.find? Setting.isIdle

/-- What was last said about on and off. -/
def lastSwitch (ss : List Setting) : Option Bool := ss.reverse.findSome? Setting.switch

/-- The mode that was last named. -/
def lastMode (ss : List Setting) : Option Bool := ss.reverse.findSome? Setting.mode

/-- The behaviour that the last setting about idle nodes names. For `yes` it is the mode that
was last named, or else multiples. -/
def namedIdle (ss : List Setting) : Option IdleBehaviour :=
  (lastIdle ss).bind fun
    | .allocIdle false => some .off
    | .allocIdle true => some (.ofMode ((lastMode ss).getD true))
    | .allocIdleMode multipleOnly => some (.ofMode multipleOnly)
    | _ => none

/-- A mode is named last, after the use of idle nodes was switched off and not on again. -/
def ModeWhileOff (ss : List Setting) : Prop :=
  (∃ multipleOnly, lastIdle ss = some (.allocIdleMode multipleOnly)) ∧ lastSwitch ss = some false

/-- Each of the two fields has the value that was last given to it. -/
theorem applyAll_idle (ss : List Setting) (conf : CpusetConf) :
    (applyAll ss conf).allocIdleNodes = (lastSwitch ss).getD conf.allocIdleNodes ∧
      (applyAll ss conf).useIdleIfMultiple = (lastMode ss).getD conf.useIdleIfMultiple := by
  induction ss using List.reverseRecOn with
  | nil => exact ⟨rfl, rfl⟩
  | append_singleton ss s ih =>
      obtain ⟨hswitch, hmode⟩ := ih
      rw [applyAll_append, lastSwitch, lastMode, List.reverse_append, List.reverse_singleton,
        List.singleton_append, List.findSome?_cons, List.findSome?_cons]
      cases s with
      | allocIdle on => exact ⟨rfl, hmode⟩
      | allocIdleMode multipleOnly => exact ⟨hswitch, rfl⟩
      | _ => exact ⟨hswitch, hmode⟩

/-- The last setting about idle nodes is the last one of its kind. -/
theorem lastIdle_spec (ss : List Setting) :
    (lastIdle ss = none ∧ lastSwitch ss = none ∧ lastMode ss = none) ∨
      (∃ on, lastIdle ss = some (.allocIdle on) ∧ lastSwitch ss = some on) ∨
      ∃ multipleOnly, lastIdle ss = some (.allocIdleMode multipleOnly) ∧
        lastMode ss = some multipleOnly := by
  induction ss using List.reverseRecOn with
  | nil => exact Or.inl ⟨rfl, rfl, rfl⟩
  | append_singleton ss s ih =>
      rw [lastIdle, lastSwitch, lastMode, List.reverse_append, List.reverse_singleton,
        List.singleton_append, List.findSome?_cons, List.findSome?_cons, List.find?_cons]
      cases s with
      | allocIdle on => exact Or.inr (Or.inl ⟨on, rfl, rfl⟩)
      | allocIdleMode multipleOnly => exact Or.inr (Or.inr ⟨multipleOnly, rfl, rfl⟩)
      | _ => exact ih

/-- After any sequence of valid sources the policy is the one that the last setting about
idle nodes names, unless it names a mode while the use of idle nodes is off. -/
theorem idleBehaviour_lastNamed (inputs : Inputs) (sources : List ConfSource)
    (settings : List (List Setting)) (map : Nodemap)
    (hasks : List.Forall₂ (Asks inputs) sources settings) :
    (∀ behaviour, namedIdle settings.flatten = some behaviour →
      (nodemapPolicyUpdate map
        (sources.foldl (ConfSource.read inputs) cpusetConfCreate)).policy.idleBehaviour =
          behaviour) ↔
      ¬ ModeWhileOff settings.flatten := by
  rw [foldl_read hasks]
  generalize settings.flatten = ss
  obtain ⟨hswitch, hmode⟩ := applyAll_idle ss cpusetConfCreate
  have hinstalled : (nodemapPolicyUpdate map (applyAll ss cpusetConfCreate)).policy.idleBehaviour =
      if (lastSwitch ss).getD true then .ofMode ((lastMode ss).getD true) else .off := by
    change (if (applyAll ss cpusetConfCreate).allocIdleNodes = true then
      IdleBehaviour.ofMode ((applyAll ss cpusetConfCreate).allocIdleNodes &&
        (applyAll ss cpusetConfCreate).useIdleIfMultiple) else .off) = _
    rw [hswitch, hmode, show cpusetConfCreate.allocIdleNodes = true from rfl,
      show cpusetConfCreate.useIdleIfMultiple = true from rfl]
    cases (lastSwitch ss).getD true with
    | false => rfl
    | true => rfl
  rw [hinstalled]
  rcases lastIdle_spec ss with ⟨hlast, -, -⟩ | ⟨on, hlast, hswitch⟩ | ⟨multipleOnly, hlast, hmode⟩
  · constructor
    · rintro - ⟨⟨multipleOnly, hother⟩, -⟩
      exact absurd (hlast.symm.trans hother) (by simp)
    · intro _ behaviour hnamed
      rw [namedIdle, hlast] at hnamed
      exact absurd hnamed (by simp)
  · constructor
    · rintro - ⟨⟨multipleOnly, hother⟩, -⟩
      exact absurd (hlast.symm.trans hother) (by simp)
    · intro _ behaviour hnamed
      rw [namedIdle, hlast] at hnamed
      cases on with
      | false =>
          rw [hswitch]
          exact Option.some_inj.mp hnamed
      | true =>
          rw [hswitch]
          exact Option.some_inj.mp hnamed
  -- A mode was named last: it counts unless the last switch is off.
  · have hnamed : namedIdle ss = some (.ofMode multipleOnly) := by
      rw [namedIdle, hlast]
      rfl
    rw [hnamed, hmode]
    constructor
    · rintro hinstalled ⟨-, hoff⟩
      have hsame := hinstalled _ rfl
      rw [hoff] at hsame
      cases multipleOnly with
      | false => exact absurd hsame (by decide)
      | true => exact absurd hsame (by decide)
    · intro hnot behaviour hbehaviour
      have hon : lastSwitch ss ≠ some false := fun hoff => hnot ⟨⟨multipleOnly, hlast⟩, hoff⟩
      rw [← Option.some_inj.mp hbehaviour]
      cases hswitch : lastSwitch ss with
      | none => rfl
      | some on =>
          cases on with
          | false => exact absurd hswitch hon
          | true => rfl

/-- An argument that switches off and an option of the user that switches on again. -/
theorem idleBehaviour_lastNamed_yes :
    (∀ behaviour, namedIdle [.allocIdle false, .allocIdle true] = some behaviour →
      (nodemapPolicyUpdate ⟨defaultPolicy, 0, 0, 0, .ofFinset 0 ∅, .ofFinset 0 ∅, []⟩
        ([ConfSource.argument "no-idle".toList, .userOption "idle-first=yes".toList].foldl
          (ConfSource.read ⟨fun _ => false, fun _ => none, []⟩)
            cpusetConfCreate)).policy.idleBehaviour = behaviour) ↔
      ¬ ModeWhileOff [.allocIdle false, .allocIdle true] :=
  idleBehaviour_lastNamed ⟨fun _ => false, fun _ => none, []⟩
    [.argument "no-idle".toList, .userOption "idle-first=yes".toList]
    [[.allocIdle false], [.allocIdle true]]
    ⟨defaultPolicy, 0, 0, 0, .ofFinset 0 ∅, .ofFinset 0 ∅, []⟩
    (.cons (.argument (.form .noIdle))
      (.cons (.userOption (.form (@OptForm.idleFirst "yes".toList _ (.yes rfl)))) .nil))

/-- After `no-idle`, `idle-first=gt` has no effect. -/
theorem gt_after_noIdle :
    ∃ (inputs : Inputs) (sources : List ConfSource) (settings : List (List Setting))
      (map : Nodemap), List.Forall₂ (Asks inputs) sources settings ∧
        namedIdle settings.flatten = some .greaterOrEqual ∧
        (nodemapPolicyUpdate map
          (sources.foldl (ConfSource.read inputs) cpusetConfCreate)).policy.idleBehaviour = .off :=
  ⟨⟨fun _ => false, fun _ => none, []⟩,
    [.argument "no-idle".toList, .userOption "idle-first=gt".toList],
    [[.allocIdle false], [.allocIdleMode false]],
    ⟨defaultPolicy, 0, 0, 0, .ofFinset 0 ∅, .ofFinset 0 ∅, []⟩,
    .cons (.argument (.form .noIdle))
      (.cons (.userOption (.form (@OptForm.idleFirst "gt".toList _ (.gt rfl)))) .nil),
    by decide, by decide⟩

end SlurmSpank.Cpuset
