import Mathlib.Data.List.Nodup
import SlurmSpank.SpankLua.Registry

/-! # The depth of a Lua stack

A result that was read stays on the stack, and so does the error of a function that SLURM calls.
The depth is what it was when there is no function to call, and after the error of an option's
function.
-/

namespace SlurmSpank.SpankLua

open Foundation Lib

variable {Num : Type} {num : NumberOps Num}

/-! ## One call -/

theorem setField_append (k : Key) (stack : List (Value Num)) (entries : List (Key × Value Num))
    (v : Value Num) :
    setField k (stack ++ [.table entries] ++ [v]) = stack ++ [.table ((k, v) :: entries)] := by
  rw [setField, ValueStack.peek_below, ValueStack.peek_top]
  simp only [ValueStack.pop_one, ValueStack.store_top]

theorem pushArgs_append (i : Nat) (av : List Text) (stack : List (Value Num))
    (entries : List (Key × Value Num)) :
    ∃ entries', pushArgs i av (stack ++ [.table entries]) = stack ++ [.table entries'] := by
  induction av generalizing i entries with
  | nil => exact ⟨entries, rfl⟩
  | cons arg av ih =>
      rw [pushArgs, setField_append]
      exact ih (i + 1) _

/-- One table is pushed. -/
theorem luaSpankTableCreate_append (args : SpankArgs) (stack : List (Value Num)) :
    ∃ entries, luaSpankTableCreate args stack = stack ++ [.table entries] := by
  unfold luaSpankTableCreate
  cases args.version with
  | none =>
      simp only [setField_append]
      obtain ⟨entries, hargs⟩ := pushArgs_append 1 (args.av.drop 1) (stack ++ [.table _]) []
      rw [hargs, setField_append]
      exact ⟨_, rfl⟩
  | some version =>
      simp only [setField_append]
      obtain ⟨entries, hargs⟩ := pushArgs_append 1 (args.av.drop 1) (stack ++ [.table _]) []
      rw [hargs, setField_append]
      exact ⟨_, rfl⟩

theorem pcall_append (stack : List (Value Num)) (f : Value Num) (args : List (Value Num))
    (nresults : Nat) (ending : Ending Num) :
    pcall (stack ++ f :: args) args.length nresults ending =
      match ending with
      | .ok values => (false, stack ++ adjusted nresults values)
      | .error msg => (true, stack ++ [msg]) := by
  have hpop : ValueStack.pop .nil (stack ++ f :: args) ((args.length : Int) + 1) = stack :=
    ValueStack.pop_append .nil stack (f :: args)
  cases ending with
  | ok values => exact congrArg (fun stack => (false, stack ++ adjusted nresults values)) hpop
  | error msg => exact congrArg (fun stack => (true, stack ++ [msg])) hpop

theorem adjusted_one (values : List (Value Num)) : ∃ v, adjusted 1 values = [v] := by
  cases values with
  | nil => exact ⟨.nil, rfl⟩
  | cons v values => exact ⟨v, by simp [adjusted]⟩

/-- The return value is read, and stays where it is. -/
theorem luaScriptRc_stack (stack : List (Value Num)) : (luaScriptRc num stack).2 = stack :=
  ValueStack.pop_zero .nil stack

theorem toStringAt_top (stack : List (Value Num)) (v : Value Num) :
    ∃ v', (toStringAt num (stack ++ [v]) (-1)).2 = stack ++ [v'] := by
  rw [toStringAt, ValueStack.peek_top]
  cases Value.toText num (some v) with
  | none => exact ⟨v, rfl⟩
  | some s => exact ⟨.string s, ValueStack.store_top stack v _⟩

/-- Without a function the stack of the script is what it was. -/
theorem luaSpankCall_nil (num : NumberOps Num) (s : Script Num) {fn : Text} (args : SpankArgs)
    {behaviour : Behaviour Num} (hglobal : behaviour.globals fn = .nil) :
    (luaSpankCall num s fn args behaviour).2 = s.stack := by
  unfold luaSpankCall
  simp only [(isNil_top _ _).mpr hglobal, if_true]
  exact ValueStack.pop_one .nil s.stack _

/-- A function of the script leaves one value on the stack, whether it returns or fails. -/
theorem luaSpankCall_function (num : NumberOps Num) (s : Script Num) {fn : Text} (args : SpankArgs)
    {behaviour : Behaviour Num} (hglobal : behaviour.globals fn ≠ .nil) :
    ∃ v, (luaSpankCall num s fn args behaviour).2 = s.stack ++ [v] := by
  have hnil : ¬ Value.isNil (ValueStack.peek (s.stack ++ [behaviour.globals fn]) (-1)) = true :=
    fun htop => hglobal ((isNil_top _ _).mp htop)
  obtain ⟨entries, htable⟩ :=
    luaSpankTableCreate_append args (s.stack ++ [behaviour.globals fn])
  have hcall := pcall_append s.stack (behaviour.globals fn) [.table entries] 1 behaviour.ending
  have hstack : s.stack ++ [behaviour.globals fn] ++ [.table entries] =
      s.stack ++ behaviour.globals fn :: [.table entries] := List.append_assoc _ _ _
  unfold luaSpankCall
  simp only [if_neg hnil, htable, hstack]
  rw [List.length_singleton] at hcall
  rw [hcall]
  cases behaviour.ending with
  | ok values =>
      obtain ⟨v, hv⟩ := adjusted_one values
      exact ⟨v, by rw [← hv]; exact luaScriptRc_stack _⟩
  | error msg => exact toStringAt_top s.stack msg

/-- The function of an option and its three arguments are taken from the stack by the call. -/
theorem callOptionFunction_pcall (num : NumberOps Num) (fn : Text) (lVal : Int)
    (optarg : Option Text) (remote : Bool) (behaviour : Behaviour Num) (stack : List (Value Num)) :
    pcall (stack ++ [behaviour.globals fn] ++ [.number (num.ofInt lVal)] ++
        [(optarg.map Value.string).getD .nil] ++ [.boolean remote]) 3 1 behaviour.ending =
      match behaviour.ending with
      | .ok values => (false, stack ++ adjusted 1 values)
      | .error msg => (true, stack ++ [msg]) := by
  have hcall := pcall_append stack (behaviour.globals fn)
    [.number (num.ofInt lVal), (optarg.map Value.string).getD .nil, .boolean remote] 1
    behaviour.ending
  rw [← hcall, List.append_assoc, List.append_assoc, List.append_assoc]
  rfl

/-- The error of an option's function is taken from the stack again. -/
theorem callOptionFunction_error (num : NumberOps Num) (fn : Text) (lVal : Int)
    (optarg : Option Text) (remote : Bool) {behaviour : Behaviour Num} {msg : Value Num}
    (hending : behaviour.ending = .error msg) (stack : List (Value Num)) :
    (callOptionFunction num fn lVal optarg remote behaviour stack).2 = stack := by
  have hcall := callOptionFunction_pcall num fn lVal optarg remote behaviour stack
  rw [hending] at hcall
  obtain ⟨v, hv⟩ : ∃ v, (toStringAt num (stack ++ [msg]) (-1)).2 = stack ++ [v] :=
    toStringAt_top stack msg
  unfold callOptionFunction
  simp only [hending, hcall, hv, ValueStack.pop_one]

theorem callOptionFunction_ok (num : NumberOps Num) (fn : Text) (lVal : Int)
    (optarg : Option Text) (remote : Bool) {behaviour : Behaviour Num} {values : List (Value Num)}
    (hending : behaviour.ending = .ok values) (stack : List (Value Num)) :
    ∃ v, (callOptionFunction num fn lVal optarg remote behaviour stack).2 = stack ++ [v] := by
  have hcall := callOptionFunction_pcall num fn lVal optarg remote behaviour stack
  rw [hending] at hcall
  obtain ⟨v, hv⟩ := adjusted_one values
  refine ⟨v, ?_⟩
  unfold callOptionFunction
  simp only [hending, hcall, hv]
  exact luaScriptRc_stack _

/-! ## Scripts are at different addresses -/

/-- No two scripts are at one address, and the next address is new. -/
def Process.Distinct (s : Process Num) : Prop :=
  s.refs.Nodup ∧ ∀ ref ∈ s.refs, ref < s.created

/-- What an operation does to the addresses: some may go, or a new one is put in front. -/
def KeepsRefs (s s' : Process Num) : Prop :=
  (s'.refs.Sublist s.refs ∧ s'.created = s.created) ∨
    (s'.refs = s.created :: s.refs ∧ s'.created = s.created + 1)

theorem keepsRefs_of_eq {s s' : Process Num} (hrefs : s'.refs = s.refs)
    (hcreated : s'.created = s.created) : KeepsRefs s s' :=
  Or.inl ⟨hrefs ▸ List.Sublist.refl _, hcreated⟩

theorem KeepsRefs.distinct {s s' : Process Num} (hkeeps : KeepsRefs s s') (hdistinct : s.Distinct) :
    s'.Distinct := by
  obtain ⟨hnodup, hlt⟩ := hdistinct
  rcases hkeeps with ⟨hsublist, hcreated⟩ | ⟨hrefs, hcreated⟩
  · refine ⟨hnodup.sublist hsublist, fun ref href => ?_⟩
    rw [hcreated]
    exact hlt ref (hsublist.subset href)
  · refine ⟨?_, fun ref href => ?_⟩
    · rw [hrefs, List.nodup_cons]
      exact ⟨fun hmem => Nat.lt_irrefl _ (hlt _ hmem), hnodup⟩
    · rw [hrefs] at href
      rw [hcreated]
      rcases List.mem_cons.mp href with rfl | hold
      · exact Nat.lt_succ_self _
      · exact Nat.lt_succ_of_lt (hlt ref hold)

theorem keepsRefs_drop {s s' : Process Num} (script : Nat)
    (hrefs : s'.refs = s.refs.filter (· ≠ script)) (hcreated : s'.created = s.created) :
    KeepsRefs s s' :=
  Or.inl ⟨hrefs ▸ List.filter_sublist, hcreated⟩

theorem load_keepsRefs (s : Process Num) (loaded : Loaded) (rest : List Nat) :
    KeepsRefs s (s.load loaded rest) := by
  cases rest with
  | nil =>
      rw [Process.load]
      split
      next => exact keepsRefs_of_eq rfl rfl
      next => exact keepsRefs_of_eq rfl rfl
  | cons script rest =>
      have hrefs : (s.scripts.map fun other : Script Num =>
          if other.ref = script then { other with failOnError := s.failOnError } else other).map
            Script.ref = s.refs :=
        map_ref_update s.scripts (·.ref = script)
          (fun other => { other with failOnError := s.failOnError }) fun _ => rfl
      cases loaded with
      | kept => exact keepsRefs_of_eq hrefs rfl
      | failed =>
          rw [Process.load]
          simp only
          split
          next => exact keepsRefs_of_eq hrefs rfl
          next =>
            refine keepsRefs_drop script ?_ rfl
            rw [← hrefs]
            exact drop_refs _ script
      | noCallbacks =>
          refine keepsRefs_drop script ?_ rfl
          rw [← hrefs]
          exact drop_refs _ script

theorem openTable_keepsRefs (s : Process Num) (spankOptions : Value Num) (rest : List Nat) :
    KeepsRefs s (s.openTable spankOptions rest) := by
  cases rest with
  | nil => exact keepsRefs_of_eq rfl rfl
  | cons script rest =>
      cases spankOptions with
      | table entries => exact keepsRefs_of_eq (setStack_refs s script _) rfl
      | _ => exact keepsRefs_of_eq rfl rfl

theorem row_keepsRefs (s : Process Num) (globals : Text → Value Num) (err : Option Text)
    (script : Nat) (rest : List Nat) (entries : List (Key × Value Num)) :
    KeepsRefs s (s.row num globals err script rest entries) := by
  cases entries with
  | nil => exact keepsRefs_of_eq (setStack_refs s script _) rfl
  | cons entry entries =>
      rw [Process.row]
      split
      next => exact keepsRefs_of_eq rfl rfl
      next failed stack options _ =>
        have hrefs := setStack_refs s script stack
        rw [Process.registered]
        split
        next => exact keepsRefs_of_eq hrefs rfl
        next =>
          split
          next => exact keepsRefs_of_eq hrefs rfl
          next =>
            refine keepsRefs_drop script ?_ rfl
            rw [← hrefs]
            exact drop_refs _ script

theorem next_keepsRefs {s s' : Process Num} {event : Event Num}
    (hnext : s.next num event = some s') : KeepsRefs s s' := by
  cases step_of_next hnext with
  | @create paths _ =>
      cases paths with
      | nil => exact keepsRefs_of_eq rfl rfl
      | cons path paths => exact Or.inr ⟨rfl, rfl⟩
  | load _ => exact load_keepsRefs s _ _
  | table _ => exact openTable_keepsRefs s _ _
  | row _ => exact row_keepsRefs s _ _ _ _ _
  | rejected _ _ _ | crashed _ _ _ | registered _ _ _ => exact keepsRefs_of_eq rfl rfl
  | call _ => exact keepsRefs_of_eq (callForeach_refs _ _ _ s.scripts) rfl
  | option _ hcall => exact keepsRefs_of_eq (luaSpankOptionCallback_refs hcall) rfl
  | exit _ => exact Or.inl ⟨List.nil_sublist _, rfl⟩

theorem run_keeps_distinct {s s' : Process Num} {events : List (Event Num)} (hdistinct : s.Distinct)
    (hrun : s.run num events = some s') : s'.Distinct := by
  induction events generalizing s with
  | nil =>
      cases hrun
      exact hdistinct
  | cons event events ih =>
      obtain ⟨next, hnext, hrest⟩ := Option.bind_eq_some_iff.mp hrun
      exact ih ((next_keepsRefs hnext).distinct hdistinct) hrest

theorem start_distinct (failOnError tables : Bool) (paths : List Text) :
    (Process.start failOnError tables paths : Process Num).Distinct :=
  ⟨List.nodup_nil, fun _ href => absurd href List.not_mem_nil⟩

/-! ## Callbacks one after the other -/

/-- SLURM calls back, or a script that was called registers an option. -/
def Event.IsCallback : Event Num → Prop
  | .call _ _ _ | .option _ _ _ _ | .register _ _ _ _ => True
  | _ => False

/-- The depths of the stacks of all scripts. -/
def Process.depths (s : Process Num) : List Nat := s.scripts.map fun script => script.stack.length

/-- No script has the function that is called, or the function of the option fails. -/
def Process.Balanced (s : Process Num) : Event Num → Prop
  | .call fn _ behaviours => ∀ script ∈ s.scripts, (behaviours script.ref).globals fn = .nil
  | .option val _ _ behaviour => ∀ o fn, listFindFirst (sOptFind val) s.options = some o →
      o.lFunction = some fn → ∃ msg, behaviour.ending = .error msg
  | _ => True

theorem callForeach_depths (fn : Text) (args : SpankArgs) (behaviours : Nat → Behaviour Num)
    (s : Process Num) :
    ((callForeach num fn args behaviours s.scripts).2.map fun script => script.stack.length) =
        s.depths ↔
      ∀ script ∈ s.scripts, (behaviours script.ref).globals fn = .nil := by
  rw [callForeach, List.map_map, Process.depths, List.map_inj_left]
  apply forall₂_congr
  intro script _
  rw [Function.comp_apply]
  constructor
  · intro hdepth
    by_contra hglobal
    obtain ⟨v, hv⟩ := luaSpankCall_function num script args hglobal
    rw [hv, List.length_append, List.length_singleton] at hdepth
    omega
  · intro hglobal
    rw [luaSpankCall_nil num script args hglobal]

/-- The script at an address, when no two are at one. -/
theorem eq_of_find {s : Process Num} (hnodup : s.refs.Nodup) {ref : Nat} {script other : Script Num}
    (hfind : (s.scripts.find? fun script => script.ref = ref) = some script)
    (hother : other ∈ s.scripts) (href : other.ref = ref) : other = script := by
  have hscript : script.ref = ref := of_decide_eq_true (List.find?_some hfind :)
  have hmem := List.mem_of_find?_eq_some hfind
  exact List.inj_on_of_nodup_map hnodup hother hmem (href.trans hscript.symm)

theorem luaSpankOptionCallback_depths {s : Process Num} (hnodup : s.refs.Nodup) {val : Int}
    {optarg : Option Text} {remote : Bool} {behaviour : Behaviour Num} {rc : Int}
    {scripts : List (Script Num)} (hcall : luaSpankOptionCallback num val optarg remote behaviour
      s.options s.scripts = some (rc, scripts)) :
    (scripts.map fun script => script.stack.length) = s.depths ↔
      ∀ o fn, listFindFirst (sOptFind val) s.options = some o → o.lFunction = some fn →
        ∃ msg, behaviour.ending = .error msg := by
  unfold luaSpankOptionCallback at hcall
  split at hcall
  next hnone =>
    cases hcall
    rw [hnone]
    exact iff_of_true rfl fun o fn hfind => by cases hfind
  next o hfound =>
    rw [hfound]
    split at hcall
    next hnone =>
      cases hcall
      refine iff_of_true rfl fun other fn hother hfn => ?_
      cases hother
      rw [hnone] at hfn
      cases hfn
    next fn hfunction =>
      obtain ⟨script, hfind, hscripts⟩ := Option.map_eq_some_iff.mp hcall
      have hscripts : scripts = s.scripts.map fun other : Script Num =>
          if other.ref = o.script then
            { other with
              stack := (callOptionFunction num fn o.lVal optarg remote behaviour script.stack).2 }
          else other := (Prod.mk.inj hscripts).2.symm
      rw [hscripts, List.map_map, Process.depths, List.map_inj_left]
      cases hending : behaviour.ending with
      | error msg =>
          rw [callOptionFunction_error num fn o.lVal optarg remote hending script.stack]
          refine iff_of_true (fun other hother => ?_) fun _ _ _ _ => ⟨msg, rfl⟩
          rw [Function.comp_apply]
          split
          next href => rw [eq_of_find hnodup hfind hother href]
          next => rfl
      | ok values =>
          obtain ⟨v, hv⟩ :=
            callOptionFunction_ok num fn o.lVal optarg remote hending script.stack
          refine iff_of_false (fun hdepths => ?_) fun herror => ?_
          · have hdepth := hdepths script (List.mem_of_find?_eq_some hfind)
            have href : script.ref = o.script := of_decide_eq_true (List.find?_some hfind :)
            rw [Function.comp_apply, if_pos href, hv, List.length_append,
              List.length_singleton] at hdepth
            omega
          · obtain ⟨msg, hmsg⟩ := herror o fn rfl hfunction
            cases hmsg

/-- One callback leaves all depths as they are exactly when it is balanced. -/
theorem callback_depths {s s' : Process Num} {event : Event Num} (hdistinct : s.Distinct)
    (hcallback : event.IsCallback) (hnext : s.next num event = some s') :
    s'.depths = s.depths ↔ s.Balanced event := by
  cases step_of_next hnext with
  | call _ => exact callForeach_depths _ _ _ s
  | option _ hcall => exact luaSpankOptionCallback_depths hdistinct.1 hcall
  | rejected _ _ _ | crashed _ _ _ | registered _ _ _ => exact iff_of_true rfl trivial
  | _ => exact hcallback.elim

/-- All steps of a run are balanced. -/
def BalancedRun (num : NumberOps Num) (s : Process Num) (events : List (Event Num)) : Prop :=
  ∀ front event rest t, events = front ++ event :: rest → s.run num front = some t →
    t.Balanced event

theorem BalancedRun.depths {s s' : Process Num} {events : List (Event Num)}
    (hbalanced : BalancedRun num s events) (hdistinct : s.Distinct)
    (hcallbacks : ∀ event ∈ events, event.IsCallback) (hrun : s.run num events = some s') :
    s'.depths = s.depths := by
  induction events generalizing s with
  | nil =>
      cases hrun
      rfl
  | cons event events ih =>
      obtain ⟨next, hnext, hrest⟩ := Option.bind_eq_some_iff.mp hrun
      obtain ⟨hcallback, hcallbacks⟩ := List.forall_mem_cons.mp hcallbacks
      have hstep := (callback_depths hdistinct hcallback hnext).mpr
        (hbalanced [] event events s rfl rfl)
      rw [← hstep]
      refine ih ?_ ((next_keepsRefs hnext).distinct hdistinct) hcallbacks hrest
      intro front other rest t hsplit hfront
      refine hbalanced (event :: front) other rest t (by rw [hsplit, List.cons_append]) ?_
      rw [Process.run, hnext]
      exact hfront

/-- Behind a run from the start SLURM calls back. The depths of all stacks stay what they were
exactly when all of the callbacks are balanced. -/
theorem stack_balance (num : NumberOps Num) (failOnError tables : Bool) (paths : List Text)
    {before callbacks : List (Event Num)} {s s' : Process Num}
    (hbefore : (Process.start failOnError tables paths).run num before = some s)
    (hcallbacks : ∀ event ∈ callbacks, event.IsCallback)
    (hrun : s.run num callbacks = some s') :
    (∀ front rest t, callbacks = front ++ rest → s.run num front = some t →
        t.depths = s.depths) ↔ BalancedRun num s callbacks := by
  have hdistinct := run_keeps_distinct (start_distinct failOnError tables paths) hbefore
  constructor
  · intro hdepths front event rest t hsplit hfront
    rw [hsplit, run_append, hfront, Option.bind_some] at hrun
    obtain ⟨next, hnext, _⟩ := Option.bind_eq_some_iff.mp hrun
    have hmem : event ∈ callbacks := by
      rw [hsplit]
      exact List.mem_append_right front List.mem_cons_self
    refine (callback_depths (run_keeps_distinct hdistinct hfront) (hcallbacks event hmem)
      hnext).mp ?_
    rw [hdepths front (event :: rest) t hsplit hfront]
    refine hdepths (front ++ [event]) rest next (by rw [hsplit, List.append_assoc]; rfl) ?_
    rw [run_append, hfront, Option.bind_some, Process.run, hnext]
    rfl
  · intro hbalanced front rest t hsplit hfront
    refine BalancedRun.depths ?_ hdistinct ?_ hfront
    · intro front' event rest' t' hsplit' hfront'
      refine hbalanced front' event (rest' ++ rest) t' ?_ hfront'
      rw [hsplit, hsplit', List.append_assoc, List.cons_append]
    · intro event hevent
      exact hcallbacks event (hsplit ▸ List.mem_append_left rest hevent)

/-- A process with one script, which SLURM may call. -/
def oneScript : Process Int := ⟨.ready, false, false, 1, [⟨0, "a.lua".toList, false, []⟩], [], []⟩

/-- The script is called, where it has a function of that name or has none. -/
def initCall (present : Bool) : Event Int :=
  .call "slurm_spank_init".toList ⟨.remote, none, ["lua.so".toList, "a.lua".toList]⟩ fun _ =>
    ⟨fun _ => if present then .function else .nil, .ok []⟩

/-- A script without functions is called. -/
theorem stack_balance_absent :
    (oneScript.run intNumbers [initCall false]).map Process.depths = some oneScript.depths := by
  have hbefore : (Process.start false false ["a.lua".toList]).run intNumbers
      [.create, .create, .load .kept, .load .kept] = some oneScript := rfl
  obtain ⟨s', hrun⟩ : ∃ s', oneScript.run intNumbers [initCall false] = some s' := ⟨_, rfl⟩
  have hcallbacks : ∀ event ∈ [initCall false], event.IsCallback :=
    List.forall_mem_singleton.mpr trivial
  have hbalanced : BalancedRun intNumbers oneScript [initCall false] := by
    intro front event rest t hsplit hfront
    cases front with
    | nil =>
        cases hsplit
        exact fun _ _ => rfl
    | cons head front => cases front with
      | nil => cases hsplit
      | cons next front => cases hsplit
  rw [hrun, Option.map_some]
  exact congrArg some ((stack_balance intNumbers false false _ hbefore hcallbacks hrun).mpr
    hbalanced [initCall false] [] s' (List.append_nil _).symm hrun)

/-- A function that returns nothing leaves a value on the stack. -/
theorem result_left : ¬ ∀ (failOnError tables : Bool) (paths : List Text)
    (before callbacks : List (Event Int)) (s s' : Process Int),
    (Process.start failOnError tables paths).run intNumbers before = some s →
      (∀ event ∈ callbacks, event.IsCallback) → s.run intNumbers callbacks = some s' →
        s'.depths = s.depths := by
  intro hall
  have hbefore : (Process.start false false ["a.lua".toList]).run intNumbers
      [.create, .create, .load .kept, .load .kept] = some oneScript := rfl
  have hdepths : (oneScript.run intNumbers [initCall true]).map Process.depths = some [1] := rfl
  obtain ⟨s', hrun, hdepth⟩ := Option.map_eq_some_iff.mp hdepths
  have hsame := hall false false _ _ [initCall true] oneScript s' hbefore
    (List.forall_mem_singleton.mpr trivial) hrun
  rw [hdepth] at hsame
  cases hsame

end SlurmSpank.SpankLua
