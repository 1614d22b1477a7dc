import Mathlib.Data.List.Nodup
import SlurmSpank.SpankLua.Registrations

/-! # The functions of the options

SLURM calls with the value of an option, which is found in the list of options under it. The
function of the option is called as its table says, as long as its script is there and the number
of the table is one of C.
-/

namespace SlurmSpank.SpankLua

open Foundation Lib

variable {Num : Type}

/-! ## The calls of functions -/

/-- A call of a global function: the script in whose Lua state it is made, the name and the value
of the global variable, and the arguments. -/
structure Called (Num : Type) where
  script : Nat
  fn : Text
  function : Value Num
  args : List (Value Num)

/-- The stack with which `lua_spank_option_callback` comes to `lua_pcall`. -/
def pushedCall (num : NumberOps Num) (fn : Text) (lVal : Int) (optarg : Option Text)
    (remote : Bool) (globals : Text → Value Num) (stack : List (Value Num)) : List (Value Num) :=
  let stack := stack ++ [globals fn]
  let stack := stack ++ [.number (num.ofInt lVal)]
  let stack := stack ++ [(optarg.map Value.string).getD .nil]
  stack ++ [.boolean remote]

theorem callOptionFunction_eq (num : NumberOps Num) (fn : Text) (lVal : Int)
    (optarg : Option Text) (remote : Bool) (behaviour : Behaviour Num) (stack : List (Value Num)) :
    callOptionFunction num fn lVal optarg remote behaviour stack =
      match pcall (pushedCall num fn lVal optarg remote behaviour.globals stack) 3 1
        behaviour.ending with
      | (true, stack) => (-1, ValueStack.pop .nil (toStringAt num stack (-1)).2 1)
      | (false, stack) => luaScriptRc num stack := rfl

/-- The call that `lua_pcall` makes with three arguments on top of the stack. -/
def calledWith (script : Nat) (fn : Text) (stack : List (Value Num)) : Called Num where
  script := script
  fn := fn
  function := (ValueStack.peek stack (-4)).getD .nil
  args := stack.drop (stack.length - 3)

/-- `lua_spank_option_callback` with the calls of functions that it makes, where each script does
something of its own. -/
def tracedOptionCallback (num : NumberOps Num) (val : Int) (optarg : Option Text) (remote : Bool)
    (behaviours : Nat → Behaviour Num) (options : List ScriptOption) (scripts : List (Script Num)) :
    Option (List (Called Num) × Int × List (Script Num)) :=
  match listFindFirst (sOptFind val) options with
  | none => some ([], -1, scripts)
  | some o =>
      match o.lFunction with
      | none => some ([], 0, scripts)
      | some fn =>
          (scripts.find? fun s : Script Num => s.ref = o.script).map fun s =>
            let stack := pushedCall num fn o.lVal optarg remote (behaviours s.ref).globals s.stack
            let (rc, after) :=
              callOptionFunction num fn o.lVal optarg remote (behaviours s.ref) s.stack
            ([calledWith s.ref fn stack], rc, scripts.map fun other : Script Num =>
              if other.ref = o.script then { other with stack := after } else other)

/-- The script whose function is called. -/
def calledScript (val : Int) (options : List ScriptOption) : Nat :=
  ((listFindFirst (sOptFind val) options).map ScriptOption.script).getD 0

/-- Without the calls it is the callback. -/
theorem tracedOptionCallback_erase (num : NumberOps Num) (val : Int) (optarg : Option Text)
    (remote : Bool) (behaviours : Nat → Behaviour Num) (options : List ScriptOption)
    (scripts : List (Script Num)) :
    (tracedOptionCallback num val optarg remote behaviours options scripts).map Prod.snd =
      luaSpankOptionCallback num val optarg remote (behaviours (calledScript val options)) options
        scripts := by
  unfold tracedOptionCallback luaSpankOptionCallback calledScript
  cases listFindFirst (sOptFind val) options with
  | none => rfl
  | some o =>
      dsimp only
      cases o.lFunction with
      | none => rfl
      | some fn =>
          dsimp only
          rw [Option.map_map]
          cases hscript : scripts.find? fun s => s.ref = o.script with
          | none => rfl
          | some s =>
              have href : s.ref = o.script := by simpa using List.find?_some hscript
              simp only [Option.map_some, Function.comp_apply, href]
              rfl

/-! ## What is expected -/

/-- Passing a value through an `int` does not change it. No value stands for zero. -/
def Value.IsInt (num : NumberOps Num) : Value Num → Prop
  | .nil => True
  | .number n => num.ofInt (num.toInt n) = n
  | _ => False

instance [DecidableEq Num] (num : NumberOps Num) : (v : Value Num) → Decidable (v.IsInt num)
  | .nil => .isTrue trivial
  | .number n => inferInstanceAs (Decidable (num.ofInt (num.toInt n) = n))
  | .boolean _ | .string _ | .lightuserdata | .function | .table _ | .other => .isFalse id

namespace Registration

/-- The value that the script gave, where none stands for zero. -/
def given (num : NumberOps Num) (r : Registration Num) : Value Num :=
  match field r.entries "val".toList with
  | .nil => .number (num.ofInt 0)
  | v => v

/-- The calls that are expected for an option: one of the function that its table names, in the Lua
state of its script and with the value of the table, or none if there is no name. -/
def expected (num : NumberOps Num) (r : Registration Num) (optarg : Option Text) (remote : Bool)
    (behaviours : Nat → Behaviour Num) : List (Called Num) :=
  match fieldText num r.entries "cb".toList with
  | none => []
  | some fn =>
      [⟨r.script, fn, (behaviours r.script).globals fn,
        [r.given num, (optarg.map Value.string).getD .nil, .boolean remote]⟩]

/-- SLURM calls with the value of an option, and what is expected is called, and nothing else. -/
def Dispatched (num : NumberOps Num) (r : Registration Num) (s : Process Num) : Prop :=
  ∀ optarg remote behaviours,
    (tracedOptionCallback num r.val optarg remote behaviours s.options s.scripts).map Prod.fst =
      some (r.expected num optarg remote behaviours)

/-- The value that a script gives is a number of C, or missing. -/
def GivesInt (num : NumberOps Num) (r : Registration Num) : Prop :=
  (field r.entries "val".toList).IsInt num

/-- An option of which the function can be called as its table says: no option of the options table
of the same script is refused, and its value is a number of C. Without a function nothing is
called. -/
def Callable (num : NumberOps Num) (regs : List (Registration Num)) (r : Registration Num) : Prop :=
  fieldText num r.entries "cb".toList = none ∨
    (∀ other ∈ regs, other.Refused → other.script ≠ r.script) ∧ r.GivesInt num

instance [DecidableEq Num] (num : NumberOps Num) (regs : List (Registration Num))
    (r : Registration Num) : Decidable (r.Callable num regs) :=
  inferInstanceAs (Decidable (_ ∨ (∀ other ∈ regs, other.inTable = true ∧ other.err ≠ none →
    other.script ≠ r.script) ∧ (field r.entries "val".toList).IsInt num))

end Registration

variable {num : NumberOps Num} {s : Process Num} {events : List (Event Num)}
  {r : Registration Num}

/-! ## The function of an option -/

/-- The function and its three arguments are what is on top of the stack. -/
theorem calledWith_pushedCall (script : Nat) (fn : Text) (lVal : Int) (optarg : Option Text)
    (remote : Bool) (globals : Text → Value Num) (stack : List (Value Num)) :
    calledWith script fn (pushedCall num fn lVal optarg remote globals stack) =
      ⟨script, fn, globals fn,
        [.number (num.ofInt lVal), (optarg.map Value.string).getD .nil, .boolean remote]⟩ := by
  have hpushed : pushedCall num fn lVal optarg remote globals stack = stack ++ globals fn ::
      [.number (num.ofInt lVal), (optarg.map Value.string).getD .nil, .boolean remote] := by
    simp [pushedCall]
  have hpeek : ValueStack.peek (pushedCall num fn lVal optarg remote globals stack) (-4) =
      some (globals fn) := by
    rw [hpushed]
    exact ValueStack.peek_append stack (globals fn) _
  have hargs : ((pushedCall num fn lVal optarg remote globals stack).drop
      ((pushedCall num fn lVal optarg remote globals stack).length - 3)) =
      [.number (num.ofInt lVal), (optarg.map Value.string).getD .nil, .boolean remote] := by
    rw [hpushed, List.append_cons, List.length_append]
    exact List.drop_left
  rw [calledWith, hpeek, hargs]
  rfl

theorem find?_key {α κ : Type} [DecidableEq κ] {key : α → κ} {l : List α}
    (hnodup : (l.map key).Nodup) {a : α} (ha : a ∈ l) :
    l.find? (fun b => key b = key a) = some a := by
  induction l with
  | nil => exact absurd ha List.not_mem_nil
  | cons b l ih =>
      obtain ⟨hnot, hrest⟩ := List.nodup_cons.mp hnodup
      rcases List.mem_cons.mp ha with rfl | hmem
      · exact List.find?_cons_of_pos (decide_eq_true rfl)
      · rw [List.find?_cons_of_neg]
        · exact ih hrest hmem
        · intro heq
          refine hnot ?_
          rw [of_decide_eq_true heq]
          exact List.mem_map_of_mem hmem

/-- The value that is passed is the one that was given, if that is a number of C. -/
theorem Registration.given_iff :
    Value.number (num.ofInt (fieldInt num r.entries "val".toList)) = r.given num ↔
      r.GivesInt num := by
  unfold Registration.given Registration.GivesInt fieldInt
  cases field r.entries "val".toList with
  | nil => exact iff_of_true rfl trivial
  | number n => exact iff_of_eq (Value.number.injEq _ _)
  | _ => exact iff_of_false (fun h => nomatch h) id

/-- The option of a registration is found under its value. -/
theorem find_registered {regs : List (Registration Num)}
    (hvals : (regs.map Registration.val).Nodup) (hr : r ∈ regs) :
    listFindFirst (sOptFind r.val) (regs.map (·.option num)).reverse = some (r.option num) := by
  have hkeys : ((regs.map (·.option num)).reverse.map fun o : ScriptOption =>
      (o.sOpt.val : Int)).Nodup := by
    have hmap : ((regs.map (·.option num)).reverse.map fun o : ScriptOption =>
        (o.sOpt.val : Int)) = ((regs.map Registration.val).map Nat.cast).reverse := by
      rw [List.map_reverse, List.map_map, List.map_map]
      rfl
    rw [hmap, List.nodup_reverse]
    exact hvals.map fun _ _ => Int.natCast_inj.mp
  exact find?_key hkeys (List.mem_reverse.mpr (List.mem_map_of_mem hr))

section Calls

variable {val : Int} {options : List ScriptOption} {o : ScriptOption} {fn : Text}
  {scripts : List (Script Num)}

theorem calls_of_no_function (hfind : listFindFirst (sOptFind val) options = some o)
    (hfn : o.lFunction = none) (optarg : Option Text) (remote : Bool)
    (behaviours : Nat → Behaviour Num) :
    (tracedOptionCallback num val optarg remote behaviours options scripts).map Prod.fst =
      some [] := by
  unfold tracedOptionCallback
  simp only [hfind, hfn, Option.map_some]

/-- The function of an option is called in its script. -/
theorem calls_of_mem (hfind : listFindFirst (sOptFind val) options = some o)
    (hfn : o.lFunction = some fn) (hscript : o.script ∈ scripts.map Script.ref)
    (optarg : Option Text) (remote : Bool) (behaviours : Nat → Behaviour Num) :
    (tracedOptionCallback num val optarg remote behaviours options scripts).map Prod.fst =
      some [⟨o.script, fn, (behaviours o.script).globals fn,
        [.number (num.ofInt o.lVal), (optarg.map Value.string).getD .nil, .boolean remote]⟩] := by
  unfold tracedOptionCallback
  simp only [hfind, hfn, Option.map_map]
  cases hfound : scripts.find? fun s : Script Num => s.ref = o.script with
  | none =>
      obtain ⟨script, hin, href⟩ := mem_refs.mp hscript
      exact absurd (decide_eq_true href) (List.find?_eq_none.mp hfound script hin)
  | some script =>
      have href : script.ref = o.script := by simpa using List.find?_some hfound
      rw [Option.map_some, Function.comp_apply, href, calledWith_pushedCall]

/-- Without its script there is nothing to call the function in. -/
theorem calls_of_not_mem (hfind : listFindFirst (sOptFind val) options = some o)
    (hfn : o.lFunction = some fn) (hscript : o.script ∉ scripts.map Script.ref)
    (optarg : Option Text) (remote : Bool) (behaviours : Nat → Behaviour Num) :
    tracedOptionCallback num val optarg remote behaviours options scripts = none := by
  have hfound : scripts.find? (fun s : Script Num => s.ref = o.script) = none := by
    apply List.find?_eq_none.mpr
    intro script hin href
    exact hscript (mem_refs.mpr ⟨script, hin, of_decide_eq_true href⟩)
  unfold tracedOptionCallback
  simp only [hfind, hfn, hfound, Option.map_none]

end Calls

/-- SLURM's call for an option has the effect that is expected exactly if there is no function, or
the script is still in the list and its value a number of C. -/
theorem dispatched_iff {regs : List (Registration Num)}
    (hoptions : s.options = (regs.map (·.option num)).reverse)
    (hvals : (regs.map Registration.val).Nodup) (hr : r ∈ regs) :
    r.Dispatched num s ↔ fieldText num r.entries "cb".toList = none ∨
      r.script ∈ s.refs ∧ r.GivesInt num := by
  have hfind : listFindFirst (sOptFind r.val) s.options = some (r.option num) := by
    rw [hoptions]
    exact find_registered hvals hr
  unfold Registration.Dispatched Registration.expected
  cases hfn : fieldText num r.entries "cb".toList with
  | none => exact iff_of_true (calls_of_no_function hfind hfn) (Or.inl rfl)
  | some fn =>
      rw [or_iff_right (Option.some_ne_none fn), ← Registration.given_iff]
      by_cases hscript : r.script ∈ s.refs
      · rw [and_iff_right hscript]
        constructor
        · intro hcalls
          have hcall := (calls_of_mem hfind hfn hscript none false fun _ =>
            ⟨fun _ => .nil, .ok []⟩).symm.trans (hcalls none false _)
          obtain ⟨-, -, -, hargs⟩ := Called.mk.inj (List.cons.inj (Option.some.inj hcall)).1
          exact (List.cons.inj hargs).1
        · intro hgiven optarg remote behaviours
          rw [← hgiven]
          exact calls_of_mem hfind hfn hscript optarg remote behaviours
      · refine iff_of_false ?_ fun hboth => hscript hboth.1
        intro hcalls
        have hcall := hcalls none false fun _ => ⟨fun _ => .nil, .ok []⟩
        rw [calls_of_not_mem hfind hfn hscript] at hcall
        exact nomatch hcall

section Runs

variable {failOnError tables : Bool} {paths : List Text}

theorem registrations_nodup (num : NumberOps Num) (failOnError tables : Bool) (paths : List Text)
    (events : List (Event Num)) :
    (((Process.start failOnError tables paths).registrations num events).map
      Registration.val).Nodup := by
  rw [registrations_val]
  exact List.nodup_range'

/-- In every state of a process, the options that can be called are those for which SLURM's call has
the effect that is expected. -/
theorem run_dispatched_iff
    (hrun : (Process.start failOnError tables paths).run num events = some s)
    (hrunning : s.place ≠ .stopped)
    (hr : r ∈ (Process.start failOnError tables paths).registrations num events) :
    r.Dispatched num s ↔
      r.Callable num ((Process.start failOnError tables paths).registrations num events) := by
  have hoptions := run_options hrun hrunning
  have hstart : (Process.start failOnError tables paths : Process Num).options = [] := rfl
  rw [hstart, List.append_nil] at hoptions
  rw [dispatched_iff hoptions (registrations_nodup num failOnError tables paths events) hr,
    script_mem_iff hrun (start_distinct failOnError tables paths) trivial hrunning r hr]
  exact Iff.rfl

/-- What SLURM may expect of the options that it has taken: it can tell them apart, and each call
has the effect that is expected. -/
structure DispatchSound (num : NumberOps Num) (regs : List (Registration Num))
    (s : Process Num) : Prop where
  distinct : (regs.filter (·.err.isNone)).Pairwise (·.val ≠ ·.val)
  dispatched : ∀ r ∈ regs, r.err = none → r.Dispatched num s

/-- In every state of a process, SLURM can tell the options apart that it has taken and calls their
functions as the tables say, exactly if all of them can be called so. -/
theorem options_dispatched_iff (num : NumberOps Num) (failOnError tables : Bool)
    (paths : List Text) (events : List (Event Num)) (s : Process Num)
    (hrun : (Process.start failOnError tables paths).run num events = some s)
    (hrunning : s.place ≠ .stopped) :
    DispatchSound num ((Process.start failOnError tables paths).registrations num events) s ↔
      ∀ r ∈ (Process.start failOnError tables paths).registrations num events, r.err = none →
        r.Callable num ((Process.start failOnError tables paths).registrations num events) := by
  constructor
  · intro hsound r hr htaken
    exact (run_dispatched_iff hrun hrunning hr).mp (hsound.dispatched r hr htaken)
  · intro hcallable
    refine ⟨?_, fun r hr htaken =>
      (run_dispatched_iff hrun hrunning hr).mpr (hcallable r hr htaken)⟩
    exact (List.pairwise_map.mp (registrations_nodup num failOnError tables paths events)).filter _

end Runs

/-- The process has not stopped. -/
def Place.running : Place Num → Bool
  | .stopped => false
  | _ => true

theorem Place.running_iff {place : Place Num} : place.running = true ↔ place ≠ .stopped := by
  cases place with
  | stopped => exact iff_of_false Bool.false_ne_true (not_not_intro rfl)
  | _ => exact iff_of_true rfl (fun h => nomatch h)

/-- An options table with an option that has a function, and another one. -/
def functionOption : Value Int :=
  .table [(.index 1, .table [(.name "name".toList, .string "first".toList),
      (.name "usage".toList, .string "".toList), (.name "val".toList, .number 7),
      (.name "cb".toList, .string "handler".toList)]),
    (.index 2, .table [(.name "name".toList, .string "second".toList),
      (.name "usage".toList, .string "".toList)])]

/-- The table of the only script is registered, and SLURM says something about the second option. -/
def twoRegistrations (err : Option Text) : List (Event Int) :=
  [.create, .create, .load .kept, .load .kept, .table functionOption,
    .row (fun _ => .function) none, .row (fun _ => .function) err]

/-- SLURM takes both options. -/
theorem options_dispatched_iff_both :
    ∃ s, (Process.start false true ["a.lua".toList]).run intNumbers (twoRegistrations none) =
        some s ∧
      DispatchSound intNumbers ((Process.start false true ["a.lua".toList]).registrations intNumbers
        (twoRegistrations none)) s := by
  have hplace : ((Process.start false true ["a.lua".toList]).run intNumbers
      (twoRegistrations none)).map (·.place.running) = some true := by decide +kernel
  obtain ⟨s, hrun, hrunning⟩ := Option.map_eq_some_iff.mp hplace
  refine ⟨s, hrun, (options_dispatched_iff intNumbers false true _ _ s hrun
    (Place.running_iff.mp hrunning)).mpr ?_⟩
  decide +kernel

/-- SLURM takes the first option and refuses the second. The script is dropped, and the function of
the first option cannot be called any more. -/
theorem function_of_dropped_script : ¬ ∀ (failOnError tables : Bool) (paths : List Text)
    (events : List (Event Int)) (s : Process Int),
    (Process.start failOnError tables paths).run intNumbers events = some s →
      s.place ≠ .stopped →
      DispatchSound intNumbers
        ((Process.start failOnError tables paths).registrations intNumbers events) s := by
  intro hall
  have hplace : ((Process.start false true ["a.lua".toList]).run intNumbers
      (twoRegistrations (some "option in use".toList))).map (·.place.running) = some true := by
    decide +kernel
  obtain ⟨s, hrun, hplace⟩ := Option.map_eq_some_iff.mp hplace
  have hrunning := Place.running_iff.mp hplace
  have hsome : ((Process.start false true ["a.lua".toList]).registrations intNumbers
      (twoRegistrations (some "option in use".toList))).any (fun r => decide (r.err = none ∧
        ¬ r.Callable intNumbers
          ((Process.start false true ["a.lua".toList]).registrations intNumbers
            (twoRegistrations (some "option in use".toList))))) = true := by
    decide +kernel
  obtain ⟨r, hr, hdecide⟩ := List.any_eq_true.mp hsome
  obtain ⟨htaken, hnot⟩ := of_decide_eq_true hdecide
  have hsound := hall false true _ _ s hrun hrunning
  exact hnot ((run_dispatched_iff hrun hrunning hr).mp (hsound.dispatched r hr htaken))

end SlurmSpank.SpankLua
