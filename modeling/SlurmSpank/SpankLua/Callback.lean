import SlurmSpank.SpankLua.Script

/-! # Callbacks of the Lua scripts

SLURM calls a function of each script, or the function of one option. What a script does in a
call is given by its global variables and by how `lua_pcall` ends.
-/

namespace SlurmSpank.SpankLua

open Foundation Lib

variable {Num : Type}

/-- The results of a Lua function, or its error value. -/
abbrev Ending (Num : Type) : Type := Except (Value Num) (List (Value Num))

/-- What a script does when it is called: the values of its global variables, and how the
function ends. -/
structure Behaviour (Num : Type) where
  globals : Text → Value Num
  ending : Ending Num

/-- Results as many as were asked for. -/
def adjusted (n : Nat) (values : List (Value Num)) : List (Value Num) :=
  values.take n ++ List.replicate (n - values.length) .nil

/-- `lua_pcall` without an error function: whether it failed, and the stack. -/
def pcall (stack : List (Value Num)) (nargs nresults : Nat) (ending : Ending Num) :
    Bool × List (Value Num) :=
  let stack := ValueStack.pop .nil stack (nargs + 1)
  match ending with
  | .ok values => (false, stack ++ adjusted nresults values)
  | .error msg => (true, stack ++ [msg])

/-- `lua_script_rc`. -/
def luaScriptRc (num : NumberOps Num) (stack : List (Value Num)) : Int × List (Value Num) :=
  (Value.toInt num (ValueStack.peek stack (-1)), ValueStack.pop .nil stack 0)

/-- `spank_context`. -/
inductive Context where
  | local
  | remote
  | allocator
  | slurmd
  | jobScript
  | error

/-- The string of `l_spank_context`. -/
def Context.text : Context → Text
  | .local => "local".toList
  | .remote => "remote".toList
  | .allocator => "allocator".toList
  | .slurmd => "slurmd".toList
  | .jobScript => "job_script".toList
  | .error => "error".toList

/-- What a callback is made with: the context, the version that `spank_get_item` gives, and the
arguments, the first of which is the script. -/
structure SpankArgs where
  context : Context
  version : Option Text
  av : List Text

/-- `lua_setfield` and `lua_rawseti` for a table below the value. -/
def setField (k : Key) (stack : List (Value Num)) : List (Value Num) :=
  match ValueStack.peek stack (-2), ValueStack.peek stack (-1) with
  | some (.table entries), some v =>
      ValueStack.store (ValueStack.pop .nil stack 1) (-1) (.table ((k, v) :: entries))
  | _, _ => ValueStack.pop .nil stack 1

/-- The loop of `lua_spank_table_create` over the arguments of the script. -/
def pushArgs : Nat → List Text → List (Value Num) → List (Value Num)
  | _, [], stack => stack
  | i, arg :: rest, stack => pushArgs (i + 1) rest (setField (.index i) (stack ++ [.string arg]))

/-- `spank_functions`. -/
def spankFunctions : List (Key × Value Num) :=
  ["register_option", "get_item", "getopt", "getenv", "setenv", "unsetenv", "job_control_setenv",
    "job_control_getenv", "job_control_unsetenv"].map fun s => (.name s.toList, .function)

/-- `lua_spank_table_create`. -/
def luaSpankTableCreate (args : SpankArgs) (stack : List (Value Num)) : List (Value Num) :=
  let stack := stack ++ [.table spankFunctions]
  let stack := setField (.name "spank".toList) (stack ++ [.lightuserdata])
  let stack := setField (.name "context".toList) (stack ++ [.string args.context.text])
  let stack :=
    match args.version with
    | some version => setField (.name "slurm_version".toList) (stack ++ [.string version])
    | none => stack
  let stack := pushArgs 1 (args.av.drop 1) (stack ++ [.table []])
  setField (.name "args".toList) stack

/-- `lua_spank_call`, with the stack of the script afterwards. -/
def luaSpankCall (num : NumberOps Num) (s : Script Num) (fn : Text) (args : SpankArgs)
    (behaviour : Behaviour Num) : Int × List (Value Num) :=
  let stack := s.stack ++ [behaviour.globals fn]
  if Value.isNil (ValueStack.peek stack (-1)) then (0, ValueStack.pop .nil stack 1)
  else
    let stack := luaSpankTableCreate args stack
    match pcall stack 1 1 behaviour.ending with
    | (true, stack) => (if s.failOnError then -1 else 0, (toStringAt num stack (-1)).2)
    | (false, stack) => luaScriptRc num stack

/-- `call_foreach`, with what each script does. -/
def callForeach (num : NumberOps Num) (fn : Text) (args : SpankArgs)
    (behaviours : Nat → Behaviour Num) (l : List (Script Num)) : Int × List (Script Num) :=
  (if l.any fun s => (luaSpankCall num s fn args (behaviours s.ref)).1 < 0 then -1 else 0,
    l.map fun s => { s with stack := (luaSpankCall num s fn args (behaviours s.ref)).2 })

/-- `s_opt_find`. -/
def sOptFind (val : Int) (o : ScriptOption) : Bool := o.sOpt.val = val

/-- What `lua_spank_option_callback` does on the stack of the script with the function. -/
def callOptionFunction (num : NumberOps Num) (fn : Text) (lVal : Int) (optarg : Option Text)
    (remote : Bool) (behaviour : Behaviour Num) (stack : List (Value Num)) :
    Int × List (Value Num) :=
  let stack := stack ++ [behaviour.globals fn]
  let stack := stack ++ [.number (num.ofInt lVal)]
  let stack := stack ++ [(optarg.map Value.string).getD .nil]
  let stack := stack ++ [.boolean remote]
  match pcall stack 3 1 behaviour.ending with
  | (true, stack) => (-1, ValueStack.pop .nil (toStringAt num stack (-1)).2 1)
  | (false, stack) => luaScriptRc num stack

/-- `lua_spank_option_callback`. There is no result when the option is of a script that is not
there any more. -/
def luaSpankOptionCallback (num : NumberOps Num) (val : Int) (optarg : Option Text) (remote : Bool)
    (behaviour : Behaviour Num) (options : List ScriptOption) (scripts : List (Script Num)) :
    Option (Int × List (Script Num)) :=
  match listFindFirst (sOptFind val) options with
  | none => some (-1, scripts)
  | some o =>
      match o.lFunction with
      | none => some (0, scripts)
      | some fn =>
          (scripts.find? fun s => s.ref = o.script).map fun s =>
            let (rc, stack) := callOptionFunction num fn o.lVal optarg remote behaviour s.stack
            (rc, scripts.map fun other =>
              if other.ref = o.script then { other with stack } else other)

end SlurmSpank.SpankLua
