import SlurmSpank.Foundation.LuaNumbers
import SlurmSpank.Foundation.ValueStack
import SlurmSpank.Lib.List

/-! # Lua scripts and their options

Each script has a Lua stack of its own. The functions that read an option table work on that
stack and on nothing else, and leave by an error or go on. The list of options may be missing
in the source; here it is empty then.
-/

namespace SlurmSpank.SpankLua

open Foundation Lib

/-- A C string. -/
abbrev Text := List Char

/-- A key of a table that the plugin makes or reads. -/
inductive Key where
  | name (s : Text)
  | index (i : Nat)
  deriving DecidableEq

/-- The Lua values. The userdata, threads and so on are `other`. -/
inductive Value (Num : Type) where
  | nil
  | boolean (b : Bool)
  | number (n : Num)
  | string (s : Text)
  | lightuserdata
  | function
  | table (entries : List (Key × Value Num))
  | other

/-- Why a C function does not return: a Lua error, or a null pointer that is read. -/
inductive Fault where
  | luaError (msg : Text)
  | crash
  deriving DecidableEq

/-- A C function that works on a Lua stack. -/
abbrev Api (Num α : Type) : Type := EStateM Fault (List (Value Num)) α

/-- `struct spank_option`, without the callback that all options have. -/
structure SpankOption where
  name : Text
  arginfo : Option Text
  usage : Text
  hasArg : Int
  val : Nat

/-- `struct lua_script_option`. The script is known by its address. -/
structure ScriptOption where
  script : Nat
  lVal : Int
  lFunction : Option Text
  sOpt : SpankOption

/-- `struct lua_script`, with the stack of its Lua state, at an address. -/
structure Script (Num : Type) where
  ref : Nat
  path : Text
  failOnError : Bool
  stack : List (Value Num)

section Api

variable {Num : Type}

namespace Value

/-- `lua_isnil`, also for no value. -/
def isNil : Option (Value Num) → Bool
  | some .nil => true
  | _ => false

/-- `lua_isfunction`. -/
def isFunction : Option (Value Num) → Bool
  | some .function => true
  | _ => false

/-- `lua_tonumber`, cast to `int`. -/
def toInt (num : NumberOps Num) : Option (Value Num) → Int
  | some (.number n) => num.toInt n
  | some (.string s) => ((num.parse s).map num.toInt).getD 0
  | _ => 0

/-- What `lua_tostring` makes of a value. -/
def toText (num : NumberOps Num) : Option (Value Num) → Option Text
  | some (.string s) => some s
  | some (.number n) => some (num.text n)
  | _ => none

end Value

/-- `lua_tostring`, which puts the string in the place of a number. -/
def toStringAt (num : NumberOps Num) (stack : List (Value Num)) (index : Int) :
    Option Text × List (Value Num) :=
  match Value.toText num (ValueStack.peek stack index) with
  | some s => (some s, ValueStack.store stack index (.string s))
  | none => (none, stack)

/-- `lua_pop`. -/
def pop (n : Int) : Api Num Unit := modify fun stack => ValueStack.pop .nil stack n

theorem isNil_top (stack : List (Value Num)) (v : Value Num) :
    Value.isNil (ValueStack.peek (stack ++ [v]) (-1)) = true ↔ v = .nil := by
  rw [ValueStack.peek_top]
  cases v with
  | nil => exact iff_of_true rfl rfl
  | _ => exact iff_of_false Bool.false_ne_true (by intro hnil; cases hnil)

/-- The functions that push a value. -/
def push (v : Value Num) : Api Num Unit := modify (· ++ [v])

/-- `lua_getfield` with a table, where a value that is no table has no fields. -/
def getField (index : Int) (k : Text) : Api Num Unit := do
  match ValueStack.peek (← get) index with
  | some (.table entries) =>
      push (((entries.find? fun entry => entry.1 = .name k).map Prod.snd).getD .nil)
  | _ => throw (.luaError "attempt to index a value that is no table".toList)

/-- `strdup` of `lua_tostring` at the top. -/
def strdupTop (num : NumberOps Num) : Api Num Text := do
  let (s, stack) := toStringAt num (← get) (-1)
  set stack
  match s with
  | some s => pure s
  | none => throw .crash

/-- The fields that must be there. -/
def requiredField (num : NumberOps Num) (i : Int) (k : Text) : Api Num Text := do
  getField i k
  if Value.isNil (ValueStack.peek (← get) (-1)) then
    throw (.luaError ("Required field \"".toList ++ k ++
      "\" missing from spank option table".toList))
  let s ← strdupTop num
  pop 1
  pure s

/-- The fields with a string that may be missing. -/
def optionalText (num : NumberOps Num) (i : Int) (k : Text) : Api Num (Option Text) := do
  getField i k
  let s ← if Value.isNil (ValueStack.peek (← get) (-1)) then pure none
    else some <$> strdupTop num
  pop 1
  pure s

/-- The fields with a number that may be missing. -/
def optionalInt (num : NumberOps Num) (i : Int) (k : Text) : Api Num Int := do
  getField i k
  let v := ValueStack.peek (← get) (-1)
  pop 1
  pure (if Value.isNil v then 0 else Value.toInt num v)

/-- The field with the name of the callback function, which must be there when it has a name. -/
def callbackField (num : NumberOps Num) (globals : Text → Value Num) (i : Int) :
    Api Num (Option Text) := do
  getField i "cb".toList
  let lFunction ← if Value.isNil (ValueStack.peek (← get) (-1)) then pure none
    else do
      let cb ← strdupTop num
      push (globals cb)
      if !Value.isFunction (ValueStack.peek (← get) (-1)) then
        throw (.luaError ("Unable to find spank option cb function ".toList ++ cb))
      pop 1
      pure (some cb)
  pop 1
  pure lFunction

/-- `lua_script_option_create`, with the values of the global variables of the script. -/
def luaScriptOptionCreate (num : NumberOps Num) (globals : Text → Value Num) (script : Nat)
    (i : Int) : Api Num ScriptOption := do
  let name ← requiredField num i "name".toList
  let arginfo ← optionalText num i "arginfo".toList
  let usage ← requiredField num i "usage".toList
  let hasArg ← optionalInt num i "has_arg".toList
  let lVal ← optionalInt num i "val".toList
  let lFunction ← callbackField num globals i
  pure ⟨script, lVal, lFunction, name, arginfo, usage, hasArg, 0⟩

/-- `lua_script_option_register`, with what `spank_option_register` is about to return as a
message or nothing. The new option gets its value and is in the list before the outcome is
known. -/
def luaScriptOptionRegister (num : NumberOps Num) (globals : Text → Value Num) (script : Nat)
    (index : Int) (err : Option Text) (stack : List (Value Num)) (options : List ScriptOption) :
    Except Fault (Nat × List (Value Num) × List ScriptOption) :=
  match luaScriptOptionCreate num globals script index stack with
  | .error fault _ => .error fault
  | .ok opt stack =>
      let opt := { opt with sOpt := { opt.sOpt with val := options.length } }
      let options := listPush options opt
      match err with
      | some msg => .ok (2, stack ++ [.nil, .string msg], options)
      | none => .ok (1, stack ++ [.boolean true], options)

/-- A turn of the loop of `load_spank_options_table`, for the next entry of the table: whether
the registration failed, and the key is on top of the stack. -/
@[irreducible] def optionsTableTurn (num : NumberOps Num) (globals : Text → Value Num)
    (script : Nat) (err : Option Text) (key row : Value Num) (stack : List (Value Num))
    (options : List ScriptOption) : Except Fault (Bool × List (Value Num) × List ScriptOption) :=
  let stack := ValueStack.pop .nil stack 1 ++ [key, row]
  match luaScriptOptionRegister num globals script (-1) err stack options with
  | .error fault => .error fault
  | .ok (n, stack, options) =>
      if n > 1 then .ok (true, ValueStack.pop .nil stack (-1), options)
      else .ok (false, ValueStack.pop .nil stack 2, options)

end Api

/-! ## What a registration adds -/

section Options

variable {Num : Type} {num : NumberOps Num} {globals : Text → Value Num} {script : Nat}
  {index : Int} {err : Option Text} {stack stack' : List (Value Num)}
  {options options' : List ScriptOption}

theorem exists_of_bind_ok {ε σ α β : Type} {first : EStateM ε σ α} {next : α → EStateM ε σ β}
    {s s' : σ} {b : β} (hbind : (first >>= next) s = .ok b s') :
    ∃ a s₁, first s = .ok a s₁ ∧ next a s₁ = .ok b s' := by
  change EStateM.bind first next s = _ at hbind
  rw [EStateM.bind.eq_def] at hbind
  cases hfirst : first s with
  | ok a s₁ =>
      rw [hfirst] at hbind
      exact ⟨a, s₁, rfl, hbind⟩
  | error e s₁ =>
      rw [hfirst] at hbind
      cases hbind

/-- An option is made for the script whose table was read, and has no value yet. -/
theorem luaScriptOptionCreate_script {opt : ScriptOption}
    (hcreate : luaScriptOptionCreate num globals script index stack = .ok opt stack') :
    opt.script = script := by
  unfold luaScriptOptionCreate at hcreate
  obtain ⟨_, _, _, hcreate⟩ := exists_of_bind_ok hcreate
  obtain ⟨_, _, _, hcreate⟩ := exists_of_bind_ok hcreate
  obtain ⟨_, _, _, hcreate⟩ := exists_of_bind_ok hcreate
  obtain ⟨_, _, _, hcreate⟩ := exists_of_bind_ok hcreate
  obtain ⟨_, _, _, hcreate⟩ := exists_of_bind_ok hcreate
  obtain ⟨_, _, _, hcreate⟩ := exists_of_bind_ok hcreate
  cases hcreate
  rfl

/-- A registration adds one option, of the script that is registering, whether or not SLURM
takes it. -/
theorem luaScriptOptionRegister_ok {n : Nat}
    (hregister : luaScriptOptionRegister num globals script index err stack options =
      .ok (n, stack', options')) :
    n = (if err.isSome then 2 else 1) ∧
      ∃ opt, opt.script = script ∧ opt.sOpt.val = options.length ∧ options' = opt :: options := by
  unfold luaScriptOptionRegister at hregister
  split at hregister
  next => cases hregister
  next opt _ hcreate =>
    have hscript := luaScriptOptionCreate_script hcreate
    have hoption : ∃ other, other.script = script ∧ other.sOpt.val = options.length ∧
        listPush options { opt with sOpt := { opt.sOpt with val := options.length } } =
          other :: options :=
      ⟨{ opt with sOpt := { opt.sOpt with val := options.length } }, hscript, rfl, rfl⟩
    cases err with
    | none =>
        cases hregister
        exact ⟨rfl, hoption⟩
    | some msg =>
        cases hregister
        exact ⟨rfl, hoption⟩

theorem optionsTableTurn_ok {key row : Value Num} {failed : Bool}
    (hturn : optionsTableTurn num globals script err key row stack options =
      .ok (failed, stack', options')) :
    failed = err.isSome ∧
      ∃ opt, opt.script = script ∧ opt.sOpt.val = options.length ∧ options' = opt :: options := by
  unfold optionsTableTurn at hturn
  simp only at hturn
  split at hturn
  next => cases hturn
  next n _ _ hregister =>
    obtain ⟨hn, hoption⟩ := luaScriptOptionRegister_ok hregister
    cases err with
    | none =>
        rw [hn] at hturn
        cases hturn
        exact ⟨rfl, hoption⟩
    | some msg =>
        rw [hn] at hturn
        cases hturn
        exact ⟨rfl, hoption⟩

end Options

end SlurmSpank.SpankLua
