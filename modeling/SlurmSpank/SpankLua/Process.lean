import SlurmSpank.SpankLua.Callback

/-! # The life of the plugin in a process

The scripts are created and loaded, the options of their tables are registered one after the
other, and then SLURM calls back until the process exits. A script that cannot be used is
dropped on the way: it leaves the list of scripts and is destroyed. An event says how the next
operation turns out.
-/

namespace SlurmSpank.SpankLua

open Foundation Lib

variable {Num : Type}

/-- Where the plugin is. The loops over the scripts have the addresses that are still to come,
and the loop over an options table has the entries. -/
inductive Place (Num : Type) where
  | creating (paths : List Text)
  | loading (rest : List Nat)
  | registering (rest : List Nat)
  | inTable (script : Nat) (entries : List (Key × Value Num)) (rest : List Nat)
  | ready
  | stopped

/-- The plugin in a process. `tables` says whether the entry point is `slurm_spank_init`, which
registers the options tables, and `created` is the next address. -/
structure Process (Num : Type) where
  place : Place Num
  failOnError : Bool
  tables : Bool
  created : Nat
  scripts : List (Script Num)
  options : List ScriptOption
  destroyed : List Nat

/-- What becomes of a script that is loaded. -/
inductive Loaded where
  | kept
  | failed
  | noCallbacks

/-- The next operation, with how it turns out. -/
inductive Event (Num : Type) where
  /-- A script is created, or all of them are. -/
  | create
  /-- The next script is loaded, or all of them are. -/
  | load (loaded : Loaded)
  /-- The next script has these global options, or all scripts were asked. -/
  | table (spankOptions : Value Num)
  /-- The next option of the table is registered, or the table ends. -/
  | row (globals : Text → Value Num) (err : Option Text)
  /-- A script calls `spank:register_option` while one of its functions runs. -/
  | register (script : Nat) (globals : Text → Value Num) (row : Value Num) (err : Option Text)
  /-- SLURM calls a function of all scripts. -/
  | call (fn : Text) (args : SpankArgs) (behaviours : Nat → Behaviour Num)
  /-- SLURM calls the function of an option. -/
  | option (val : Int) (optarg : Option Text) (remote : Bool) (behaviour : Behaviour Num)
  /-- `slurm_spank_exit`, behind its callbacks. -/
  | exit

/-- The state in which nothing was done yet, with the scripts that the pattern matches, of which
there is one at least. -/
def Process.start (failOnError tables : Bool) (paths : List Text) : Process Num :=
  ⟨.creating paths, failOnError, tables, 0, [], [], []⟩

/-- `list_remove` and `lua_script_destroy`. -/
def Process.drop (s : Process Num) (script : Nat) : Process Num :=
  { s with
    scripts := s.scripts.filter fun other : Script Num => other.ref ≠ script
    destroyed := script :: s.destroyed }

/-- Give a script another stack. -/
def Process.setStack (s : Process Num) (script : Nat) (stack : List (Value Num)) : Process Num :=
  { s with scripts := s.scripts.map fun other : Script Num =>
      if other.ref = script then { other with stack } else other }

/-- The stack of a script. -/
def Process.stackOf (s : Process Num) (script : Nat) : Option (List (Value Num)) :=
  (s.scripts.find? fun other : Script Num => other.ref = script).map Script.stack

/-- A turn of the loop of `lua_script_list_create`, and behind it the loop of
`spank_lua_init`. -/
def Process.create (s : Process Num) : List Text → Process Num
  | path :: paths =>
      { s with
        place := .creating paths
        created := s.created + 1
        scripts := listPush s.scripts ⟨s.created, path, false, []⟩ }
  | [] => { s with place := .loading (s.scripts.map Script.ref) }

/-- A turn of the loop of `spank_lua_init`, and what comes behind the loop. -/
def Process.load (s : Process Num) (loaded : Loaded) : List Nat → Process Num
  | script :: rest =>
      let s := { s with scripts := s.scripts.map fun other : Script Num =>
        if other.ref = script then { other with failOnError := s.failOnError } else other }
      match loaded with
      | .kept => { s with place := .loading rest }
      | .failed =>
          if s.failOnError then { s with place := .stopped }
          else { s.drop script with place := .loading rest }
      | .noCallbacks => { s.drop script with place := .loading rest }
  | [] =>
      if s.tables then { s with place := .registering (s.scripts.map Script.ref) }
      else { s with place := .ready }

/-- A turn of the loop of `spank_lua_options_table_register`, as far as the loop of
`load_spank_options_table`, and what comes behind the loop. A global that is no table is an
error outside of a protected call, which ends the plugin. -/
def Process.openTable (s : Process Num) (spankOptions : Value Num) : List Nat → Process Num
  | script :: rest =>
      match spankOptions with
      | .nil => { s with place := .registering rest }
      | .table entries =>
          { s.setStack script ((s.stackOf script).getD [] ++ [.table entries, .nil]) with
            place := .inTable script entries rest }
      | _ => { s with place := .stopped }
  | [] => { s with place := .ready }

/-- A key as a value. -/
def Key.value (num : NumberOps Num) : Key → Value Num
  | .name s => .string s
  | .index i => .number (num.ofInt i)

/-- What comes behind a registration of `load_spank_options_table`: the next turn, or a failure
and what `spank_lua_options_table_register` does about it. -/
def Process.registered (s : Process Num) (failed : Bool) (script : Nat)
    (entries : List (Key × Value Num)) (rest : List Nat) : Process Num :=
  if !failed then { s with place := .inTable script entries rest }
  else if s.failOnError then { s with place := .stopped }
  else { s.drop script with place := .registering rest }

/-- A turn of the loop of `load_spank_options_table`, and what `spank_lua_options_table_register`
does when the function returns. -/
def Process.row (num : NumberOps Num) (s : Process Num) (globals : Text → Value Num)
    (err : Option Text) (script : Nat) (rest : List Nat) : List (Key × Value Num) → Process Num
  | entry :: entries =>
      match optionsTableTurn num globals script err (entry.1.value num) entry.2
          ((s.stackOf script).getD []) s.options with
      | .error _ => { s with place := .stopped }
      | .ok (failed, stack, options) =>
          Process.registered { s.setStack script stack with options } failed script entries rest
  | [] =>
      { s.setStack script (ValueStack.pop .nil ((s.stackOf script).getD []) 2) with
        place := .registering rest }

/-- The next state. There is none for an event that does not fit, and none when the function of
an option is looked for in a script that is not there. -/
def Process.next (num : NumberOps Num) (s : Process Num) : Event Num → Option (Process Num)
  | .create =>
      match s.place with
      | .creating paths => some (s.create paths)
      | _ => none
  | .load loaded =>
      match s.place with
      | .loading rest => some (s.load loaded rest)
      | _ => none
  | .table spankOptions =>
      match s.place with
      | .registering rest => some (s.openTable spankOptions rest)
      | _ => none
  | .row globals err =>
      match s.place with
      | .inTable script entries rest => some (s.row num globals err script rest entries)
      | _ => none
  | .register script globals row err =>
      match s.place with
      | .ready =>
          if s.scripts.any fun other : Script Num => other.ref = script then
            match luaScriptOptionRegister num globals script 2 err [.table spankFunctions, row]
                s.options with
            | .error (.luaError _) => some s
            | .error .crash => some { s with place := .stopped }
            | .ok (_, _, options) => some { s with options }
          else none
      | _ => none
  | .call fn args behaviours =>
      match s.place with
      | .ready => some { s with scripts := (callForeach num fn args behaviours s.scripts).2 }
      | _ => none
  | .option val optarg remote behaviour =>
      match s.place with
      | .ready =>
          (luaSpankOptionCallback num val optarg remote behaviour s.options s.scripts).map
            fun (_, scripts) => { s with scripts }
      | _ => none
  | .exit =>
      match s.place with
      | .ready =>
          some { s with
            place := .stopped
            scripts := []
            options := []
            destroyed := s.scripts.map Script.ref ++ s.destroyed }
      | _ => none

/-- A run of events. -/
def Process.run (num : NumberOps Num) (s : Process Num) : List (Event Num) → Option (Process Num)
  | [] => some s
  | event :: events => (s.next num event).bind fun s => s.run num events

end SlurmSpank.SpankLua
