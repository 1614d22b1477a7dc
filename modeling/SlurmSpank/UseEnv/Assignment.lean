import SlurmSpank.Foundation.Environ
import SlurmSpank.UseEnv.Parser

/-! # Appending and prepending to a variable

`env_var_set` in the environment of the process and, through the operations of spank, in that
of the task. In both, a value that has no room in the buffer becomes a null pointer that is
passed on, and a task's variable that has no room in the buffer of `use_env_getenv` counts as
unset.
-/

namespace SlurmSpank.UseEnv

open Foundation

universe u

variable {E : Type u}

/-! ## The two environments -/

/-- The functions behind `xgetenv`, `xsetenv` and `xunsetenv`, with `getenv ("HOME")`. -/
structure EnvAccess (E : Type u) where
  getenv : E → Text → Option Text
  setenv : E → Text → Text → Bool → Int × E
  unsetenv : E → Text → Int × E
  home : E → Option Text

/-- `getenv`, `setenv` and `unsetenv` of the C library. -/
def process : EnvAccess (List Entry) where
  getenv := Environ.getenv
  setenv env name value overwrite :=
    if name = [] ∨ '=' ∈ name then (-1, env)
    else if (Environ.getenv env name).isSome && !overwrite then (0, env)
    else (0, Environ.setenv env name value)
  unsetenv env name := if name = [] ∨ '=' ∈ name then (-1, env) else (0, Environ.unsetenv env name)
  home env := Environ.getenv env "HOME".toList

/-- The operations of spank on the environment of a task. `spank_getenv` copies a value to a
buffer of the given size, and `none` is any result but `ESPANK_SUCCESS`; the others return
whether they succeed. -/
structure SpankEnv (E : Type u) where
  spankGetenv : E → Text → Nat → Option Text
  spankSetenv : E → Text → Text → Bool → Bool × E
  spankUnsetenv : E → Text → Bool × E

/-- What the operations do in an environment with the given values: a value that has no room
with its terminator is `ESPANK_NOSPACE`, and setting a variable with overwriting succeeds. -/
structure SpankEnv.Documented (spank : SpankEnv E) (value : E → Text → Option Text) : Prop where
  getenv : ∀ env name size,
    spank.spankGetenv env name size = (value env name).filter fun text => text.length < size
  setenv : ∀ env name text, isValidIdentifier name = true →
    (spank.spankSetenv env name text true).1 = true ∧
      value (spank.spankSetenv env name text true).2 name = some text

/-- `use_env_getenv`. -/
def useEnvGetenv (spank : SpankEnv E) (env : E) (name : Text) : Option Text :=
  spank.spankGetenv env name 4096

/-- `use_env_setenv`. -/
def useEnvSetenv (spank : SpankEnv E) (env : E) (name val : Text) (overwrite : Bool) : Int × E :=
  let (success, env) := spank.spankSetenv env name val overwrite
  (if !success && overwrite then -1 else 0, env)

/-- `use_env_unsetenv`. -/
def useEnvUnsetenv (spank : SpankEnv E) (env : E) (name : Text) : Int × E :=
  let (success, env) := spank.spankUnsetenv env name
  (if success then 0 else -1, env)

/-- `spank_env_ops`. The home directory is that of the process. -/
def task (spank : SpankEnv E) (home : Option Text) : EnvAccess E where
  getenv := useEnvGetenv spank
  setenv := useEnvSetenv spank
  unsetenv := useEnvUnsetenv spank
  home _ := home

namespace EnvAccess

variable (access : EnvAccess E)

/-- The operations that statements act with. The null pointer sets nothing. -/
def ops : EnvOps E where
  getenv := access.getenv
  setenv env name value overwrite :=
    match value with
    | none => env
    | some value => (access.setenv env name value overwrite).2
  unsetenv env name := (access.unsetenv env name).2
  home := access.home

/-- `env_var_set`, with its return value. There is no result where the null pointer is passed
to `xsetenv`. -/
def envVarSet (conds : CondStack) (env : E) (name val : Text) (op : SetOp) : Option (Int × E) :=
  if !isValidIdentifier name then some (-1, env)
  else
    (condition conds).bind fun executing =>
      if executing then
        (newValue access.ops env name val op).map fun newval =>
          access.setenv env name newval (op ≠ .condSet)
      else some (0, env)

/-- A statement that is executed leaves the environment that `env_var_set` returns. -/
theorem envVarSet_tables {conds : CondStack} {t : Tables E} {name val : Text} {op : SetOp}
    {rc : Int} {env : E} (hname : isValidIdentifier name = true)
    (hexecuting : condition conds = some true)
    (hset : access.envVarSet conds t.env name val op = some (rc, env)) :
    (t.envVarSet access.ops name val op).env = env := by
  rw [envVarSet, hname, hexecuting] at hset
  obtain ⟨newval, hnew, hresult⟩ := Option.map_eq_some_iff.mp hset
  change access.ops.setenv t.env name (newValue access.ops t.env name val op) (op ≠ .condSet) = env
  rw [hnew]
  exact congrArg Prod.snd hresult

end EnvAccess

/-! ## What the operators are for -/

/-- The value that `=+` and `+=` give to a variable, if it has room with its terminator. -/
def extended (orig : Option Text) (val : Text) (append : Bool) : Option Text :=
  match orig with
  | none | some [] => some val
  | some orig =>
      let joined := if append then orig ++ ':' :: val else val ++ ':' :: orig
      if joined.length + 1 ≤ 4096 then some joined else none

/-- The statement gives the variable its extended value. If that has no room, it reports an
error and leaves the variable alone. -/
def Extends (value : E → Text → Option Text) (env : E) (name val : Text) (append : Bool)
    (result : Option (Int × E)) : Prop :=
  ∃ rc env', result = some (rc, env') ∧
    match extended (value env name) val append with
    | some text => value env' name = some text
    | none => rc < 0 ∧ value env' name = value env name

/-- The variable is unset, or its new value has room in the buffer. -/
def FitsBuffer (orig : Option Text) (val : Text) : Prop :=
  match orig with
  | none => True
  | some orig => if orig = [] then val.length < 4096 else orig.length + val.length + 2 ≤ 4096

/-- The value that is passed on, for the value that is read. -/
def added (orig : Option Text) (val : Text) (append : Bool) : Option Text :=
  match orig with
  | none => some val
  | some orig => envVarAdd 4096 orig val append

section Added

variable {orig : Option Text} {val : Text} {append : Bool}

theorem joined_length (first second : Text) (append : Bool) :
    (if append then first ++ ':' :: second else second ++ ':' :: first).length =
      first.length + second.length + 1 := by
  cases append with
  | true =>
      simp only [if_true, List.length_append, List.length_cons]
      omega
  | false =>
      simp only [Bool.false_eq_true, if_false, List.length_append, List.length_cons]
      omega

theorem added_of_fits (hfits : FitsBuffer orig val) :
    ∃ text, added orig val append = some text ∧ extended orig val append = some text := by
  cases orig with
  | none => exact ⟨val, rfl, rfl⟩
  | some text =>
      cases text with
      | nil =>
          have hval : ¬ val.length ≥ 4096 := Nat.not_le.mpr hfits
          exact ⟨val, by rw [added, envVarAdd, if_neg hval, if_pos rfl], rfl⟩
      | cons c rest =>
          have hroom : (c :: rest).length + val.length + 2 ≤ 4096 := hfits
          have hval : ¬ val.length ≥ 4096 := by omega
          have hjoined : ¬ val.length + (c :: rest).length + 2 > 4096 := by omega
          have hlength := joined_length (c :: rest) val append
          refine ⟨if append then c :: rest ++ ':' :: val else val ++ ':' :: c :: rest, ?_, ?_⟩
          · rw [added, envVarAdd, if_neg hval, if_neg (List.cons_ne_nil c rest), if_neg hjoined]
            cases append <;> rfl
          · exact if_pos (by rw [hlength]; exact hroom)

theorem added_of_not_fits (hfits : ¬ FitsBuffer orig val) : added orig val append = none := by
  cases orig with
  | none => exact absurd trivial hfits
  | some text =>
      rw [FitsBuffer] at hfits
      rw [added, envVarAdd]
      by_cases hval : val.length ≥ 4096
      · rw [if_pos hval]
      · have hne : text ≠ [] := by
          rintro rfl
          exact hfits (by rw [if_pos rfl]; exact Nat.not_le.mp hval)
        rw [if_neg hne] at hfits
        rw [if_neg hval, if_neg hne, if_pos (by omega)]

/-- A value that fills a buffer by itself is not extended. -/
theorem extended_of_long {text : Text} (hlong : 4096 ≤ text.length) :
    extended (some text) val append = none := by
  cases text with
  | nil => exact absurd hlong (by decide)
  | cons c rest =>
      have hlength := joined_length (c :: rest) val append
      exact if_neg (by rw [hlength]; omega)

end Added


/-! ## The statement -/

section Statement

variable {conds : CondStack} {name val : Text} {op : SetOp}

/-- An executed statement passes on what is added to the value that it reads. -/
theorem EnvAccess.envVarSet_executed (access : EnvAccess E)
    (hexecuted : condition conds = some true) (hname : isValidIdentifier name = true)
    (hop : op = .append ∨ op = .prepend) (env : E) :
    access.envVarSet conds env name val op =
      (added (access.getenv env name) val (op = .append)).map fun newval =>
        access.setenv env name newval true := by
  have hnew : newValue access.ops env name val op =
      added (access.getenv env name) val (op = .append) := by
    rw [newValue, if_pos hop]
    change (match access.getenv env name with
      | some orig => envVarAdd 4096 orig val (op = SetOp.append)
      | none => some val) = _
    cases access.getenv env name <;> rfl
  have hoverwrite : decide (op ≠ SetOp.condSet) = true := by
    rcases hop with rfl | rfl <;> rfl
  rw [EnvAccess.envVarSet, hname, hexecuted]
  change (newValue access.ops env name val op).map _ = _
  rw [hnew, hoverwrite]

theorem not_mem_of_identifier (hname : isValidIdentifier name = true) :
    ¬ (name = [] ∨ '=' ∈ name) := by
  cases name with
  | nil => exact absurd hname Bool.false_ne_true
  | cons c rest =>
      rw [isValidIdentifier, Bool.and_eq_true] at hname
      rintro (hnil | hmem)
      · exact List.cons_ne_nil c rest hnil
      · rcases List.mem_cons.mp hmem with rfl | hrest
        · exact absurd hname.1 (by decide)
        · exact absurd (List.all_eq_true.mp hname.2 _ hrest) (by decide)

theorem process_setenv (hname : isValidIdentifier name = true) (env : List Entry) (text : Text) :
    process.setenv env name text true = (0, Environ.setenv env name text) := by
  have hvalid := not_mem_of_identifier hname
  change (if name = [] ∨ '=' ∈ name then _ else _) = _
  rw [if_neg hvalid, Bool.not_true, Bool.and_false]
  rfl

theorem process_extends_iff (hexecuted : condition conds = some true)
    (hname : isValidIdentifier name = true) (hop : op = .append ∨ op = .prepend)
    (env : List Entry) :
    Extends Environ.getenv env name val (op = .append) (process.envVarSet conds env name val op) ↔
      FitsBuffer (Environ.getenv env name) val := by
  have hset := @EnvAccess.envVarSet_executed _ _ _ val _ process hexecuted hname hop env
  change _ = (added (Environ.getenv env name) val (op = SetOp.append)).map _ at hset
  rw [hset]
  constructor
  · rintro ⟨rc, env', hresult, -⟩
    by_contra hfits
    rw [added_of_not_fits hfits] at hresult
    cases hresult
  · intro hfits
    obtain ⟨text, hadded, hextended⟩ := @added_of_fits _ _ (decide (op = SetOp.append)) hfits
    have hequal : '=' ∉ name := fun hmem => not_mem_of_identifier hname (Or.inr hmem)
    refine ⟨0, Environ.setenv env name text, ?_, ?_⟩
    · rw [hadded, Option.map_some, process_setenv hname]
    · rw [hextended]
      exact (Environ.getenv_setenv env hequal text name).trans (if_pos rfl)

variable {spank : SpankEnv E} {value : E → Text → Option Text} {home : Option Text}

theorem task_setenv (hspank : spank.Documented value) (hname : isValidIdentifier name = true)
    (env : E) (text : Text) :
    (task spank home).setenv env name text true =
      (0, (spank.spankSetenv env name text true).2) := by
  change ((if !(spank.spankSetenv env name text true).1 && true then -1 else 0 : Int), _) = _
  rw [(hspank.setenv env name text hname).1]
  rfl

theorem task_extends_iff (hspank : spank.Documented value) (hexecuted : condition conds = some true)
    (hname : isValidIdentifier name = true) (hop : op = .append ∨ op = .prepend) (env : E) :
    Extends value env name val (op = .append)
        ((task spank home).envVarSet conds env name val op) ↔
      FitsBuffer (value env name) val := by
  have hset := @EnvAccess.envVarSet_executed _ _ _ val _ (task spank home) hexecuted hname hop env
  have hget : (task spank home).getenv env name =
      (value env name).filter fun text => text.length < 4096 := hspank.getenv env name 4096
  rw [hget] at hset
  rw [hset]
  constructor
  · rintro ⟨rc, env', hresult, hafter⟩
    by_contra hfits
    cases horig : value env name with
    | none => exact hfits (by rw [horig]; trivial)
    | some orig =>
        rw [horig] at hfits hresult hafter
        by_cases hlong : 4096 ≤ orig.length
        · -- a value that does not fit the buffer of `use_env_getenv` is overwritten
          have hread : (some orig).filter (fun text => decide (text.length < 4096)) = none :=
            Option.filter_some_neg (by simpa using hlong)
          rw [hread, added, Option.map_some, task_setenv hspank hname] at hresult
          rw [extended_of_long hlong] at hafter
          have hrc : (0 : Int) = rc := congrArg Prod.fst (Option.some_inj.mp hresult)
          exact absurd (hrc ▸ hafter.1) (Int.lt_irrefl 0)
        · have hread : (some orig).filter (fun text => decide (text.length < 4096)) = some orig :=
            Option.filter_some_pos (by simpa using hlong)
          rw [hread, added_of_not_fits hfits] at hresult
          cases hresult
  · intro hfits
    obtain ⟨text, hadded, hextended⟩ := @added_of_fits _ _ (decide (op = SetOp.append)) hfits
    have hread : ((value env name).filter fun text => decide (text.length < 4096)) =
        value env name := by
      cases horig : value env name with
      | none => rfl
      | some orig =>
          rw [horig] at hfits
          refine Option.filter_some_pos (decide_eq_true ?_)
          rw [FitsBuffer] at hfits
          split at hfits
          next hempty => rw [hempty]; decide
          next => omega
    refine ⟨0, (spank.spankSetenv env name text true).2, ?_, ?_⟩
    · rw [hread, hadded, Option.map_some, task_setenv hspank hname]
    · rw [hextended]
      exact (hspank.setenv env name text hname).2

end Statement

/-- An executed `=+` or `+=` does what it is for, in the process and in the task, exactly if the
variable is unset or its new value has room in the buffer. -/
theorem envVarSet_extends_iff {spank : SpankEnv E} {value : E → Text → Option Text}
    (hspank : spank.Documented value) (home : Option Text) {conds : CondStack}
    (hexecuted : condition conds = some true) {name : Text}
    (hname : isValidIdentifier name = true) (val : Text) {op : SetOp}
    (hop : op = .append ∨ op = .prepend) :
    (∀ env : List Entry,
      Extends Environ.getenv env name val (op = .append)
          (process.envVarSet conds env name val op) ↔
        FitsBuffer (Environ.getenv env name) val) ∧
    ∀ env : E,
      Extends value env name val (op = .append)
          ((task spank home).envVarSet conds env name val op) ↔
        FitsBuffer (value env name) val :=
  ⟨process_extends_iff hexecuted hname hop, task_extends_iff hspank hexecuted hname hop⟩

/-- A task's environment as a list of variables. -/
def listSpank : SpankEnv (List Entry) where
  spankGetenv env name size := (Environ.getenv env name).filter fun text => text.length < size
  spankSetenv env name val overwrite :=
    if (Environ.getenv env name).isSome && !overwrite then (false, env)
    else (true, Environ.setenv env name val)
  spankUnsetenv env name := (true, Environ.unsetenv env name)

theorem listSpank_documented : listSpank.Documented Environ.getenv where
  getenv _ _ _ := rfl
  setenv env name text hname := by
    have hequal : '=' ∉ name := fun hmem => not_mem_of_identifier hname (Or.inr hmem)
    have hset :
        listSpank.spankSetenv env name text true = (true, Environ.setenv env name text) := by
      change (if _ then _ else _) = _
      rw [Bool.not_true, Bool.and_false]
      rfl
    rw [hset]
    exact ⟨rfl, (Environ.getenv_setenv env hequal text name).trans (if_pos rfl)⟩

/-- `PATH =+ /bin` where `PATH` is `/usr/bin`. -/
theorem envVarSet_extends_path :
    Extends Environ.getenv [⟨"PATH".toList, "/usr/bin".toList, by decide⟩] "PATH".toList
        "/bin".toList true (process.envVarSet [⟨true, false⟩]
          [⟨"PATH".toList, "/usr/bin".toList, by decide⟩] "PATH".toList "/bin".toList .append) ∧
      Extends Environ.getenv [⟨"PATH".toList, "/usr/bin".toList, by decide⟩] "PATH".toList
        "/bin".toList true ((task listSpank none).envVarSet [⟨true, false⟩]
          [⟨"PATH".toList, "/usr/bin".toList, by decide⟩] "PATH".toList "/bin".toList .append) := by
  have hextends := @envVarSet_extends_iff _ listSpank _ listSpank_documented none
    [⟨true, false⟩] rfl "PATH".toList rfl "/bin".toList .append (Or.inl rfl)
  have hfits : FitsBuffer (some "/usr/bin".toList) "/bin".toList := by
    show 8 + 4 + 2 ≤ 4096
    decide
  exact ⟨(hextends.1 _).mpr hfits, (hextends.2 _).mpr hfits⟩

/-- `PATH =+ b` fails where `PATH` has 4095 characters: in the process a null pointer is passed
on. Where it has 4096, the task's `PATH` is overwritten. -/
theorem long_path_not_extended :
    ¬ Extends Environ.getenv [⟨"PATH".toList, List.replicate 4095 'a', by decide⟩] "PATH".toList
        ['b'] true (process.envVarSet [⟨true, false⟩]
          [⟨"PATH".toList, List.replicate 4095 'a', by decide⟩] "PATH".toList ['b'] .append) ∧
      ¬ Extends Environ.getenv [⟨"PATH".toList, List.replicate 4096 'a', by decide⟩] "PATH".toList
        ['b'] true ((task listSpank none).envVarSet [⟨true, false⟩]
          [⟨"PATH".toList, List.replicate 4096 'a', by decide⟩] "PATH".toList ['b'] .append) := by
  have hlong : ∀ n, 4095 ≤ n → ¬ FitsBuffer (some (List.replicate n 'a')) ['b'] := by
    intro n hn hfits
    rw [FitsBuffer, List.length_replicate] at hfits
    split at hfits
    next hempty =>
      have hzero := congrArg List.length hempty
      rw [List.length_replicate, List.length_nil] at hzero
      omega
    next =>
      rw [List.length_singleton] at hfits
      omega
  constructor
  · intro hextends
    exact hlong 4095 (by decide) ((process_extends_iff rfl rfl (Or.inl rfl) _).mp hextends)
  · intro hextends
    exact hlong 4096 (by decide)
      ((task_extends_iff listSpank_documented rfl rfl (Or.inl rfl) _).mp hextends)

end SlurmSpank.UseEnv
