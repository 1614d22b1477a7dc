import SlurmSpank.Foundation.Decimal
import SlurmSpank.Lib.List

/-! # Symbols, keywords and the environment

The three symbol tables of the lexer and the environment behind them. A table that has not
been created yet is an empty list. The environment is whatever the operations set with
`use_env_set_operations` act on.
-/

namespace SlurmSpank.UseEnv

open Foundation Lib

universe u

/-- A C string. -/
abbrev Text := List Char

/-- The operations on the environment, with `getenv ("HOME")`. A value of `none` is the null
pointer. -/
structure EnvOps (E : Type u) where
  getenv : E → Text → Option Text
  setenv : E → Text → Option Text → Bool → E
  unsetenv : E → Text → E
  home : E → Option Text

/-- An environment as a list of variables. -/
def listOps : EnvOps (List (Text × Text)) where
  getenv env name := env.lookup name
  setenv env name value overwrite :=
    match value with
    | none => env
    | some value =>
        if (env.lookup name).isSome && !overwrite then env
        else (name, value) :: env.filter (·.1 ≠ name)
  unsetenv env name := env.filter (·.1 ≠ name)
  home env := env.lookup ['H', 'O', 'M', 'E']

/-! ## Symbols -/

/-- `SYM_INT` and `SYM_STR`. -/
inductive SymType where
  | int
  | str
  deriving DecidableEq, Repr

/-- `struct sym`. -/
structure Sym where
  name : Text
  type : SymType
  val : Int
  string : Text
  deriving DecidableEq, Repr

/-- The `int` that a `long` is cast to. -/
def toInt (value : Int) : Int := (BitVec.ofInt 32 value).toInt

/-- `sym_reset_value`: a value is a number if `strtol` reads all of it. -/
def symResetValue (s : Sym) (value : Text) : Sym :=
  let (val, p) := strtol value
  if p = [] then { s with string := value, type := .int, val := toInt val }
  else { s with string := value, type := .str, val := -1 }

/-- `sym_create`. -/
def symCreate (name value : Text) : Sym := symResetValue ⟨name, .int, 0, []⟩ value

/-- `sym_find`. -/
def symFind (name : Text) (s : Sym) : Bool := s.name = name

/-- `sym_lookup`. -/
def symLookup (l : List Sym) (name : Text) : Option Sym := listFindFirst (symFind name) l

/-- The change that `sym_reset_value` makes to the symbol found in a list. -/
def symResetFirst (name value : Text) : List Sym → List Sym
  | [] => []
  | s :: rest =>
      if symFind name s then symResetValue s value :: rest else s :: symResetFirst name value rest

/-! ## The tables -/

/-- The symbol tables and the environment. -/
structure Tables (E : Type u) where
  keytab : List Sym
  symtab : List Sym
  envtab : List Sym
  env : E

variable {E : Type u} (ops : EnvOps E)

namespace Tables

/-- `sym_delete`. -/
def symDelete (t : Tables E) (name : Text) : Tables E :=
  { t with symtab := listDeleteAll (symFind name) t.symtab }

/-- `env_cache_delete`. -/
def envCacheDelete (t : Tables E) (name : Text) : Tables E :=
  { t with envtab := listDeleteAll (symFind name) t.envtab }

/-- `keyword_define`. -/
def keywordDefine (t : Tables E) (name value : Text) : Tables E :=
  { t with keytab := listPrepend (listDeleteAll (symFind name) t.keytab) (symCreate name value) }

/-- `sym_define`. A keyword is not overridden. -/
def symDefine (t : Tables E) (name value : Text) : Tables E :=
  if (symLookup t.keytab name).isSome then t
  else if (symLookup t.symtab name).isSome then
    { t with symtab := symResetFirst name value t.symtab }
  else { t with symtab := listPrepend t.symtab (symCreate name value) }

/-- `env_sym_create`. -/
def envSymCreate (t : Tables E) (name value : Text) : Sym × Tables E :=
  (symCreate name value, { t with envtab := listPrepend t.envtab (symCreate name value) })

/-- `sym`. -/
def sym (t : Tables E) (name : Text) : Option Sym × Tables E :=
  match symLookup t.keytab name with
  | some s => (some s, t)
  | none =>
      match symLookup t.symtab name with
      | some s => (some s, t)
      | none =>
          match ops.getenv t.env name with
          | some rv =>
              let (s, t) := t.envSymCreate name rv
              (some s, t)
          | none => (none, t)

/-- `symtab_destroy`. -/
def symtabDestroy (t : Tables E) : Tables E := { t with symtab := [], envtab := [] }

end Tables

/-! ## Environment statements -/

/-- The operators that set an environment variable. -/
inductive SetOp where
  | assign
  | condSet
  | append
  | prepend
  deriving DecidableEq, Repr

/-- `is_valid_identifier`. -/
def isValidIdentifier : Text → Bool
  | [] => false
  | c :: rest => (c.isAlpha || c = '_') && rest.all fun p => p.isAlphanum || p = '_'

/-- `env_var_add`, with the result that fits the buffer. -/
def envVarAdd (size : Nat) (orig val : Text) (append : Bool) : Option Text :=
  if val.length ≥ size then none
  else if orig = [] then some val
  else if val.length + orig.length + 2 > size then none
  else if append then some (orig ++ ':' :: val)
  else some (val ++ ':' :: orig)

/-- The value that `env_var_set` sets: for `+=` and `=+` the old one is extended. -/
def newValue (env : E) (name val : Text) (op : SetOp) : Option Text :=
  if op = .append ∨ op = .prepend then
    match ops.getenv env name with
    | some orig => envVarAdd 4096 orig val (op = .append)
    | none => some val
  else some val

/-- `env_var_set` once the statement is executed. -/
def Tables.envVarSet (t : Tables E) (name val : Text) (op : SetOp) : Tables E :=
  let newval := newValue ops t.env name val op
  let t := t.envCacheDelete name
  { t with env := ops.setenv t.env name newval (op ≠ .condSet) }

/-- `env_var_unset` once the statement is executed. -/
def Tables.envVarUnset (t : Tables E) (name : Text) : Tables E :=
  let t := t.envCacheDelete name
  { t with env := ops.unsetenv t.env name }

/-! ## Looking up -/

section Lookup

variable {l : List Sym} {name other value : Text} {s : Sym}

@[simp] theorem symFind_eq_true : symFind name s = true ↔ s.name = name := by
  simp [symFind]

@[simp] theorem symResetValue_name : (symResetValue s value).name = s.name := by
  unfold symResetValue
  split
  split <;> rfl

@[simp] theorem symCreate_name : (symCreate name value).name = name := symResetValue_name

/-- What a reset leaves of the old symbol is its name. -/
theorem symResetValue_eq : symResetValue s value = symCreate s.name value := by
  unfold symCreate symResetValue
  split
  split <;> rfl

@[simp] theorem symLookup_nil : symLookup [] name = none := rfl

theorem symLookup_cons : symLookup (s :: l) name =
    if s.name = name then some s else symLookup l name := by
  unfold symLookup listFindFirst
  rw [List.find?_cons]
  by_cases hname : s.name = name
  · simp [symFind, hname]
  · simp [symFind, hname]

theorem symLookup_deleteAll : symLookup (listDeleteAll (symFind other) l) name =
    if other = name then none else symLookup l name := by
  induction l with
  | nil => simp [listDeleteAll]
  | cons s rest ih =>
      by_cases hother : s.name = other
      · have hdelete : listDeleteAll (symFind other) (s :: rest) =
            listDeleteAll (symFind other) rest := by
          simp [listDeleteAll, symFind, hother]
        rw [hdelete, ih, symLookup_cons, hother]
        split <;> rfl
      · have hdelete : listDeleteAll (symFind other) (s :: rest) =
            s :: listDeleteAll (symFind other) rest := by
          simp [listDeleteAll, symFind, hother]
        rw [hdelete, symLookup_cons, symLookup_cons, ih]
        by_cases hname : s.name = name
        · have hne : other ≠ name := fun heq => hother (hname.trans heq.symm)
          simp [hname, hne]
        · simp [hname]

theorem symLookup_resetFirst (hfound : (symLookup l other).isSome = true) :
    symLookup (symResetFirst other value l) name =
      if other = name then some (symCreate name value) else symLookup l name := by
  induction l with
  | nil => simp at hfound
  | cons s rest ih =>
      rw [symResetFirst]
      by_cases hother : s.name = other
      · rw [if_pos (symFind_eq_true.mpr hother), symLookup_cons, symLookup_cons,
          symResetValue_name, symResetValue_eq, hother]
        split
        next heq => rw [heq]
        next => rfl
      · rw [symLookup_cons, if_neg hother] at hfound
        rw [if_neg (fun hfind => hother (symFind_eq_true.mp hfind)), symLookup_cons,
          symLookup_cons, ih hfound]
        by_cases hname : s.name = name
        · have hne : other ≠ name := fun heq => hother (hname.trans heq.symm)
          simp [hname, hne]
        · simp [hname]

end Lookup

end SlurmSpank.UseEnv
