/-! # Environments

An environment is a list of variables. Of two variables with one name, the first is the one
that is read. What holds of every implementation of an environment is stated for the value
that is read; the list with the operations of the C library is one.
-/

namespace SlurmSpank.Foundation

universe u

/-- A variable, whose name ends at the first `=` of its text. -/
structure Entry where
  name : List Char
  value : List Char
  valid : '=' ∉ name
  deriving DecidableEq

/-- A variable as `environ` has it. -/
def Entry.text (entry : Entry) : List Char := entry.name ++ '=' :: entry.value

namespace Environ

/-- `getenv`. -/
def getenv (env : List Entry) (name : List Char) : Option (List Char) :=
  (env.find? fun entry => entry.name = name).map Entry.value

/-- `setenv` with overwriting: the first variable of the name gets the value, or the variable
is new. A name with `=` is refused. -/
def setenv (env : List Entry) (name value : List Char) : List Entry :=
  if hname : '=' ∉ name then
    match env with
    | [] => [⟨name, value, hname⟩]
    | entry :: rest =>
        if entry.name = name then ⟨name, value, hname⟩ :: rest
        else entry :: setenv rest name value
  else env

/-- `unsetenv`. -/
def unsetenv (env : List Entry) (name : List Char) : List Entry :=
  env.filter fun entry => entry.name ≠ name

theorem getenv_nil (name : List Char) : getenv [] name = none := rfl

theorem getenv_cons (entry : Entry) (env : List Entry) (name : List Char) :
    getenv (entry :: env) name =
      if entry.name = name then some entry.value else getenv env name := by
  rw [getenv, getenv, List.find?_cons]
  by_cases heq : entry.name = name
  · rw [decide_eq_true heq, if_pos heq]
    rfl
  · rw [decide_eq_false heq, if_neg heq]

/-- A variable in the environment has a value that is read, though maybe not its own. -/
theorem getenv_isSome {env : List Entry} {entry : Entry} (hmem : entry ∈ env) :
    (getenv env entry.name).isSome = true := by
  rw [getenv, Option.isSome_map, List.find?_isSome]
  exact ⟨entry, hmem, decide_eq_true rfl⟩

/-- Nothing is read of a name that no variable has. -/
theorem getenv_eq_none {env : List Entry} {name : List Char}
    (hnone : ∀ entry ∈ env, entry.name ≠ name) : getenv env name = none := by
  rw [getenv, Option.map_eq_none_iff, List.find?_eq_none]
  intro entry hmem heq
  exact hnone entry hmem (of_decide_eq_true heq)

theorem exists_of_getenv {env : List Entry} {name value : List Char}
    (hget : getenv env name = some value) : ∃ entry ∈ env, entry.name = name := by
  obtain ⟨entry, hfind, _⟩ := Option.map_eq_some_iff.mp hget
  have hfound := List.find?_some hfind
  exact ⟨entry, List.mem_of_find?_eq_some hfind, of_decide_eq_true hfound⟩

theorem getenv_setenv (env : List Entry) {name : List Char} (hname : '=' ∉ name)
    (value other : List Char) :
    getenv (setenv env name value) other =
      if other = name then some value else getenv env other := by
  induction env with
  | nil =>
      rw [setenv, dif_pos hname, getenv_cons, getenv_nil]
      simp only [eq_comm]
  | cons entry env ih =>
      rw [setenv, dif_pos hname]
      simp only
      split
      next heq =>
        rw [getenv_cons, getenv_cons, heq]
        by_cases hother : other = name
        · rw [if_pos hother.symm, if_pos hother]
        · rw [if_neg (Ne.symm hother), if_neg hother, if_neg (Ne.symm hother)]
      next hne =>
        rw [getenv_cons, ih, getenv_cons]
        by_cases hother : other = name
        · rw [if_neg (hother ▸ hne), if_pos hother, if_pos hother]
        · rw [if_neg hother, if_neg hother]

theorem getenv_unsetenv (env : List Entry) (name other : List Char) :
    getenv (unsetenv env name) other = if other = name then none else getenv env other := by
  induction env with
  | nil => rw [unsetenv, List.filter_nil, getenv_nil, ite_self]
  | cons entry env ih =>
      rw [unsetenv, List.filter_cons]
      by_cases heq : entry.name = name
      · rw [if_neg (by simpa using heq), ← unsetenv, ih, getenv_cons, heq]
        by_cases hother : other = name
        · rw [if_pos hother, if_pos hother]
        · rw [if_neg hother, if_neg hother, if_neg (Ne.symm hother)]
      · rw [if_pos (by simpa using heq), ← unsetenv, getenv_cons, ih, getenv_cons]
        by_cases hother : other = name
        · rw [if_pos hother, if_pos hother, if_neg (hother ▸ heq)]
        · rw [if_neg hother, if_neg hother]

/-- What is read of a variable that a selection by name keeps is read behind it. -/
theorem getenv_filter (env : List Entry) (keeps : List Char → Bool) {name : List Char}
    (hkeeps : keeps name = true) :
    getenv (env.filter fun entry => keeps entry.name) name = getenv env name := by
  induction env with
  | nil => rfl
  | cons entry env ih =>
      rw [List.filter_cons, getenv_cons]
      split
      next => rw [getenv_cons, ih]
      next hdropped =>
        have hne : entry.name ≠ name := fun heq => hdropped (heq ▸ hkeeps)
        rw [if_neg hne, ih]

end Environ

/-- An environment kept elsewhere, with operations on it. -/
structure EnvOps (E : Type u) where
  items : E → Option (List Entry)
  setenv : E → List Char → List Char → E
  unsetenv : E → List Char → E

/-- The value of a variable that is read there. -/
def EnvOps.getenv {E : Type u} (ops : EnvOps E) (env : E) (name : List Char) :
    Option (List Char) :=
  Environ.getenv ((ops.items env).getD []) name

/-- The environment can be listed, and setting and unsetting variables does that. -/
structure EnvOps.Lawful {E : Type u} (ops : EnvOps E) : Prop where
  items_isSome : ∀ env, (ops.items env).isSome = true
  getenv_setenv : ∀ env name value other, '=' ∉ name →
    ops.getenv (ops.setenv env name value) other =
      if other = name then some value else ops.getenv env other
  getenv_unsetenv : ∀ env name other,
    ops.getenv (ops.unsetenv env name) other =
      if other = name then none else ops.getenv env other

/-- The operations of the C library on a list of variables. -/
def listEnvOps : EnvOps (List Entry) where
  items := some
  setenv := Environ.setenv
  unsetenv := Environ.unsetenv

theorem listEnvOps_lawful : listEnvOps.Lawful where
  items_isSome _ := rfl
  getenv_setenv env _ value other hname := Environ.getenv_setenv env hname value other
  getenv_unsetenv := Environ.getenv_unsetenv

end SlurmSpank.Foundation
