import Mathlib.Logic.Function.Basic
import SlurmSpank.UseEnv.Symbol

/-! # Symbols as three layers

What the tables are for: a name means the keyword of that name, or else the local symbol, or
else the environment variable. The tables simulate three layers that forget nothing and
cache nothing, and a lookup after any history of requests is read off the history.
-/

namespace SlurmSpank.UseEnv

open Lib

universe u

/-- What happens between two lookups, with the lookups themselves. Statements are those that
the parser executes. -/
inductive Request where
  | keywordDefine (name value : Text)
  | define (name value : Text)
  | undefine (name : Text)
  | assign (name val : Text) (op : SetOp)
  | unset (name : Text)
  | lookup (name : Text)

variable {E : Type u} (ops : EnvOps E)

/-- The tables after a request. -/
def Tables.perform (t : Tables E) : Request → Tables E
  | .keywordDefine name value => t.keywordDefine name value
  | .define name value => t.symDefine name value
  | .undefine name => t.symDelete name
  | .assign name val op => t.envVarSet ops name val op
  | .unset name => t.envVarUnset ops name
  | .lookup name => (t.sym ops name).2

/-- The tables after a history, the latest request first. -/
def Tables.after (start : Tables E) : List Request → Tables E
  | [] => start
  | request :: earlier => (start.after earlier).perform ops request

/-- The tables before anything is defined. -/
def Tables.start (env : E) : Tables E := ⟨[], [], [], env⟩

/-! ## The three layers -/

/-- Keywords, local symbols and the environment, one above the other. -/
structure Layers (E : Type u) where
  keywords : Text → Option Text
  symbols : Text → Option Text
  env : E

namespace Layers

/-- The value of a name: the highest layer that has one gives it. -/
def value (layers : Layers E) (name : Text) : Option Text :=
  (layers.keywords name).or ((layers.symbols name).or (ops.getenv layers.env name))

/-- The layers after a request. -/
def perform (layers : Layers E) : Request → Layers E
  | .keywordDefine name value =>
      { layers with keywords := Function.update layers.keywords name (some value) }
  | .define name value =>
      { layers with symbols := Function.update layers.symbols name (some value) }
  | .undefine name => { layers with symbols := Function.update layers.symbols name none }
  | .assign name val op =>
      { layers with
        env := ops.setenv layers.env name (newValue ops layers.env name val op) (op ≠ .condSet) }
  | .unset name => { layers with env := ops.unsetenv layers.env name }
  | .lookup _ => layers

end Layers

/-- The tables stand for the layers. Below a keyword, the symbol table may be out of date. -/
structure Represents (t : Tables E) (layers : Layers E) : Prop where
  keywords : ∀ name, symLookup t.keytab name = (layers.keywords name).map (symCreate name)
  symbols : ∀ name, layers.keywords name = none →
    symLookup t.symtab name = (layers.symbols name).map (symCreate name)
  env : t.env = layers.env

variable {ops} {t : Tables E} {layers : Layers E} {name value : Text}

theorem Represents.keyword_iff (hrep : Represents t layers) :
    (symLookup t.keytab name).isSome = true ↔ layers.keywords name ≠ none := by
  rw [hrep.keywords name, Option.isSome_map, Option.isSome_iff_ne_none]

/-- A lookup returns the symbol of the name's value. -/
theorem Represents.sym (hrep : Represents t layers) (name : Text) :
    (t.sym ops name).1 = (layers.value ops name).map (symCreate name) := by
  rw [Tables.sym, hrep.keywords name, Layers.value]
  cases hkeyword : layers.keywords name with
  | some value => rfl
  | none =>
      rw [hrep.symbols name hkeyword]
      cases hsymbol : layers.symbols name with
      | some value => rfl
      | none =>
          rw [hrep.env]
          cases henv : ops.getenv layers.env name <;> rfl

/-- A lookup adds to the cache at most. -/
theorem Tables.sym_snd (t : Tables E) (name : Text) :
    ∃ envtab, (t.sym ops name).2 = { t with envtab := envtab } := by
  unfold Tables.sym
  split
  · exact ⟨t.envtab, rfl⟩
  · split
    · exact ⟨t.envtab, rfl⟩
    · split
      · exact ⟨_, rfl⟩
      · exact ⟨t.envtab, rfl⟩

theorem Represents.keywordDefine (hrep : Represents t layers) :
    Represents (t.keywordDefine name value)
      (layers.perform ops (.keywordDefine name value)) where
  keywords other := by
    simp only [Tables.keywordDefine, listPrepend, Layers.perform]
    rw [symLookup_cons, symCreate_name, symLookup_deleteAll]
    by_cases hname : name = other
    · subst hname
      simp
    · rw [if_neg hname, if_neg hname, Function.update_of_ne (Ne.symm hname), hrep.keywords other]
  symbols other hnone := by
    apply hrep.symbols other
    by_contra hsome
    by_cases hname : other = name
    · subst hname
      simp [Layers.perform] at hnone
    · simp only [Layers.perform, Function.update_of_ne hname] at hnone
      exact hsome hnone
  env := hrep.env

/-- A definition is stored unless a keyword has the name, and then the symbol table may be
left behind. -/
theorem Represents.define (hrep : Represents t layers) :
    Represents (t.symDefine name value) (layers.perform ops (.define name value)) := by
  unfold Tables.symDefine
  split
  next hkeyword =>
    refine ⟨hrep.keywords, fun other hnone => ?_, hrep.env⟩
    have hne : other ≠ name := by
      rintro rfl
      exact hrep.keyword_iff.mp hkeyword hnone
    simp only [Layers.perform, Function.update_of_ne hne]
    exact hrep.symbols other hnone
  next hkeyword =>
    split
    next hfound =>
      refine ⟨hrep.keywords, fun other hnone => ?_, hrep.env⟩
      simp only [Layers.perform]
      rw [symLookup_resetFirst hfound]
      by_cases hname : name = other
      · subst hname
        simp
      · rw [if_neg hname, Function.update_of_ne (Ne.symm hname), hrep.symbols other hnone]
    next hnew =>
      refine ⟨hrep.keywords, fun other hnone => ?_, hrep.env⟩
      simp only [Layers.perform, listPrepend]
      rw [symLookup_cons, symCreate_name]
      by_cases hname : name = other
      · subst hname
        simp
      · rw [if_neg hname, Function.update_of_ne (Ne.symm hname), hrep.symbols other hnone]

theorem Represents.undefine (hrep : Represents t layers) :
    Represents (t.symDelete name) (layers.perform ops (.undefine name)) where
  keywords := hrep.keywords
  symbols other hnone := by
    simp only [Tables.symDelete, Layers.perform]
    rw [symLookup_deleteAll]
    by_cases hname : name = other
    · subst hname
      simp
    · rw [if_neg hname, Function.update_of_ne (Ne.symm hname), hrep.symbols other hnone]
  env := hrep.env

/-- Every request keeps the tables in step with the layers. -/
theorem Represents.perform (hrep : Represents t layers) (request : Request) :
    Represents (t.perform ops request) (layers.perform ops request) := by
  cases request with
  | keywordDefine name value => exact hrep.keywordDefine
  | define name value => exact hrep.define
  | undefine name => exact hrep.undefine
  | assign name val op =>
      refine ⟨hrep.keywords, hrep.symbols, ?_⟩
      simp only [Tables.perform, Tables.envVarSet, Tables.envCacheDelete, Layers.perform, hrep.env]
  | unset name =>
      refine ⟨hrep.keywords, hrep.symbols, ?_⟩
      simp only [Tables.perform, Tables.envVarUnset, Tables.envCacheDelete, Layers.perform,
        hrep.env]
  | lookup name =>
      obtain ⟨envtab, htables⟩ := @Tables.sym_snd _ ops t name
      rw [Tables.perform, htables]
      exact ⟨hrep.keywords, hrep.symbols, hrep.env⟩

/-! ## Reading a lookup off the history -/

/-- The value last given to the keyword of a name. -/
def keywordValue (name : Text) : List Request → Option Text
  | [] => none
  | .keywordDefine other value :: earlier =>
      if other = name then some value else keywordValue name earlier
  | _ :: earlier => keywordValue name earlier

/-- The value of the last definition of a name that is not followed by an undefinition. -/
def symbolValue (name : Text) : List Request → Option Text
  | [] => none
  | .define other value :: earlier =>
      if other = name then some value else symbolValue name earlier
  | .undefine other :: earlier => if other = name then none else symbolValue name earlier
  | _ :: earlier => symbolValue name earlier

/-- The environment after the environment statements of a history. -/
def environmentAfter (ops : EnvOps E) (env : E) : List Request → E
  | [] => env
  | .assign name val op :: earlier =>
      let env := environmentAfter ops env earlier
      ops.setenv env name (newValue ops env name val op) (op ≠ .condSet)
  | .unset name :: earlier => ops.unsetenv (environmentAfter ops env earlier) name
  | _ :: earlier => environmentAfter ops env earlier

/-- The layers that a history leaves. -/
def Layers.ofHistory (ops : EnvOps E) (env : E) (history : List Request) : Layers E where
  keywords name := keywordValue name history
  symbols name := symbolValue name history
  env := environmentAfter ops env history

theorem Layers.ofHistory_cons (env : E) (request : Request) (earlier : List Request) :
    Layers.ofHistory ops env (request :: earlier) =
      (Layers.ofHistory ops env earlier).perform ops request := by
  have hupdate : ∀ (f : Text → Option Text) (name : Text) (value : Option Text),
      (fun other => if name = other then value else f other) = Function.update f name value := by
    intro f name value
    funext other
    by_cases hname : other = name
    · subst hname
      simp
    · rw [if_neg (Ne.symm hname), Function.update_of_ne hname]
  cases request <;> simp only [ofHistory, Layers.perform, keywordValue, symbolValue,
    environmentAfter, ← hupdate]

theorem represents_after (env : E) (history : List Request) :
    Represents ((Tables.start env).after ops history) (Layers.ofHistory ops env history) := by
  induction history with
  | nil => exact ⟨fun _ => rfl, fun _ _ => rfl, rfl⟩
  | cons request earlier ih =>
      rw [Tables.after, Layers.ofHistory_cons]
      exact ih.perform request

/-- Later requests that define no keyword leave the keywords as they are. -/
theorem keywordValue_append {name : Text} {later history : List Request}
    (hlater : ∀ request ∈ later, ∀ other value, request ≠ .keywordDefine other value) :
    keywordValue name (later ++ history) = keywordValue name history := by
  induction later with
  | nil => rfl
  | cons request later ih =>
      obtain ⟨hrequest, hrest⟩ := List.forall_mem_cons.mp hlater
      cases request with
      | keywordDefine other value => exact absurd rfl (hrequest other value)
      | _ => exact ih hrest

/-- After any history, a name looks up to the value last given to its keyword, or else to its
last definition that was not undefined, or else to what the environment holds at that
moment. A keyword looks up to the same value after any other statements. -/
theorem sym_after (ops : EnvOps E) (env : E) (history : List Request) (name : Text) :
    (((Tables.start env).after ops history).sym ops name).1 =
        ((keywordValue name history).or ((symbolValue name history).or
          (ops.getenv (environmentAfter ops env history) name))).map (symCreate name) ∧
      ∀ value later, keywordValue name history = some value →
        (∀ request ∈ later, ∀ other value, request ≠ .keywordDefine other value) →
        (((Tables.start env).after ops (later ++ history)).sym ops name).1 =
          some (symCreate name value) := by
  refine ⟨(represents_after env history).sym name, fun value later hkeyword hlater => ?_⟩
  rw [(represents_after env (later ++ history)).sym name, Layers.value, Layers.ofHistory]
  simp only [keywordValue_append hlater, hkeyword]
  rfl

/-- A name that is a variable, a defined symbol and at last a keyword. -/
theorem sym_after_threeLevels :
    (((Tables.start [(['X'], ['1'])]).after listOps
      ([.undefine ['X'], .define ['X'] ['4']] ++
        [.keywordDefine ['X'] ['3'], .define ['X'] ['2'], .assign ['X'] ['7'] .append])).sym listOps
          ['X']).1 = some (symCreate ['X'] ['3']) := by
  refine (sym_after listOps [(['X'], ['1'])] [.keywordDefine ['X'] ['3'], .define ['X'] ['2'],
    .assign ['X'] ['7'] .append] ['X']).2 ['3'] [.undefine ['X'], .define ['X'] ['4']] rfl ?_
  intro request hrequest other value
  rcases List.mem_pair.mp hrequest with rfl | rfl <;> simp

end SlurmSpank.UseEnv
