import SlurmSpank.UseEnv.Lexer

/-! # Reading a configuration file

The lexer and the parser together, one match of the lexer at a time, with the statements
that are executed on the way. The run of a file ends where the parser accepts or aborts, and
has no result where the parser accesses an empty condition stack.
-/

namespace SlurmSpank.UseEnv

open Foundation Lib

universe u

variable {E : Type u}

/-- What `use_env_parse` takes from its surroundings. -/
structure World (E : Type u) where
  setting : Setting
  ops : EnvOps E
  files : Text → Option Text

/-- The tables after a statement. -/
def Action.perform (ops : EnvOps E) (t : Tables E) : Action → Tables E
  | .assign name val op => t.envVarSet ops name val op
  | .unset name => t.envVarUnset ops name
  | .define name value => t.symDefine name value
  | .undefine name => t.symDelete name
  | .print _ | .dump _ _ | .verbose _ | .include _ => t

/-- The lexer and the parser. -/
structure Machine (E : Type u) where
  lexer : Lexer E
  parser : Parser

/-- What a step of the machine comes to, with the statement that it executes. -/
inductive Turn (E : Type u) where
  | next (m : Machine E) (executed : Option Action)
  | stop (accepted : Bool) (m : Machine E)
  | crash

namespace Machine

/-- The execution of a statement. A refused `include` aborts the parser. -/
def execute (w : World E) (m : Machine E) (action : Action) : Turn E :=
  match action with
  | .include name =>
      match m.lexer.includePush w.files name with
      | (_, none) => .stop false m
      | (_, some lexer) => .next { m with lexer := lexer } none
  | action =>
      let lexer := { m.lexer with tables := action.perform w.ops m.lexer.tables }
      .next { m with lexer := lexer } (some action)

/-- The parser takes a token. -/
def feed (w : World E) (m : Machine E) (t : Token) : Turn E :=
  match m.parser.step w.setting t with
  | none => .crash
  | some (.accept conds) => .stop true { m with parser.conds := conds }
  | some (.abort conds) => .stop false { m with parser.conds := conds }
  | some (.next p none) => .next { m with parser := p } none
  | some (.next p (some action)) => execute w { m with parser := p } action

/-- One match of the lexer, and what the parser does with the token if there is one. -/
def step (w : World E) (m : Machine E) : Turn E :=
  let (lexer, t) := m.lexer.step w.ops
  match t with
  | none => .next { m with lexer := lexer } none
  | some t => feed w { m with lexer := lexer } t

/-- The step with a match that returns a token. -/
theorem step_token {w : World E} {m : Machine E} {t : Token}
    (htoken : (m.lexer.step w.ops).2 = some t) :
    m.step w = feed w ⟨(m.lexer.step w.ops).1, m.parser⟩ t := by
  unfold step
  generalize m.lexer.step w.ops = result at htoken ⊢
  obtain ⟨lexer, token⟩ := result
  obtain rfl : token = some t := htoken
  rfl

/-- The step with a match that returns none. -/
theorem step_silent {w : World E} {m : Machine E} (htoken : (m.lexer.step w.ops).2 = none) :
    m.step w = .next ⟨(m.lexer.step w.ops).1, m.parser⟩ none := by
  unfold step
  generalize m.lexer.step w.ops = result at htoken ⊢
  obtain ⟨lexer, token⟩ := result
  obtain rfl : token = none := htoken
  rfl

/-- How the run of a file ends: the parser accepts or aborts and leaves the machine behind, or
it accesses an empty stack. -/
inductive Ending (E : Type u) where
  | stop (accepted : Bool) (m : Machine E)
  | crash

/-- Whether the parser accepts, if it gets that far. -/
def Ending.accepted : Ending E → Option Bool
  | .stop accepted _ => some accepted
  | .crash => none

/-- The run of a file: the statements executed, and its ending. -/
inductive Runs (w : World E) : Machine E → List Action → Ending E → Prop
  | next {m m' : Machine E} {executed : Option Action} {more : List Action} {ending : Ending E}
      (hstep : m.step w = .next m' executed) (hrest : Runs w m' more ending) :
      Runs w m (executed.toList ++ more) ending
  | stop {m m' : Machine E} {accepted : Bool} (hstep : m.step w = .stop accepted m') :
      Runs w m [] (.stop accepted m')
  | crash {m : Machine E} (hstep : m.step w = .crash) : Runs w m [] .crash

/-- Finitely many steps of the machine that do not end the run, with the statements executed. -/
inductive Steps (w : World E) : Machine E → List Action → Machine E → Prop
  | refl (m : Machine E) : Steps w m [] m
  | next {m m' m'' : Machine E} {executed : Option Action} {more : List Action}
      (hstep : m.step w = .next m' executed) (hrest : Steps w m' more m'') :
      Steps w m (executed.toList ++ more) m''

end Machine

end SlurmSpank.UseEnv
