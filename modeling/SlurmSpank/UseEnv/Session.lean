import SlurmSpank.Foundation.Run
import SlurmSpank.UseEnv.Machine

/-! # Sessions

What happens between `use_env_parser_init` and `use_env_parser_fini`: files are parsed one
after the other, and in between the plugin may change the environment and the keywords. The
static variables of the lexer and the parser carry over from one file to the next.
-/

namespace SlurmSpank.UseEnv

open Foundation Lib

universe u

variable {E : Type u}

/-- The static variables between two files. -/
structure Statics (E : Type u) where
  conds : CondStack
  start : Start
  saved : List Source
  tables : Tables E

namespace Statics

/-- `use_env_parser_init`, with the keywords and the environment that the plugin has set. -/
def init (inTask : Bool) (keytab : List Sym) (env : E) : Statics E :=
  ⟨conditionInit inTask, .initial, [], ⟨keytab, [], [], env⟩⟩

/-- `lex_file_init`. -/
def lexFileInit (files : Text → Option Text) (s : Statics E) (path : Text) : Option (Machine E) :=
  (Lexer.fileInfoCreate files path).map fun f =>
    ⟨⟨s.start, f, s.saved, s.tables⟩, ⟨s.conds, [], .start⟩⟩

end Statics

namespace Machine

/-- The static variables where the parser has stopped. -/
def leave (m : Machine E) : Statics E :=
  ⟨m.parser.conds, m.lexer.start, m.lexer.saved, m.lexer.tables⟩

/-- `lex_fini`. -/
def lexFini (m : Machine E) : Statics E :=
  { m.leave with saved := [], tables := m.lexer.tables.symtabDestroy }

/-- What `use_env_parse` leaves behind: `lex_fini` is called where the parser has accepted. -/
def finish (accepted : Bool) (m : Machine E) : Statics E := if accepted then m.lexFini else m.leave

end Machine

/-- `use_env_parse` executes the given statements, with the given result. -/
def Statics.Performs (w : World E) (s : Statics E) (path : Text) (actions : List Action)
    (accepted : Option Bool) : Prop :=
  ∃ m ending, s.lexFileInit w.files path = some m ∧ Machine.Runs w m actions ending ∧
    ending.accepted = accepted

/-- A session between two files, or while a file is parsed. -/
inductive Session (E : Type u) where
  | idle (s : Statics E)
  | reading (m : Machine E)

/-- What happens in a session. -/
inductive SessionEvent where
  | open (path : Text)
  | read (executed : Option Action)
  | finish (accepted : Bool)
  | outside

/-- The steps of a session. A file that cannot be opened changes nothing. -/
inductive SessionStep (w : World E) : Session E → SessionEvent → Session E → Prop
  | missing {s : Statics E} {path : Text} (hfile : s.lexFileInit w.files path = none) :
      SessionStep w (.idle s) (.open path) (.idle s)
  | opened {s : Statics E} {path : Text} {m : Machine E}
      (hfile : s.lexFileInit w.files path = some m) :
      SessionStep w (.idle s) (.open path) (.reading m)
  | read {m m' : Machine E} {executed : Option Action} (hstep : m.step w = .next m' executed) :
      SessionStep w (.reading m) (.read executed) (.reading m')
  | finish {m m' : Machine E} {accepted : Bool} (hstep : m.step w = .stop accepted m') :
      SessionStep w (.reading m) (.finish accepted) (.idle (m'.finish accepted))
  | outside {s : Statics E} {keytab : List Sym} {env : E} :
      SessionStep w (.idle s) .outside
        (.idle { s with tables := { s.tables with keytab := keytab, env := env } })

end SlurmSpank.UseEnv
