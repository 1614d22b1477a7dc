import SlurmSpank.UseEnv.Balance
import SlurmSpank.UseEnv.IncludeStack

/-! # Files do not see each other

What a file leaves in the static variables of the lexer and the parser. Where the parser
accepts, `lex_fini` clears the symbols and the include stack, but neither the start condition
nor the condition stack; where it aborts, nothing is cleared. A file that ends outside of all
of this leaves the state in which `use_env_parser_init` has left the first one.
-/

namespace SlurmSpank.UseEnv

open Foundation Lib

universe u

variable {E : Type u} {w : World E} {m m' : Machine E} {v : Bool}

namespace Machine

/-! ## Steps -/

/-- The step makes no syntax error in the head of a block that has moved a frame. -/
def Clean (w : World E) (m : Machine E) : Prop :=
  ∀ t ∈ (m.lexer.step w.ops).2, m.parser.Clean t

/-- The parser takes its last token outside of strings and operands. If it aborts there, it
does so outside of included files and blocks, with no symbol in the tables. -/
def EndsClean (w : World E) (m : Machine E) (accepted : Bool) : Prop :=
  (m.lexer.step w.ops).1.start = .initial ∧
    (accepted = false →
      (m.lexer.step w.ops).1.saved = [] ∧ (m.lexer.step w.ops).1.tables.symtab = [] ∧
        (m.lexer.step w.ops).1.tables.envtab = [] ∧ m.parser.blocks = [] ∧
        m.parser.stmt.shape = .plain)

/-- A step without such an error keeps the frames and the blocks matched. -/
theorem balanced_step (hbalanced : m.parser.Balanced v) (hclean : m.Clean w)
    {executed : Option Action} (hstep : m.step w = .next m' executed) :
    m'.parser.Balanced v := by
  cases advances_of_step hstep with
  | silent _ => exact hbalanced
  | shifted htoken hparser | included htoken hparser _ | executed htoken hparser _ =>
      exact (Parser.keeping_step hbalanced (hclean _ htoken) _ hparser).1

/-- The frames that a parse leaves behind. -/
theorem conds_of_stop (hbalanced : m.parser.Balanced v) (hclean : m.Clean w) {accepted : Bool}
    (hends : m.EndsClean w accepted) (hstep : m.step w = .stop accepted m') :
    m'.parser.conds = [⟨v, false⟩] := by
  cases halts_of_step hstep with
  | accepted htoken hparser =>
      exact Parser.keeping_step hbalanced (hclean _ htoken) _ hparser
  | aborted htoken hparser =>
      obtain ⟨-, -, -, hblocks, hshape⟩ := hends.2 rfl
      exact Parser.keeping_step hbalanced (hclean _ htoken) _ hparser hblocks hshape
  | refused htoken hparser =>
      obtain ⟨-, -, -, hblocks, -⟩ := hends.2 rfl
      obtain ⟨hnext, hkept⟩ := Parser.keeping_step hbalanced (hclean _ htoken) _ hparser
      obtain ⟨hsame, hshape⟩ := hkept (by simp)
      have hframed := hnext.framed (Or.inl hshape)
      rw [hsame, hblocks] at hframed
      exact hframed

end Machine

/-! ## Sessions -/

/-- Nothing of the files before is left. -/
def Statics.Fresh (inTask : Bool) (s : Statics E) : Prop :=
  s = Statics.init inTask s.tables.keytab s.tables.env

/-- Where a file is read, its frames match its blocks, and between two files nothing of the
files before is left. -/
def Session.Fresh (inTask : Bool) : Session E → Prop
  | .idle s => s.Fresh inTask
  | .reading m => m.parser.Balanced (!inTask)

/-- What happens next makes no syntax error in a head that has moved a frame, and ends no file
where something is left. -/
def Session.Clean (w : World E) : Session E → SessionEvent → Prop
  | .idle _, _ => True
  | .reading m, .finish accepted => m.Clean w ∧ m.EndsClean w accepted
  | .reading m, _ => m.Clean w

instance : DecidablePred (Machine.Clean w) := fun m =>
  inferInstanceAs (Decidable (∀ t ∈ (m.lexer.step w.ops).2, _))

instance (m : Machine E) (accepted : Bool) : Decidable (m.EndsClean w accepted) :=
  inferInstanceAs (Decidable (_ ∧ (_ → _ ∧ _ ∧ _ ∧ _ ∧ _)))

theorem conditionInit_eq (inTask : Bool) : conditionInit inTask = [⟨!inTask, false⟩] := by
  cases inTask <;> rfl

theorem Session.Fresh.step {inTask : Bool} {s s' : Session E} {event : SessionEvent}
    (hfresh : s.Fresh inTask) (hclean : s.Clean w event) (hstep : SessionStep w s event s') :
    s'.Fresh inTask := by
  cases hstep with
  | missing hfile => exact hfresh
  | @opened s path m hfile =>
      obtain ⟨f, -, rfl⟩ := Option.map_eq_some_iff.mp hfile
      have hconds : s.conds = [⟨!inTask, false⟩] := by
        rw [← conditionInit_eq]
        exact congrArg Statics.conds hfresh
      exact hconds
  | read hstep => exact Machine.balanced_step hfresh hclean hstep
  | @finish m m' accepted hstep =>
      obtain ⟨hclean, hends⟩ := hclean
      have hconds := Machine.conds_of_stop hfresh hclean hends hstep
      have hlexer := Machine.step_stop hstep
      obtain ⟨hstart, hfailed⟩ := hends
      rw [← hlexer] at hstart hfailed
      obtain ⟨⟨start, current, saved, ⟨keytab, symtab, envtab, env⟩⟩, ⟨conds, blocks, stmt⟩⟩ := m'
      obtain rfl : conds = conditionInit inTask := by rw [conditionInit_eq]; exact hconds
      obtain rfl : start = .initial := hstart
      cases accepted with
      | true => rfl
      | false =>
          obtain ⟨hsaved, hsymtab, henvtab, -, -⟩ := hfailed rfl
          obtain rfl : saved = [] := hsaved
          obtain rfl : symtab = [] := hsymtab
          obtain rfl : envtab = [] := henvtab
          rfl
  | @outside s keytab env =>
      obtain ⟨conds, start, saved, ⟨keytab', symtab, envtab, env'⟩⟩ := s
      obtain ⟨rfl, rfl, rfl, htables⟩ := Statics.mk.inj hfresh
      obtain ⟨-, rfl, rfl, -⟩ := Tables.mk.inj htables
      rfl

/-- In a session in which no head is broken off after it has moved a frame, and no file ends
where something is left, a file is parsed as if it were the first. -/
theorem run_fresh {inTask : Bool} {keytab : List Sym} {env : E} {events : List SessionEvent}
    {s : Statics E}
    (hrun : Run (fun s event s' => SessionStep w s event s' ∧ s.Clean w event)
      (.idle (Statics.init inTask keytab env)) events (.idle s)) :
    (s.conds = conditionInit inTask ∧ s.start = .initial ∧ s.saved = [] ∧
        s.tables.symtab = [] ∧ s.tables.envtab = []) ∧
      ∀ path actions accepted, s.Performs w path actions accepted ↔
        (Statics.init inTask s.tables.keytab s.tables.env).Performs w path actions accepted := by
  have hstart : Session.Fresh inTask (.idle (Statics.init inTask keytab env)) := rfl
  have hfresh : s.Fresh inTask := hrun.invariant (Session.Fresh inTask)
    (fun s event s' hs hstep => hs.step hstep.2 hstep.1) hstart
  refine ⟨?_, fun path actions accepted => by rw [← hfresh]⟩
  rw [hfresh]
  exact ⟨rfl, rfl, rfl, rfl, rfl⟩

/-- A file with an `if`, and another one. -/
def ifWorld : World (List (Text × Text)) :=
  jobWorld [("./a".toList, "if (1)\nA = 1\nendif\n".toList), ("./b".toList, "B = 2\n".toList)]

/-- The second file is parsed like a first one. -/
theorem run_fresh_ifWorld :
    ∃ events s, Run (SessionStep ifWorld) (.idle (Statics.init false [] [])) events (.idle s) ∧
      events ≠ [] ∧ s.Performs ifWorld "./b".toList [.assign ['B'] ['2'] .assign] (some true) := by
  have hreach : ∃ m ∈ ((Statics.init false [] []).lexFileInit ifWorld.files "./a".toList).bind
      (·.after ifWorld (fun m => m.Clean ifWorld) 15),
        ∃ last ∈ m.stopped ifWorld, last.1 = true ∧ m.Clean ifWorld ∧ m.EndsClean ifWorld true ∧
          ∃ result ∈ ((Statics.init false last.2.lexer.tables.keytab
              last.2.lexer.tables.env).lexFileInit ifWorld.files "./b".toList).bind
                (·.runFor ifWorld 20),
            result.1 = [.assign ['B'] ['2'] .assign] ∧ result.2.accepted = some true := by
    decide +kernel
  obtain ⟨m, hafter, ⟨accepted, m'⟩, hstopped, rfl, hclean, hends, ⟨actions, ending⟩, hsecond,
    rfl, haccepted⟩ := hreach
  obtain ⟨events, hrun⟩ := Session.exists_run_of_open (Session.Clean ifWorld)
    (fun m executed hclean => show m.Clean ifWorld from of_decide_eq_true hclean) trivial hafter
  have hfinished := hrun.extend ⟨.finish (Machine.step_of_stopped hstopped), hclean, hends⟩
  refine ⟨_, m'.finish true, hfinished.mono fun _ _ _ hstep => hstep.1, by simp, ?_⟩
  obtain ⟨second, hfile, hsecond⟩ := Option.bind_eq_some_iff.mp hsecond
  exact ((run_fresh hfinished).2 _ _ _).mpr
    ⟨second, ending, hfile, Machine.runs_of_runFor hsecond, haccepted⟩

/-- A file that defines a symbol before it fails, and one that uses the name. -/
def failingWorld : World (List (Text × Text)) :=
  jobWorld [("./a".toList, "define A = x\ndefine 1 = y\n".toList),
    ("./b".toList, "B = $A\n".toList)]

/-- The symbol of the failed file has a value in the next file, where a first file sees none. -/
theorem failedFile_leaves_symbol :
    ∃ events s, Run (SessionStep failingWorld) (.idle (Statics.init false [] [])) events
        (.idle s) ∧
      s.Performs failingWorld "./b".toList [.assign ['B'] ['x'] .assign] (some true) ∧
      ¬ (Statics.init false s.tables.keytab s.tables.env).Performs failingWorld "./b".toList
        [.assign ['B'] ['x'] .assign] (some true) := by
  have hreach : ∃ m ∈ ((Statics.init false [] []).lexFileInit failingWorld.files
      "./a".toList).bind (·.after failingWorld (fun _ => true) 16),
        ∃ last ∈ m.stopped failingWorld, last.1 = false ∧
          (∃ result ∈ (last.2.leave.lexFileInit failingWorld.files "./b".toList).bind
              (·.runFor failingWorld 20),
            result.1 = [.assign ['B'] ['x'] .assign] ∧ result.2.accepted = some true) ∧
          ∃ first ∈ (Statics.init false last.2.leave.tables.keytab
              last.2.leave.tables.env).lexFileInit failingWorld.files "./b".toList,
            ∃ result ∈ first.runFor failingWorld 20,
              result.1 = [.assign ['B'] [] .assign] := by
    decide +kernel
  obtain ⟨m, hafter, ⟨accepted, m'⟩, hstopped, rfl, ⟨⟨actions, ending⟩, hsecond, rfl, haccepted⟩,
    first, hfirst, ⟨other, otherEnding⟩, hother, rfl⟩ := hreach
  obtain ⟨events, hrun⟩ := Session.exists_run_of_open (fun _ _ => True)
    (fun m executed hclean => trivial) trivial hafter
  have hfinished := (hrun.mono fun _ _ _ hstep => hstep.1).extend
    (SessionStep.finish (Machine.step_of_stopped hstopped))
  obtain ⟨second, hfile, hsecond⟩ := Option.bind_eq_some_iff.mp hsecond
  refine ⟨_, m'.finish false, hfinished,
    ⟨second, ending, hfile, Machine.runs_of_runFor hsecond, haccepted⟩, ?_⟩
  rintro ⟨first', ending', hfirst', hrun', -⟩
  obtain rfl := Option.some_inj.mp (hfirst'.symm.trans hfirst)
  obtain ⟨heq, -⟩ := hrun'.unique (Machine.runs_of_runFor hother)
  exact absurd heq (by decide)

end SlurmSpank.UseEnv
