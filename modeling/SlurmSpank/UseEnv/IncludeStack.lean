import SlurmSpank.UseEnv.Evaluation
import SlurmSpank.UseEnv.LexerStep

/-! # The files on the include stack

An `include` of a file on the stack is refused, and the file that is being read is not on
the stack yet. So the paths of the open files stay distinct as long as no file includes
itself directly, and no file is opened that a failed parse has left on the stack.
-/

namespace SlurmSpank.UseEnv

open Foundation Lib

universe u

variable {E : Type u} {w : World E} {m m' : Machine E}

/-! ## Steps of the machine on the files -/

/-- What an accepted `include` does. -/
theorem Lexer.includePush_eq_some {files : Text → Option Text} {l l' : Lexer E} {incl : Text}
    {opened : Option Source} (hpush : l.includePush files incl = (opened, some l')) :
    ∃ f, opened = some f ∧
      Lexer.fileInfoCreate files (Lexer.fullPath l.current.path incl 4096) = some f ∧
      (∀ source ∈ l.saved, source.path ≠ f.path) ∧ l.saved.length ≤ 20 ∧
      l' = { l with current := f, saved := l.current :: l.saved } := by
  unfold Lexer.includePush at hpush
  split at hpush
  next => exact absurd (congrArg Prod.snd hpush) (by simp)
  next f hf =>
    split at hpush
    next => exact absurd (congrArg Prod.snd hpush) (by simp)
    next hfresh =>
      split at hpush
      next => exact absurd (congrArg Prod.snd hpush) (by simp)
      next hdepth =>
        obtain ⟨rfl, hl⟩ := Prod.mk.inj hpush
        refine ⟨f, rfl, hf, ?_, Nat.not_lt.mp hdepth, (Option.some_inj.mp hl).symm⟩
        intro source hsource heq
        exact hfresh (List.any_eq_true.mpr ⟨source, hsource, decide_eq_true heq⟩)

theorem Lexer.fileInfoCreate_path {files : Text → Option Text} {path : Text} {f : Source}
    (hf : Lexer.fileInfoCreate files path = some f) : f.path = path := by
  obtain ⟨text, -, rfl⟩ := Option.map_eq_some_iff.mp hf
  rfl

namespace Machine

/-- The name in the `include` statement that the machine executes in its next step. -/
def includes (w : World E) (m : Machine E) : Option Text :=
  match (m.lexer.step w.ops).2 with
  | none => none
  | some t =>
      match m.parser.step w.setting t with
      | some (.next _ (some (.include name))) => some name
      | _ => none

/-- The path that a name in the current file stands for. -/
def includePath (m : Machine E) (name : Text) : Text :=
  Lexer.fullPath m.lexer.current.path name 4096

/-- A step that goes on, by what the parser does with the match. -/
inductive Advances (w : World E) (m : Machine E) : Option Action → Machine E → Prop
  | silent (htoken : (m.lexer.step w.ops).2 = none) :
      Advances w m none ⟨(m.lexer.step w.ops).1, m.parser⟩
  | shifted {t : Token} {p : Parser} (htoken : (m.lexer.step w.ops).2 = some t)
      (hparser : m.parser.step w.setting t = some (.next p none)) :
      Advances w m none ⟨(m.lexer.step w.ops).1, p⟩
  | included {t : Token} {p : Parser} {name : Text} {f : Source} {lexer : Lexer E}
      (htoken : (m.lexer.step w.ops).2 = some t)
      (hparser : m.parser.step w.setting t = some (.next p (some (.include name))))
      (hpush : (m.lexer.step w.ops).1.includePush w.files name = (some f, some lexer)) :
      Advances w m none ⟨lexer, p⟩
  | executed {t : Token} {p : Parser} {action : Action}
      (htoken : (m.lexer.step w.ops).2 = some t)
      (hparser : m.parser.step w.setting t = some (.next p (some action)))
      (hplain : ∀ name, action ≠ .include name) :
      Advances w m (some action)
        ⟨{ (m.lexer.step w.ops).1 with
            tables := action.perform w.ops (m.lexer.step w.ops).1.tables }, p⟩

/-- A step that ends the parse: the parser accepts, it aborts, or an `include` is refused. -/
inductive Halts (w : World E) (m : Machine E) : Bool → Machine E → Prop
  | accepted {t : Token} {conds : CondStack} (htoken : (m.lexer.step w.ops).2 = some t)
      (hparser : m.parser.step w.setting t = some (.accept conds)) :
      Halts w m true ⟨(m.lexer.step w.ops).1, { m.parser with conds := conds }⟩
  | aborted {t : Token} {conds : CondStack} (htoken : (m.lexer.step w.ops).2 = some t)
      (hparser : m.parser.step w.setting t = some (.abort conds)) :
      Halts w m false ⟨(m.lexer.step w.ops).1, { m.parser with conds := conds }⟩
  | refused {t : Token} {p : Parser} {name : Text} (htoken : (m.lexer.step w.ops).2 = some t)
      (hparser : m.parser.step w.setting t = some (.next p (some (.include name)))) :
      Halts w m false ⟨(m.lexer.step w.ops).1, p⟩

theorem advances_of_step {executed : Option Action} (hstep : m.step w = .next m' executed) :
    m.Advances w executed m' := by
  cases htoken : (m.lexer.step w.ops).2 with
  | none =>
      rw [step_silent htoken] at hstep
      obtain ⟨rfl, rfl⟩ := Turn.next.inj hstep
      exact .silent htoken
  | some t =>
      rw [step_token htoken, feed] at hstep
      split at hstep
      next => exact absurd hstep (by simp)
      next => exact absurd hstep (by simp)
      next => exact absurd hstep (by simp)
      next p hparser =>
        obtain ⟨rfl, rfl⟩ := Turn.next.inj hstep
        exact .shifted htoken hparser
      next p action hparser =>
        cases action with
        | «include» name =>
            rw [execute] at hstep
            split at hstep
            next => exact absurd hstep (by simp)
            next opened lexer hpush =>
              obtain ⟨rfl, rfl⟩ := Turn.next.inj hstep
              obtain ⟨f, rfl, -⟩ := Lexer.includePush_eq_some hpush
              exact .included htoken hparser hpush
        | _ =>
            obtain ⟨rfl, rfl⟩ := Turn.next.inj hstep
            exact .executed htoken hparser (by simp)

theorem halts_of_step {accepted : Bool} (hstep : m.step w = .stop accepted m') :
    m.Halts w accepted m' := by
  cases htoken : (m.lexer.step w.ops).2 with
  | none =>
      rw [step_silent htoken] at hstep
      exact absurd hstep (by simp)
  | some t =>
      rw [step_token htoken, feed] at hstep
      split at hstep
      next => exact absurd hstep (by simp)
      next conds hparser =>
        obtain ⟨rfl, rfl⟩ := Turn.stop.inj hstep
        exact .accepted htoken hparser
      next conds hparser =>
        obtain ⟨rfl, rfl⟩ := Turn.stop.inj hstep
        exact .aborted htoken hparser
      next => exact absurd hstep (by simp)
      next p action hparser =>
        cases action with
        | «include» name =>
            rw [execute] at hstep
            split at hstep
            next =>
              obtain ⟨rfl, rfl⟩ := Turn.stop.inj hstep
              exact .refused htoken hparser
            next => exact absurd hstep (by simp)
        | _ => exact absurd hstep (by simp [execute])

/-- What a step that goes on does to the lexer: one match, and the `include` if there is one. -/
theorem step_next {executed : Option Action} (hstep : m.step w = .next m' executed) :
    m.includes w = none ∧ m'.lexer.current = (m.lexer.step w.ops).1.current ∧
        m'.lexer.saved = (m.lexer.step w.ops).1.saved ∧
        m'.lexer.start = (m.lexer.step w.ops).1.start ∨
      ∃ name f, m.includes w = some name ∧
        (m.lexer.step w.ops).1.includePush w.files name = (some f, some m'.lexer) := by
  unfold includes
  cases advances_of_step hstep with
  | silent htoken => exact Or.inl ⟨by rw [htoken], rfl, rfl, rfl⟩
  | shifted htoken hparser => exact Or.inl ⟨by rw [htoken]; simp only [hparser], rfl, rfl, rfl⟩
  | @included t p name f lexer htoken hparser hpush =>
      exact Or.inr ⟨name, f, by rw [htoken]; simp only [hparser], hpush⟩
  | @executed t p action htoken hparser hplain =>
      refine Or.inl ⟨?_, rfl, rfl, rfl⟩
      rw [htoken]
      simp only [hparser]
      cases action with
      | «include» name => exact absurd rfl (hplain name)
      | _ => rfl

/-- The token that completes an `include` is read from the file of the statement. -/
theorem files_of_includes {name : Text} (hincludes : m.includes w = some name) :
    (m.lexer.step w.ops).1.current.path = m.lexer.current.path ∧
      (m.lexer.step w.ops).1.saved = m.lexer.saved := by
  rcases Lexer.step_cases w.ops m.lexer with
    ⟨-, -, hstep⟩ | ⟨-, l', -, hstep⟩ | ⟨-, hpath, hsaved, -⟩
  · rw [hstep]
    exact ⟨rfl, rfl⟩
  · rw [includes, hstep] at hincludes
    exact absurd hincludes (by simp)
  · exact ⟨hpath, hsaved⟩

theorem step_stop {accepted : Bool} (hstep : m.step w = .stop accepted m') :
    m'.lexer = (m.lexer.step w.ops).1 := by
  cases halts_of_step hstep <;> rfl

/-! ## Distinct paths -/

/-- The paths of the file that is read and of the files on the include stack. -/
def paths (m : Machine E) : List Text := m.lexer.current.path :: m.lexer.saved.map Source.path

/-- The open files have distinct paths. -/
def Distinct (m : Machine E) : Prop := m.paths.Nodup

/-- A match of the lexer leaves the open files, or goes back to the one before. -/
theorem Distinct.match (hdistinct : m.Distinct) :
    Distinct { m with lexer := (m.lexer.step w.ops).1 } := by
  unfold Distinct paths at hdistinct ⊢
  rcases Lexer.step_cases w.ops m.lexer with
    ⟨-, -, hlexer⟩ | ⟨-, l', hpop, hlexer⟩ | ⟨-, hpath, hsame, -⟩
  · rw [hlexer]
    exact hdistinct
  · obtain ⟨source, saved, hcons, rfl⟩ := Lexer.includePop_eq_some hpop
    rw [hlexer]
    rw [hcons, List.map_cons] at hdistinct
    exact (List.nodup_cons.mp hdistinct).2
  · dsimp only
    rw [hpath, hsame]
    exact hdistinct

/-- The step does not include the file that is being read. -/
def IncludesOther (w : World E) (m : Machine E) : Prop :=
  ∀ name ∈ m.includes w, m.includePath name ≠ m.lexer.current.path

instance : DecidablePred (IncludesOther w) := fun m =>
  inferInstanceAs (Decidable (∀ name ∈ m.includes w, _))

/-- A step keeps the paths distinct, unless it includes the file that is being read. -/
theorem Distinct.step (hdistinct : m.Distinct) (hother : m.IncludesOther w)
    {executed : Option Action} (hstep : m.step w = .next m' executed) : m'.Distinct := by
  rcases step_next hstep with ⟨-, hcurrent, hsaved, -⟩ | ⟨name, f, hincludes, hpush⟩
  · have hmatch := hdistinct.match (w := w)
    unfold Distinct paths at hmatch ⊢
    rw [hcurrent, hsaved]
    exact hmatch
  · obtain ⟨hpath, hsaved⟩ := files_of_includes hincludes
    obtain ⟨f', -, hcreate, hfresh, -, hlexer⟩ := Lexer.includePush_eq_some hpush
    have hname : f'.path = m.includePath name := by
      rw [Lexer.fileInfoCreate_path hcreate, hpath]
      rfl
    unfold Distinct paths at hdistinct ⊢
    rw [hlexer]
    dsimp only
    rw [List.map_cons, hpath, hsaved]
    refine List.nodup_cons.mpr ⟨?_, hdistinct⟩
    rw [List.mem_cons, hname]
    rintro (heq | hmem)
    · exact hother name hincludes heq
    · obtain ⟨source, hsource, heq⟩ := List.mem_map.mp hmem
      exact hfresh source (hsaved ▸ hsource) (heq.trans hname.symm)

theorem step_of_includes {name : Text} (hincludes : m.includes w = some name) :
    ∃ p, m.step w = execute w ⟨(m.lexer.step w.ops).1, p⟩ (.include name) := by
  unfold includes at hincludes
  unfold step
  generalize m.lexer.step w.ops = result at hincludes ⊢
  obtain ⟨lexer, t⟩ := result
  dsimp only at hincludes ⊢
  split at hincludes
  next => exact absurd hincludes (by simp)
  next t =>
    split at hincludes
    next p found hparser =>
      obtain rfl := Option.some_inj.mp hincludes
      exact ⟨p, by simp only [feed, hparser]⟩
    next => exact absurd hincludes (by simp)

/-- An `include` of a file on the stack ends the parse before a statement of that file. -/
theorem step_of_onStack {name : Text} (hincludes : m.includes w = some name)
    (honStack : m.includePath name ∈ m.lexer.saved.map Source.path) :
    ∃ m', m.step w = .stop false m' := by
  obtain ⟨p, hstep⟩ := step_of_includes hincludes
  obtain ⟨hpath, hsaved⟩ := files_of_includes hincludes
  rw [hstep, execute]
  split
  next => exact ⟨_, rfl⟩
  next opened lexer hpush =>
    obtain ⟨f, -, hcreate, hfresh, -, -⟩ := Lexer.includePush_eq_some hpush
    obtain ⟨source, hsource, heq⟩ := List.mem_map.mp honStack
    refine absurd ?_ (hfresh source (hsaved ▸ hsource))
    rw [Lexer.fileInfoCreate_path hcreate, hpath, heq]
    rfl

end Machine

/-! ## Sessions -/

/-- Where a file is read, the open files have distinct paths, and so have the files that a
failed parse has left on the include stack. -/
def Session.Distinct : Session E → Prop
  | .idle s => (s.saved.map Source.path).Nodup
  | .reading m => m.Distinct

/-- What happens next opens neither the file that is being read nor a file that a failed parse
has left on the include stack. -/
def Session.OpensOther (w : World E) : Session E → SessionEvent → Prop
  | .idle s, .open path => path ∉ s.saved.map Source.path
  | .idle _, _ => True
  | .reading m, _ => m.IncludesOther w

theorem Session.Distinct.step {s s' : Session E} {event : SessionEvent} (hdistinct : s.Distinct)
    (hother : s.OpensOther w event) (hstep : SessionStep w s event s') : s'.Distinct := by
  cases hstep with
  | missing hfile => exact hdistinct
  | opened hfile =>
      obtain ⟨f, hf, rfl⟩ := Option.map_eq_some_iff.mp hfile
      refine List.nodup_cons.mpr ⟨?_, hdistinct⟩
      rw [Lexer.fileInfoCreate_path hf]
      exact hother
  | read hstep => exact Machine.Distinct.step hdistinct hother hstep
  | @finish m m' accepted hstep =>
      have hmatch := Machine.Distinct.match (w := w) hdistinct
      cases accepted with
      | true => exact List.nodup_nil
      | false =>
          change (m'.lexer.saved.map Source.path).Nodup
          rw [Machine.step_stop hstep]
          exact (List.nodup_cons.mp hmatch).2
  | outside => exact hdistinct

variable {inTask : Bool} {keytab : List Sym} {env : E} {events : List SessionEvent}

/-- In a session in which no file directly includes itself, and none is opened again that a
failed parse has left on the include stack, the open files always have distinct paths, and an
`include` of one of those on the stack ends the parse. -/
theorem run_distinct
    (hrun : Run (fun s event s' => SessionStep w s event s' ∧ s.OpensOther w event)
      (.idle (Statics.init inTask keytab env)) events (.reading m)) :
    m.Distinct ∧ ∀ name, m.includes w = some name →
      m.includePath name ∈ m.lexer.saved.map Source.path → ∃ m', m.step w = .stop false m' := by
  refine ⟨?_, fun name => Machine.step_of_onStack⟩
  have hstart : Session.Distinct (.idle (Statics.init inTask keytab env)) := List.nodup_nil
  exact hrun.invariant Session.Distinct
    (fun s event s' hdistinct hstep => hdistinct.step hstep.2 hstep.1) hstart

/-- A file that includes another one. -/
def includingWorld : World (List (Text × Text)) :=
  jobWorld [("/etc/a".toList, "include b\n".toList), ("/etc/b".toList, "A = 1\n".toList)]

/-- The session in which the other file is read. -/
theorem includingWorld_run :
    ∃ events m, Run (fun s event s' => SessionStep includingWorld s event s' ∧
        s.OpensOther includingWorld event) (.idle (Statics.init false [] [])) events (.reading m) ∧
      m.paths = ["/etc/b".toList, "/etc/a".toList] := by
  have hreach : ∃ m ∈ ((Statics.init false [] []).lexFileInit includingWorld.files
      "/etc/a".toList).bind (·.after includingWorld (fun m => m.IncludesOther includingWorld) 5),
        m.paths = ["/etc/b".toList, "/etc/a".toList] := by decide +kernel
  obtain ⟨m, hafter, hpaths⟩ := hreach
  obtain ⟨events, hrun⟩ := Session.exists_run_of_open (Session.OpensOther includingWorld)
    (fun m event hother => show m.IncludesOther includingWorld from of_decide_eq_true hother)
    (by exact List.not_mem_nil) hafter
  exact ⟨events, m, hrun, hpaths⟩

/-- While the other file is read, two files are open. -/
theorem run_distinct_including :
    ∃ m : Machine (List (Text × Text)),
      m.paths = ["/etc/b".toList, "/etc/a".toList] ∧ m.Distinct := by
  obtain ⟨events, m, hrun, hpaths⟩ := includingWorld_run
  exact ⟨m, hpaths, (run_distinct hrun).1⟩

/-- A file that includes itself. -/
def selfIncludingWorld : World (List (Text × Text)) :=
  jobWorld [("/etc/a".toList, "A = 1\ninclude a\n".toList)]

/-- The file is on the include stack while it is read, and its first statement is executed
twice. -/
theorem selfInclude_executes_twice :
    (∃ events m, Run (SessionStep selfIncludingWorld) (.idle (Statics.init false [] [])) events
        (.reading m) ∧ ¬ m.Distinct) ∧
      ∃ m ∈ (Statics.init false [] []).lexFileInit selfIncludingWorld.files "/etc/a".toList,
        ∃ ending, Machine.Runs selfIncludingWorld m
          [.assign ['A'] ['1'] .assign, .assign ['A'] ['1'] .assign] ending := by
  constructor
  · have hreach : ∃ m ∈ ((Statics.init false [] []).lexFileInit selfIncludingWorld.files
        "/etc/a".toList).bind (·.after selfIncludingWorld (fun _ => true) 13),
          ¬ m.paths.Nodup := by decide +kernel
    obtain ⟨m, hafter, hpaths⟩ := hreach
    obtain ⟨events, hrun⟩ := Session.exists_run_of_open (fun _ _ => True)
      (fun m event hother => trivial) trivial hafter
    exact ⟨events, m, hrun.mono fun _ _ _ hstep => hstep.1, hpaths⟩
  · have hrun : ∃ result ∈ ((Statics.init false [] []).lexFileInit selfIncludingWorld.files
        "/etc/a".toList).bind (·.runFor selfIncludingWorld 40),
          result.1 = [.assign ['A'] ['1'] .assign, .assign ['A'] ['1'] .assign] := by decide +kernel
    obtain ⟨⟨actions, ending⟩, hrun, rfl⟩ := hrun
    obtain ⟨m, hfile, hrun⟩ := Option.bind_eq_some_iff.mp hrun
    exact ⟨m, hfile, ending, Machine.runs_of_runFor hrun⟩

end SlurmSpank.UseEnv
