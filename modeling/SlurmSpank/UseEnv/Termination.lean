import SlurmSpank.UseEnv.IncludeStack

/-! # Parsing ends

The include stack is never deeper than 21, so the number of files that may still be opened
below a file bounds the nesting. While a file is read, the text that is left of it gets
shorter, also over an `include`: the lexer comes back behind the newline that ends it.
-/

namespace SlurmSpank.UseEnv

open Foundation Lib

universe u

variable {E : Type u} {w : World E} {m m' : Machine E}

namespace Parser

/-! ## Tokens that end the parse or open no file -/

variable {setting : Setting} {p p' : Parser} {t : Token} {action : Option Action} {i : Item}

theorem of_fitsAfterTest {marks : List Mark} (hfits : fitsAfterTest marks t = true) :
    t = .and ∨ t = .or ∨ t = .rparen := by
  unfold fitsAfterTest at hfits
  split at hfits
  next => exact Or.inl rfl
  next => exact Or.inr (Or.inl rfl)
  next => exact Or.inr (Or.inr rfl)
  next => exact Or.inr (Or.inr rfl)
  next => exact absurd hfits Bool.false_ne_true

/-- What closes a block, or the file, comes where a statement starts. -/
theorem start_of_fits (ht : t = .endif ∨ t = .rbrace ∨ t = .eof) (hfits : p.fits t = true) :
    p.stmt = .start := by
  obtain ⟨conds, blocks, stmt⟩ := p
  cases stmt with
  | start => rfl
  | tests head tests =>
      obtain ⟨joined, marks, pos⟩ := tests
      cases pos with
      | item x =>
          rcases ht with rfl | rfl | rfl <;>
            · change fitsAfterTest marks _ = true at hfits
              exact absurd (of_fitsAfterTest hfits) (by simp)
      | _ => rcases ht with rfl | rfl | rfl <;> exact absurd hfits Bool.false_ne_true
  | _ => rcases ht with rfl | rfl | rfl <;> exact absurd hfits Bool.false_ne_true

/-- At the end of the last file the parser accepts or aborts. -/
theorem step_eof (setting : Setting) (p p' : Parser) (action : Option Action) :
    p.step setting .eof ≠ some (.next p' action) := by
  intro hstep
  obtain ⟨reduced, hreduce, hstep⟩ := Option.bind_eq_some_iff.mp hstep
  split at hstep
  next hfits =>
    obtain ⟨conds, blocks, stmt⟩ := p
    obtain rfl : stmt = .start := start_of_fits (Or.inr (Or.inr rfl)) hfits
    obtain rfl := Option.some_inj.mp hreduce
    exact absurd hstep (by simp [shift, shiftStart])
  next => exact absurd hstep (by simp [recover])

/-- Nothing is included, if anything is executed. -/
def Plain (action : Option Action) : Prop := ∀ name, action ≠ some (.include name)

/-- No file is included and no statement begins. -/
def Inner (p' : Parser) (action : Option Action) : Prop := Plain action ∧ p'.stmt ≠ .start

theorem plain_of_whenExecuting {conds : CondStack} {given : Option Action}
    (hgiven : Plain given) (haction : whenExecuting conds given = some action) : Plain action := by
  obtain ⟨executing, -, heq⟩ := Option.bind_eq_some_iff.mp haction
  obtain rfl := Option.some_inj.mp heq
  split
  · exact hgiven
  · simp [Plain]

theorem inner_of_next {q : Parser} (hstmt : q.stmt ≠ .start)
    (hnext : some (.next q none) = some (Outcome.next p' action)) : Inner p' action := by
  obtain ⟨rfl, rfl⟩ := Outcome.next.inj (Option.some_inj.mp hnext)
  exact ⟨by simp [Plain], hstmt⟩

theorem inner_of_finish {given : Option (Option Action)}
    (hgiven : ∀ executed, given = some executed → Plain executed)
    (hfinish : p.finish given = some (.next p' action)) : Inner p' action := by
  obtain ⟨executed, hsome, heq⟩ := Option.map_eq_some_iff.mp hfinish
  obtain ⟨rfl, rfl⟩ := Outcome.next.inj heq
  exact ⟨hgiven executed hsome, by simp⟩

theorem inner_of_endTest {head : Head} {joined : Joined} {marks : List Mark} {value : TestResult}
    (hend : p.endTest head joined marks value = some (.next p' action)) : Inner p' action := by
  unfold endTest at hend
  split at hend
  next => exact absurd hend (by simp)
  next =>
    obtain ⟨tests, -, heq⟩ := Option.map_eq_some_iff.mp hend
    exact inner_of_next (by simp) (congrArg some heq)

theorem inner_of_shiftTests {head : Head} {tests : TestsPos}
    (hshift : p.shiftTests setting head tests (.item i) = some (.next p' action)) :
    Inner p' action := by
  obtain ⟨joined, marks, pos⟩ := tests
  cases pos with
  | cmp x cmp =>
      obtain ⟨value, -, hend⟩ := Option.bind_eq_some_iff.mp hshift
      exact inner_of_endTest hend
  | «match» x =>
      obtain ⟨value, -, hend⟩ := Option.bind_eq_some_iff.mp hshift
      exact inner_of_endTest hend
  | defined =>
      obtain ⟨value, -, hend⟩ := Option.bind_eq_some_iff.mp hshift
      exact inner_of_endTest hend
  | _ => exact inner_of_next (by simp) hshift

/-- An item does not finish an `include`, and it is part of a statement. -/
theorem inner_of_step_item (hstep : p.step setting (.item i) = some (.next p' action)) :
    Inner p' action := by
  obtain ⟨⟨conds, blocks, stmt⟩, -, hstep⟩ := Option.bind_eq_some_iff.mp hstep
  split at hstep
  next =>
    cases stmt with
    | print | undefine =>
        exact inner_of_finish (fun _ => plain_of_whenExecuting (by simp [Plain])) hstep
    | itemOp x op =>
        refine inner_of_finish (fun executed hexecuted => ?_) hstep
        unfold envVarSet at hexecuted
        split at hexecuted
        · exact plain_of_whenExecuting (by simp [Plain]) hexecuted
        · obtain rfl := Option.some_inj.mp hexecuted
          simp [Plain]
    | unset =>
        refine inner_of_finish (fun executed hexecuted => ?_) hstep
        unfold envVarUnset at hexecuted
        split at hexecuted
        · exact plain_of_whenExecuting (by simp [Plain]) hexecuted
        · obtain rfl := Option.some_inj.mp hexecuted
          simp [Plain]
    | dump =>
        refine inner_of_finish (fun executed => plain_of_whenExecuting ?_) hstep
        split
        · simp [Plain]
        · split
          · simp [Plain]
          · split <;> simp [Plain]
    | setItem x =>
        refine inner_of_finish (fun executed => plain_of_whenExecuting ?_) hstep
        split
        · cases i.typeInt <;> simp [Plain]
        · simp [Plain]
    | defineAssign x =>
        obtain ⟨defined, hdefined, hnext'⟩ := Option.bind_eq_some_iff.mp hstep
        unfold defineSymbol at hdefined
        split at hdefined
        next =>
          obtain ⟨executed, hexecuted, rfl⟩ := Option.map_eq_some_iff.mp hdefined
          obtain ⟨rfl, rfl⟩ := Outcome.next.inj (Option.some_inj.mp hnext')
          exact ⟨plain_of_whenExecuting (by simp [Plain]) hexecuted, by simp⟩
        next =>
          obtain rfl := Option.some_inj.mp hdefined
          exact absurd hnext' (by simp)
    | tests head tests => exact inner_of_shiftTests hstep
    | headEnd head => cases head <;> exact inner_of_next (by simp) hstep
    | _ => exact inner_of_next (by simp) hstep
  next => exact inner_of_next (by simp) hstep

end Parser

namespace Machine

/-- The parse ends from here. -/
def Ends (w : World E) (m : Machine E) : Prop := ∃ actions ending, Runs w m actions ending

theorem Ends.next {executed : Option Action} (hstep : m.step w = .next m' executed)
    (hends : m'.Ends w) : m.Ends w := by
  obtain ⟨actions, ending, hrun⟩ := hends
  exact ⟨_, _, .next hstep hrun⟩

/-- The token that completes an `include` is taken from the text. -/
theorem rest_of_includes {name : Text} (hincludes : m.includes w = some name) :
    (m.lexer.step w.ops).1.current.rest.length < m.lexer.current.rest.length := by
  unfold includes at hincludes
  split at hincludes
  next => exact absurd hincludes (by simp)
  next t htoken =>
    split at hincludes
    next p found hparser =>
      have hlexer : m.lexer.step w.ops = ((m.lexer.step w.ops).1, some t) := by rw [← htoken]
      refine Lexer.step_shorter w.ops ?_ hlexer ?_
      · intro hrest
        rcases Lexer.step_cases w.ops m.lexer with ⟨-, -, hstep⟩ | ⟨-, l', -, hstep⟩ | ⟨hsome, -⟩
        · rw [hstep] at htoken
          obtain rfl := Option.some_inj.mp htoken
          exact Parser.step_eof _ _ _ _ hparser
        · rw [hstep] at htoken
          exact absurd htoken (by simp)
        · exact hsome hrest
      · rintro i rfl
        exact (Parser.inner_of_step_item hparser).1 found rfl
    next => exact absurd hincludes (by simp)

/-- At the end of the last file the parse ends. -/
theorem eof_of_next {executed : Option Action} (hstep : m.step w = .next m' executed) :
    (m.lexer.step w.ops).2 ≠ some .eof := by
  intro heof
  cases advances_of_step hstep with
  | silent htoken => exact absurd (heof.symm.trans htoken) (by simp)
  | shifted htoken hparser | included htoken hparser _ | executed htoken hparser _ =>
      obtain rfl := Option.some_inj.mp (heof.symm.trans htoken)
      exact Parser.step_eof _ _ _ _ hparser

/-- A step that goes on reads in the same file, with less left to read, or comes back from it,
or includes another file and leaves less of this one. -/
theorem step_cases {executed : Option Action} (hstep : m.step w = .next m' executed) :
    (m'.lexer.saved = m.lexer.saved ∧ m'.lexer.toRead < m.lexer.toRead) ∨
      m.lexer.saved = m'.lexer.current :: m'.lexer.saved ∨
      m.lexer.saved.length ≤ 20 ∧ ∃ source : Source, m'.lexer.saved = source :: m.lexer.saved ∧
        source.rest.length < m.lexer.current.rest.length := by
  rcases step_next hstep with ⟨-, hcurrent, hsaved, hstart⟩ | ⟨name, f, hincludes, hpush⟩
  · rcases Lexer.step_cases w.ops m.lexer with
      ⟨-, -, hlexer⟩ | ⟨-, l', hpop, hlexer⟩ | ⟨-, -, hsame, hread⟩
    · exact absurd (congrArg Prod.snd hlexer) (eof_of_next hstep)
    · obtain ⟨source, saved, hcons, rfl⟩ := Lexer.includePop_eq_some hpop
      rw [hlexer] at hcurrent hsaved
      rw [hcurrent, hsaved]
      exact Or.inr (Or.inl hcons)
    · refine Or.inl ⟨hsaved.trans hsame, ?_⟩
      rw [Lexer.toRead, hcurrent, hstart]
      exact hread
  · obtain ⟨-, hkept⟩ := files_of_includes hincludes
    obtain ⟨f', -, -, -, hdepth, hlexer⟩ := Lexer.includePush_eq_some hpush
    refine Or.inr (Or.inr ⟨hkept ▸ hdepth, _, ?_, rest_of_includes hincludes⟩)
    rw [hlexer]
    exact congrArg _ hkept

/-- A file is read to its end, with the files that it includes, if the parse ends from where
the file is left. The induction is on the files that may still be nested, and on the text. -/
theorem ends_of_return (hreturn : ∀ m' : Machine E,
    m.lexer.saved = m'.lexer.current :: m'.lexer.saved → m'.Ends w) : m.Ends w := by
  induction hnested : 21 - m.lexer.saved.length using Nat.strong_induction_on generalizing m with
  | _ nested ihnested =>
    induction hread : m.lexer.toRead using Nat.strong_induction_on generalizing m with
    | _ toRead ihread =>
      cases hstep : m.step w with
      | crash => exact ⟨_, _, .crash hstep⟩
      | stop accepted m' => exact ⟨_, _, .stop hstep⟩
      | next m' executed =>
          refine Ends.next hstep ?_
          rcases step_cases hstep with ⟨hsaved, hless⟩ | hback | ⟨hdepth, source, hsaved, hrest⟩
          · refine ihread _ (hread ▸ hless) ?_ (by rw [hsaved, hnested]) rfl
            rw [hsaved]
            exact hreturn
          · exact hreturn m' hback
          · refine ihnested _ ?_ ?_ rfl
            · rw [hsaved, List.length_cons]
              omega
            · intro m'' hback
              rw [hsaved] at hback
              obtain ⟨hsource, hlist⟩ := List.cons.inj hback
              refine ihread _ ?_ ?_ (by rw [← hlist, hnested]) rfl
              · rw [← hread, Lexer.toRead, Lexer.toRead, ← hsource]
                split <;> split <;> omega
              · rw [← hlist]
                exact hreturn

/-- Every parse ends. -/
theorem ends (w : World E) (m : Machine E) : m.Ends w := by
  induction hsaved : m.lexer.saved generalizing m with
  | nil => exact ends_of_return fun m' hback => absurd (hsaved ▸ hback) (by simp)
  | cons source saved ih =>
      refine ends_of_return fun m' hback => ih m' ?_
      rw [hsaved] at hback
      exact (List.cons.inj hback).2.symm

/-! ## Open files -/

/-- The file that an `include` opens in the next step, also where the `include` is refused. -/
def opened (w : World E) (m : Machine E) : Option Source :=
  (m.includes w).bind fun name => ((m.lexer.step w.ops).1.includePush w.files name).1

end Machine

theorem Lexer.saved_step_le (ops : EnvOps E) (l : Lexer E) :
    (l.step ops).1.saved.length ≤ l.saved.length := by
  rcases Lexer.step_cases ops l with ⟨-, -, hlexer⟩ | ⟨-, l', hpop, hlexer⟩ | ⟨-, -, hsame, -⟩
  · rw [hlexer]
  · obtain ⟨source, saved, hcons, rfl⟩ := Lexer.includePop_eq_some hpop
    rw [hlexer, hcons]
    exact Nat.le_succ saved.length
  · rw [hsame]

/-- The include stack is not deeper than 21. -/
def Session.Bounded : Session E → Prop
  | .idle s => s.saved.length ≤ 21
  | .reading m => m.lexer.saved.length ≤ 21

theorem Session.Bounded.step {s s' : Session E} {event : SessionEvent} (hbounded : s.Bounded)
    (hstep : SessionStep w s event s') : s'.Bounded := by
  cases hstep with
  | missing hfile => exact hbounded
  | opened hfile =>
      obtain ⟨f, -, rfl⟩ := Option.map_eq_some_iff.mp hfile
      exact hbounded
  | @read m m' executed hstep =>
      change m.lexer.saved.length ≤ 21 at hbounded
      change m'.lexer.saved.length ≤ 21
      rcases Machine.step_cases hstep with ⟨hsaved, -⟩ | hback | ⟨hdepth, source, hsaved, -⟩
      · rw [hsaved]
        exact hbounded
      · rw [hback, List.length_cons] at hbounded
        omega
      · rw [hsaved, List.length_cons]
        omega
  | @finish m m' accepted hstep =>
      change m.lexer.saved.length ≤ 21 at hbounded
      cases accepted with
      | true => exact Nat.zero_le 21
      | false =>
          change m'.lexer.saved.length ≤ 21
          rw [Machine.step_stop hstep]
          exact Nat.le_trans (Lexer.saved_step_le w.ops m.lexer) hbounded
  | outside => exact hbounded

variable {inTask : Bool} {keytab : List Sym} {env : E} {events : List SessionEvent}

end SlurmSpank.UseEnv
