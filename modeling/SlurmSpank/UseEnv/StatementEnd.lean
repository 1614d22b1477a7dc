import SlurmSpank.UseEnv.ParserSafety
import SlurmSpank.UseEnv.Termination

/-! # Statements that are broken off

What the parser does at the end of a line, of a block or of the text in the middle of a
statement.
-/

namespace SlurmSpank.UseEnv

/-- Something has been read of the statement, and a newline ends it. An `include` is executed
there, and some newlines belong to the head of a block. -/
def StmtPos.Pending : StmtPos → Prop
  | .start | .include | .includeItem _ | .headEnd .if | .else | .inTask => False
  | _ => True

/-- The statement is no `include`. -/
def StmtPos.NotInclude : StmtPos → Prop
  | .include | .includeItem _ => False
  | _ => True

/-- The parser aborts, or it goes on with a statement, in the same blocks. -/
def Outcome.Pends (p : Parser) : Outcome → Prop
  | .next p' _ => p'.stmt.Pending ∧ p'.blocks = p.blocks ∧ p.conds.length ≤ p'.conds.length
  | .abort _ => True
  | .accept _ => False

theorem StmtPos.Pending.ne_start {stmt : StmtPos} (hpending : stmt.Pending) : stmt ≠ .start := by
  rintro rfl
  exact hpending

theorem StmtPos.Pending.ne_inTask {stmt : StmtPos} (hpending : stmt.Pending) :
    stmt ≠ .inTask := by
  rintro rfl
  exact hpending

namespace Parser

variable {setting : Setting} {p : Parser} {t : Token}

/-- A token that does not fit is an error, whatever has been reduced before it. -/
theorem step_of_misfit (hinTask : p.stmt ≠ .inTask) (hpos : 0 < p.conds.length)
    (hfits : p.fits t = false) : p.step setting t = some (p.recover t) := by
  by_cases htests : ∃ head tests, p.stmt = .tests head tests
  · obtain ⟨head, tests, hstmt⟩ := htests
    obtain ⟨tests', hreduce, -, -⟩ := @reduce_tests setting p hpos head tests hstmt t
    rw [step, hreduce, hfits]
    cases t <;> rfl
  · rw [step, reduce_eq_self htests hinTask, hfits]
    rfl

/-- A newline in the middle of a statement ends it. -/
theorem step_newline (hpending : p.stmt.Pending) (hpos : 0 < p.conds.length) :
    p.step setting .newline = some (.next { p with stmt := .start } none) := by
  by_cases hfits : p.fits .newline = true
  · obtain ⟨conds, blocks, stmt⟩ := p
    cases stmt with
    | recovering | ended => rfl
    | headEnd head =>
        cases head with
        | «if» => exact hpending.elim
        | elseIf => rfl
    | tests head tests =>
        obtain ⟨joined, marks, pos⟩ := tests
        cases pos with
        | item x =>
            change fitsAfterTest marks _ = true at hfits
            exact absurd (of_fitsAfterTest hfits) (by simp)
        | _ => exact absurd hfits Bool.false_ne_true
    | start | «include» | includeItem x | «else» | inTask => exact hpending.elim
    | _ => exact absurd hfits Bool.false_ne_true
  · exact step_of_misfit hpending.ne_inTask hpos (Bool.eq_false_iff.mpr hfits)

/-- What closes a block does not end a statement. -/
theorem step_closer (hstart : p.stmt ≠ .start) (hinTask : p.stmt ≠ .inTask)
    (hpos : 0 < p.conds.length) (ht : t = .endif ∨ t = .rbrace) :
    p.step setting t = some (.next { p with stmt := .recovering } none) := by
  have hfits : p.fits t = false := by
    by_contra hfits
    refine hstart (start_of_fits ?_ (Bool.eq_true_of_not_eq_false hfits))
    exact ht.imp_right Or.inl
  rw [step_of_misfit hinTask hpos hfits]
  rcases ht with rfl | rfl <;> rfl

/-- The parser aborts where the text ends in a statement. -/
theorem step_eof_abort (hstart : p.stmt ≠ .start) (hpos : 0 < p.conds.length) :
    ∃ conds, p.step setting .eof = some (.abort conds) := by
  by_cases hinTask : p.stmt = .inTask
  · obtain ⟨conds, blocks, stmt⟩ := p
    obtain rfl : stmt = .inTask := hinTask
    exact ⟨_, rfl⟩
  · have hfits : p.fits .eof = false := by
      by_contra hfits
      exact hstart (start_of_fits (Or.inr (Or.inr rfl)) (Bool.eq_true_of_not_eq_false hfits))
    exact ⟨_, step_of_misfit hinTask hpos hfits⟩

theorem finish_pends {action : Option (Option Action)} (haction : ∃ result, action = some result) :
    ∃ outcome, p.finish action = some outcome ∧ outcome.Pends p := by
  obtain ⟨result, rfl⟩ := haction
  exact ⟨_, rfl, trivial, rfl, Nat.le_refl _⟩

theorem endTest_pends (hpos : 0 < p.conds.length) (head : Head) (joined : Joined)
    (marks : List Mark) (value : TestResult) :
    ∃ outcome, p.endTest head joined marks value = some outcome ∧ outcome.Pends p := by
  cases value with
  | none => exact ⟨_, rfl, trivial⟩
  | some value =>
      obtain ⟨tests', htests⟩ := closeTest_of_pos hpos joined marks value
      refine ⟨p.goto (.tests head tests'), ?_, trivial, rfl, Nat.le_refl _⟩
      rw [endTest, htests]
      rfl

theorem shiftTests_pends (hpos : 0 < p.conds.length) (head : Head) {tests : TestsPos} {i : Item}
    (hfits : tests.fits (.item i) = true) :
    ∃ outcome, p.shiftTests setting head tests (.item i) = some outcome ∧ outcome.Pends p := by
  obtain ⟨joined, marks, pos⟩ := tests
  cases pos with
  | expect => exact ⟨_, rfl, trivial, rfl, Nat.le_refl _⟩
  | item x =>
      change fitsAfterTest marks _ = true at hfits
      exact absurd (of_fitsAfterTest hfits) (by simp)
  | cmp x cmp =>
      obtain ⟨value, hvalue⟩ := @cmpItems_of_pos setting p.conds hpos cmp x i
      obtain ⟨outcome, houtcome, hpends⟩ := endTest_pends hpos head joined marks value
      exact ⟨outcome, by simp only [shiftTests, hvalue]; exact houtcome, hpends⟩
  | «match» x =>
      obtain ⟨value, hvalue⟩ := @doFnmatch_of_pos setting p.conds hpos i x
      obtain ⟨outcome, houtcome, hpends⟩ := endTest_pends hpos head joined marks (some value)
      exact ⟨outcome, by simp only [shiftTests, hvalue]; exact houtcome, hpends⟩
  | defined =>
      obtain ⟨value, hvalue⟩ := itemDefined_of_pos hpos i
      obtain ⟨outcome, houtcome, hpends⟩ := endTest_pends hpos head joined marks value
      exact ⟨outcome, by simp only [shiftTests, hvalue]; exact houtcome, hpends⟩
  | inner value | done value => exact absurd hfits Bool.false_ne_true

/-- Where an item fits, it is part of a statement. -/
theorem shift_item_pends (hinclude : p.stmt ≠ .include) (hpos : 0 < p.conds.length) {i : Item}
    (hfits : p.fits (.item i) = true) :
    ∃ outcome, p.shift setting (.item i) = some outcome ∧ outcome.Pends p := by
  obtain ⟨conds, blocks, stmt⟩ := p
  cases stmt with
  | start | set | define => exact ⟨_, rfl, trivial, rfl, Nat.le_refl _⟩
  | «include» => exact absurd rfl hinclude
  | print | undefine | dump | setItem x => exact finish_pends (whenExecuting_of_pos hpos _)
  | itemOp x op =>
      refine finish_pends ?_
      unfold envVarSet
      split
      · exact whenExecuting_of_pos hpos _
      · exact ⟨_, rfl⟩
  | unset =>
      refine finish_pends ?_
      unfold envVarUnset
      split
      · exact whenExecuting_of_pos hpos _
      · exact ⟨_, rfl⟩
  | defineAssign x =>
      obtain ⟨action, haction⟩ := whenExecuting_of_pos hpos (some (.define x.name i.str))
      by_cases hvalid : isValidIdentifier x.name = true
      · refine ⟨.next ⟨conds, blocks, .ended⟩ action, ?_, trivial, rfl, Nat.le_refl _⟩
        simp [shift, defineSymbol, hvalid, haction]
      · refine ⟨.abort conds, ?_, trivial⟩
        simp [shift, defineSymbol, hvalid]
  | tests head tests => exact shiftTests_pends hpos head hfits
  | _ => exact absurd hfits Bool.false_ne_true

/-- No operand begins in a test. -/
theorem not_tests_fits (ht : t = .print ∨ t = .include ∨ ∃ op, t = .setOp op) (tests : TestsPos) :
    ¬ tests.fits t = true := by
  obtain ⟨joined, marks, pos⟩ := tests
  intro hfits
  cases pos with
  | item x =>
      rcases ht with rfl | rfl | ⟨op, rfl⟩ <;>
        · change fitsAfterTest marks _ = true at hfits
          exact absurd (of_fitsAfterTest hfits) (by simp)
  | _ => rcases ht with rfl | rfl | ⟨op, rfl⟩ <;> exact absurd hfits Bool.false_ne_true

/-- An item does not end the statement, and neither does what an operand follows. -/
theorem step_pends (hinclude : p.stmt ≠ .include) (hpos : 0 < p.conds.length)
    (ht : (∃ i, t = .item i) ∨ t = .print ∨ (t = .include ∧ p.stmt ≠ .start) ∨
      ∃ op, t = .setOp op) :
    ∃ outcome, p.step setting t = some outcome ∧ outcome.Pends p := by
  by_cases hinTask : p.stmt = .inTask
  · obtain ⟨conds, blocks, stmt⟩ := p
    obtain rfl : stmt = .inTask := hinTask
    rcases ht with ⟨i, rfl⟩ | rfl | ⟨rfl, -⟩ | ⟨op, rfl⟩ <;>
      exact ⟨_, rfl, trivial, rfl, Nat.le_succ conds.length⟩
  by_cases hfits : p.fits t = true
  · rcases ht with ⟨i, rfl⟩ | rfl | ⟨rfl, hstart⟩ | ⟨op, rfl⟩
    · by_cases htests : ∃ head tests, p.stmt = .tests head tests
      · obtain ⟨head, tests, hstmt⟩ := htests
        obtain ⟨tests', hreduce, -, hsame⟩ :=
          @reduce_tests setting p hpos head tests hstmt (.item i)
        have hpfits : p.fits (.item i) = tests.fits (.item i) := by simp only [fits, hstmt]
        obtain ⟨outcome, houtcome, hpends⟩ := @shiftTests_pends setting
          { p with stmt := .tests head tests' } hpos head tests' i (by rw [hsame, ← hpfits, hfits])
        refine ⟨outcome, ?_, hpends⟩
        rw [step, hreduce, Option.bind_eq_bind, Option.bind_some, if_pos hfits]
        exact houtcome
      · rw [step, reduce_eq_self htests hinTask, Option.bind_eq_bind, Option.bind_some,
          if_pos hfits]
        exact shift_item_pends hinclude hpos hfits
    · obtain ⟨conds, blocks, stmt⟩ := p
      cases stmt with
      | start => exact ⟨_, rfl, trivial, rfl, Nat.le_refl _⟩
      | tests head tests => exact absurd hfits (not_tests_fits (Or.inl rfl) tests)
      | _ => exact absurd hfits Bool.false_ne_true
    · obtain ⟨conds, blocks, stmt⟩ := p
      cases stmt with
      | start => exact absurd rfl hstart
      | tests head tests => exact absurd hfits (not_tests_fits (Or.inr (Or.inl rfl)) tests)
      | _ => exact absurd hfits Bool.false_ne_true
    · obtain ⟨conds, blocks, stmt⟩ := p
      cases stmt with
      | item x => exact ⟨_, rfl, trivial, rfl, Nat.le_refl _⟩
      | defineItem x =>
          cases op with
          | assign => exact ⟨_, rfl, trivial, rfl, Nat.le_refl _⟩
          | _ => exact absurd hfits Bool.false_ne_true
      | tests head tests => exact absurd hfits (not_tests_fits (Or.inr (Or.inr ⟨op, rfl⟩)) tests)
      | _ => exact absurd hfits Bool.false_ne_true
  · rw [step_of_misfit hinTask hpos (Bool.eq_false_iff.mpr hfits)]
    rcases ht with ⟨i, rfl⟩ | rfl | ⟨rfl, -⟩ | ⟨op, rfl⟩ <;>
      exact ⟨_, rfl, trivial, rfl, Nat.le_refl _⟩

/-! ## Steps that execute a statement -/

/-- Nothing is executed. -/
def Silent (result : Option Outcome) : Prop :=
  ∀ p' action, result ≠ some (.next p' (some action))

theorem silent_next (p : Parser) : Silent (some (.next p none)) := by simp [Silent]

theorem silent_recover (p : Parser) (t : Token) : Silent (some (p.recover t)) := by
  unfold recover
  split <;> simp [Silent, goto]

theorem silent_bind {α : Type} (x : Option α) {f : α → Option Outcome}
    (hsilent : ∀ a, Silent (f a)) : Silent (x >>= f) := by
  cases x with
  | none => simp [Silent]
  | some a => exact hsilent a

theorem silent_endTest (p : Parser) (head : Head) (joined : Joined) (marks : List Mark)
    (value : TestResult) : Silent (p.endTest head joined marks value) := by
  unfold endTest
  split
  next => simp [Silent]
  next value =>
    cases closeTest p.conds joined marks value with
    | none => simp [Silent]
    | some tests => exact silent_next _

theorem silent_shiftStart (p : Parser) (t : Token) : Silent (p.shiftStart t) := by
  cases t with
  | endif => exact silent_bind _ fun _ => silent_next _
  | eof => simp [Silent, shiftStart]
  | comma | cmp _ | and | or | defined | «match» | bang | lparen | rparen | lbrace | setOp _ =>
      exact silent_recover p _
  | _ => exact silent_next _

theorem silent_shiftTests (hitem : ∀ i, t ≠ .item i) (head : Head) (tests : TestsPos) :
    Silent (p.shiftTests setting head tests t) := by
  unfold shiftTests
  dsimp only
  split
  case h_7 | h_8 | h_9 => exact absurd rfl (hitem _)
  case h_10 => exact silent_endTest p head _ _ _
  case h_13 => cases head <;> exact silent_bind _ fun _ => silent_next _
  case h_14 => exact silent_recover p _
  all_goals exact silent_next _

theorem silent_shift (hitem : ∀ i, t ≠ .item i) (hinclude : ∀ x, p.stmt ≠ .includeItem x) :
    Silent (p.shift setting t) := by
  unfold shift
  split
  case h_1 => exact silent_shiftStart p _
  case h_8 hstmt => exact absurd hstmt (hinclude _)
  case h_20 => exact silent_shiftTests hitem _ _
  case h_23 => exact silent_bind _ fun _ => silent_next _
  case h_27 => exact silent_recover p _
  all_goals first | exact silent_next _ | exact absurd rfl (hitem _)

theorem not_includeItem_of_reduce (hinclude : ∀ x, p.stmt ≠ .includeItem x) {reduced : Parser}
    (hreduce : p.reduce setting t = some reduced) : ∀ x, reduced.stmt ≠ .includeItem x := by
  unfold reduce at hreduce
  split at hreduce
  case h_3 =>
    obtain ⟨value, -, hclose⟩ := Option.bind_eq_some_iff.mp hreduce
    obtain ⟨tests, -, heq⟩ := Option.bind_eq_some_iff.mp hclose
    obtain rfl := Option.some_inj.mp heq
    simp
  case h_5 =>
    obtain rfl := Option.some_inj.mp hreduce
    simp
  all_goals
    obtain rfl := Option.some_inj.mp hreduce
    exact hinclude

/-- Only an item executes a statement, where no `include` is being read. -/
theorem silent_step (hitem : ∀ i, t ≠ .item i) (hinclude : ∀ x, p.stmt ≠ .includeItem x) :
    Silent (p.step setting t) := by
  intro p' action hstep
  obtain ⟨reduced, hreduce, hstep⟩ := Option.bind_eq_some_iff.mp hstep
  split at hstep
  next => exact silent_shift hitem (not_includeItem_of_reduce hinclude hreduce) p' action hstep
  next => exact silent_recover reduced t p' action hstep

end Parser

end SlurmSpank.UseEnv
