import SlurmSpank.UseEnv.Grammar

/-! # What the condition stack selects

The reference semantics of conditionals picks one branch of each chain. The stack encodes
it in two bits a frame: the frame of the branch says whether it executes, and the frame
below says whether a branch of the running chain was taken. Between statements the top
frame is not in the middle of a chain, which is the invariant all lemmas here carry.
-/

namespace SlurmSpank.UseEnv

/-! ## Reference semantics -/

/-- The truth value of a test. -/
def Test.value : Test → Bool
  | .item value => value
  | .paren test => test.value
  | .not test => !test.value

/-- The truth value of a list of tests. -/
def Tests.value : Tests → Bool
  | .one test => test.value
  | .and tests test => tests.value && test.value
  | .or tests test => tests.value || test.value

mutual

/-- The statements that a context selects, in order: of each chain the first branch whose
test is true, or else the `else` branch. Statements inside an `in task` block are meant for
the task, the others for the job. -/
def Stmts.selected (task inside : Bool) : Stmts → List Nat
  | .nil => []
  | .cons stmt rest => stmt.selected task inside ++ rest.selected task inside

def Stmt.selected (task inside : Bool) : Stmt → List Nat
  | .expr id => if inside = task then [id] else []
  | .ifStmt tests body tail =>
      if tests.value then body.selected task inside else tail.selected task inside
  | .inTask body => body.selected task true
  | .includeFile file => file.selected task inside

def IfTail.selected (task inside : Bool) : IfTail → List Nat
  | .endif => []
  | .else body => body.selected task inside
  | .elseIf tests body tail =>
      if tests.value then body.selected task inside else tail.selected task inside

end

mutual

/-- The statements that a parsing run performs, in order, from a point that is live or not. A
branch is live if its chain is and selects it; an `in task` block is live exactly in the
task, wherever it stands. -/
def Stmts.performed (task live : Bool) : Stmts → List Nat
  | .nil => []
  | .cons stmt rest => stmt.performed task live ++ rest.performed task live

def Stmt.performed (task live : Bool) : Stmt → List Nat
  | .expr id => if live then [id] else []
  | .ifStmt tests body tail =>
      body.performed task (live && tests.value) ++ tail.performed task (live && !tests.value)
  | .inTask body => body.performed task task
  | .includeFile file => if live then file.performed task live else []

def IfTail.performed (task live : Bool) : IfTail → List Nat
  | .endif => []
  | .else body => body.performed task live
  | .elseIf tests body tail =>
      body.performed task (live && tests.value) ++ tail.performed task (live && !tests.value)

end

/-! ## Tests -/

/-- A test has its truth value in a frame that executes, and is false elsewhere. -/
theorem parseTest_cons (c : Cond) (rest : CondStack) (test : Test) :
    parseTest (c :: rest) test = some ((c.val && !c.fallthru) && test.value) := by
  induction test with
  | item value => rfl
  | paren test ih => exact ih
  | not test ih =>
      rw [parseTest, ih, condition_cons]
      cases c.val <;> cases c.fallthru <;> rfl

theorem parseTests_cons (c : Cond) (rest : CondStack) (tests : Tests) :
    parseTests (c :: rest) tests = some ((c.val && !c.fallthru) && tests.value) := by
  induction tests with
  | one test => exact parseTest_cons c rest test
  | and tests test ih =>
      rw [parseTests, ih, parseTest_cons]
      cases c.val <;> cases c.fallthru <;> rfl
  | or tests test ih =>
      rw [parseTests, ih, parseTest_cons]
      cases c.val <;> cases c.fallthru <;> rfl

/-! ## Statements -/

/-- Every finished `if` left the stack as it found it. -/
def Restores (events : List Event) : Prop :=
  ∀ before after, .endif before after ∈ events → after = before

@[simp] theorem restores_nil : Restores [] := by simp [Restores]

@[simp] theorem restores_execute (id : Nat) : Restores [.execute id] := by simp [Restores]

@[simp] theorem restores_endif (stack : CondStack) : Restores [.endif stack stack] := by
  simp only [Restores, List.mem_singleton, Event.endif.injEq]
  rintro before after ⟨rfl, rfl⟩
  rfl

theorem Restores.append {first second : List Event} (hfirst : Restores first)
    (hsecond : Restores second) : Restores (first ++ second) := by
  intro before after hmem
  rcases List.mem_append.mp hmem with hmem | hmem
  · exact hfirst before after hmem
  · exact hsecond before after hmem

@[simp] theorem executed_append (first second : List Event) :
    executed (first ++ second) = executed first ++ executed second :=
  List.filterMap_append

/-- What running statements or the rest of a chain is to do: end on a given stack, execute
the selected statements if the context is live, and restore the stack after each `if`. -/
def RunsTo (result : Option (CondStack × List Event)) (stack : CondStack) (live : Bool)
    (selected : List Nat) : Prop :=
  ∃ events, result = some (stack, events) ∧
    executed events = (if live then selected else []) ∧ Restores events

mutual

/-- The parser performs what is performed from a live or dead frame, whatever lies below. -/
theorem parseStmts_runs (task val : Bool) (rest : CondStack) : ∀ stmts : Stmts,
    RunsTo (parseStmts task stmts (⟨val, false⟩ :: rest)) (⟨val, false⟩ :: rest) true
      (stmts.performed task val)
  | .nil => ⟨[], rfl, rfl, restores_nil⟩
  | .cons stmt more => by
      obtain ⟨events, hstmt, hexec, hrest⟩ := parseStmt_runs task val rest stmt
      obtain ⟨events', hmore, hexec', hrest'⟩ := parseStmts_runs task val rest more
      refine ⟨events ++ events', ?_, ?_, hrest.append hrest'⟩
      · simp [parseStmts, hstmt, hmore]
      · rw [executed_append, hexec, hexec']
        rfl

theorem parseStmt_runs (task val : Bool) (rest : CondStack) : ∀ stmt : Stmt,
    RunsTo (parseStmt task stmt (⟨val, false⟩ :: rest)) (⟨val, false⟩ :: rest) true
      (stmt.performed task val)
  | .expr id => by
      refine ⟨if val then [.execute id] else [], ?_, ?_, ?_⟩
      · cases val <;> rfl
      · cases val <;> rfl
      · cases val
        · exact restores_nil
        · exact restores_execute id
  | .ifStmt tests body tail => by
      -- the frame below the branch records whether the branch was taken
      obtain ⟨events, hbody, hexec, hrest⟩ := parseStmts_runs task (val && tests.value)
        (⟨val, val && tests.value⟩ :: rest) body
      obtain ⟨events', htail, hexec', hrest'⟩ := parseIfTail_runs task
        ⟨val && tests.value, false⟩ val (val && tests.value) rest tail
      refine ⟨events ++ events' ++ [.endif (⟨val, false⟩ :: rest) (⟨val, false⟩ :: rest)], ?_, ?_,
        (hrest.append hrest').append (restores_endif _)⟩
      · simp [parseStmt, parseTests_cons, conditionPushIf_cons, hbody, htail]
      · rw [executed_append, executed_append, hexec, hexec', Stmt.performed]
        cases val <;> cases tests.value <;> simp [executed]
  | .inTask body => by
      obtain ⟨events, hbody, hexec, hrest⟩ := parseStmts_runs task task (⟨val, false⟩ :: rest) body
      exact ⟨events, by simp [parseStmt, hbody], hexec, hrest⟩
  | .includeFile file => by
      cases val with
      | false => exact ⟨[], rfl, rfl, restores_nil⟩
      | true => exact parseStmts_runs task true rest file

theorem parseIfTail_runs (task : Bool) (branch : Cond) (val taken : Bool) (rest : CondStack) :
    ∀ tail : IfTail,
    RunsTo (parseIfTail task tail (branch :: ⟨val, taken⟩ :: rest)) (⟨val, false⟩ :: rest) true
      (tail.performed task (val && !taken))
  | .endif => ⟨[], rfl, rfl, restores_nil⟩
  | .else body => by
      obtain ⟨events, hbody, hexec, hrest⟩ := parseStmts_runs task (val && !taken)
        (⟨val, taken⟩ :: rest) body
      refine ⟨events, ?_, hexec, hrest⟩
      simp [parseIfTail, conditionPushElse_cons, hbody, conditionPopEndif_cons]
  | .elseIf tests body tail => by
      obtain ⟨value, hvalue⟩ : ∃ value, value = (val && !taken && tests.value) := ⟨_, rfl⟩
      obtain ⟨events, hbody, hexec, hrest⟩ := parseStmts_runs task value
        (⟨val, taken || value⟩ :: rest) body
      obtain ⟨events', htail, hexec', hrest'⟩ := parseIfTail_runs task
        ⟨value, false⟩ val (taken || value) rest tail
      refine ⟨events ++ events', ?_, ?_, hrest.append hrest'⟩
      · have hpush := conditionPushElseIf_cons ⟨val, taken⟩ rest value (by simp_all)
        simp [parseIfTail, parseTests_cons, ← hvalue, hpush, hbody, htail]
      · rw [executed_append, hexec, hexec', IfTail.performed, hvalue]
        cases val <;> cases taken <;> cases tests.value <;> rfl

end

/-- The run over a file starts live on the job side and dead in the task. -/
theorem useEnvParse_runs (task : Bool) (file : Stmts) :
    RunsTo (useEnvParse task file) (conditionInit task) true (file.performed task (!task)) := by
  cases task
  · exact parseStmts_runs false true [] file
  · exact parseStmts_runs true false [] file

mutual

/-- Without `in task` blocks a live point performs what is selected, and a dead one nothing. -/
theorem Stmts.performed_plain (task live : Bool) : ∀ stmts : Stmts, stmts.Plain →
    stmts.performed task live = if live then stmts.selected false false else []
  | .nil, _ => by cases live <;> rfl
  | .cons stmt more, hplain => by
      rw [Stmts.performed, Stmt.performed_plain task live stmt hplain.1,
        Stmts.performed_plain task live more hplain.2]
      cases live <;> rfl

theorem Stmt.performed_plain (task live : Bool) : ∀ stmt : Stmt, stmt.Plain →
    stmt.performed task live = if live then stmt.selected false false else []
  | .expr id, _ => rfl
  | .ifStmt tests body tail, hplain => by
      rw [Stmt.performed, Stmts.performed_plain _ _ body hplain.1,
        IfTail.performed_plain _ _ tail hplain.2, Stmt.selected]
      cases live <;> cases tests.value <;> simp
  | .includeFile file, hplain => by
      rw [Stmt.performed, Stmts.performed_plain _ _ file hplain, Stmt.selected]
      cases live <;> rfl

theorem IfTail.performed_plain (task live : Bool) : ∀ tail : IfTail, tail.Plain →
    tail.performed task live = if live then tail.selected false false else []
  | .endif, _ => by cases live <;> rfl
  | .else body, hplain => Stmts.performed_plain task live body hplain
  | .elseIf tests body tail, hplain => by
      rw [IfTail.performed, Stmts.performed_plain _ _ body hplain.1,
        IfTail.performed_plain _ _ tail hplain.2, IfTail.selected]
      cases live <;> cases tests.value <;> simp

end

theorem RunsTo.of_performed {result : Option (CondStack × List Event)} {stack : CondStack}
    {live : Bool} {performed selected : List Nat} (hruns : RunsTo result stack true performed)
    (heq : performed = if live then selected else []) : RunsTo result stack live selected := by
  obtain ⟨events, hresult, hexec, hrest⟩ := hruns
  exact ⟨events, hresult, hexec.trans heq, hrest⟩

/-- Without `in task` blocks the parser executes what the reference semantics selects, on
the job side; in task context, as in any context that does not execute, it executes nothing.
Tests are false where nothing executes or a branch was taken, and an `if` or `else if` with
such a test changes no frame below its own. -/
theorem useEnvParse_plain (task : Bool) (file : Stmts) (hplain : file.Plain) :
    RunsTo (useEnvParse task file) (conditionInit task) (!task) (file.selected false false) ∧
    (∀ val rest, RunsTo (parseStmts task file (⟨val, false⟩ :: rest)) (⟨val, false⟩ :: rest) val
      (file.selected false false)) ∧
    ∀ (c : Cond) (rest : CondStack) (tests : Tests),
      parseTests (c :: rest) tests = some ((c.val && !c.fallthru) && tests.value) ∧
      (c.val = false ∨ c.fallthru = true →
        parseTests (c :: rest) tests = some false ∧
        conditionPushIf false (c :: rest) = some (⟨false, false⟩ :: c :: rest) ∧
        ∀ value, conditionPushElseIf value (c :: rest) = some (⟨false, false⟩ :: c :: rest)) := by
  refine ⟨?_, fun val rest => ?_, fun c rest tests => ?_⟩
  · exact (useEnvParse_runs task file).of_performed (file.performed_plain _ _ hplain)
  · exact (parseStmts_runs task val rest file).of_performed (file.performed_plain _ _ hplain)
  · refine ⟨parseTests_cons c rest tests, fun hidle => ?_⟩
    have hfalse : (c.val && !c.fallthru) = false := by
      rcases hidle with hval | hfall
      · simp [hval]
      · simp [hfall]
    refine ⟨by rw [parseTests_cons, hfalse]; rfl, rfl, fun value => ?_⟩
    exact conditionPushElseIf_idle c rest value hfalse

/-- The nested chains of the shipped test file, with a statement in each branch. -/
def nestedChains : Stmts :=
  .cons (.ifStmt (.one (.item false)) (.cons (.expr 1) .nil)
    (.elseIf (.one (.item true))
      (.cons (.ifStmt (.one (.item true)) (.cons (.expr 2) .nil)
        (.elseIf (.one (.item false)) (.cons (.expr 3) .nil) (.else (.cons (.expr 4) .nil)))) .nil)
      (.else (.cons (.expr 5) .nil)))) .nil

theorem useEnvParse_plain_nestedChains :
    RunsTo (useEnvParse false nestedChains) [⟨true, false⟩] true [2] :=
  (useEnvParse_plain false nestedChains (by simp [nestedChains, Stmts.Plain, Stmt.Plain,
    IfTail.Plain])).1

end SlurmSpank.UseEnv
