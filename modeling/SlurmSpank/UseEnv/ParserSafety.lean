import SlurmSpank.UseEnv.Parser

/-! # The condition stack does not run empty

Every open block owns a frame above the first one. The rules of `if` and `in task` push
before their block is open, and the rule of `else if` pops its frame before it pushes
another, so a syntax error there leaves the stack one frame too high or too low. Too low is
what the parser does not survive.
-/

namespace SlurmSpank.UseEnv

/-! ## Frames and blocks -/

/-- The frames that a statement has pushed for a block that is not open yet. -/
def StmtPos.pushed : StmtPos → Nat
  | .headEnd .if | .inTaskHead => 1
  | _ => 0

/-- The frames that a statement has popped from a block that is still open. -/
def StmtPos.popped : StmtPos → Nat
  | .ifStart .elseIf | .tests .elseIf _ => 1
  | _ => 0

/-- The statement goes on with a chain whose branch is still open. -/
def StmtPos.chained : StmtPos → Bool
  | .else | .ifStart .elseIf | .tests .elseIf _ | .headEnd .elseIf => true
  | _ => false

/-- There are frames enough for the blocks. -/
structure Parser.Safe (p : Parser) : Prop where
  frames : p.blocks.length + 1 + p.stmt.pushed ≤ p.conds.length + p.stmt.popped
  chain : p.stmt.chained = true → p.blocks ≠ []

/-- An outcome after which a parse that goes on is in a state with the property. -/
def Outcome.Holds (P : Parser → Prop) : Outcome → Prop
  | .next p _ => P p
  | .accept _ | .abort _ => True

/-- A step that does not access an empty stack, with what holds after it. -/
def Returns (P : Parser → Prop) (result : Option Outcome) : Prop :=
  ∃ outcome, result = some outcome ∧ outcome.Holds P

namespace Parser

variable {setting : Setting} {P : Parser → Prop} {p : Parser} {t : Token}

theorem returns_some {outcome : Outcome} (hholds : outcome.Holds P) :
    Returns P (some outcome) := ⟨outcome, rfl, hholds⟩

theorem Safe.popped_le_one (stmt : StmtPos) : stmt.popped ≤ 1 := by
  unfold StmtPos.popped
  split <;> decide

theorem Safe.pos (hsafe : p.Safe) : 0 < p.conds.length := by
  have hframes := hsafe.frames
  have hpopped := Safe.popped_le_one p.stmt
  have hchain : p.stmt.popped = 1 → 0 < p.blocks.length := by
    intro hone
    refine List.length_pos_iff.mpr (hsafe.chain ?_)
    revert hone
    unfold StmtPos.popped
    split
    next heq => intro _; rw [heq]; rfl
    next heq => intro _; rw [heq]; rfl
    next => intro hzero; exact absurd hzero (by decide)
  omega

/-- The parser may go on with a statement that has moved no frame. -/
theorem Safe.goto (hsafe : p.Safe) (hpopped : p.stmt.popped = 0) {stmt : StmtPos}
    (hpushed : stmt.pushed = 0) (hchained : stmt.chained = false) :
    ({ p with stmt := stmt } : Parser).Safe where
  frames := by
    have hframes := hsafe.frames
    dsimp only
    omega
  chain := by simp [hchained]

theorem returns_goto (hsafe : p.Safe) (hpopped : p.stmt.popped = 0) {stmt : StmtPos}
    (hpushed : stmt.pushed = 0) (hchained : stmt.chained = false) :
    Returns Safe (some (p.goto stmt)) :=
  returns_some (hsafe.goto hpopped hpushed hchained)

/-- An error where no frame is missing is recovered from. -/
theorem recover_returns (hsafe : p.Safe) (hpopped : p.stmt.popped = 0) (t : Token) :
    Returns Safe (some (p.recover t)) := by
  unfold recover
  split
  · exact returns_some trivial
  · exact returns_goto hsafe hpopped rfl rfl
  · exact returns_goto hsafe hpopped rfl rfl
  · exact returns_goto hsafe hpopped rfl rfl

theorem whenExecuting_of_pos {conds : CondStack} (hpos : 0 < conds.length)
    (action : Option Action) : ∃ result, whenExecuting conds action = some result := by
  obtain ⟨executing, hexecuting⟩ := condition_of_pos hpos
  exact ⟨_, by rw [whenExecuting, hexecuting]; rfl⟩

/-- A statement whose last item has come ends. -/
theorem finish_returns (hsafe : p.Safe) (hpopped : p.stmt.popped = 0)
    {action : Option (Option Action)} (haction : ∃ result, action = some result) :
    Returns Safe (p.finish action) := by
  obtain ⟨result, rfl⟩ := haction
  exact returns_some (hsafe.goto hpopped rfl rfl)

theorem shiftStart_returns (hsafe : p.Safe) (hstart : p.stmt = .start)
    (hfits : fitsStart p.blocks t = true) : Returns Safe (p.shiftStart t) := by
  have hpopped : p.stmt.popped = 0 := by rw [hstart]; rfl
  have hframes := hsafe.frames
  rw [hstart] at hframes
  have hbelow : p.blocks ≠ [] → 2 ≤ p.conds.length := by
    intro hblocks
    have hpos := List.length_pos_iff.mpr hblocks
    change p.blocks.length + 1 + 0 ≤ p.conds.length + 0 at hframes
    omega
  have hhead : ∀ block, p.blocks.head? = some block → p.blocks ≠ [] := by
    intro block hblock hnil
    simp [hnil] at hblock
  cases t with
  | «else» =>
      refine returns_some ⟨?_, ?_⟩
      · change p.blocks.length + 1 + 0 ≤ p.conds.length + 0
        exact hframes
      · intro _
        exact hhead _ (of_decide_eq_true hfits)
  | endif =>
      have hblocks : p.blocks ≠ [] := by
        rcases Bool.or_eq_true_iff.mp hfits with hbranch | hbranch
        · exact hhead _ (of_decide_eq_true hbranch)
        · exact hhead _ (of_decide_eq_true hbranch)
      obtain ⟨rv, conds, hpop, hlength⟩ := conditionPopEndif_length (hbelow hblocks)
      refine ⟨_, by rw [shiftStart, hpop]; rfl, ?_⟩
      refine ⟨?_, by simp [StmtPos.chained]⟩
      have htail := List.length_tail (l := p.blocks)
      change p.blocks.length + 1 + 0 ≤ p.conds.length + 0 at hframes
      change p.blocks.tail.length + 1 + 0 ≤ conds.length + 0
      have hpos := List.length_pos_iff.mpr hblocks
      omega
  | rbrace =>
      have hblocks : p.blocks ≠ [] := hhead _ (of_decide_eq_true hfits)
      have hlength := conditionPop_length hsafe.pos
      refine returns_some ⟨?_, by simp [StmtPos.chained]⟩
      have htail := List.length_tail (l := p.blocks)
      change p.blocks.length + 1 + 0 ≤ p.conds.length + 0 at hframes
      change p.blocks.tail.length + 1 + 0 ≤ (conditionPop p.conds).2.length + 0
      have hpos := List.length_pos_iff.mpr hblocks
      omega
  | eof => exact returns_some trivial
  | comma | cmp _ | and | or | defined | «match» | bang | lparen | rparen | lbrace | setOp _ =>
      exact recover_returns hsafe hpopped _
  | _ => exact returns_goto hsafe hpopped rfl rfl

/-! ## Tests -/

theorem closeTest_of_pos {conds : CondStack} (hpos : 0 < conds.length) (joined : Joined)
    (marks : List Mark) (value : Bool) :
    ∃ tests, closeTest conds joined marks value = some tests := by
  induction marks generalizing value with
  | nil => exact ⟨_, rfl⟩
  | cons mark marks ih =>
      cases mark with
      | paren => exact ⟨_, rfl⟩
      | bang =>
          obtain ⟨executing, hexecuting⟩ := condition_of_pos hpos
          obtain ⟨tests, htests⟩ := ih (if executing then !value else false)
          exact ⟨tests, by rw [closeTest, hexecuting]; exact htests⟩

/-- Within a list of tests no frame moves. -/
theorem Safe.tests (hsafe : p.Safe) {head : Head} {tests : TestsPos}
    (hstmt : p.stmt = .tests head tests) (tests' : TestsPos) :
    ({ p with stmt := .tests head tests' } : Parser).Safe := by
  obtain ⟨hframes, hchain⟩ := hsafe
  rw [hstmt] at hframes hchain
  cases head <;> exact ⟨hframes, hchain⟩

theorem endTest_returns (hsafe : p.Safe) {head : Head} {tests : TestsPos}
    (hstmt : p.stmt = .tests head tests) (joined : Joined) (marks : List Mark)
    (value : TestResult) : Returns Safe (p.endTest head joined marks value) := by
  cases value with
  | none => exact returns_some trivial
  | some value =>
      obtain ⟨tests', htests⟩ := closeTest_of_pos hsafe.pos joined marks value
      refine ⟨p.goto (.tests head tests'), ?_, hsafe.tests hstmt tests'⟩
      rw [endTest, htests]
      rfl

theorem cmpItems_of_pos {conds : CondStack} (hpos : 0 < conds.length) (cmp : Cmp) (x y : Item) :
    ∃ value, cmpItems setting conds cmp x y = some value := by
  obtain ⟨executing, hexecuting⟩ := condition_of_pos hpos
  exact ⟨_, by rw [cmpItems, hexecuting]; rfl⟩

theorem doFnmatch_of_pos {conds : CondStack} (hpos : 0 < conds.length) (x y : Item) :
    ∃ value, doFnmatch setting conds x y = some value := by
  obtain ⟨executing, hexecuting⟩ := condition_of_pos hpos
  exact ⟨_, by rw [doFnmatch, hexecuting]; rfl⟩

theorem testItem_of_pos {conds : CondStack} (hpos : 0 < conds.length) (x : Item) :
    ∃ value, testItem conds x = some value := by
  obtain ⟨executing, hexecuting⟩ := condition_of_pos hpos
  exact ⟨_, by rw [testItem, hexecuting]; rfl⟩

theorem itemDefined_of_pos {conds : CondStack} (hpos : 0 < conds.length) (x : Item) :
    ∃ value, itemDefined conds x = some value := by
  obtain ⟨executing, hexecuting⟩ := condition_of_pos hpos
  unfold itemDefined
  split
  · exact ⟨_, rfl⟩
  · exact ⟨_, rfl⟩
  · exact ⟨_, by rw [hexecuting]; rfl⟩

/-- The closing parenthesis of the tests pushes the frame of the branch. -/
theorem headEnd_returns (hsafe : p.Safe) {head : Head} {tests : TestsPos}
    (hstmt : p.stmt = .tests head tests) (value : Bool) :
    Returns Safe (do
      let conds ←
        match head with
        | .if => conditionPushIf value p.conds
        | .elseIf => conditionPushElseIf value p.conds
      some (.next { p with conds := conds, stmt := .headEnd head } none)) := by
  obtain ⟨hframes, hchain⟩ := hsafe
  have hpos : 0 < p.conds.length := Safe.pos ⟨hframes, hchain⟩
  rw [hstmt] at hframes hchain
  cases head with
  | «if» =>
      obtain ⟨pushed, hpush, hlength⟩ := conditionPushIf_length hpos value
      refine ⟨.next { p with conds := pushed, stmt := .headEnd .if } none, ?_, ?_, ?_⟩
      · simp [hpush]
      · change p.blocks.length + 1 + 0 ≤ p.conds.length + 0 at hframes
        change p.blocks.length + 1 + 1 ≤ pushed.length + 0
        omega
      · simp [StmtPos.chained]
  | elseIf =>
      obtain ⟨pushed, hpush, hlength⟩ := conditionPushElseIf_length hpos value
      refine ⟨.next { p with conds := pushed, stmt := .headEnd .elseIf } none, ?_, ?_, ?_⟩
      · simp [hpush]
      · change p.blocks.length + 1 + 0 ≤ p.conds.length + 1 at hframes
        change p.blocks.length + 1 + 0 ≤ pushed.length + 0
        omega
      · exact fun _ => hchain rfl

/-- A test item has met the token that decides it. -/
def Settled (tests : TestsPos) (t : Token) : Prop :=
  ∀ x, tests.pos = .item x → (∃ cmp, t = .cmp cmp) ∨ t = .match

theorem shiftTests_returns (hsafe : p.Safe) {head : Head} {tests : TestsPos}
    (hstmt : p.stmt = .tests head tests) (hsettled : Settled tests t)
    (hfits : tests.fits t = true) : Returns Safe (p.shiftTests setting head tests t) := by
  have hpos := hsafe.pos
  have hgoto : ∀ tests', Returns Safe (some (p.goto (.tests head tests'))) := fun tests' =>
    returns_some (hsafe.tests hstmt tests')
  obtain ⟨joined, marks, pos⟩ := tests
  cases pos with
  | expect =>
      cases t with
      | item x => exact hgoto _
      | defined => exact hgoto _
      | lparen => exact hgoto _
      | bang => exact hgoto _
      | _ => exact absurd hfits Bool.false_ne_true
  | item x =>
      rcases hsettled x rfl with ⟨cmp, rfl⟩ | rfl
      · exact hgoto _
      · exact hgoto _
  | cmp x cmp =>
      cases t with
      | item y =>
          obtain ⟨value, hvalue⟩ := @cmpItems_of_pos setting _ hpos cmp x y
          obtain ⟨outcome, hend, hholds⟩ := endTest_returns hsafe hstmt joined marks value
          exact ⟨outcome, by rw [shiftTests, hvalue]; exact hend, hholds⟩
      | _ => exact absurd hfits Bool.false_ne_true
  | «match» x =>
      cases t with
      | item y =>
          obtain ⟨value, hvalue⟩ := @doFnmatch_of_pos setting _ hpos y x
          obtain ⟨outcome, hend, hholds⟩ := endTest_returns hsafe hstmt joined marks (some value)
          exact ⟨outcome, by rw [shiftTests, hvalue]; exact hend, hholds⟩
      | _ => exact absurd hfits Bool.false_ne_true
  | defined =>
      cases t with
      | item x =>
          obtain ⟨value, hvalue⟩ := itemDefined_of_pos hpos x
          obtain ⟨outcome, hend, hholds⟩ := endTest_returns hsafe hstmt joined marks value
          exact ⟨outcome, by rw [shiftTests, hvalue]; exact hend, hholds⟩
      | _ => exact absurd hfits Bool.false_ne_true
  | inner value =>
      cases t with
      | rparen => exact endTest_returns hsafe hstmt joined marks.tail (some value)
      | _ => exact absurd hfits Bool.false_ne_true
  | done value =>
      cases t with
      | and => exact hgoto _
      | or => exact hgoto _
      | rparen => exact headEnd_returns hsafe hstmt value
      | _ => exact absurd hfits Bool.false_ne_true

theorem closeTest_fits {conds : CondStack} {joined : Joined} {marks : List Mark} {value : Bool}
    {tests : TestsPos} (hclose : closeTest conds joined marks value = some tests) (t : Token) :
    tests.fits t = fitsAfterTest marks t ∧ ∀ x, tests.pos ≠ .item x := by
  induction marks generalizing value with
  | nil =>
      obtain rfl := Option.some_inj.mp hclose
      refine ⟨?_, by simp⟩
      cases t <;> rfl
  | cons mark marks ih =>
      cases mark with
      | paren =>
          obtain rfl := Option.some_inj.mp hclose
          refine ⟨?_, by simp⟩
          cases t <;> rfl
      | bang =>
          obtain ⟨executing, -, hrest⟩ := Option.bind_eq_some_iff.mp hclose
          exact ih hrest

/-- In a list of tests, the reduction before a token changes nothing about which token fits. -/
theorem reduce_tests (hpos : 0 < p.conds.length) {head : Head} {tests : TestsPos}
    (hstmt : p.stmt = .tests head tests) (t : Token) :
    ∃ tests', p.reduce setting t = some { p with stmt := .tests head tests' } ∧
      Settled tests' t ∧ tests'.fits t = tests.fits t := by
  obtain ⟨conds, blocks, stmt⟩ := p
  obtain ⟨joined, marks, pos⟩ := tests
  change stmt = _ at hstmt
  subst hstmt
  cases pos with
  | item x =>
      have hreduce : (∀ cmp, t ≠ .cmp cmp) → t ≠ .match →
          ∃ tests', Parser.reduce setting ⟨conds, blocks, .tests head ⟨joined, marks, .item x⟩⟩ t =
            some ⟨conds, blocks, .tests head tests'⟩ ∧ Settled tests' t ∧
              tests'.fits t = fitsAfterTest marks t := by
        intro hcmp hmatch
        obtain ⟨value, hvalue⟩ := testItem_of_pos hpos x
        obtain ⟨tests', htests⟩ := closeTest_of_pos hpos joined marks value
        obtain ⟨hfits, hitem⟩ := closeTest_fits htests t
        refine ⟨tests', ?_, fun y hy => absurd hy (hitem y), hfits⟩
        cases t with
        | cmp cmp => exact absurd rfl (hcmp cmp)
        | «match» => exact absurd rfl hmatch
        | _ => simp [reduce, hvalue, htests]
      cases t with
      | cmp cmp => exact ⟨_, rfl, fun _ _ => Or.inl ⟨cmp, rfl⟩, rfl⟩
      | «match» => exact ⟨_, rfl, fun _ _ => Or.inr rfl, rfl⟩
      | _ =>
          obtain ⟨tests', hreduce, hsettled, hfits⟩ := hreduce (by simp) (by simp)
          exact ⟨tests', hreduce, hsettled, hfits⟩
  | _ => exact ⟨_, rfl, by simp [Settled], rfl⟩

theorem step_tests (hsafe : p.Safe) {head : Head} {tests : TestsPos}
    (hstmt : p.stmt = .tests head tests) (hfits : p.stmt.popped = 1 → p.fits t = true) :
    Returns Safe (p.step setting t) := by
  obtain ⟨tests', hreduce, hsettled, hsame⟩ := @reduce_tests setting p hsafe.pos head tests hstmt t
  have hreduced := hsafe.tests hstmt tests'
  have hpfits : p.fits t = tests.fits t := by simp only [fits, hstmt]
  rw [step, hreduce, Option.bind_eq_bind, Option.bind_some]
  split
  next hfit =>
    refine shiftTests_returns hreduced rfl hsettled ?_
    rw [hsame, ← hpfits, hfit]
  next hfit =>
    refine recover_returns hreduced ?_ t
    have hzero : p.stmt.popped ≠ 1 := fun hone => hfit (hfits hone)
    rw [hstmt] at hzero
    cases head with
    | «if» => rfl
    | elseIf => exact absurd rfl hzero

/-! ## Steps and runs -/

theorem shift_returns (hsafe : p.Safe) (htests : ∀ head tests, p.stmt ≠ .tests head tests)
    (hfits : p.fits t = true) (hinTask : p.stmt = .inTask → t = .newline) :
    Returns Safe (p.shift setting t) := by
  obtain ⟨conds, blocks, stmt⟩ := p
  have hpos := hsafe.pos
  -- Few tokens fit in each place, and `hfits` excludes the others.
  cases stmt with
  | start => exact shiftStart_returns hsafe rfl hfits
  | recovering | ended =>
      cases t with
      | newline | semi => exact returns_goto hsafe rfl rfl rfl
      | _ => exact absurd hfits Bool.false_ne_true
  | print | undefine =>
      cases t with
      | item x => exact finish_returns hsafe rfl (whenExecuting_of_pos hpos _)
      | _ => exact absurd hfits Bool.false_ne_true
  | «include» | set | define =>
      cases t with
      | item x => exact returns_goto hsafe rfl rfl rfl
      | _ => exact absurd hfits Bool.false_ne_true
  | includeItem x =>
      cases t with
      | newline =>
          obtain ⟨action, haction⟩ := whenExecuting_of_pos hpos (some (.include x.name))
          refine ⟨.next ⟨conds, blocks, .start⟩ action, ?_, hsafe.goto rfl rfl rfl⟩
          simp [shift, haction]
      | _ => exact absurd hfits Bool.false_ne_true
  | item x =>
      cases t with
      | setOp op => exact returns_goto hsafe rfl rfl rfl
      | _ => exact absurd hfits Bool.false_ne_true
  | itemOp x op =>
      cases t with
      | item y =>
          refine finish_returns hsafe rfl ?_
          unfold envVarSet
          split
          · exact whenExecuting_of_pos hpos _
          · exact ⟨_, rfl⟩
      | _ => exact absurd hfits Bool.false_ne_true
  | unset =>
      cases t with
      | item x =>
          refine finish_returns hsafe rfl ?_
          unfold envVarUnset
          split
          · exact whenExecuting_of_pos hpos _
          · exact ⟨_, rfl⟩
      | _ => exact absurd hfits Bool.false_ne_true
  | dump | setItem x =>
      cases t with
      | item y => exact finish_returns hsafe rfl (whenExecuting_of_pos hpos _)
      | _ => exact absurd hfits Bool.false_ne_true
  | defineItem x =>
      cases t with
      | setOp op =>
          cases op with
          | assign => exact returns_goto hsafe rfl rfl rfl
          | _ => exact absurd hfits Bool.false_ne_true
      | _ => exact absurd hfits Bool.false_ne_true
  | defineAssign x =>
      cases t with
      | item y =>
          obtain ⟨action, haction⟩ := whenExecuting_of_pos hpos (some (.define x.name y.str))
          by_cases hvalid : isValidIdentifier x.name = true
          · refine ⟨.next ⟨conds, blocks, .ended⟩ action, ?_, hsafe.goto rfl rfl rfl⟩
            simp [shift, defineSymbol, hvalid, haction]
          · refine ⟨.abort conds, ?_, trivial⟩
            simp [shift, defineSymbol, hvalid]
      | _ => exact absurd hfits Bool.false_ne_true
  | ifStart head =>
      cases t with
      | lparen =>
          obtain ⟨hframes, hchain⟩ := hsafe
          cases head <;> exact returns_some ⟨hframes, hchain⟩
      | _ => exact absurd hfits Bool.false_ne_true
  | tests head tests => exact absurd rfl (htests head tests)
  | headEnd head =>
      cases t with
      | newline =>
          have hframes := hsafe.frames
          cases head with
          | «if» => exact returns_some ⟨hframes, by simp [StmtPos.chained]⟩
          | elseIf => exact returns_some ⟨hframes, by simp [StmtPos.chained]⟩
      | _ => exact absurd hfits Bool.false_ne_true
  | «else» =>
      have hframes := hsafe.frames
      have hblocks := List.length_pos_iff.mpr (hsafe.chain rfl)
      change blocks.length + 1 + 0 ≤ conds.length + 0 at hframes
      change 0 < blocks.length at hblocks
      cases t with
      | newline =>
          obtain ⟨pushed, hpush, hlength⟩ := @conditionPushElse_length conds (by omega)
          refine ⟨.next ⟨pushed, .elseBranch :: blocks.tail, .start⟩ none, ?_, ?_, ?_⟩
          · simp [shift, hpush]
          · change blocks.tail.length + 1 + 1 + 0 ≤ pushed.length + 0
            rw [List.length_tail]
            omega
          · simp [StmtPos.chained]
      | «if» =>
          have hlength := conditionPop_length hpos
          refine returns_some ⟨?_, fun _ => hsafe.chain rfl⟩
          change blocks.length + 1 + 0 ≤ (conditionPop conds).2.length + 1
          change (conditionPop conds).2.length + 1 = conds.length at hlength
          omega
      | _ => exact absurd hfits Bool.false_ne_true
  | inTask =>
      obtain rfl := hinTask rfl
      refine returns_some ⟨?_, by simp [StmtPos.chained]⟩
      exact Nat.succ_le_succ hsafe.frames
  | inTaskHead =>
      cases t with
      | lbrace => exact returns_some ⟨hsafe.frames, by simp [StmtPos.chained]⟩
      | _ => exact absurd hfits Bool.false_ne_true

/-- `in task` pushes its frame before any token but a newline. -/
theorem step_inTask (hsafe : p.Safe) (hstmt : p.stmt = .inTask) :
    Returns Safe (p.step setting t) := by
  obtain ⟨conds, blocks, stmt⟩ := p
  change stmt = .inTask at hstmt
  subst hstmt
  have hpushed : Safe ⟨inTaskBegin setting.inTask conds, blocks, .inTaskHead⟩ :=
    ⟨Nat.succ_le_succ hsafe.frames, by simp [StmtPos.chained]⟩
  cases t with
  | newline => exact shift_returns hsafe (by simp) rfl fun _ => rfl
  | lbrace => exact @shift_returns setting _ .lbrace hpushed (by simp) rfl (by simp)
  | _ => exact recover_returns hpushed rfl _

/-- Elsewhere nothing waits for the next token. -/
theorem reduce_eq_self (htests : ¬ ∃ head tests, p.stmt = .tests head tests)
    (hinTask : p.stmt ≠ .inTask) : p.reduce setting t = some p := by
  obtain ⟨conds, blocks, stmt⟩ := p
  cases stmt with
  | tests head tests => exact absurd ⟨head, tests, rfl⟩ htests
  | inTask => exact absurd rfl hinTask
  | _ => rfl

/-- One token keeps the parser safe, unless it is a syntax error where an `else if` has popped
a frame. -/
theorem step_returns (hsafe : p.Safe) (hfits : p.stmt.popped = 1 → p.fits t = true) :
    Returns Safe (p.step setting t) := by
  by_cases htests : ∃ head tests, p.stmt = .tests head tests
  · obtain ⟨head, tests, hstmt⟩ := htests
    exact step_tests hsafe hstmt hfits
  · by_cases hinTask : p.stmt = .inTask
    · exact step_inTask hsafe hinTask
    · rw [step, reduce_eq_self htests hinTask, Option.bind_eq_bind, Option.bind_some]
      split
      next hfit =>
        exact shift_returns hsafe (fun head tests hstmt => htests ⟨head, tests, hstmt⟩) hfit
          fun hstmt => absurd hstmt hinTask
      next hfit =>
        refine recover_returns hsafe ?_ t
        have hle := Safe.popped_le_one p.stmt
        have hzero : p.stmt.popped ≠ 1 := fun hone => hfit (hfits hone)
        omega

/-- The parser at the first token after `use_env_parser_init`. -/
def init (inTask : Bool) : Parser := ⟨conditionInit inTask, [], .start⟩

theorem init_safe (inTask : Bool) : (init inTask).Safe := by
  cases inTask <;> exact ⟨Nat.le_refl 1, by simp [init, StmtPos.chained]⟩

/-- The parser on a sequence of tokens. -/
def run (setting : Setting) (p : Parser) : List Token → Option Outcome
  | [] => some (.next p none)
  | t :: rest =>
      match p.step setting t with
      | some (.next p _) => run setting p rest
      | ended => ended

/-- No syntax error strikes between the `if` of an `else if` and the end of its tests. -/
def elseIfsClean (setting : Setting) (p : Parser) : List Token → Bool
  | [] => true
  | t :: rest =>
      (p.stmt.popped = 0 || p.fits t) &&
        match p.step setting t with
        | some (.next p _) => elseIfsClean setting p rest
        | _ => true

theorem Safe.run {tokens : List Token} (hsafe : p.Safe)
    (hclean : p.elseIfsClean setting tokens = true) : Returns Safe (p.run setting tokens) := by
  induction tokens generalizing p with
  | nil => exact returns_some hsafe
  | cons t rest ih =>
      rw [elseIfsClean, Bool.and_eq_true, Bool.or_eq_true, decide_eq_true_iff] at hclean
      obtain ⟨hfits, hrest⟩ := hclean
      have hfits' : p.stmt.popped = 1 → p.fits t = true := fun hone => hfits.resolve_left (by omega)
      obtain ⟨outcome, hstep, hholds⟩ := @step_returns setting p t hsafe hfits'
      rw [hstep] at hrest
      unfold Parser.run
      rw [hstep]
      cases outcome with
      | next p' action => exact ih hholds hrest
      | accept conds => exact returns_some trivial
      | abort conds => exact returns_some trivial

/-- On a sequence of tokens in which no `else if` is broken off between its pop and its push,
no function of the condition stack meets an empty stack. -/
theorem run_isSome {tokens : List Token}
    (hclean : (init setting.inTask).elseIfsClean setting tokens = true) :
    ((init setting.inTask).run setting tokens).isSome = true := by
  obtain ⟨outcome, hrun, -⟩ := (init_safe setting.inTask).run hclean
  rw [hrun]
  rfl

/-- A job that compares strings for patterns. -/
def jobSetting : Setting := ⟨false, fun pattern text => pattern = text, fun _ _ => (0, 0)⟩

/-- An `if` with an unmatched `endif` after it, and a syntax error in between. -/
theorem run_isSome_unmatchedEndif :
    ((init false).run jobSetting
      [.if, .lparen, .item (.ofStr ['1']), .rparen, .newline, .rparen, .newline, .endif, .newline,
        .endif, .newline]).isSome = true :=
  run_isSome rfl

/-- An `else if` without parentheses pops a frame for good, and `endif` pops the last one. -/
theorem else_if_without_parens_empties_stack :
    (init false).run jobSetting
      [.if, .lparen, .item (.ofStr ['1']), .rparen, .newline, .else, .if, .item (.ofStr ['1']),
        .newline, .endif, .newline] = none := rfl

end Parser

end SlurmSpank.UseEnv
