import SlurmSpank.UseEnv.ParserSafety

/-! # Frames match blocks

Between two statements every open block owns one frame, and below them is the frame that
`condition_init` has pushed. A syntax error in the head of a block, where a frame has moved
already, upsets this for the rest of the file.
-/

namespace SlurmSpank.UseEnv

/-! ## Balanced parsers -/

/-- The frames of the open blocks, above a first frame with the given value. The frame below
a branch may record that a branch is taken. -/
def Framed (v : Bool) : List Block → CondStack → Prop
  | [], conds => conds = [⟨v, false⟩]
  | .task :: blocks, conds =>
      ∃ val below, conds = ⟨val, false⟩ :: below ∧ Framed v blocks below
  | .branch :: blocks, conds | .elseBranch :: blocks, conds =>
      ∃ val c below, conds = ⟨val, false⟩ :: c :: below ∧
        Framed v blocks (⟨c.val, false⟩ :: below)

/-- What the statement that is being read has done to the frames. -/
inductive Shape where
  | plain
  | chained
  | popped
  | pushed
  | inTask
  | inTaskHead
  deriving DecidableEq

def StmtPos.shape : StmtPos → Shape
  | .else | .headEnd .elseIf => .chained
  | .ifStart .elseIf | .tests .elseIf _ => .popped
  | .headEnd .if => .pushed
  | .inTask => .inTask
  | .inTaskHead => .inTaskHead
  | _ => .plain

/-- A syntax error may strike without moving a frame for good. -/
def Shape.Settled (shape : Shape) : Prop := shape = .plain ∨ shape = .chained

/-- The frames match the blocks and the statement. -/
def Parser.Balanced (v : Bool) (p : Parser) : Prop :=
  match p.stmt.shape with
  | .plain | .inTask => Framed v p.blocks p.conds
  | .chained => Framed v p.blocks p.conds ∧ p.blocks.head? = some .branch
  | .popped =>
      ∃ blocks c below, p.blocks = .branch :: blocks ∧ p.conds = c :: below ∧
        Framed v blocks (⟨c.val, false⟩ :: below)
  | .pushed => Framed v (.branch :: p.blocks) p.conds
  | .inTaskHead => Framed v (.task :: p.blocks) p.conds

/-- What a step of a balanced parser comes to. A statement that is executed moves no frame. -/
def Outcome.Keeps (v : Bool) (p : Parser) : Outcome → Prop
  | .next p' action =>
      p'.Balanced v ∧ (action ≠ none → p'.blocks = p.blocks ∧ p'.stmt.shape = .plain)
  | .accept conds => conds = [⟨v, false⟩]
  | .abort conds => p.blocks = [] → p.stmt.shape = .plain → conds = [⟨v, false⟩]

/-- The same where the step may access an empty stack. -/
def Keeping (v : Bool) (p : Parser) (result : Option Outcome) : Prop :=
  ∀ outcome ∈ result, outcome.Keeps v p

/-! ## The functions of the condition stack -/

section Frames

variable {v : Bool} {blocks : List Block} {conds : CondStack}

/-- A frame that has just been pushed is on top. -/
theorem Framed.top (hframed : Framed v blocks conds) :
    ∃ val below, conds = ⟨val, false⟩ :: below := by
  cases blocks with
  | nil => exact ⟨v, [], hframed⟩
  | cons block blocks =>
      cases block with
      | task =>
          obtain ⟨val, below, rfl, -⟩ := hframed
          exact ⟨val, below, rfl⟩
      | branch | elseBranch =>
          obtain ⟨val, c, below, rfl, -⟩ := hframed
          exact ⟨val, c :: below, rfl⟩

theorem Framed.pushIf (hframed : Framed v blocks conds) {value : Bool} {pushed : CondStack}
    (hpush : conditionPushIf value conds = some pushed) : Framed v (.branch :: blocks) pushed := by
  obtain ⟨val, below, rfl⟩ := hframed.top
  rw [conditionPushIf_cons _ _ _ rfl] at hpush
  obtain rfl := Option.some_inj.mp hpush
  exact ⟨value, _, below, rfl, hframed⟩

theorem Framed.pushElseIf {c : Cond} {below : CondStack}
    (hframed : Framed v blocks (⟨c.val, false⟩ :: below)) {value : Bool} {pushed : CondStack}
    (hpush : conditionPushElseIf value (c :: below) = some pushed) :
    Framed v (.branch :: blocks) pushed := by
  by_cases hidle : (c.val && !c.fallthru) = false
  · rw [conditionPushElseIf_idle _ _ _ hidle] at hpush
    obtain rfl := Option.some_inj.mp hpush
    exact ⟨false, c, below, rfl, hframed⟩
  · rw [conditionPushElseIf_cons _ _ _ fun hnot => absurd hnot hidle] at hpush
    obtain rfl := Option.some_inj.mp hpush
    exact ⟨value, _, below, rfl, hframed⟩

theorem Framed.pushElse (hframed : Framed v (.branch :: blocks) conds) {pushed : CondStack}
    (hpush : conditionPushElse conds = some pushed) : Framed v (.elseBranch :: blocks) pushed := by
  obtain ⟨val, c, below, rfl, hbelow⟩ := hframed
  rw [conditionPushElse_cons] at hpush
  obtain rfl := Option.some_inj.mp hpush
  exact ⟨_, c, below, rfl, hbelow⟩

theorem Framed.popEndif {block : Block} (hblock : block = .branch ∨ block = .elseBranch)
    (hframed : Framed v (block :: blocks) conds) {rv : Option Bool} {popped : CondStack}
    (hpop : conditionPopEndif conds = some (rv, popped)) : Framed v blocks popped := by
  obtain ⟨val, c, below, rfl, hbelow⟩ :
      ∃ val c below, conds = ⟨val, false⟩ :: c :: below ∧
        Framed v blocks (⟨c.val, false⟩ :: below) := by
    rcases hblock with rfl | rfl <;> exact hframed
  rw [conditionPopEndif_cons] at hpop
  obtain ⟨-, rfl⟩ := Prod.mk.inj (Option.some_inj.mp hpop)
  exact hbelow

end Frames

namespace Parser

variable {v : Bool} {setting : Setting} {p : Parser} {t : Token}

/-! ## Statements that move no frame -/

theorem Balanced.framed (hbalanced : p.Balanced v) (hsettled : p.stmt.shape.Settled) :
    Framed v p.blocks p.conds := by
  unfold Balanced at hbalanced
  rcases hsettled with hshape | hshape <;> rw [hshape] at hbalanced
  · exact hbalanced
  · exact hbalanced.1

theorem keeping_some {outcome : Outcome} (hkeeps : outcome.Keeps v p) :
    Keeping v p (some outcome) := by
  intro other hother
  obtain rfl := Option.some_inj.mp hother
  exact hkeeps

/-- Another statement, or another place in one, where the frames match the blocks. -/
theorem keeping_next (hframed : Framed v p.blocks p.conds) {stmt : StmtPos}
    (hshape : stmt.shape = .plain) (action : Option Action) :
    Keeping v p (some (.next { p with stmt := stmt } action)) := by
  refine keeping_some ⟨?_, fun _ => ⟨rfl, hshape⟩⟩
  simp only [Balanced, hshape]
  exact hframed

theorem keeping_recover (hframed : Framed v p.blocks p.conds) (t : Token) :
    Keeping v p (some (p.recover t)) := by
  unfold recover
  split
  · refine keeping_some fun hblocks _ => ?_
    rw [hblocks] at hframed
    exact hframed
  · exact keeping_next hframed rfl none
  · exact keeping_next hframed rfl none
  · exact keeping_next hframed rfl none

theorem keeping_finish (hframed : Framed v p.blocks p.conds) (action : Option (Option Action)) :
    Keeping v p (p.finish action) := by
  cases action with
  | none => simp [Keeping, finish]
  | some action => exact keeping_next hframed rfl action

/-! ## Where a statement starts -/

theorem keeping_shiftStart (hframed : Framed v p.blocks p.conds)
    (hfits : fitsStart p.blocks t = true) : Keeping v p (p.shiftStart t) := by
  obtain ⟨conds, blocks, stmt⟩ := p
  cases t with
  | «else» => exact keeping_some ⟨⟨hframed, of_decide_eq_true hfits⟩, fun hsome => absurd rfl hsome⟩
  | endif =>
      rintro outcome hshift
      obtain ⟨⟨rv, popped⟩, hpop, heq⟩ := Option.bind_eq_some_iff.mp hshift
      obtain rfl := Option.some_inj.mp heq
      cases blocks with
      | nil => exact absurd hfits (by simp [fitsStart])
      | cons block blocks =>
          have hblock : block = .branch ∨ block = .elseBranch := by
            simpa [fitsStart] using hfits
          exact ⟨hframed.popEndif hblock hpop, fun hsome => absurd rfl hsome⟩
  | rbrace =>
      cases blocks with
      | nil => exact absurd hfits (by simp [fitsStart])
      | cons block blocks =>
          obtain rfl : block = .task := by simpa [fitsStart] using hfits
          obtain ⟨val, below, rfl, hbelow⟩ := hframed
          exact keeping_some ⟨hbelow, fun hsome => absurd rfl hsome⟩
  | eof =>
      obtain rfl : blocks = [] := by simpa [fitsStart] using hfits
      exact keeping_some hframed
  | inTask => exact keeping_some ⟨hframed, fun hsome => absurd rfl hsome⟩
  | comma | cmp _ | and | or | defined | «match» | bang | lparen | rparen | lbrace | setOp _ =>
      exact absurd hfits Bool.false_ne_true
  | _ => exact keeping_next hframed rfl none

/-! ## Tests -/

/-- Within a list of tests no frame moves. -/
theorem Balanced.tests (hbalanced : p.Balanced v) {head : Head} {tests : TestsPos}
    (hstmt : p.stmt = .tests head tests) (tests' : TestsPos) :
    ({ p with stmt := .tests head tests' } : Parser).Balanced v := by
  unfold Balanced at hbalanced
  rw [hstmt] at hbalanced
  cases head <;> exact hbalanced

theorem keeping_goto_tests (hbalanced : p.Balanced v) {head : Head} {tests : TestsPos}
    (hstmt : p.stmt = .tests head tests) (tests' : TestsPos) :
    Keeping v p (some (p.goto (.tests head tests'))) :=
  keeping_some ⟨hbalanced.tests hstmt tests', fun hsome => absurd rfl hsome⟩

theorem keeping_endTest (hbalanced : p.Balanced v) {head : Head} {tests : TestsPos}
    (hstmt : p.stmt = .tests head tests) (joined : Joined) (marks : List Mark)
    (value : TestResult) : Keeping v p (p.endTest head joined marks value) := by
  cases value with
  | none =>
      refine keeping_some fun hblocks hshape => ?_
      have hframed := hbalanced.framed (Or.inl hshape)
      rw [hblocks] at hframed
      exact hframed
  | some value =>
      rintro outcome hend
      obtain ⟨tests', -, rfl⟩ := Option.map_eq_some_iff.mp hend
      exact ⟨hbalanced.tests hstmt tests', fun hsome => absurd rfl hsome⟩

/-- The closing parenthesis of the tests pushes the frame of the branch. -/
theorem keeping_headEnd (hbalanced : p.Balanced v) {head : Head} {tests : TestsPos}
    (hstmt : p.stmt = .tests head tests) (value : Bool) :
    Keeping v p (do
      let conds ←
        match head with
        | .if => conditionPushIf value p.conds
        | .elseIf => conditionPushElseIf value p.conds
      some (.next { p with conds := conds, stmt := .headEnd head } none)) := by
  unfold Balanced at hbalanced
  rw [hstmt] at hbalanced
  cases head with
  | «if» =>
      rintro outcome houtcome
      obtain ⟨pushed, hpush, heq⟩ := Option.bind_eq_some_iff.mp houtcome
      obtain rfl := Option.some_inj.mp heq
      exact ⟨Framed.pushIf hbalanced hpush, fun hsome => absurd rfl hsome⟩
  | elseIf =>
      rintro outcome houtcome
      obtain ⟨pushed, hpush, heq⟩ := Option.bind_eq_some_iff.mp houtcome
      obtain rfl := Option.some_inj.mp heq
      refine ⟨?_, fun hsome => absurd rfl hsome⟩
      obtain ⟨blocks, c, below, hblocks, hconds, hframed⟩ := hbalanced
      rw [hconds] at hpush
      have hpushed := hframed.pushElseIf hpush
      rw [← hblocks] at hpushed
      exact ⟨hpushed, by simp [hblocks]⟩

theorem keeping_shiftTests (hbalanced : p.Balanced v) {head : Head} {tests : TestsPos}
    (hstmt : p.stmt = .tests head tests) (hsettled : Settled tests t)
    (hfits : tests.fits t = true) : Keeping v p (p.shiftTests setting head tests t) := by
  have hgoto : ∀ tests', Keeping v p (some (p.goto (.tests head tests'))) :=
    keeping_goto_tests hbalanced hstmt
  have hend : ∀ joined marks (value : Option TestResult),
      Keeping v p (value.bind (p.endTest head joined marks)) := by
    intro joined marks value
    cases value with
    | none => simp [Keeping]
    | some value => exact keeping_endTest hbalanced hstmt joined marks value
  obtain ⟨joined, marks, pos⟩ := tests
  cases pos with
  | expect =>
      cases t with
      | item x => exact hgoto _
      | defined => exact hgoto _
      | lparen => exact hgoto _
      | bang => exact hgoto _
      | _ => exact absurd hfits Bool.false_ne_true
  | item x =>
      rcases hsettled x rfl with ⟨cmp, rfl⟩ | rfl
      · exact hgoto _
      · exact hgoto _
  | cmp x cmp =>
      cases t with
      | item y => exact hend joined marks _
      | _ => exact absurd hfits Bool.false_ne_true
  | «match» x =>
      cases t with
      | item y =>
          have hvalue := hend joined marks ((doFnmatch setting p.conds y x).map some)
          rw [Option.bind_map] at hvalue
          exact hvalue
      | _ => exact absurd hfits Bool.false_ne_true
  | defined =>
      cases t with
      | item x => exact hend joined marks _
      | _ => exact absurd hfits Bool.false_ne_true
  | inner value =>
      cases t with
      | rparen => exact keeping_endTest hbalanced hstmt joined marks.tail (some value)
      | _ => exact absurd hfits Bool.false_ne_true
  | done value =>
      cases t with
      | and => exact hgoto _
      | or => exact hgoto _
      | rparen => exact keeping_headEnd hbalanced hstmt value
      | _ => exact absurd hfits Bool.false_ne_true

/-! ## Steps -/

/-- A statement that has moved a frame goes on to the block that the frame belongs to, or ends
the block that the frame has belonged to, unless a syntax error strikes. -/
def Clean (p : Parser) (t : Token) : Prop := p.stmt.shape.Settled ∨ p.fits t = true

instance (p : Parser) (t : Token) : Decidable (p.Clean t) :=
  inferInstanceAs (Decidable ((_ = _ ∨ _ = _) ∨ _ = _))

theorem keeping_shift (hbalanced : p.Balanced v) (htests : ∀ head tests, p.stmt ≠ .tests head tests)
    (hinTask : p.stmt = .inTask → t = .newline) (hfits : p.fits t = true) :
    Keeping v p (p.shift setting t) := by
  obtain ⟨conds, blocks, stmt⟩ := p
  -- Few tokens fit in each place, and few places change the stack of conditions.
  cases stmt with
  | start => exact keeping_shiftStart hbalanced hfits
  | tests head tests => exact absurd rfl (htests head tests)
  | recovering | ended =>
      cases t with
      | newline | semi => exact keeping_next hbalanced rfl none
      | _ => exact absurd hfits Bool.false_ne_true
  | print | itemOp x op | unset | undefine | dump | setItem x =>
      cases t with
      | item x => exact keeping_finish hbalanced _
      | _ => exact absurd hfits Bool.false_ne_true
  | «include» | set | define =>
      cases t with
      | item x => exact keeping_next hbalanced rfl none
      | _ => exact absurd hfits Bool.false_ne_true
  | includeItem x =>
      cases t with
      | newline =>
          rintro outcome hshift
          obtain ⟨action, -, rfl⟩ := Option.map_eq_some_iff.mp hshift
          exact ⟨hbalanced, fun _ => ⟨rfl, rfl⟩⟩
      | _ => exact absurd hfits Bool.false_ne_true
  | item x =>
      cases t with
      | setOp op => exact keeping_next hbalanced rfl none
      | _ => exact absurd hfits Bool.false_ne_true
  | defineItem x =>
      cases t with
      | setOp op =>
          cases op with
          | assign => exact keeping_next hbalanced rfl none
          | _ => exact absurd hfits Bool.false_ne_true
      | _ => exact absurd hfits Bool.false_ne_true
  | defineAssign x =>
      cases t with
      | item y =>
          rintro outcome hshift
          obtain ⟨defined, -, hdefined⟩ := Option.bind_eq_some_iff.mp hshift
          cases defined with
          | none =>
              obtain rfl := Option.some_inj.mp hdefined
              intro hblocks _
              exact keeping_recover hbalanced .eof _ rfl hblocks rfl
          | some action =>
              obtain rfl := Option.some_inj.mp hdefined
              exact ⟨hbalanced, fun _ => ⟨rfl, rfl⟩⟩
      | _ => exact absurd hfits Bool.false_ne_true
  | ifStart head =>
      cases t with
      | lparen => cases head <;> exact keeping_some ⟨hbalanced, fun hsome => absurd rfl hsome⟩
      | _ => exact absurd hfits Bool.false_ne_true
  | headEnd head =>
      cases t with
      | newline =>
          cases head with
          | «if» => exact keeping_some ⟨hbalanced, fun hsome => absurd rfl hsome⟩
          | elseIf => exact keeping_next hbalanced.1 rfl none
      | _ => exact absurd hfits Bool.false_ne_true
  | «else» =>
      obtain ⟨hframed, hhead⟩ := hbalanced
      obtain ⟨rest, rfl⟩ : ∃ rest, blocks = .branch :: rest := by
        cases blocks with
        | nil => exact absurd hhead (by simp)
        | cons block rest => exact ⟨rest, by rw [Option.some_inj.mp hhead]⟩
      cases t with
      | newline =>
          rintro outcome hshift
          obtain ⟨pushed, hpush, heq⟩ := Option.bind_eq_some_iff.mp hshift
          obtain rfl := Option.some_inj.mp heq
          exact ⟨hframed.pushElse hpush, fun hsome => absurd rfl hsome⟩
      | «if» =>
          obtain ⟨val, c, below, rfl, hbelow⟩ := hframed
          exact keeping_some ⟨⟨rest, c, below, rfl, rfl, hbelow⟩, fun hsome => absurd rfl hsome⟩
      | _ => exact absurd hfits Bool.false_ne_true
  | inTask =>
      obtain rfl := hinTask rfl
      exact keeping_some ⟨⟨setting.inTask, conds, rfl, hbalanced⟩, fun hsome => absurd rfl hsome⟩
  | inTaskHead =>
      cases t with
      | lbrace => exact keeping_some ⟨hbalanced, fun hsome => absurd rfl hsome⟩
      | _ => exact absurd hfits Bool.false_ne_true

theorem Balanced.pos (hbalanced : p.Balanced v) {head : Head} {tests : TestsPos}
    (hstmt : p.stmt = .tests head tests) : 0 < p.conds.length := by
  unfold Balanced at hbalanced
  rw [hstmt] at hbalanced
  cases head with
  | «if» =>
      obtain ⟨val, below, hconds⟩ := Framed.top hbalanced
      rw [hconds]
      exact Nat.succ_pos _
  | elseIf =>
      obtain ⟨blocks, c, below, -, hconds, -⟩ := hbalanced
      rw [hconds]
      exact Nat.succ_pos _

theorem keeping_step_tests (hbalanced : p.Balanced v) {head : Head} {tests : TestsPos}
    (hstmt : p.stmt = .tests head tests) (hclean : p.Clean t) :
    Keeping v p (p.step setting t) := by
  obtain ⟨tests', hreduce, hsettled, hsame⟩ :=
    @reduce_tests setting p (hbalanced.pos hstmt) head tests hstmt t
  have hreduced := hbalanced.tests hstmt tests'
  have hpfits : p.fits t = tests.fits t := by simp only [fits, hstmt]
  have hkeeping : ∀ result, Keeping v { p with stmt := .tests head tests' } result →
      Keeping v p result := by
    intro result hresult outcome houtcome
    have hkeeps := hresult outcome houtcome
    cases outcome with
    | abort conds =>
        intro hblocks hshape
        refine hkeeps hblocks ?_
        rw [hstmt] at hshape
        cases head <;> exact hshape
    | _ => exact hkeeps
  rw [step, hreduce, Option.bind_eq_bind, Option.bind_some]
  apply hkeeping
  split
  next hfit =>
    refine keeping_shiftTests hreduced rfl hsettled ?_
    rw [hsame, ← hpfits, hfit]
  next hfit =>
    have hshape := hclean.resolve_right hfit
    rw [hstmt] at hshape
    cases head with
    | «if» => exact keeping_recover hreduced t
    | elseIf => exact absurd hshape (by simp [StmtPos.shape, Shape.Settled])

/-- `in task` pushes its frame before any token but a newline. -/
theorem keeping_step_inTask (hbalanced : p.Balanced v) (hstmt : p.stmt = .inTask)
    (hclean : p.Clean t) : Keeping v p (p.step setting t) := by
  obtain ⟨conds, blocks, stmt⟩ := p
  change stmt = .inTask at hstmt
  subst hstmt
  cases t with
  | newline => exact keeping_shift hbalanced (by simp) (fun _ => rfl) rfl
  | lbrace =>
      exact keeping_some ⟨⟨setting.inTask, conds, rfl, hbalanced⟩, fun hsome => absurd rfl hsome⟩
  | _ =>
      rcases hclean with hsettled | hfits
      · exact absurd hsettled (by simp [StmtPos.shape, Shape.Settled])
      · exact absurd hfits Bool.false_ne_true

/-- A step without a syntax error in a head keeps a parser balanced, and leaves the first
frame alone where the parse ends outside of all blocks. -/
theorem keeping_step (hbalanced : p.Balanced v) (hclean : p.Clean t) :
    Keeping v p (p.step setting t) := by
  by_cases htests : ∃ head tests, p.stmt = .tests head tests
  · obtain ⟨head, tests, hstmt⟩ := htests
    exact keeping_step_tests hbalanced hstmt hclean
  · by_cases hinTask : p.stmt = .inTask
    · exact keeping_step_inTask hbalanced hinTask hclean
    · rw [step, reduce_eq_self htests hinTask, Option.bind_eq_bind, Option.bind_some]
      split
      next hfit =>
        exact keeping_shift hbalanced (fun head tests hstmt => htests ⟨head, tests, hstmt⟩)
          (fun hstmt => absurd hstmt hinTask) hfit
      next hfit =>
        exact keeping_recover (hbalanced.framed (hclean.resolve_right hfit)) t

end Parser

end SlurmSpank.UseEnv
