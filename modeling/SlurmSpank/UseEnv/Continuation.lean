import SlurmSpank.UseEnv.Inlining

/-! # What may follow an included file

Behind a file that ends in a statement, the including file can go on in such a way that the
parse is rejected with the file in one place and not in the other. It is rejected where the
text ends inside a block, so the texts that tell the two apart close the open blocks, with a
line in front that one of the two takes for the rest of a statement.
-/

namespace SlurmSpank.UseEnv

open Foundation Lib

universe u

variable {E : Type u} {w : World E}

namespace Machine

variable {m m' : Machine E}

/-! ## Rejected parses -/

/-- A parse from here is rejected. -/
def Rejects (w : World E) (m : Machine E) : Prop := ∃ actions, m.Comes w actions (some false)

theorem Steps.rejects_iff {actions : List Action} (hsteps : Steps w m actions m') :
    m.Rejects w ↔ m'.Rejects w := by
  constructor
  · rintro ⟨all, hcomes⟩
    obtain ⟨more, -, hmore⟩ := hsteps.comes_iff.mp hcomes
    exact ⟨more, hmore⟩
  · rintro ⟨more, hcomes⟩
    exact ⟨actions ++ more, hsteps.comes_iff.mpr ⟨more, rfl, hcomes⟩⟩

theorem rejects_next {executed : Option Action} (hstep : m.step w = .next m' executed) :
    m.Rejects w ↔ m'.Rejects w :=
  (Steps.next hstep (.refl m')).rejects_iff

theorem rejects_stop {accepted : Bool} (hstep : m.step w = .stop accepted m') :
    m.Rejects w ↔ accepted = false := by
  constructor
  · rintro ⟨actions, ending, hrun, haccepted⟩
    obtain ⟨-, rfl⟩ := hrun.unique (.stop hstep)
    exact Option.some_inj.mp haccepted
  · rintro rfl
    exact ⟨[], _, .stop hstep, rfl⟩

theorem not_rejects_crash (hstep : m.step w = .crash) : ¬ m.Rejects w := by
  rintro ⟨actions, ending, hrun, haccepted⟩
  obtain ⟨-, rfl⟩ := hrun.unique (.crash hstep)
  exact absurd haccepted (by simp [Ending.accepted])

/-- A token that completes no `include` leads to the parser behind it. -/
theorem rejects_token {l l' : Lexer E} {p p' : Parser} {t : Token} {action : Option Action}
    (hstep : l.step w.ops = (l', some t)) (hparser : p.step w.setting t = some (.next p' action))
    (hplain : Parser.Plain action) : ∃ tables, Machine.Rejects w ⟨l, p⟩ ↔
      Machine.Rejects w ⟨{ l' with tables := tables }, p'⟩ := by
  have hfeed : Machine.step w ⟨l, p⟩ = feed w ⟨l', p⟩ t := by
    rw [step_token (congrArg Prod.snd hstep), hstep]
  cases action with
  | none =>
      refine ⟨l'.tables, @rejects_next E w _ _ none ?_⟩
      rw [hfeed, feed]
      simp only [hparser]
  | some action =>
      refine ⟨action.perform w.ops l'.tables, @rejects_next E w _ _ (some action) ?_⟩
      rw [hfeed, feed]
      simp only [hparser]
      cases action with
      | «include» name => exact absurd rfl (hplain name)
      | _ => rfl

/-- A token with which the parser aborts. -/
theorem rejects_abort {l l' : Lexer E} {p : Parser} {t : Token} {conds : CondStack}
    (hstep : l.step w.ops = (l', some t)) (hparser : p.step w.setting t = some (.abort conds)) :
    Machine.Rejects w ⟨l, p⟩ := by
  have hstop : Machine.step w ⟨l, p⟩ = .stop false ⟨l', { p with conds := conds }⟩ := by
    rw [step_token (congrArg Prod.snd hstep), hstep, feed]
    simp only [hparser]
  exact (rejects_stop hstop).mpr rfl

end Machine

/-! ## The last file -/

/-- The lexer is in a start condition, with a text left of the last open file. -/
structure Lexer.Facing (start : Start) (text : Text) (l : Lexer E) : Prop where
  start : l.start = start
  rest : l.current.rest = text
  saved : l.saved = []

/-- In front of a text the lexer makes a match, and is then in front of another text. -/
def Lexes (ops : EnvOps E) (start : Start) (text : Text) (t : Option Token) (start' : Start)
    (text' : Text) : Prop :=
  ∀ l : Lexer E, l.Facing start text → ∃ l', l.step ops = (l', t) ∧ l'.Facing start' text'

/-- In front of a text the parse is rejected, or it is not. -/
def Verdict (w : World E) (start : Start) (text : Text) (p : Parser) (rejected : Prop) : Prop :=
  ∀ l : Lexer E, l.Facing start text → (Machine.Rejects w ⟨l, p⟩ ↔ rejected)

namespace Verdict

variable {start start' : Start} {text text' : Text} {t : Token} {p p' : Parser} {rejected : Prop}

/-- Behind a match without a token. -/
theorem silent (hlexes : Lexes w.ops start text none start' text')
    (hverdict : Verdict w start' text' p rejected) : Verdict w start text p rejected := by
  intro l hfacing
  obtain ⟨l', hstep, hfacing'⟩ := hlexes l hfacing
  rw [Machine.rejects_next (Machine.step_silent (congrArg Prod.snd hstep)), hstep]
  exact hverdict l' hfacing'

/-- Behind a token that completes no `include`. -/
theorem token {action : Option Action} (hlexes : Lexes w.ops start text (some t) start' text')
    (hparser : p.step w.setting t = some (.next p' action)) (hplain : Parser.Plain action)
    (hverdict : Verdict w start' text' p' rejected) : Verdict w start text p rejected := by
  intro l hfacing
  obtain ⟨l', hstep, hfacing'⟩ := hlexes l hfacing
  obtain ⟨tables, hrejects⟩ := Machine.rejects_token hstep hparser hplain
  rw [hrejects]
  exact hverdict _ ⟨hfacing'.start, hfacing'.rest, hfacing'.saved⟩

/-- At a token with which the parser aborts. -/
theorem abort {conds : CondStack} (hlexes : Lexes w.ops start text (some t) start' text')
    (hparser : p.step w.setting t = some (.abort conds)) : Verdict w start text p True := by
  intro l hfacing
  obtain ⟨l', hstep, hfacing'⟩ := hlexes l hfacing
  exact iff_of_true (Machine.rejects_abort hstep hparser) trivial

/-- At a token with which the parser accesses an empty stack. -/
theorem crash (hlexes : Lexes w.ops start text (some t) start' text')
    (hparser : p.step w.setting t = none) : Verdict w start text p False := by
  intro l hfacing
  obtain ⟨l', hstep, hfacing'⟩ := hlexes l hfacing
  have hcrash : Machine.step w ⟨l, p⟩ = .crash := by
    rw [Machine.step_token (congrArg Prod.snd hstep), hstep, Machine.feed]
    simp only [hparser]
  exact iff_of_false (Machine.not_rejects_crash hcrash) id

/-- At the end of the text, where the parser accepts. -/
theorem accept (hlexes : Lexes w.ops start text (some t) start' text') {conds : CondStack}
    (hparser : p.step w.setting t = some (.accept conds)) : Verdict w start text p False := by
  intro l hfacing
  obtain ⟨l', hstep, hfacing'⟩ := hlexes l hfacing
  have hstop : Machine.step w ⟨l, p⟩ = .stop true ⟨l', { p with conds := conds }⟩ := by
    rw [Machine.step_token (congrArg Prod.snd hstep), hstep, Machine.feed]
    simp only [hparser]
  simp [Machine.rejects_stop hstop]

end Verdict

/-! ## Matches in front of a newline -/

section Lexes

variable (ops : EnvOps E) (rest : Text)

theorem lexes_eof (start : Start) : Lexes ops start [] (some .eof) start [] := by
  intro l hfacing
  refine ⟨l, ?_, hfacing⟩
  simp only [Lexer.step, hfacing.rest, Lexer.includePop, hfacing.saved]

theorem lexes_line {start start' : Start} {text text' : Text} {t : Option Token} {rule : LexRule}
    {n : Nat} (hscan : ScanRule.scan start.rules (text ++ ['\n']) = some (rule, n))
    (hact : ∀ path tables, Lexer.act ops
        ⟨start, ⟨path, (text ++ '\n' :: rest).drop (rule.width n)⟩, [], tables⟩ rule.action
          ((text ++ '\n' :: rest).take (rule.width n)) = (⟨start', ⟨path, text'⟩, [], tables⟩, t)) :
    Lexes ops start (text ++ '\n' :: rest) t start' text' := by
  rintro ⟨_, ⟨path, _⟩, _, tables⟩ ⟨rfl, rfl, rfl⟩
  exact ⟨_, (Lexer.step_line ops text rest rfl hscan).trans (hact path tables), rfl, rfl, rfl⟩

theorem lexes_newline : Lexes ops .initial ('\n' :: rest) (some .newline) .initial rest :=
  @lexes_line E ops rest .initial _ [] _ _ _ _ rfl fun _ _ => rfl

theorem lexes_rparen :
    Lexes ops .initial (')' :: '\n' :: rest) (some .rparen) .initial ('\n' :: rest) :=
  @lexes_line E ops rest .initial _ [')'] _ _ _ _ rfl fun _ _ => rfl

theorem lexes_lbrace :
    Lexes ops .initial ('{' :: '\n' :: rest) (some .lbrace) .initial ('\n' :: rest) :=
  @lexes_line E ops rest .initial _ ['{'] _ _ _ _ rfl fun _ _ => rfl

theorem lexes_if : Lexes ops .initial ("if(a)".toList ++ '\n' :: rest) (some .if) .initial
    ("(a)".toList ++ '\n' :: rest) :=
  @lexes_line E ops rest .initial _ "if(a)".toList _ _ _ _ rfl fun _ _ => rfl

theorem lexes_lparen : Lexes ops .initial ("(a)".toList ++ '\n' :: rest) (some .lparen) .initial
    ("a)".toList ++ '\n' :: rest) :=
  @lexes_line E ops rest .initial _ "(a)".toList _ _ _ _ rfl fun _ _ => rfl

theorem lexes_item : Lexes ops .initial ("a)".toList ++ '\n' :: rest)
    (some (.item (.ofStr ['a']))) .initial (')' :: '\n' :: rest) :=
  @lexes_line E ops rest .initial _ "a)".toList _ _ _ _ rfl fun _ _ => rfl

theorem lexes_beginStr :
    Lexes ops .initial ('"' :: '\n' :: rest) none (.str []) ('\n' :: rest) :=
  @lexes_line E ops rest .initial _ ['"'] _ _ _ _ rfl fun _ _ => rfl

theorem lexes_beginStr_quote :
    Lexes ops .initial ('"' :: '"' :: '\n' :: rest) none (.str []) ('"' :: '\n' :: rest) :=
  @lexes_line E ops rest .initial _ ['"', '"'] _ _ _ _ rfl fun _ _ => rfl

theorem lexes_endStr (buf : Text) : Lexes ops (.str buf) ('"' :: '\n' :: rest)
    (some (.item (.ofStr buf))) .initial ('\n' :: rest) :=
  @lexes_line E ops rest (.str buf) _ ['"'] _ _ _ _ rfl fun _ _ => rfl

theorem lexes_endStr_quote (buf : Text) : Lexes ops (.str buf) ('"' :: '"' :: '\n' :: rest)
    (some (.item (.ofStr buf))) .initial ('"' :: '\n' :: rest) :=
  @lexes_line E ops rest (.str buf) _ ['"', '"'] _ _ _ _ rfl fun _ _ => rfl

theorem lexes_unterminated (buf : Text) :
    Lexes ops (.str buf) ('\n' :: rest) none .initial rest :=
  @lexes_line E ops rest (.str buf) _ [] _ _ _ _ rfl fun _ _ => rfl

theorem lexes_unterminated_str2 (buf : Text) (got : Bool) :
    Lexes ops (.str2 buf got) ('\n' :: rest) none .initial rest :=
  @lexes_line E ops rest (.str2 buf got) _ [] _ _ _ _ rfl fun _ _ => rfl

theorem lexes_beginStr2 (buf : Text) (got : Bool) : Lexes ops (.postop buf got)
    ('"' :: '\n' :: rest) none (.str2 buf got) ('\n' :: rest) :=
  @lexes_line E ops rest (.postop buf got) _ ['"'] _ _ _ _ rfl fun _ _ => rfl

/-- The newline that ends an operand is not taken. -/
theorem lexes_endPostop (buf : Text) (got : Bool) : Lexes ops (.postop buf got) ('\n' :: rest)
    (if buf ≠ [] ∨ got = false then some (.item (.ofStr buf)) else none) .initial
      ('\n' :: rest) := by
  refine @lexes_line E ops rest (.postop buf got) _ [] _ _ _ _ rfl fun path tables => ?_
  change Lexer.act ops ⟨.postop buf got, ⟨path, rest⟩, [], tables⟩ .endPostop ['\n'] = _
  by_cases hitem : buf ≠ [] ∨ got = false
  · simp only [Lexer.act, if_pos hitem]
    rfl
  · simp only [Lexer.act, if_neg hitem]
    rfl

/-- The word that closes a block. -/
def Block.closer : Block → Text
  | .branch | .elseBranch => "endif".toList
  | .task => ['}']

/-- The token of the word. -/
def Block.token : Block → Token
  | .branch | .elseBranch => .endif
  | .task => .rbrace

theorem lexes_closer (block : Block) :
    Lexes ops .initial (block.closer ++ '\n' :: rest) (some block.token) .initial
      ('\n' :: rest) := by
  cases block with
  | branch | elseBranch =>
      exact @lexes_line E ops rest .initial _ "endif".toList _ _ _ _ rfl fun _ _ => rfl
  | task => exact @lexes_line E ops rest .initial _ ['}'] _ _ _ _ rfl fun _ _ => rfl

end Lexes

/-! ## Closing the blocks -/

/-- The lines that close blocks. -/
def closers : List Block → Text
  | [] => []
  | block :: blocks => block.closer ++ '\n' :: closers blocks

/-- Behind an error in a line, the next line is read. -/
theorem Verdict.recovering {text : Text} {conds : CondStack} {blocks : List Block}
    {rejected : Prop} (hverdict : Verdict w .initial text ⟨conds, blocks, .start⟩ rejected) :
    Verdict w .initial ('\n' :: text) ⟨conds, blocks, .recovering⟩ rejected :=
  .token (lexes_newline w.ops text) rfl (by simp [Parser.Plain]) hverdict

/-- Behind a statement that has ended, too. -/
theorem Verdict.ended {text : Text} {conds : CondStack} {blocks : List Block}
    {rejected : Prop} (hverdict : Verdict w .initial text ⟨conds, blocks, .start⟩ rejected) :
    Verdict w .initial ('\n' :: text) ⟨conds, blocks, .ended⟩ rejected :=
  .token (lexes_newline w.ops text) rfl (by simp [Parser.Plain]) hverdict

/-- The word that closes the innermost block closes it, unless the stack runs empty. -/
theorem Parser.step_close (setting : Setting) (conds : CondStack) (block : Block)
    (blocks : List Block) :
    Parser.step setting ⟨conds, block :: blocks, .start⟩ block.token = none ∨
      ∃ conds', Parser.step setting ⟨conds, block :: blocks, .start⟩ block.token =
        some (.next ⟨conds', blocks, .ended⟩ none) := by
  cases block with
  | branch | elseBranch =>
      match conds with
      | [] | [_] => exact Or.inl rfl
      | _ :: _ :: _ => exact Or.inr ⟨_, rfl⟩
  | task => exact Or.inr ⟨_, rfl⟩

/-- Lines that close all blocks are not rejected. -/
theorem verdict_closers {blocks : List Block} {conds : CondStack} :
    Verdict w .initial (closers blocks) ⟨conds, blocks, .start⟩ False := by
  induction blocks generalizing conds with
  | nil => exact .accept (lexes_eof w.ops .initial) rfl
  | cons block blocks ih =>
      have hlexes := lexes_closer w.ops (closers blocks) block
      obtain hcrash | ⟨conds', hparser⟩ :=
        Parser.step_close w.setting conds block blocks
      · exact .crash hlexes hcrash
      · exact .token hlexes hparser (by simp [Parser.Plain]) (.ended ih)

/-- A word that closes a block closes the innermost one at most. -/
theorem Parser.step_close_le (setting : Setting) {conds : CondStack} {blocks : List Block}
    (hframes : blocks.length ≤ conds.length) (htwo : 2 ≤ conds.length) (block : Block) :
    Parser.step setting ⟨conds, blocks, .start⟩ block.token =
        some (.next ⟨conds, blocks, .recovering⟩ none) ∨
      ∃ conds' blocks', Parser.step setting ⟨conds, blocks, .start⟩ block.token =
          some (.next ⟨conds', blocks', .ended⟩ none) ∧
        blocks.length = blocks'.length + 1 ∧ blocks'.length ≤ conds'.length := by
  match conds with
  | c :: d :: rest =>
      cases block with
      | branch | elseBranch =>
          match blocks with
          | [] | .task :: _ => exact Or.inl rfl
          | .branch :: below | .elseBranch :: below =>
              exact Or.inr ⟨_, below, rfl, rfl, Nat.le_of_succ_le_succ hframes⟩
      | task =>
          match blocks with
          | [] | .branch :: _ | .elseBranch :: _ => exact Or.inl rfl
          | .task :: below => exact Or.inr ⟨_, below, rfl, rfl, Nat.le_of_succ_le_succ hframes⟩

/-- Lines that close some blocks only are rejected. -/
theorem verdict_fewer {lines blocks : List Block} {conds : CondStack}
    (hfewer : lines.length < blocks.length) (hframes : blocks.length ≤ conds.length) :
    Verdict w .initial (closers lines) ⟨conds, blocks, .start⟩ True := by
  induction lines generalizing blocks conds with
  | nil =>
      cases blocks with
      | nil => exact absurd hfewer (Nat.lt_irrefl 0)
      | cons block blocks => exact .abort (lexes_eof w.ops .initial) rfl
  | cons line lines ih =>
      have hlexes := lexes_closer w.ops (closers lines) line
      rw [List.length_cons] at hfewer
      obtain hparser | ⟨conds', blocks', hparser, hblocks, hframes'⟩ :=
        Parser.step_close_le w.setting hframes (by omega) line
      · exact .token hlexes hparser (by simp [Parser.Plain])
          (.recovering (ih (by omega) hframes))
      · exact .token hlexes hparser (by simp [Parser.Plain])
          (.ended (ih (by omega) hframes'))

/-- So are lines of which the first one is taken for a part of a statement. -/
theorem verdict_broken {p : Parser} (hstart : p.stmt ≠ .start) (hinTask : p.stmt ≠ .inTask)
    (hpos : 0 < p.conds.length) (hframes : p.blocks.length ≤ p.conds.length) :
    Verdict w .initial (closers p.blocks) p True := by
  obtain ⟨conds, blocks, stmt⟩ := p
  dsimp only at hstart hinTask hpos hframes ⊢
  cases blocks with
  | nil =>
      obtain ⟨conds', hparser⟩ := @Parser.step_eof_abort w.setting ⟨conds, [], stmt⟩ hstart hpos
      exact .abort (lexes_eof w.ops .initial) hparser
  | cons block blocks =>
      have hlexes := lexes_closer w.ops (closers blocks) block
      have htoken : block.token = .endif ∨ block.token = .rbrace := by
        cases block with
        | branch | elseBranch => exact Or.inl rfl
        | task => exact Or.inr rfl
      have hparser := @Parser.step_closer w.setting ⟨conds, block :: blocks, stmt⟩ _ hstart hinTask
        hpos htoken
      refine .token hlexes hparser (by simp [Parser.Plain]) (.recovering ?_)
      exact verdict_fewer (Nat.lt_succ_self _) hframes

/-! ## Behind a file that ends in INITIAL -/

/-- The closing parenthesis of a test on one item. -/
theorem Parser.step_rparen (setting : Setting) (head : Head) {conds : CondStack}
    (hpos : 0 < conds.length) (blocks : List Block) (x : Item) :
    ∃ pushed, pushed.length = conds.length + 1 ∧
      Parser.step setting ⟨conds, blocks, .tests head ⟨.first, [], .item x⟩⟩ .rparen =
        some (.next ⟨pushed, blocks, .headEnd head⟩ none) := by
  obtain ⟨value, hvalue⟩ := testItem_of_pos hpos x
  cases head with
  | «if» =>
      obtain ⟨pushed, hpush, hlength⟩ := conditionPushIf_length hpos value
      refine ⟨pushed, hlength, ?_⟩
      simp [step, reduce, hvalue, closeTest, fits, TestsPos.fits, fitsAfterTest, shift, shiftTests,
        join, hpush]
  | elseIf =>
      obtain ⟨pushed, hpush, hlength⟩ := conditionPushElseIf_length hpos value
      refine ⟨pushed, hlength, ?_⟩
      simp [step, reduce, hvalue, closeTest, fits, TestsPos.fits, fitsAfterTest, shift, shiftTests,
        join, hpush]

/-- A test in the head of an `if`. -/
theorem Verdict.test {head : Head} {conds : CondStack} {blocks : List Block} {rest : Text}
    {rejected : Prop} (hpos : 0 < conds.length)
    (hverdict : ∀ pushed : CondStack, pushed.length = conds.length + 1 →
      Verdict w .initial ('\n' :: rest) ⟨pushed, blocks, .headEnd head⟩ rejected) :
    Verdict w .initial ("(a)".toList ++ '\n' :: rest) ⟨conds, blocks, .ifStart head⟩ rejected := by
  obtain ⟨pushed, hlength, hparser⟩ :=
    Parser.step_rparen w.setting head hpos blocks (.ofStr ['a'])
  refine .token (lexes_lparen w.ops rest) rfl (by simp [Parser.Plain]) ?_
  refine .token (lexes_item w.ops rest) rfl (by simp [Parser.Plain]) ?_
  exact .token (lexes_rparen w.ops rest) hparser (by simp [Parser.Plain]) (hverdict pushed hlength)

/-- Behind a file that ends in a statement, a text can go on in such a way that it matters
whether a newline stands in front. -/
theorem exists_text_initial {p : Parser} (hsafe : p.Safe) (hstart : p.stmt ≠ .start)
    (hplain : p.stmt.NotInclude) : ∃ text rejected, Verdict w .initial text p rejected ∧
      Verdict w .initial ('\n' :: text) p (¬ rejected) := by
  have hpos := hsafe.pos
  -- A pending statement is broken by the closers of the blocks, unless a newline ends it first.
  by_cases hpending : p.stmt.Pending
  · have hframes : p.blocks.length ≤ p.conds.length := by
      have hframes := hsafe.frames
      have hpopped := Parser.Safe.popped_le_one p.stmt
      omega
    refine ⟨closers p.blocks, True, verdict_broken hstart hpending.ne_inTask hpos hframes, ?_⟩
    rw [not_true_eq_false]
    exact .token (lexes_newline w.ops _) (Parser.step_newline hpending hpos)
      (by simp [Parser.Plain]) verdict_closers
  obtain ⟨conds, blocks, stmt⟩ := p
  have hframes := hsafe.frames
  have hchain := hsafe.chain
  dsimp only at hpos hframes hchain hstart hplain hpending ⊢
  cases stmt with
  | start => exact absurd rfl hstart
  | «include» | includeItem x => exact hplain.elim
  | headEnd head =>
      cases head with
      | elseIf => exact absurd trivial hpending
      | «if» =>
          refine ⟨')' :: '\n' :: closers blocks, False, ?_, ?_⟩
          · refine .token (lexes_rparen w.ops _) rfl (by simp [Parser.Plain]) ?_
            exact .recovering verdict_closers
          · rw [not_false_eq_true]
            refine .token (lexes_newline w.ops _) rfl (by simp [Parser.Plain]) ?_
            refine .token (lexes_rparen w.ops _) rfl (by simp [Parser.Plain]) ?_
            refine .recovering (verdict_fewer (Nat.lt_succ_self _) ?_)
            change blocks.length + 1 + 1 ≤ conds.length + 0 at hframes
            exact Nat.le_of_succ_le hframes
  | «else» =>
      change blocks.length + 1 + 0 ≤ conds.length + 0 at hframes
      have hblocks := List.length_pos_iff.mpr (hchain rfl)
      refine ⟨"if(a)".toList ++ '\n' :: closers blocks, False, ?_, ?_⟩
      · refine .token (lexes_if w.ops _) rfl (by simp [Parser.Plain]) (.test ?_ fun pushed _ => ?_)
        · have hpopped := conditionPop_length hpos
          change 0 < (conditionPop conds).2.length
          omega
        · exact .token (lexes_newline w.ops _) rfl (by simp [Parser.Plain]) verdict_closers
      · rw [not_false_eq_true]
        obtain ⟨pushed, hpush, hlength⟩ := @conditionPushElse_length conds (by omega)
        have hparser : Parser.step w.setting ⟨conds, blocks, .else⟩ .newline =
            some (.next ⟨pushed, .elseBranch :: blocks.tail, .start⟩ none) := by
          simp [Parser.step, Parser.reduce, Parser.fits, Parser.shift, hpush]
        refine .token (lexes_newline w.ops _) hparser (by simp [Parser.Plain]) ?_
        have hpos' : 0 < pushed.length := by omega
        refine .token (lexes_if w.ops _) rfl (by simp [Parser.Plain])
          (.test hpos' fun pushed' hlength' => ?_)
        change pushed'.length = pushed.length + 1 at hlength'
        refine .token (lexes_newline w.ops _) rfl (by simp [Parser.Plain]) (verdict_fewer ?_ ?_)
        · simp only [List.length_cons, List.length_tail]
          omega
        · simp only [List.length_cons, List.length_tail]
          omega
  | inTask =>
      change blocks.length + 1 + 0 ≤ conds.length + 0 at hframes
      refine ⟨'\n' :: '{' :: '\n' :: closers blocks, True, ?_, ?_⟩
      · refine .token (lexes_newline w.ops _) rfl (by simp [Parser.Plain]) ?_
        refine .token (lexes_lbrace w.ops _) rfl (by simp [Parser.Plain]) ?_
        refine .token (lexes_newline w.ops _) rfl (by simp [Parser.Plain]) ?_
        exact verdict_fewer (Nat.lt_succ_self _) (by simp; omega)
      · rw [not_true_eq_false]
        refine .token (lexes_newline w.ops _) rfl (by simp [Parser.Plain]) ?_
        refine .token (lexes_newline w.ops _) rfl (by simp [Parser.Plain]) ?_
        refine .token (lexes_lbrace w.ops _) rfl (by simp [Parser.Plain]) ?_
        exact .recovering verdict_closers
  | _ => exact absurd trivial hpending

/-! ## Behind a file that ends in a string or an operand -/

/-- An operand is being read. -/
def Start.Operand : Start → Prop
  | .initial | .str _ => False
  | .str2 _ _ | .postop _ _ => True

theorem Parser.Safe.blocks_le {p : Parser} (hsafe : p.Safe) : p.blocks.length ≤ p.conds.length := by
  have hframes := hsafe.frames
  have hpopped := Parser.Safe.popped_le_one p.stmt
  omega

/-- A newline in a string is not handed to the parser. -/
theorem exists_text_unterminated {p : Parser} {start start' : Start}
    (hlexes : ∀ rest, Lexes w.ops start ('\n' :: rest) none .initial rest)
    (hlexes' : ∀ rest, Lexes w.ops start' ('\n' :: rest) none .initial rest) (hsafe : p.Safe)
    (hstart : p.stmt ≠ .start) (hplain : p.stmt.NotInclude) :
    ∃ text rejected, Verdict w start text p rejected ∧
      Verdict w start' ('\n' :: text) p (¬ rejected) := by
  obtain ⟨text, rejected, hverdict, hverdict'⟩ :=
    @exists_text_initial E w p hsafe hstart hplain
  exact ⟨'\n' :: text, rejected, .silent (hlexes text) hverdict,
    .silent (hlexes' ('\n' :: text)) hverdict'⟩

/-- Where no statement has begun, the quote that ends the string makes it an item. -/
theorem exists_text_str {p : Parser} (hstart : p.stmt = .start) (hsafe : p.Safe)
    (buf buf' : Text) : ∃ text rejected, Verdict w (.str buf) text p rejected ∧
      Verdict w (.str buf') ('\n' :: text) p (¬ rejected) := by
  obtain ⟨conds, blocks, stmt⟩ := p
  obtain rfl : stmt = .start := hstart
  have hitem : ∀ x, Parser.step w.setting ⟨conds, blocks, .start⟩ (.item x) =
      some (.next ⟨conds, blocks, .item x⟩ none) := fun _ => rfl
  have hbroken : ∀ x, Verdict w .initial (closers blocks) ⟨conds, blocks, .item x⟩ True := fun x =>
    @verdict_broken E w ⟨conds, blocks, .item x⟩ (by simp) (by simp) hsafe.pos hsafe.blocks_le
  have hnewline : ∀ x, Parser.step w.setting ⟨conds, blocks, .item x⟩ .newline =
      some (.next ⟨conds, blocks, .start⟩ none) := fun x =>
    @Parser.step_newline w.setting ⟨conds, blocks, .item x⟩ trivial hsafe.pos
  refine ⟨'"' :: '"' :: '\n' :: closers blocks, True, ?_, ?_⟩
  · refine .token (lexes_endStr_quote w.ops _ buf) (hitem _) (by simp [Parser.Plain]) ?_
    refine .silent (lexes_beginStr w.ops _) (.silent (lexes_unterminated w.ops _ []) ?_)
    exact hbroken _
  · rw [not_true_eq_false]
    refine .silent (lexes_unterminated w.ops _ buf') (.silent (lexes_beginStr_quote w.ops _) ?_)
    refine .token (lexes_endStr w.ops _ []) (hitem _) (by simp [Parser.Plain]) ?_
    exact .token (lexes_newline w.ops _) (hnewline _) (by simp [Parser.Plain]) verdict_closers

/-- An operand goes on with what follows the file. -/
theorem exists_text_postop {p : Parser} (hpending : p.stmt.Pending) (hsafe : p.Safe)
    (buf buf' : Text) (got : Bool) : ∃ text rejected, Verdict w (.postop buf got) text p rejected ∧
      Verdict w (.postop buf' got) ('\n' :: text) p (¬ rejected) := by
  have hquote : ∀ (rest : Text) (rejected : Prop), Verdict w .initial rest p rejected →
      Verdict w (.postop buf got) ('"' :: '\n' :: rest) p rejected := fun rest rejected hverdict =>
    .silent (lexes_beginStr2 w.ops rest buf got)
      (.silent (lexes_unterminated_str2 w.ops rest buf got) hverdict)
  have hline : ∀ {conds : CondStack} {blocks : List Block},
      Verdict w .initial ('"' :: '\n' :: closers blocks) ⟨conds, blocks, .start⟩ False :=
    .silent (lexes_beginStr w.ops _) (.silent (lexes_unterminated w.ops _ []) verdict_closers)
  have hpos := hsafe.pos
  have hbroken : Verdict w .initial (closers p.blocks) p True :=
    verdict_broken hpending.ne_start hpending.ne_inTask hpos hsafe.blocks_le
  have hlexes := fun rest => lexes_endPostop w.ops rest buf' got
  by_cases hitem : buf' ≠ [] ∨ got = false
  · simp only [if_pos hitem] at hlexes
    have hinclude : p.stmt ≠ .include := by
      intro hstmt
      rw [hstmt] at hpending
      exact hpending
    obtain ⟨outcome, hparser, hpends⟩ := @Parser.step_pends w.setting p _ hinclude hpos
      (Or.inl ⟨.ofStr buf', rfl⟩)
    cases outcome with
    | accept conds => exact hpends.elim
    | abort conds =>
        refine ⟨'"' :: '\n' :: '\n' :: closers p.blocks, False, hquote _ _ ?_, ?_⟩
        · exact .token (lexes_newline w.ops _) (Parser.step_newline hpending hpos)
            (by simp [Parser.Plain]) verdict_closers
        · rw [not_false_eq_true]
          exact .abort (hlexes _) hparser
    | next p' action =>
        obtain ⟨hpending', hblocks, hlength⟩ := hpends
        refine ⟨'"' :: '\n' :: closers p.blocks, True, hquote _ _ hbroken, ?_⟩
        rw [not_true_eq_false]
        refine .token (hlexes _) hparser (Parser.inner_of_step_item hparser).1 ?_
        refine .token (lexes_newline w.ops _)
          (Parser.step_newline hpending' (Nat.lt_of_lt_of_le hpos hlength))
          (by simp [Parser.Plain]) ?_
        rw [← hblocks]
        exact hline
  · simp only [if_neg hitem] at hlexes
    refine ⟨'"' :: '\n' :: closers p.blocks, True, hquote _ _ hbroken, ?_⟩
    rw [not_true_eq_false]
    refine .silent (hlexes _) ?_
    exact .token (lexes_newline w.ops _) (Parser.step_newline hpending hpos)
      (by simp [Parser.Plain]) hline

/-- Behind a file that does not end between two statements, a text can go on in such a way that
it matters whether a newline stands in front. -/
theorem exists_text {p : Parser} {start : Start} (hsafe : p.Safe) (hplain : p.stmt.NotInclude)
    (hinside : start = .initial → p.stmt ≠ .start) (hoperand : start.Operand → p.stmt.Pending)
    (added added' : Text) : ∃ text rejected, Verdict w (start.append added) text p rejected ∧
      Verdict w (start.append added') ('\n' :: text) p (¬ rejected) := by
  cases start with
  | initial => exact exists_text_initial hsafe (hinside rfl) hplain
  | str buf =>
      by_cases hstart : p.stmt = .start
      · exact exists_text_str hstart hsafe _ _
      · exact exists_text_unterminated (fun rest => lexes_unterminated w.ops rest _)
          (fun rest => lexes_unterminated w.ops rest _) hsafe hstart hplain
  | str2 buf got =>
      have hpending : p.stmt.Pending := hoperand trivial
      exact exists_text_unterminated (fun rest => lexes_unterminated_str2 w.ops rest _ got)
        (fun rest => lexes_unterminated_str2 w.ops rest _ got) hsafe hpending.ne_start hplain
  | postop buf got => exact exists_text_postop (hoperand trivial) hsafe _ _ got

/-! ## Operands belong to a statement -/

/-- The tokens that an operand follows, and items. -/
def Token.Inner : Token → Prop
  | .item _ | .print | .include | .setOp _ => True
  | _ => False

namespace Start

/-- The matches in an operand return items only, and what an operand follows is known. -/
theorem rules_operand (start : Start) : ∀ rule ∈ start.rules,
    (start.Operand → (rule.action matches .token _) = false) ∧
      ∀ t, rule.action = .beginPostop t → t.Inner := by
  have hinitial : ∀ rule ∈ LexRule.initial, (match rule.action with
      | .beginPostop .print | .beginPostop .include | .beginPostop (.setOp _) => true
      | .beginPostop _ => false
      | _ => true) = true := by decide
  have hothers : ∀ rule ∈ LexRule.str ++ LexRule.str2 ++ LexRule.postop,
      (rule.action matches .token _ | .beginPostop _) = false := by decide
  have hother : ∀ rule ∈ LexRule.str ++ LexRule.str2 ++ LexRule.postop,
      (rule.action matches .token _) = false ∧ ∀ t, rule.action = .beginPostop t → t.Inner := by
    intro rule hrule
    have hnone := hothers rule hrule
    refine ⟨?_, fun t ht => ?_⟩
    · cases haction : rule.action <;> simp_all
    · rw [ht] at hnone
      exact absurd hnone (by simp)
  intro rule hrule
  cases start with
  | initial =>
      refine ⟨False.elim, fun t ht => ?_⟩
      have hfound := hinitial rule hrule
      rw [ht] at hfound
      cases t with
      | print | «include» | setOp op => trivial
      | _ => exact absurd hfound Bool.false_ne_true
  | str buf =>
      obtain ⟨htoken, hbegin⟩ :=
        hother rule (List.mem_append_left _ (List.mem_append_left _ hrule))
      exact ⟨fun _ => htoken, hbegin⟩
  | str2 buf got =>
      obtain ⟨htoken, hbegin⟩ :=
        hother rule (List.mem_append_left _ (List.mem_append_right _ hrule))
      exact ⟨fun _ => htoken, hbegin⟩
  | postop buf got =>
      obtain ⟨htoken, hbegin⟩ := hother rule (List.mem_append_right _ hrule)
      exact ⟨fun _ => htoken, hbegin⟩

theorem operand_append (start : Start) (text : Text) :
    (start.append text).Operand ↔ start.Operand := by
  cases start <;> exact Iff.rfl

end Start

namespace Lexer

/-- Before an operand is read, and with every item of it, a token is returned that is part of a
statement. -/
theorem act_operand (ops : EnvOps E) (l : Lexer E) {rule : LexRule} (hrule : rule ∈ l.start.rules)
    (yytext : Text) (hoperand : (l.act ops rule.action yytext).1.start.Operand) :
    (l.act ops rule.action yytext).2 = none ∧ l.start.Operand ∨
      ∃ t, (l.act ops rule.action yytext).2 = some t ∧ t.Inner := by
  obtain ⟨htoken, hbegin⟩ := l.start.rules_operand rule hrule
  clear hrule
  generalize rule.action = action at hoperand htoken hbegin ⊢
  obtain ⟨start, current, saved, tables⟩ := l
  cases action with
  | skip => exact Or.inl ⟨rfl, hoperand⟩
  | token t => exact absurd (htoken hoperand) (by simp)
  | beginPostop t => exact Or.inr ⟨t, rfl, hbegin t rfl⟩
  | intItem | strItem | symItem | bracketedItem | endStr2 => exact Or.inr ⟨_, rfl, trivial⟩
  | beginStr | endStr | unterminated => exact hoperand.elim
  | beginStr2 =>
      cases start with
      | postop buf got => exact Or.inl ⟨rfl, trivial⟩
      | _ => exact Or.inl ⟨rfl, hoperand⟩
  | endPostop =>
      cases start with
      | postop buf got =>
          unfold act at hoperand
          dsimp only at hoperand
          split at hoperand <;> exact hoperand.elim
      | _ => exact Or.inl ⟨rfl, hoperand⟩
  | blanks =>
      cases start with
      | postop buf got =>
          unfold act
          dsimp only
          split
          · exact Or.inr ⟨_, rfl, trivial⟩
          · exact Or.inl ⟨rfl, trivial⟩
      | _ => exact Or.inl ⟨rfl, hoperand⟩
  | home =>
      unfold act at hoperand ⊢
      dsimp only at hoperand ⊢
      split at hoperand <;> exact Or.inl ⟨rfl, (start.operand_append _).mp hoperand⟩
  | symbol | bracketedSymbol =>
      unfold act putSymbol at hoperand ⊢
      dsimp only at hoperand ⊢
      split at hoperand
      · exact Or.inl ⟨rfl, hoperand⟩
      · exact Or.inl ⟨rfl, (start.operand_append _).mp hoperand⟩
  | put c => exact Or.inl ⟨rfl, (start.operand_append _).mp hoperand⟩
  | putText => exact Or.inl ⟨rfl, (start.operand_append _).mp hoperand⟩

theorem step_operand_inner (ops : EnvOps E) (l : Lexer E) (hrest : l.current.rest ≠ [])
    (hoperand : (l.step ops).1.start.Operand) :
    (l.step ops).2 = none ∧ l.start.Operand ∨ ∃ t, (l.step ops).2 = some t ∧ t.Inner := by
  obtain ⟨c, rest, hcons⟩ := List.exists_cons_of_ne_nil hrest
  simp only [step, hcons] at hoperand ⊢
  split at hoperand
  next => exact Or.inl ⟨rfl, hoperand⟩
  next rule n hscan =>
    exact act_operand ops (l.setRest ((c :: rest).drop (rule.width n)))
      (ScanRule.of_scan hscan).1 _ hoperand

end Lexer

theorem Parser.pending_of_inner {setting : Setting} {p p' : Parser} {t : Token}
    {action : Option Action} (hplain : p.stmt.NotInclude) (hplain' : p'.stmt.NotInclude)
    (hpos : 0 < p.conds.length) (hinner : t.Inner)
    (hstep : p.step setting t = some (.next p' action)) : p'.stmt.Pending := by
  have hinclude : p.stmt ≠ .include := by
    intro hstmt
    rw [hstmt] at hplain
    exact hplain
  have ht : (∃ i, t = .item i) ∨ t = .print ∨ (t = .include ∧ p.stmt ≠ .start) ∨
      ∃ op, t = .setOp op := by
    cases t with
    | item i => exact Or.inl ⟨i, rfl⟩
    | print => exact Or.inr (Or.inl rfl)
    | «include» =>
        refine Or.inr (Or.inr (Or.inl ⟨rfl, fun hstmt => ?_⟩))
        obtain ⟨conds, blocks, stmt⟩ := p
        obtain rfl : stmt = .start := hstmt
        obtain ⟨rfl, -⟩ := Outcome.next.inj (Option.some_inj.mp hstep)
        exact hplain'
    | setOp op => exact Or.inr (Or.inr (Or.inr ⟨op, rfl⟩))
    | _ => exact hinner.elim
  obtain ⟨outcome, houtcome, hpends⟩ := @step_pends setting p t hinclude hpos ht
  obtain rfl := Option.some_inj.mp (houtcome.symm.trans hstep)
  exact hpends.1

namespace Machine

variable {m m' : Machine E}

/-- An operand that is being read belongs to a statement. -/
theorem pending_of_reads (hstart : m.lexer.start = .initial)
    (hplain : m.NoInclude w) (hsafe : ∀ m', m.Reads w m' → m'.parser.Safe)
    (hreads : m.Reads w m') : m'.lexer.start.Operand → m'.parser.stmt.Pending := by
  obtain ⟨actions, hwithin⟩ := hreads
  have hfirst : m.lexer.start.Operand → m.parser.stmt.Pending := by
    rw [hstart]
    exact False.elim
  clear hstart
  induction hwithin with
  | refl m => exact hfirst
  | @next m m₁ m₂ executed more hrest hholds hstep hmore ih =>
      have hreads₁ : m.Reads w m₁ := ⟨_, .next hrest trivial hstep (.refl m₁)⟩
      refine ih (fun m' ⟨rest, hwithin⟩ => hplain m' ⟨_, .next hrest trivial hstep hwithin⟩)
        (fun m' ⟨rest, hwithin⟩ => hsafe m' ⟨_, .next hrest trivial hstep hwithin⟩) ?_
      intro hoperand
      have hself : m.Reads w m := ⟨[], .refl m⟩
      obtain ⟨-, -, -, hsame⟩ | ⟨name, f, hincludes, -⟩ := step_next hstep
      · rw [hsame] at hoperand
        rcases m.lexer.step_operand_inner w.ops hrest hoperand with ⟨hnone, hkept⟩ | ⟨t, ht, hinner⟩
        · rw [step_silent hnone] at hstep
          obtain ⟨rfl, -⟩ := Turn.next.inj hstep
          exact hfirst hkept
        · obtain ⟨action, hparser⟩ := parser_of_next hstep ht
          exact Parser.pending_of_inner (hplain m hself) (hplain m₁ hreads₁) (hsafe m hself).pos
            hinner hparser
      · rw [includes_eq_none (hplain m hself)] at hincludes
        exact absurd hincludes (by simp)

end Machine

end SlurmSpank.UseEnv
