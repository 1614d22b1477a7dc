import SlurmSpank.UseEnv.Item

/-! # The use-env parser

The parser of the grammar as a machine that takes one token at a time. Its stack is reduced
to the blocks that are open and the statement that is being read. A rule is reduced as soon
as the generated parser reduces it: at once, unless the state also shifts a token. On a
syntax error the parser goes back to the statements of the innermost open block and skips
tokens to the end of the statement, as the rule `error stmt_end` has it.
-/

namespace SlurmSpank.UseEnv

/-- The tokens of the grammar, with the end of the input. -/
inductive Token where
  | newline
  | semi
  | item (i : Item)
  | setOp (op : SetOp)
  | unset
  | include
  | if
  | else
  | endif
  | and
  | or
  | defined
  | print
  | set
  | define
  | undefine
  | dump
  | inTask
  | match
  | cmp (cmp : Cmp)
  | comma
  | bang
  | lparen
  | rparen
  | lbrace
  | rbrace
  | eof

/-! ## Unfinished statements -/

/-- Whether a test list belongs to an `if` or to an `else if`. -/
inductive Head where
  | if
  | elseIf
  deriving DecidableEq

/-- What stands open in front of a test. -/
inductive Mark where
  | paren
  | bang
  deriving DecidableEq

/-- The tests of a list so far, with the operator that joins the next one. -/
inductive Joined where
  | first
  | and (left : Bool)
  | or (left : Bool)

/-- Where in a test the parser is. -/
inductive TestPos where
  | expect
  | item (x : Item)
  | cmp (x : Item) (cmp : Cmp)
  | match (x : Item)
  | defined
  | inner (value : Bool)
  | done (value : Bool)

/-- A list of tests that is being read. -/
structure TestsPos where
  joined : Joined
  marks : List Mark
  pos : TestPos

/-- What has been read of the statement. -/
inductive StmtPos where
  | start
  | recovering
  | ended
  | print
  | include
  | includeItem (x : Item)
  | item (x : Item)
  | itemOp (x : Item) (op : SetOp)
  | unset
  | undefine
  | dump
  | set
  | setItem (x : Item)
  | define
  | defineItem (x : Item)
  | defineAssign (x : Item)
  | ifStart (head : Head)
  | tests (head : Head) (tests : TestsPos)
  | headEnd (head : Head)
  | else
  | inTask
  | inTaskHead

/-- The statement lists that a block can hold: a branch that `else` may follow, the branch of
an `else`, and an `in task` block. -/
inductive Block where
  | branch
  | elseBranch
  | task
  deriving DecidableEq

/-- The state of the parser, with the condition stack. -/
structure Parser where
  conds : CondStack
  blocks : List Block
  stmt : StmtPos

/-! ## The tokens that fit -/

/-- The tokens that may follow a test behind the given marks. -/
def fitsAfterTest (marks : List Mark) (t : Token) : Bool :=
  match marks.dropWhile (· = .bang), t with
  | [], .and | [], .or | [], .rparen => true
  | _ :: _, .rparen => true
  | _, _ => false

/-- The tokens that may come next in a list of tests. -/
def TestsPos.fits (tests : TestsPos) (t : Token) : Bool :=
  match tests.pos, t with
  | .expect, .item _ | .expect, .defined | .expect, .lparen | .expect, .bang => true
  | .item _, .cmp _ | .item _, .match => true
  | .item _, t => fitsAfterTest tests.marks t
  | .cmp _ _, .item _ | .match _, .item _ | .defined, .item _ => true
  | .inner _, .rparen => true
  | .done _, .and | .done _, .or | .done _, .rparen => true
  | _, _ => false

/-- The tokens that may come where a statement starts. -/
def fitsStart (blocks : List Block) (t : Token) : Bool :=
  match t with
  | .newline | .semi | .item _ | .unset | .undefine | .dump | .set | .define | .print | .include
  | .if | .inTask => true
  | .else => blocks.head? = some .branch
  | .endif => blocks.head? = some .branch || blocks.head? = some .elseBranch
  | .rbrace => blocks.head? = some .task
  | .eof => blocks.isEmpty
  | _ => false

/-- The tokens that fit the grammar in a state of the parser. -/
def Parser.fits (p : Parser) (t : Token) : Bool :=
  match p.stmt, t with
  | .start, t => fitsStart p.blocks t
  | .recovering, .newline | .recovering, .semi | .ended, .newline | .ended, .semi => true
  | .print, .item _ | .include, .item _ | .itemOp _ _, .item _ | .unset, .item _
  | .undefine, .item _ | .dump, .item _ | .set, .item _ | .setItem _, .item _
  | .define, .item _ | .defineAssign _, .item _ => true
  | .includeItem _, .newline => true
  | .item _, .setOp _ => true
  | .defineItem _, .setOp .assign => true
  | .ifStart _, .lparen => true
  | .tests _ tests, t => tests.fits t
  | .headEnd _, .newline => true
  | .else, .newline | .else, .if => true
  | .inTask, .newline | .inTask, .lbrace | .inTaskHead, .lbrace => true
  | _, _ => false

/-! ## Actions -/

/-- What a statement does when it is executed. -/
inductive Action where
  | assign (name val : Text) (op : SetOp)
  | unset (name : Text)
  | define (name value : Text)
  | undefine (name : Text)
  | print (text : Text)
  | dump (keywords symbols : Bool)
  | verbose (level : Int)
  | include (name : Text)
  deriving DecidableEq

/-- What a step of the parser comes to: another state, with what is executed on the way, or
the end of the parse. -/
inductive Outcome where
  | next (p : Parser) (action : Option Action)
  | accept (conds : CondStack)
  | abort (conds : CondStack)

/-- An action that is taken where the condition holds. -/
def whenExecuting (conds : CondStack) (action : Option Action) : Option (Option Action) := do
  let executing ← condition conds
  some (if executing then action else none)

/-- `env_var_set`. -/
def envVarSet (conds : CondStack) (name val : Text) (op : SetOp) : Option (Option Action) :=
  if isValidIdentifier name then whenExecuting conds (some (.assign name val op)) else some none

/-- `env_var_unset`. -/
def envVarUnset (conds : CondStack) (name : Text) : Option (Option Action) :=
  if isValidIdentifier name then whenExecuting conds (some (.unset name)) else some none

/-- `set_parser_option`. -/
def setParserOption (conds : CondStack) (option : Text) (x : Item) : Option (Option Action) :=
  whenExecuting conds
    (if option = "debuglevel".toList then x.typeInt.map .verbose else none)

/-- `dump_item`. An argument stands for each word that it begins. -/
def dumpItem (conds : CondStack) (name : Text) : Option (Option Action) :=
  whenExecuting conds
    (if name.isPrefixOf "symbols".toList then some (.dump false true)
    else if name.isPrefixOf "keywords".toList then some (.dump true false)
    else if name.isPrefixOf "all".toList then some (.dump true true)
    else none)

/-- `define_symbol`, where -1 is `none`. -/
def defineSymbol (conds : CondStack) (name : Text) (x : Item) :
    Option (Option (Option Action)) :=
  if isValidIdentifier name then (whenExecuting conds (some (.define name x.str))).map some
  else some none

namespace Parser

variable (setting : Setting)

/-- Go on with the statement. -/
def goto (p : Parser) (stmt : StmtPos) : Outcome := .next { p with stmt := stmt } none

/-- The end of an `expr` or `print`. -/
def finish (p : Parser) (action : Option (Option Action)) : Option Outcome :=
  action.map fun action => .next { p with stmt := .ended } action

/-- Join a test to the tests before it. -/
def join (joined : Joined) (value : Bool) : Bool :=
  match joined with
  | .first => value
  | .and left => left && value
  | .or left => left || value

/-- Where the parser is after a test with the given value: the negations in front of it are
reduced, up to a parenthesis or to the list. -/
def closeTest (conds : CondStack) (joined : Joined) :
    List Mark → Bool → Option TestsPos
  | [], value => some ⟨joined, [], .done (join joined value)⟩
  | .paren :: marks, value => some ⟨joined, .paren :: marks, .inner value⟩
  | .bang :: marks, value => do
      let executing ← condition conds
      closeTest conds joined marks (if executing then !value else false)

/-- The reduction that waits for the next token: an item in a test is a test of its own unless
an operator follows, and `in task` opens a block unless a newline follows. -/
def reduce (p : Parser) (t : Token) : Option Parser :=
  match p.stmt, t with
  | .tests _ ⟨_, _, .item _⟩, .cmp _ | .tests _ ⟨_, _, .item _⟩, .match => some p
  | .tests head ⟨joined, marks, .item x⟩, _ => do
      let value ← testItem p.conds x
      let tests ← closeTest p.conds joined marks value
      some { p with stmt := .tests head tests }
  | .inTask, .newline => some p
  | .inTask, _ =>
      some { p with conds := inTaskBegin setting.inTask p.conds, stmt := .inTaskHead }
  | _, _ => some p

/-- A syntax error at a token. -/
def recover (p : Parser) (t : Token) : Outcome :=
  match t with
  | .eof => .abort p.conds
  | .newline | .semi => p.goto .start
  | _ => p.goto .recovering

/-- A finished test, or the abort of the parser. -/
def endTest (p : Parser) (head : Head) (joined : Joined) (marks : List Mark)
    (value : TestResult) : Option Outcome :=
  match value with
  | none => some (.abort p.conds)
  | some value => (closeTest p.conds joined marks value).map fun tests => p.goto (.tests head tests)

/-- The shift of a token in a list of tests, with the reductions that follow. -/
def shiftTests (p : Parser) (head : Head) (tests : TestsPos) (t : Token) : Option Outcome :=
  let ⟨joined, marks, pos⟩ := tests
  match pos, t with
  | .expect, .item x => some (p.goto (.tests head ⟨joined, marks, .item x⟩))
  | .expect, .defined => some (p.goto (.tests head ⟨joined, marks, .defined⟩))
  | .expect, .lparen => some (p.goto (.tests head ⟨joined, .paren :: marks, .expect⟩))
  | .expect, .bang => some (p.goto (.tests head ⟨joined, .bang :: marks, .expect⟩))
  | .item x, .cmp cmp => some (p.goto (.tests head ⟨joined, marks, .cmp x cmp⟩))
  | .item x, .match => some (p.goto (.tests head ⟨joined, marks, .match x⟩))
  | .cmp x cmp, .item y => do
      let value ← cmpItems setting p.conds cmp x y
      p.endTest head joined marks value
  | .match x, .item y => do
      let value ← doFnmatch setting p.conds y x
      p.endTest head joined marks (some value)
  | .defined, .item x => do
      let value ← itemDefined p.conds x
      p.endTest head joined marks value
  | .inner value, .rparen => p.endTest head joined marks.tail (some value)
  | .done value, .and => some (p.goto (.tests head ⟨.and value, [], .expect⟩))
  | .done value, .or => some (p.goto (.tests head ⟨.or value, [], .expect⟩))
  | .done value, .rparen => do
      let conds ←
        match head with
        | .if => conditionPushIf value p.conds
        | .elseIf => conditionPushElseIf value p.conds
      some (.next { p with conds := conds, stmt := .headEnd head } none)
  | _, t => some (p.recover t)

/-- The shift of a token where a statement starts. -/
def shiftStart (p : Parser) (t : Token) : Option Outcome :=
  match t with
  | .newline | .semi => some (p.goto .start)
  | .item x => some (p.goto (.item x))
  | .unset => some (p.goto .unset)
  | .undefine => some (p.goto .undefine)
  | .dump => some (p.goto .dump)
  | .set => some (p.goto .set)
  | .define => some (p.goto .define)
  | .print => some (p.goto .print)
  | .include => some (p.goto .include)
  | .if => some (p.goto (.ifStart .if))
  | .inTask => some (p.goto .inTask)
  | .else => some (p.goto .else)
  | .endif => do
      let (_, conds) ← conditionPopEndif p.conds
      some (.next ⟨conds, p.blocks.tail, .ended⟩ none)
  | .rbrace =>
      let (_, conds) := inTaskEnd p.conds
      some (.next ⟨conds, p.blocks.tail, .ended⟩ none)
  | .eof => some (.accept p.conds)
  | t => some (p.recover t)

/-- The shift of a token that fits, with the reductions that follow without another token. -/
def shift (p : Parser) (t : Token) : Option Outcome :=
  match p.stmt, t with
  | .start, t => p.shiftStart t
  | .recovering, .newline | .recovering, .semi | .ended, .newline | .ended, .semi =>
      some (p.goto .start)
  | .print, .item x => p.finish (whenExecuting p.conds (some (.print x.str)))
  | .include, .item x => some (p.goto (.includeItem x))
  | .includeItem x, .newline =>
      (whenExecuting p.conds (some (.include x.name))).map fun action =>
        .next { p with stmt := .start } action
  | .item x, .setOp op => some (p.goto (.itemOp x op))
  | .itemOp x op, .item y => p.finish (envVarSet p.conds x.name y.str op)
  | .unset, .item x => p.finish (envVarUnset p.conds x.name)
  | .undefine, .item x => p.finish (whenExecuting p.conds (some (.undefine x.name)))
  | .dump, .item x => p.finish (dumpItem p.conds x.name)
  | .set, .item x => some (p.goto (.setItem x))
  | .setItem x, .item y => p.finish (setParserOption p.conds x.name y)
  | .define, .item x => some (p.goto (.defineItem x))
  | .defineItem x, .setOp .assign => some (p.goto (.defineAssign x))
  | .defineAssign x, .item y => do
      match ← defineSymbol p.conds x.name y with
      | none => some (.abort p.conds)
      | some action => some (.next { p with stmt := .ended } action)
  | .ifStart head, .lparen => some (p.goto (.tests head ⟨.first, [], .expect⟩))
  | .tests head tests, t => p.shiftTests setting head tests t
  | .headEnd .if, .newline =>
      some (.next { p with blocks := .branch :: p.blocks, stmt := .start } none)
  | .headEnd .elseIf, .newline => some (p.goto .start)
  | .else, .newline => do
      let conds ← conditionPushElse p.conds
      some (.next ⟨conds, .elseBranch :: p.blocks.tail, .start⟩ none)
  | .else, .if =>
      let (_, conds) := conditionPop p.conds
      some (.next { p with conds := conds, stmt := .ifStart .elseIf } none)
  | .inTask, .newline =>
      let conds := inTaskBegin setting.inTask p.conds
      some (.next { p with conds := conds, stmt := .inTaskHead } none)
  | .inTaskHead, .lbrace =>
      some (.next { p with blocks := .task :: p.blocks, stmt := .start } none)
  | _, t => some (p.recover t)

/-- One step of the parser. -/
def step (p : Parser) (t : Token) : Option Outcome := do
  let reduced ← p.reduce setting t
  if p.fits t then reduced.shift setting t else some (reduced.recover t)

end Parser

end SlurmSpank.UseEnv
