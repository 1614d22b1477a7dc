import SlurmSpank.UseEnv.Condition

/-! # The use-env grammar and its actions

The derivation trees of well-formed files, and the actions that the parser performs for
them, in the order in which it reduces. A test carries the truth value that it has when
it is evaluated, and an included file is the tree of its statements.
-/

namespace SlurmSpank.UseEnv

/-! ## Tests -/

/-- `test`: a comparison, match, `defined` or plain item, parenthesised or negated. -/
inductive Test where
  | item (value : Bool)
  | paren (test : Test)
  | not (test : Test)

/-- `tests`. -/
inductive Tests where
  | one (test : Test)
  | and (tests : Tests) (test : Test)
  | or (tests : Tests) (test : Test)

/-- The value of a test. The functions behind an item (`cmp_items`, `item_defined`,
`test_item`, `do_fnmatch`) return 0 when the current condition is false. -/
def parseTest (stack : CondStack) : Test → Option Bool
  | .item value => do
      let executing ← condition stack
      some (executing && value)
  | .paren test => parseTest stack test
  | .not test => do
      let value ← parseTest stack test
      let executing ← condition stack
      some (if executing then !value else false)

/-- The value of a list of tests. -/
def parseTests (stack : CondStack) : Tests → Option Bool
  | .one test => parseTest stack test
  | .and tests test => do
      let left ← parseTests stack tests
      let right ← parseTest stack test
      some (left && right)
  | .or tests test => do
      let left ← parseTests stack tests
      let right ← parseTest stack test
      some (left || right)

/-! ## Statements -/

mutual

/-- `stmts`. -/
inductive Stmts where
  | nil
  | cons (stmt : Stmt) (rest : Stmts)

/-- `stmt`, where `expr` stands for every `expr` and `print` statement. -/
inductive Stmt where
  | expr (id : Nat)
  | ifStmt (tests : Tests) (body : Stmts) (tail : IfTail)
  | inTask (body : Stmts)
  | includeFile (file : Stmts)

/-- `if_tail`. -/
inductive IfTail where
  | endif
  | else (body : Stmts)
  | elseIf (tests : Tests) (body : Stmts) (tail : IfTail)

end

/-- What a run of the parser does: it executes a statement, or finishes an `if` with the
stack before the `if` and the stack after its `endif`. -/
inductive Event where
  | execute (id : Nat)
  | endif (before after : CondStack)
  deriving DecidableEq

/-- The statements executed, in order. -/
def executed (events : List Event) : List Nat :=
  events.filterMap fun
    | .execute id => some id
    | .endif _ _ => none

mutual

/-- The actions for `stmts`. -/
def parseStmts (task : Bool) : Stmts → CondStack → Option (CondStack × List Event)
  | .nil, stack => some (stack, [])
  | .cons stmt rest, stack => do
      let (stack, first) ← parseStmt task stmt stack
      let (stack, more) ← parseStmts task rest stack
      some (stack, first ++ more)

/-- The actions for `stmt`. -/
def parseStmt (task : Bool) : Stmt → CondStack → Option (CondStack × List Event)
  | .expr id, stack => do
      let executing ← condition stack
      some (stack, if executing then [.execute id] else [])
  | .ifStmt tests body tail, stack => do
      let value ← parseTests stack tests
      let inner ← conditionPushIf value stack
      let (inner, first) ← parseStmts task body inner
      let (after, more) ← parseIfTail task tail inner
      some (after, first ++ more ++ [.endif stack after])
  | .inTask body, stack => do
      let (inner, events) ← parseStmts task body (inTaskBegin task stack)
      let (_, after) := inTaskEnd inner
      some (after, events)
  | .includeFile file, stack => do
      let executing ← condition stack
      if executing then parseStmts task file stack else some (stack, [])

/-- The actions for `if_tail`. -/
def parseIfTail (task : Bool) : IfTail → CondStack → Option (CondStack × List Event)
  | .endif, stack => do
      let (_, stack) ← conditionPopEndif stack
      some (stack, [])
  | .else body, stack => do
      let stack ← conditionPushElse stack
      let (stack, events) ← parseStmts task body stack
      let (_, stack) ← conditionPopEndif stack
      some (stack, events)
  | .elseIf tests body tail, stack => do
      let (_, stack) := conditionPop stack
      let value ← parseTests stack tests
      let stack ← conditionPushElseIf value stack
      let (stack, first) ← parseStmts task body stack
      let (stack, more) ← parseIfTail task tail stack
      some (stack, first ++ more)

end

/-- The run of the parser over one file, from the stack of `use_env_parser_init`. -/
def useEnvParse (task : Bool) (file : Stmts) : Option (CondStack × List Event) :=
  parseStmts task file (conditionInit task)

/-! ## Files without `in task` blocks -/

mutual

/-- No `in task` block occurs in the statements. -/
def Stmts.Plain : Stmts → Prop
  | .nil => True
  | .cons stmt rest => stmt.Plain ∧ rest.Plain

def Stmt.Plain : Stmt → Prop
  | .expr _ => True
  | .ifStmt _ body tail => body.Plain ∧ tail.Plain
  | .inTask _ => False
  | .includeFile file => file.Plain

def IfTail.Plain : IfTail → Prop
  | .endif => True
  | .else body => body.Plain
  | .elseIf _ body tail => body.Plain ∧ tail.Plain

end

end SlurmSpank.UseEnv
