import Mathlib.Data.List.DropRight
import SlurmSpank.Foundation.Scanner
import SlurmSpank.UseEnv.Parser

/-! # The use-env lexer

The rules of the lexer with their actions, and the stack of files that it reads. The token
buffer takes any text. A start condition holds the static variables that are live in it.
-/

namespace SlurmSpank.UseEnv

open Foundation Lib

universe u

/-! ## Rules -/

/-- The actions of the rules. -/
inductive LexAction where
  | skip
  | token (t : Token)
  | beginPostop (t : Token)
  | beginStr
  | intItem
  | strItem
  | symItem
  | bracketedItem
  | beginStr2
  | endPostop
  | blanks
  | endStr
  | endStr2
  | unterminated
  | home
  | symbol
  | bracketedSymbol
  | put (c : Char)
  | putText

/-- A rule of the lexer. -/
abbrev LexRule := ScanRule Char LexAction

namespace LexRule

/-- A rule without trailing context. -/
def plain (pattern : Regex Char) (action : LexAction) : LexRule := ⟨pattern, none, action⟩

/-- A rule for one word. -/
def ofWord (word : String) (action : LexAction) : LexRule := plain (.word word.toList) action

/-- `[ \t]`. -/
def blank (c : Char) : Bool := c = ' ' || c = '\t'

/-- `{digit}`. -/
def digit (c : Char) : Bool := '0' ≤ c && c ≤ '9'

/-- `{ident}`. -/
def ident (c : Char) : Bool :=
  '0' ≤ c && c ≤ '9' || 'a' ≤ c && c ≤ 'z' || 'A' ≤ c && c ≤ 'Z' || c = '_'

/-- `[_a-zA-z]`. -/
def idStart (c : Char) : Bool := c = '_' || 'a' ≤ c && c ≤ 'z' || 'A' ≤ c && c ≤ 'z'

/-- `{id}`. -/
def id : Regex Char := .seq (.cls idStart) (.star (.cls ident))

/-- `{p}`. -/
def p (c : Char) : Bool :=
  c = ')' || c = '<' || c = '>' || c = ';' || c = '=' || c = '+' || c = '\n' || c = ' ' ||
    c = '\t' || c = '#'

/-- `#[^\n]*`. -/
def comment : Regex Char := .seq (.cls (· = '#')) (.star (.cls (· ≠ '\n')))

/-- `\${id}`. -/
def dollarId : Regex Char := .seq (.cls (· = '$')) id

/-- `\$\{{id}\}`. -/
def bracketedId : Regex Char :=
  .seq (.cls (· = '$')) (.seq (.cls (· = '{')) (.seq id (.cls (· = '}'))))

/-- The rules of the start condition `INITIAL`. -/
def initial : List LexRule :=
  [plain (.plus (.cls blank)) .skip,
    plain comment .skip,
    plain (.cls (· = '\n')) (.token .newline),
    plain (.cls (· = '"')) .beginStr,
    ofWord "dump" (.token .dump),
    ofWord "define" (.token .define),
    ofWord "undefine" (.token .undefine),
    ofWord "set" (.token .set),
    ofWord "unset" (.token .unset),
    ofWord "if" (.token .if),
    ofWord "else" (.token .else),
    ofWord "endif" (.token .endif),
    ofWord "defined" (.token .defined),
    ofWord "in task" (.token .inTask),
    plain (.seq (.word "match".toList) (.alt (.word "es".toList) .empty)) (.token .match),
    ofWord "print" (.beginPostop .print),
    ofWord "include" (.beginPostop .include),
    ofWord "|=" (.beginPostop (.setOp .condSet)),
    ofWord "+=" (.beginPostop (.setOp .prepend)),
    ofWord "=+" (.beginPostop (.setOp .append)),
    ofWord "=" (.beginPostop (.setOp .assign)),
    ofWord "," (.token .comma),
    ofWord "!" (.token .bang),
    ofWord "(" (.token .lparen),
    ofWord ")" (.token .rparen),
    plain (.cls (· = '{')) (.token .lbrace),
    plain (.cls (· = '}')) (.token .rbrace),
    ofWord ";" (.token .semi),
    ofWord "<" (.token (.cmp .lt)),
    ofWord ">" (.token (.cmp .gt)),
    ofWord "==" (.token (.cmp .eq)),
    ofWord "<=" (.token (.cmp .le)),
    ofWord ">=" (.token (.cmp .ge)),
    ofWord "!=" (.token (.cmp .ne)),
    ofWord "&&" (.token .and),
    ofWord "||" (.token .or),
    ⟨.plus (.cls digit), some p, .intItem⟩,
    plain (.plus (.cls ident)) .strItem,
    plain dollarId .symItem,
    plain bracketedId .bracketedItem]

/-- The rules that `STR`, `STR2` and `POSTOP` share. -/
def shared : List LexRule :=
  [plain (.cls (· = '~')) .home,
    plain dollarId .symbol,
    plain bracketedId .bracketedSymbol,
    ⟨.cls (· = '\\'), some (· = '\n'), .put '$'⟩,
    plain (.word ['\\', 'n']) (.put '\n'),
    plain (.word ['\\', 't']) (.put '\t'),
    plain (.word ['\\', 'r']) (.put '\r'),
    plain (.word ['\\', '"']) (.put '"'),
    plain (.cls (· ≠ '\n')) .putText]

/-- The rules of `POSTOP`. -/
def postop : List LexRule :=
  [plain (.cls (· = '"')) .beginStr2,
    plain (.cls fun c => c = '\n' || c = ';') .endPostop,
    plain (.plus (.cls blank)) .blanks,
    plain comment .skip,
    plain (.word ['\\', ' ']) (.put ' ')] ++ shared

/-- The rules of `STR`. -/
def str : List LexRule :=
  [plain (.cls (· = '"')) .endStr, plain (.cls (· = '\n')) .unterminated] ++ shared

/-- The rules of `STR2`. -/
def str2 : List LexRule :=
  [plain (.cls (· = '"')) .endStr2, plain (.cls (· = '\n')) .unterminated] ++ shared

end LexRule

/-! ## The state of the lexer -/

/-- The start condition, with the text in the token buffer and `postop_got_item`. -/
inductive Start where
  | initial
  | str (buf : Text)
  | str2 (buf : Text) (got : Bool)
  | postop (buf : Text) (got : Bool)
  deriving DecidableEq

namespace Start

/-- The rules that are active. -/
def rules : Start → List LexRule
  | .initial => LexRule.initial
  | .str _ => LexRule.str
  | .str2 _ _ => LexRule.str2
  | .postop _ _ => LexRule.postop

/-- The text in the token buffer. -/
def buf : Start → Text
  | .initial => []
  | .str buf | .str2 buf _ | .postop buf _ => buf

/-- Text written behind the text in the buffer. -/
def append (text : Text) : Start → Start
  | .initial => .initial
  | .str buf => .str (buf ++ text)
  | .str2 buf got => .str2 (buf ++ text) got
  | .postop buf got => .postop (buf ++ text) got

end Start

/-- `struct file_info`, with what has not been read of the file. -/
@[ext] structure Source where
  path : Text
  rest : Text

/-- The lexer: its start condition, the file that it reads, the list `includes`, and the
tables. -/
structure Lexer (E : Type u) where
  start : Start
  current : Source
  saved : List Source
  tables : Tables E

namespace Lexer

variable {E : Type u} (ops : EnvOps E)

/-- Go on reading elsewhere in the file. -/
def setRest (l : Lexer E) (rest : Text) : Lexer E :=
  { l with current := { l.current with rest := rest } }

/-- `lex_item_create` with `TYPE_SYM`. -/
def symItem (l : Lexer E) (name : Text) : Item × Lexer E :=
  let (s, tables) := l.tables.sym ops name
  (⟨name, .sym s⟩, { l with tables := tables })

/-- The value of a symbol is written to the buffer. -/
def putSymbol (l : Lexer E) (name : Text) : Lexer E :=
  let (s, tables) := l.tables.sym ops name
  match s with
  | none => { l with tables := tables }
  | some s => { l with tables := tables, start := l.start.append s.string }

/-- The action of a rule for the text `yytext`, and the token that it returns. -/
def act (l : Lexer E) (action : LexAction) (yytext : Text) : Lexer E × Option Token :=
  match action with
  | .skip => (l, none)
  | .token t => (l, some t)
  | .beginPostop t => ({ l with start := .postop [] false }, some t)
  | .beginStr => ({ l with start := .str [] }, none)
  | .intItem => (l, some (.item (.ofInt yytext)))
  | .strItem => (l, some (.item (.ofStr yytext)))
  | .symItem =>
      let (item, l) := l.symItem ops yytext.tail
      (l, some (.item item))
  | .bracketedItem =>
      let (item, l) := l.symItem ops (yytext.drop 2).dropLast
      (l, some (.item item))
  | .beginStr2 =>
      match l.start with
      | .postop buf got => ({ l with start := .str2 buf got }, none)
      | _ => (l, none)
  | .endPostop =>
      match l.start with
      | .postop buf got =>
          let l := { l.setRest (yytext ++ l.current.rest) with start := .initial }
          if buf ≠ [] ∨ got = false then (l, some (.item (.ofStr buf))) else (l, none)
      | _ => (l, none)
  | .blanks =>
      match l.start with
      | .postop buf _ =>
          if buf ≠ [] then ({ l with start := .postop [] true }, some (.item (.ofStr buf)))
          else (l, none)
      | _ => (l, none)
  | .endStr => ({ l with start := .initial }, some (.item (.ofStr l.start.buf)))
  | .endStr2 => ({ l with start := .postop [] true }, some (.item (.ofStr l.start.buf)))
  | .unterminated => ({ l with start := .initial }, none)
  | .home =>
      match l.start.buf, ops.home l.tables.env with
      | [], some home => ({ l with start := l.start.append home }, none)
      | _, _ => ({ l with start := l.start.append ['~'] }, none)
  | .symbol => (l.putSymbol ops yytext.tail, none)
  | .bracketedSymbol => (l.putSymbol ops (yytext.drop 2).dropLast, none)
  | .put c => ({ l with start := l.start.append [c] }, none)
  | .putText => ({ l with start := l.start.append yytext }, none)

/-! ## Files -/

/-- `lex_include_pop`. -/
def includePop (l : Lexer E) : Option (Lexer E) :=
  match l.saved with
  | [] => none
  | f :: saved => some { l with current := f, saved := saved }

/-- One match of `yylex`, with the token that it returns. A character that no rule matches is
echoed, and the end of the last file is a token. -/
def step (l : Lexer E) : Lexer E × Option Token :=
  match l.current.rest with
  | [] =>
      match l.includePop with
      | none => (l, some .eof)
      | some l => (l, none)
  | c :: rest =>
      match ScanRule.scan l.start.rules (c :: rest) with
      | none => (l.setRest rest, none)
      | some (rule, n) =>
          let width := rule.width n
          (l.setRest ((c :: rest).drop width)).act ops rule.action ((c :: rest).take width)

/-- `dirname`. -/
def dirname (path : Text) : Text :=
  let trimmed := path.rdropWhile (· = '/')
  if trimmed = [] ∧ path = [] then ['.']
  else
    let before := trimmed.rdropWhile (· ≠ '/')
    if before = [] ∧ trimmed ≠ [] then ['.']
    else
      let dir := before.rdropWhile (· = '/')
      if dir ≠ [] then dir
      else if (path.takeWhile (· = '/')).length = 2 then ['/', '/'] else ['/']

/-- `full_path`. -/
def fullPath (path incl : Text) (len : Nat) : Text :=
  if incl.head? = some '/' then incl
  else
    let dir := if path = "stdin".toList then ['.'] else dirname path
    (dir ++ '/' :: incl).take (len - 1)

/-- `file_info_create`, where `files` gives the text of every file that can be opened. -/
def fileInfoCreate (files : Text → Option Text) (path : Text) : Option Source :=
  (files path).map fun text => ⟨path, text⟩

/-- `lex_include_push`, with the file that it opens, if any. No lexer is the result -1. -/
def includePush (files : Text → Option Text) (l : Lexer E) (incl : Text) :
    Option Source × Option (Lexer E) :=
  match fileInfoCreate files (fullPath l.current.path incl 4096) with
  | none => (none, none)
  | some f =>
      if l.saved.any (·.path = f.path) then (some f, none)
      else if l.saved.length > 20 then (some f, none)
      else (some f, some { l with current := f, saved := l.current :: l.saved })

end Lexer

end SlurmSpank.UseEnv
