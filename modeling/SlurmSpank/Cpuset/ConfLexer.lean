import SlurmSpank.Cpuset.Conf
import SlurmSpank.Foundation.Tokens

/-! # The lexer of the cpuset configuration

The rules of `conf-parser.l` with their actions, and the tokens that they make of a text. Each
text is read with a fresh buffer, as the first text of a process is.
-/

namespace SlurmSpank.Cpuset

open Foundation

/-- The keywords that a statement starts with. -/
inductive Keyword where
  | policy
  | useIdle
  | constMem
  | killOrphs
  | order
  deriving DecidableEq

/-- The tokens of the grammar. -/
inductive ConfToken where
  | newline
  | semi
  | comma
  | equals
  | keyword (k : Keyword)
  | true
  | false
  | string (s : Text)
  deriving DecidableEq

/-- The actions of the rules. -/
inductive ConfAction where
  | skip
  | token (t : ConfToken)
  | quoted
  | string

/-- A rule of the lexer. -/
abbrev ConfRule := ScanRule Char ConfAction

namespace ConfRule

/-- A rule without trailing context. -/
def plain (pattern : Regex Char) (action : ConfAction) : ConfRule := ⟨pattern, none, action⟩

/-- A rule for one word. -/
def ofWord (word : String) (t : ConfToken) : ConfRule := plain (.word word.toList) (.token t)

/-- `[ \t\r]`. -/
def blank (c : Char) : Bool := c = ' ' || c = '\t' || c = '\r'

/-- `[^=;, \t\r\n]`. -/
def plainChar (c : Char) : Bool :=
  !(c = '=' || c = ';' || c = ',' || c = ' ' || c = '\t' || c = '\r' || c = '\n')

/-- `r?`. -/
def optional (r : Regex Char) : Regex Char := .alt r .empty

/-- `#[^\n]*`, where `.` stands for `[^\n]` too. -/
def comment : Regex Char := .seq (.cls (· = '#')) (.star (.cls (· ≠ '\n')))

/-- `(#.*)?\\?\n`. -/
def lineEnd : Regex Char :=
  .seq (optional comment) (.seq (optional (.cls (· = '\\'))) (.cls (· = '\n')))

/-- `\"[^\"]*\"` for one or the other quotation mark. -/
def quotation (mark : Char) : Regex Char :=
  .seq (.cls (· = mark)) (.seq (.star (.cls (· ≠ mark))) (.cls (· = mark)))

/-- The rules. -/
def all : List ConfRule :=
  [plain comment .skip,
    plain (.plus (.cls blank)) .skip,
    ofWord ";" .semi,
    ofWord "," .comma,
    plain lineEnd (.token .newline),
    plain (quotation '"') .quoted,
    plain (quotation '\x27') .quoted,
    plain (.seq (optional (.word "fit-".toList)) (.word "policy".toList))
      (.token (.keyword .policy)),
    ofWord "order" (.keyword .order),
    ofWord "use-idle" (.keyword .useIdle),
    ofWord "alloc-idle" (.keyword .useIdle),
    plain (.seq (.word "constrain-mem".toList) (optional (.word "s".toList)))
      (.token (.keyword .constMem)),
    plain (.seq (.word "kill-orph".toList) (.seq (optional (.word "an".toList))
      (.word "s".toList))) (.token (.keyword .killOrphs)),
    ofWord "=" .equals,
    ofWord "0" .false,
    ofWord "no" .false,
    ofWord "No" .false,
    ofWord "1" .true,
    ofWord "yes" .true,
    ofWord "Yes" .true,
    plain (.plus (.cls plainChar)) .string]

end ConfRule

/-- The action of a rule for the text `yytext`: the token that it returns, if any. -/
def ConfAction.act (action : ConfAction) (yytext : Text) : Option ConfToken :=
  match action with
  | .skip => none
  | .token t => some t
  | .quoted => some (.string yytext.dropLast.tail)
  | .string => some (.string yytext)

/-- The tokens of a text. -/
def ConfRule.tokens (text : Text) : List ConfToken := ScanRule.tokens all ConfAction.act text

end SlurmSpank.Cpuset
