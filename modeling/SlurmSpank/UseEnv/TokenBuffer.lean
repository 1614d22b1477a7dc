import SlurmSpank.Foundation.CharBuffer
import SlurmSpank.UseEnv.Lexer

/-! # The token buffer

The lexer as it writes `buf`, byte by byte through the pointer `s`. The actions do not look at
the end of the buffer. As long as the text of a token has room with its terminator, and no
character of it is the terminator, the buffer holds the text that the lexer with an unbounded
buffer has.
-/

namespace SlurmSpank.UseEnv

open Foundation Lib

universe u

variable {E : Type u}

/-! ## The lexer -/

/-- The start conditions. -/
inductive Mode where
  | initial
  | str
  | str2
  | postop
  deriving DecidableEq, Repr

namespace Mode

/-- The rules that are active. -/
def rules : Mode → List LexRule
  | .initial => LexRule.initial
  | .str => LexRule.str
  | .str2 => LexRule.str2
  | .postop => LexRule.postop

/-- The actions of these rules. -/
def permits : Mode → LexAction → Bool
  | .initial, .skip | .initial, .token _ | .initial, .beginPostop _ | .initial, .beginStr
  | .initial, .intItem | .initial, .strItem | .initial, .symItem | .initial, .bracketedItem => true
  | .str, .endStr | .str, .unterminated | .str2, .endStr2 | .str2, .unterminated => true
  | .postop, .beginStr2 | .postop, .endPostop | .postop, .blanks | .postop, .skip => true
  | .initial, _ => false
  | _, .home | _, .symbol | _, .bracketedSymbol | _, .put _ | _, .putText => true
  | _, _ => false

end Mode

/-- The lexer with its static variables `buf`, `s` and `postop_got_item`. -/
structure BufLexer (E : Type u) where
  mode : Mode
  got : Bool
  buf : CharBuffer 4096
  current : Source
  saved : List Source
  tables : Tables E

namespace BufLexer

variable (ops : EnvOps E)

/-- Go on reading elsewhere in the file. -/
def setRest (l : BufLexer E) (rest : Text) : BufLexer E :=
  { l with current := { l.current with rest := rest } }

/-- `lex_item_create` with `TYPE_SYM`. -/
def symItem (l : BufLexer E) (name : Text) : BufLexer E × Option Token :=
  let (s, tables) := l.tables.sym ops name
  ({ l with tables := tables }, some (.item ⟨name, .sym s⟩))

/-- A character is written. -/
def putChar (l : BufLexer E) (c : Char) : Option (BufLexer E × Option Token) :=
  (l.buf.put c).map fun buf => ({ l with buf := buf }, none)

/-- A string is written. -/
def putString (l : BufLexer E) (text : Text) : Option (BufLexer E × Option Token) :=
  (l.buf.strncat text 4096).map fun buf => ({ l with buf := buf.advance text.length }, none)

/-- The value of a symbol is written. -/
def putSymbol (l : BufLexer E) (name : Text) : Option (BufLexer E × Option Token) :=
  let (s, tables) := l.tables.sym ops name
  match s with
  | none => some ({ l with tables := tables }, none)
  | some s => { l with tables := tables }.putString s.string

/-- The value of a symbol is written, where the pointer terminates the string first. -/
def putBracketedSymbol (l : BufLexer E) (name : Text) : Option (BufLexer E × Option Token) :=
  let (s, tables) := l.tables.sym ops name
  match s with
  | none => some ({ l with tables := tables }, none)
  | some s =>
      l.buf.terminate.bind fun buf => { l with buf := buf, tables := tables }.putString s.string

/-- The action of a rule, with the token that it returns. There is no result if it accesses
what is outside of the buffer. -/
def act (l : BufLexer E) (action : LexAction) (yytext : Text) :
    Option (BufLexer E × Option Token) :=
  match action with
  | .skip => some (l, none)
  | .token t => some (l, some t)
  | .beginPostop t => some ({ l with mode := .postop, got := false, buf := .clear }, some t)
  | .beginStr => some ({ l with mode := .str, buf := .clear }, none)
  | .intItem => some (l, some (.item (.ofInt yytext)))
  | .strItem => some (l, some (.item (.ofStr yytext)))
  | .symItem => some (l.symItem ops yytext.tail)
  | .bracketedItem => some (l.symItem ops (yytext.drop 2).dropLast)
  | .beginStr2 => some ({ l with mode := .str2 }, none)
  | .endPostop =>
      l.buf.string.map fun text =>
        let ended := { l.setRest (yytext ++ l.current.rest) with mode := .initial }
        if text ≠ [] ∨ l.got = false then (ended, some (.item (.ofStr text))) else (ended, none)
  | .blanks =>
      l.buf.string.map fun text =>
        if text ≠ [] then ({ l with got := true, buf := .clear }, some (.item (.ofStr text)))
        else (l, none)
  | .endStr =>
      l.buf.string.map fun text => ({ l with mode := .initial }, some (.item (.ofStr text)))
  | .endStr2 =>
      (l.buf.terminate.bind CharBuffer.string).map fun text =>
        ({ l with mode := .postop, got := true, buf := .clear }, some (.item (.ofStr text)))
  | .unterminated => some ({ l with mode := .initial }, none)
  | .home =>
      match l.buf.pos, ops.home l.tables.env with
      | 0, some home => l.putString home
      | _, _ => l.putChar '~'
  | .symbol => l.putSymbol ops yytext.tail
  | .bracketedSymbol => l.putBracketedSymbol ops (yytext.drop 2).dropLast
  | .put c => l.putChar c
  | .putText =>
      match yytext with
      | [] => some (l, none)
      | c :: _ => l.putChar c

/-- One match of `yylex`, with the token that it returns. -/
def step (l : BufLexer E) : Option (BufLexer E × Option Token) :=
  match l.current.rest with
  | [] =>
      match l.saved with
      | [] => some (l, some .eof)
      | f :: saved => some ({ l with current := f, saved := saved }, none)
  | c :: rest =>
      match ScanRule.scan l.mode.rules (c :: rest) with
      | none => some (l.setRest rest, none)
      | some (rule, n) =>
          let width := rule.width n
          (l.setRest ((c :: rest).drop width)).act ops rule.action ((c :: rest).take width)

end BufLexer

/-! ## What a match adds -/

namespace Lexer

variable (ops : EnvOps E)

/-- The rule that applies next, by its action, with the text that it takes. -/
def nextMatch (l : Lexer E) : Option (LexAction × Text) :=
  match l.current.rest with
  | [] => none
  | c :: rest =>
      (ScanRule.scan l.start.rules (c :: rest)).map fun (rule, n) =>
        (rule.action, (c :: rest).take (rule.width n))

/-- The literal character, escape or expansion that an action reads. -/
def added (l : Lexer E) (action : LexAction) (yytext : Text) : Text :=
  match action with
  | .home =>
      match l.start.buf, ops.home l.tables.env with
      | [], some home => home
      | _, _ => ['~']
  | .symbol => ((l.tables.sym ops yytext.tail).1.map Sym.string).getD []
  | .bracketedSymbol => ((l.tables.sym ops (yytext.drop 2).dropLast).1.map Sym.string).getD []
  | .put c => [c]
  | .putText => yytext
  | _ => []

/-- What the next match adds to the token. -/
def contribution (l : Lexer E) : Text :=
  match l.nextMatch with
  | none => []
  | some (action, yytext) => l.added ops action yytext

/-- After an action a token begins. -/
def beginsWith (l : Lexer E) : LexAction → Bool
  | .beginPostop _ | .beginStr | .endStr2 => true
  | .blanks => (l.start matches .postop (_ :: _) _)
  | _ => false

/-- With the next match a token begins. -/
def begins (l : Lexer E) : Bool :=
  match l.nextMatch with
  | none => false
  | some (action, _) => l.beginsWith action

/-- What the next match adds has room with a terminator, and is free of terminators. -/
def HasRoom (l : Lexer E) : Prop :=
  l.start.buf.length + (l.contribution ops).length < 4096 ∧ nul ∉ l.contribution ops

end Lexer

/-! ## The buffer holds the text -/

namespace BufLexer

/-- The start condition with the buffer, against the start condition with the text. -/
def InBuffer (b : BufLexer E) : Start → Prop
  | .initial => b.mode = .initial
  | .str text => b.mode = .str ∧ b.buf.Holds text
  | .str2 text got => b.mode = .str2 ∧ b.got = got ∧ b.buf.Holds text
  | .postop text got => b.mode = .postop ∧ b.got = got ∧ b.buf.Holds text

/-- The lexer is as the one with the unbounded buffer, whose text its buffer holds. -/
structure Represents (b : BufLexer E) (l : Lexer E) : Prop where
  current : b.current = l.current
  saved : b.saved = l.saved
  tables : b.tables = l.tables
  start : b.InBuffer l.start

namespace Represents

variable {b : BufLexer E} {l : Lexer E}

theorem rules (hrep : b.Represents l) : b.mode.rules = l.start.rules := by
  have hstart := hrep.start
  cases hl : l.start with
  | initial =>
      rw [hl] at hstart
      rw [show b.mode = .initial from hstart]
      rfl
  | str text =>
      rw [hl] at hstart
      rw [hstart.1]
      rfl
  | str2 text got =>
      rw [hl] at hstart
      rw [hstart.1]
      rfl
  | postop text got =>
      rw [hl] at hstart
      rw [hstart.1]
      rfl

theorem holds (hrep : b.Represents l) (hmode : b.mode ≠ .initial) : b.buf.Holds l.start.buf := by
  have hstart := hrep.start
  cases hl : l.start with
  | initial =>
      rw [hl] at hstart
      exact absurd hstart hmode
  | str text =>
      rw [hl] at hstart
      exact hstart.2
  | str2 text got | postop text got =>
      rw [hl] at hstart
      exact hstart.2.2

/-- Text is written behind the text. -/
theorem append (hrep : b.Represents l) (hmode : b.mode ≠ .initial) {buf : CharBuffer 4096}
    {text : Text} (hbuf : buf.Holds (l.start.buf ++ text)) (tables : Tables E) :
    ({ b with buf := buf, tables := tables } : BufLexer E).Represents
      { l with start := l.start.append text, tables := tables } := by
  refine ⟨hrep.current, hrep.saved, rfl, ?_⟩
  have hstart := hrep.start
  cases hl : l.start with
  | initial =>
      rw [hl] at hstart
      exact absurd hstart hmode
  | str old =>
      rw [hl] at hstart hbuf
      exact ⟨hstart.1, hbuf⟩
  | str2 old got | postop old got =>
      rw [hl] at hstart hbuf
      exact ⟨hstart.1, hstart.2.1, hbuf⟩

theorem setRest (hrep : b.Represents l) (rest : Text) :
    (b.setRest rest).Represents (l.setRest rest) := by
  refine ⟨?_, hrep.saved, hrep.tables, hrep.start⟩
  rw [BufLexer.setRest, Lexer.setRest, hrep.current]

theorem putChar (hrep : b.Represents l) (hmode : b.mode ≠ .initial) {c : Char}
    (hroom : l.start.buf.length + 1 < 4096) (hc : c ≠ nul) :
    ∃ b', b.putChar c = some (b', none) ∧
      b'.Represents { l with start := l.start.append [c] } := by
  obtain ⟨buf, hput, hbuf⟩ := (hrep.holds hmode).put hc hroom
  refine ⟨{ b with buf := buf }, by rw [BufLexer.putChar, hput]; rfl, ?_⟩
  have happend := hrep.append hmode hbuf b.tables
  rw [hrep.tables] at happend
  exact ⟨hrep.current, hrep.saved, hrep.tables, happend.start⟩

theorem putString (hrep : b.Represents l) (hmode : b.mode ≠ .initial) {text : Text}
    (hroom : l.start.buf.length + text.length < 4096) (hclean : nul ∉ text) :
    ∃ b', b.putString text = some (b', none) ∧
      b'.Represents { l with start := l.start.append text } := by
  obtain ⟨buf, hput, hbuf⟩ := (hrep.holds hmode).strncat hclean hroom
  refine ⟨{ b with buf := buf.advance text.length }, by rw [BufLexer.putString, hput]; rfl, ?_⟩
  have happend := hrep.append hmode hbuf b.tables
  exact ⟨hrep.current, hrep.saved, hrep.tables, happend.start⟩

theorem setTables (hrep : b.Represents l) (tables : Tables E) :
    ({ b with tables := tables } : BufLexer E).Represents { l with tables := tables } :=
  ⟨hrep.current, hrep.saved, rfl, hrep.start⟩

variable (ops : EnvOps E)

theorem putSymbol (hrep : b.Represents l) (hmode : b.mode ≠ .initial) {name text : Text}
    (htext : ((l.tables.sym ops name).1.map Sym.string).getD [] = text)
    (hroom : l.start.buf.length + text.length < 4096) (hclean : nul ∉ text) :
    ∃ b', b.putSymbol ops name = some (b', none) ∧ b'.Represents (l.putSymbol ops name) := by
  unfold BufLexer.putSymbol Lexer.putSymbol
  rw [hrep.tables]
  cases hsym : l.tables.sym ops name with
  | mk found tables =>
      rw [hsym] at htext
      cases found with
      | none => exact ⟨_, rfl, hrep.setTables tables⟩
      | some s =>
          obtain rfl : s.string = text := htext
          exact (hrep.setTables tables).putString hmode hroom hclean

theorem putBracketedSymbol (hrep : b.Represents l) (hmode : b.mode ≠ .initial) {name text : Text}
    (htext : ((l.tables.sym ops name).1.map Sym.string).getD [] = text)
    (hroom : l.start.buf.length + text.length < 4096) (hclean : nul ∉ text) :
    ∃ b', b.putBracketedSymbol ops name = some (b', none) ∧
      b'.Represents (l.putSymbol ops name) := by
  unfold BufLexer.putBracketedSymbol Lexer.putSymbol
  rw [hrep.tables]
  cases hsym : l.tables.sym ops name with
  | mk found tables =>
      rw [hsym] at htext
      cases found with
      | none => exact ⟨_, rfl, hrep.setTables tables⟩
      | some s =>
          obtain rfl : s.string = text := htext
          obtain ⟨buf, hterminate, hbuf⟩ := (hrep.holds hmode).terminate
          have hsame := @append _ b l hrep hmode buf [] (by rwa [List.append_nil]) tables
          have hstart : l.start.append [] = l.start := by
            cases l.start <;> simp [Start.append]
          rw [hstart] at hsame
          obtain ⟨b', hput, hrep'⟩ := hsame.putString hmode hroom hclean
          refine ⟨b', ?_, hrep'⟩
          dsimp only
          rw [hterminate, Option.bind_some]
          exact hput

end Represents

/-! ## Steps -/

section Steps

variable {b : BufLexer E} {l : Lexer E}

theorem Represents.postop (hrep : b.Represents l) (hmode : b.mode = .postop) :
    ∃ text, l.start = .postop text b.got ∧ b.buf.Holds text := by
  have hstart := hrep.start
  cases hl : l.start with
  | initial =>
      rw [hl] at hstart
      exact absurd (hmode.symm.trans hstart) (by decide)
  | str text =>
      rw [hl] at hstart
      exact absurd (hmode.symm.trans hstart.1) (by decide)
  | str2 text got =>
      rw [hl] at hstart
      exact absurd (hmode.symm.trans hstart.1) (by decide)
  | postop text got =>
      rw [hl] at hstart
      exact ⟨text, by rw [hstart.2.1], hstart.2.2⟩

theorem not_initial_of_permits {action : LexAction} (hpermits : b.mode.permits action = true)
    (honly : Mode.initial.permits action = false) : b.mode ≠ .initial := by
  intro hmode
  rw [hmode, honly] at hpermits
  exact Bool.false_ne_true hpermits

theorem postop_of_permits {action : LexAction} (hpermits : b.mode.permits action = true)
    (honly : ∀ mode, mode ≠ .postop → Mode.permits mode action = false) : b.mode = .postop := by
  by_contra hmode
  rw [honly b.mode hmode] at hpermits
  exact Bool.false_ne_true hpermits

theorem clear_holds_nil : (CharBuffer.clear : CharBuffer 4096).Holds [] :=
  CharBuffer.clear_holds (by decide)

variable (ops : EnvOps E)

/-- The actions at the ends of tokens leave nothing or an empty token. -/
theorem act_represents {action : LexAction} {yytext : Text}
    (hchar : action matches .putText → ∃ c, yytext = [c]) (hrep : b.Represents l)
    (hpermits : b.mode.permits action = true)
    (hroom : l.start.buf.length + (l.added ops action yytext).length < 4096)
    (hclean : nul ∉ l.added ops action yytext) :
    ∃ b', b.act ops action yytext = some (b', (l.act ops action yytext).2) ∧
      b'.Represents (l.act ops action yytext).1 := by
  -- Only the actions that write to the buffer need its room.
  cases action with
  | skip | token t | intItem | strItem => exact ⟨b, rfl, hrep⟩
  | beginPostop t =>
      exact ⟨_, rfl, hrep.current, hrep.saved, hrep.tables, rfl, rfl, clear_holds_nil⟩
  | beginStr => exact ⟨_, rfl, hrep.current, hrep.saved, hrep.tables, rfl, clear_holds_nil⟩
  | symItem | bracketedItem =>
      unfold BufLexer.act Lexer.act BufLexer.symItem Lexer.symItem
      rw [hrep.tables]
      exact ⟨_, rfl, hrep.setTables _⟩
  | beginStr2 =>
      have hmode := postop_of_permits hpermits fun mode hne => by
        cases mode <;> first | rfl | exact absurd rfl hne
      obtain ⟨text, hstart, hholds⟩ := hrep.postop hmode
      unfold Lexer.act
      dsimp only
      rw [hstart]
      exact ⟨_, rfl, hrep.current, hrep.saved, hrep.tables, rfl, rfl, hholds⟩
  | endPostop =>
      have hmode := postop_of_permits hpermits fun mode hne => by
        cases mode <;> first | rfl | exact absurd rfl hne
      obtain ⟨text, hstart, hholds⟩ := hrep.postop hmode
      have hrest := hrep.setRest (yytext ++ l.current.rest)
      unfold BufLexer.act Lexer.act
      dsimp only
      rw [hholds.string_eq, Option.map_some, hstart]
      dsimp only
      have hended :
          ({ b.setRest (yytext ++ b.current.rest) with mode := .initial } : BufLexer E).Represents
            { l.setRest (yytext ++ l.current.rest) with start := .initial } := by
        rw [hrep.current]
        exact ⟨hrest.current, hrest.saved, hrest.tables, rfl⟩
      by_cases hitem : text ≠ [] ∨ b.got = false
      · rw [if_pos hitem, if_pos hitem]
        exact ⟨_, rfl, hended⟩
      · rw [if_neg hitem, if_neg hitem]
        exact ⟨_, rfl, hended⟩
  | blanks =>
      have hmode := postop_of_permits hpermits fun mode hne => by
        cases mode <;> first | rfl | exact absurd rfl hne
      obtain ⟨text, hstart, hholds⟩ := hrep.postop hmode
      unfold BufLexer.act Lexer.act
      dsimp only
      rw [hholds.string_eq, Option.map_some, hstart]
      dsimp only
      by_cases hitem : text ≠ []
      · rw [if_pos hitem, if_pos hitem]
        exact ⟨_, rfl, hrep.current, hrep.saved, hrep.tables, hmode, rfl, clear_holds_nil⟩
      · rw [if_neg hitem, if_neg hitem]
        exact ⟨_, rfl, hrep⟩
  | endStr =>
      have hmode := not_initial_of_permits hpermits rfl
      unfold BufLexer.act
      dsimp only
      rw [(hrep.holds hmode).string_eq]
      exact ⟨_, rfl, hrep.current, hrep.saved, hrep.tables, rfl⟩
  | endStr2 =>
      have hmode := not_initial_of_permits hpermits rfl
      obtain ⟨buf, hterminate, hbuf⟩ := (hrep.holds hmode).terminate
      unfold BufLexer.act
      dsimp only
      rw [hterminate, Option.bind_some, hbuf.string_eq]
      exact ⟨_, rfl, hrep.current, hrep.saved, hrep.tables, rfl, rfl, clear_holds_nil⟩
  | unterminated => exact ⟨_, rfl, hrep.current, hrep.saved, hrep.tables, rfl⟩
  | home =>
      have hmode := not_initial_of_permits hpermits rfl
      have hpos := (hrep.holds hmode).pos
      unfold BufLexer.act Lexer.act
      unfold Lexer.added at hroom hclean
      dsimp only at hroom hclean ⊢
      rw [hpos, hrep.tables]
      cases hbuf : l.start.buf with
      | nil =>
          rw [hbuf] at hroom hclean
          cases hhome : ops.home l.tables.env with
          | none =>
              rw [hhome] at hroom hclean
              exact hrep.putChar hmode (by rw [hbuf]; exact hroom) (by decide)
          | some home =>
              rw [hhome] at hroom hclean
              exact hrep.putString hmode (by rw [hbuf]; exact hroom) hclean
      | cons c rest =>
          rw [hbuf] at hroom hclean
          exact hrep.putChar hmode (by rw [hbuf]; exact hroom) (by decide)
  | symbol =>
      have hmode := not_initial_of_permits hpermits rfl
      exact hrep.putSymbol ops hmode rfl hroom hclean
  | bracketedSymbol =>
      have hmode := not_initial_of_permits hpermits rfl
      exact hrep.putBracketedSymbol ops hmode rfl hroom hclean
  | put c =>
      have hmode := not_initial_of_permits hpermits rfl
      exact hrep.putChar hmode hroom fun heq => hclean (List.mem_singleton.mpr heq.symm)
  | putText =>
      have hmode := not_initial_of_permits hpermits rfl
      obtain ⟨c, rfl⟩ := hchar rfl
      exact hrep.putChar hmode hroom fun heq => hclean (List.mem_singleton.mpr heq.symm)

end Steps

/-! ## Runs -/

theorem rules_permit (mode : Mode) : ∀ rule ∈ mode.rules, mode.permits rule.action = true := by
  cases mode <;> exact List.all_eq_true.mp rfl

/-- The rule for any other character takes one character. -/
theorem putText_takes {mode : Mode} {rule : LexRule} (hmem : rule ∈ mode.rules)
    (haction : rule.action matches .putText) {s : Text} {n : Nat}
    (hlongest : rule.full.longest s = some n) : ∃ c, s.take (rule.width n) = [c] := by
  have hshape : ∀ rule ∈ mode.rules, (!(rule.action matches .putText) ||
      (rule.context.isNone && (rule.pattern matches .cls _))) = true := by
    cases mode <;> exact List.all_eq_true.mp rfl
  have hrule := hshape rule hmem
  rw [haction, Bool.not_true, Bool.false_or, Bool.and_eq_true] at hrule
  obtain ⟨pattern, context, action⟩ := rule
  obtain ⟨hcontext, hpattern⟩ := hrule
  obtain rfl : context = none := Option.isNone_iff_eq_none.mp hcontext
  cases pattern with
  | cls p =>
      obtain ⟨c, -, htake⟩ := Regex.accepts_cls.mp (Regex.accepts_longest hlongest)
      exact ⟨c, htake⟩
  | _ => exact absurd hpattern Bool.false_ne_true

section Runs

variable (ops : EnvOps E) {b : BufLexer E} {l : Lexer E}

/-- A match that has room leaves the buffer with the text. -/
theorem step_represents (hrep : b.Represents l) (hroom : l.HasRoom ops) :
    ∃ b', b.step ops = some (b', (l.step ops).2) ∧ b'.Represents (l.step ops).1 := by
  obtain ⟨hlength, hclean⟩ := hroom
  unfold Lexer.contribution Lexer.nextMatch at hlength hclean
  unfold BufLexer.step Lexer.step Lexer.includePop
  rw [hrep.current, hrep.saved, hrep.rules]
  cases hrest : l.current.rest with
  | nil =>
      cases hsaved : l.saved with
      | nil => exact ⟨b, rfl, hrep⟩
      | cons f saved => exact ⟨_, rfl, rfl, rfl, hrep.tables, hrep.start⟩
  | cons c rest =>
      rw [hrest] at hlength hclean
      dsimp only at hlength hclean ⊢
      cases hscan : ScanRule.scan l.start.rules (c :: rest) with
      | none => exact ⟨_, rfl, hrep.setRest rest⟩
      | some best =>
          obtain ⟨rule, n⟩ := best
          rw [hscan] at hlength hclean
          obtain ⟨hmem, hlongest⟩ := ScanRule.of_scan hscan
          rw [← hrep.rules] at hmem
          exact act_represents ops (fun haction => putText_takes hmem haction hlongest)
            (hrep.setRest _) (rules_permit b.mode rule hmem) hlength hclean

end Runs

end BufLexer

/-! ## The parts of a token -/

theorem Start.buf_append {start : Start} (hstart : start ≠ .initial) (text : Text) :
    (start.append text).buf = start.buf ++ text := by
  cases start with
  | initial => exact absurd rfl hstart
  | _ => rfl

theorem Start.append_initial {start : Start} {text : Text}
    (hstart : start.append text ≠ .initial) : start ≠ .initial := by
  rintro rfl
  exact hstart rfl

namespace Lexer

variable (ops : EnvOps E)

theorem buf_append {l : Lexer E} {text : Text} (hstart : l.start.append text ≠ .initial) :
    (l.start.append text).buf = l.start.buf ++ text :=
  Start.buf_append (Start.append_initial hstart) text

theorem putSymbol_buf {l : Lexer E} {name : Text}
    (hstart : (l.putSymbol ops name).start ≠ .initial) :
    (l.putSymbol ops name).start.buf =
      l.start.buf ++ ((l.tables.sym ops name).1.map Sym.string).getD [] := by
  unfold putSymbol at hstart ⊢
  cases hsym : l.tables.sym ops name with
  | mk found tables =>
      rw [hsym] at hstart
      cases found with
      | none => exact (List.append_nil l.start.buf).symm
      | some s => exact buf_append hstart

/-- Within a token, an action adds what it reads to the text. -/
theorem act_buf (l : Lexer E) (action : LexAction) (yytext : Text)
    (hstart : (l.act ops action yytext).1.start ≠ .initial) :
    (l.act ops action yytext).1.start.buf =
      if l.beginsWith action then [] else l.start.buf ++ l.added ops action yytext := by
  have hsame : l.start.buf = l.start.buf ++ [] := (List.append_nil l.start.buf).symm
  cases action with
  | skip | token t | intItem | strItem | symItem | bracketedItem => exact hsame
  | beginPostop t | beginStr | endStr2 => rfl
  | endStr | unterminated => exact absurd rfl hstart
  | beginStr2 =>
      obtain ⟨start, current, saved, tables⟩ := l
      cases start <;> exact hsame
  | endPostop =>
      obtain ⟨start, current, saved, tables⟩ := l
      cases start with
      | postop text got =>
          unfold act at hstart
          dsimp only at hstart
          split at hstart <;> exact absurd rfl hstart
      | _ => exact hsame
  | blanks =>
      obtain ⟨start, current, saved, tables⟩ := l
      cases start with
      | postop text got => cases text <;> rfl
      | _ => exact hsame
  | home =>
      have hcases : ∃ text,
          l.act ops .home yytext = ({ l with start := l.start.append text }, none) ∧
          l.added ops .home yytext = text := by
        unfold act added
        cases l.start.buf with
        | nil => cases ops.home l.tables.env <;> exact ⟨_, rfl, rfl⟩
        | cons c rest => exact ⟨_, rfl, rfl⟩
      obtain ⟨text, hact, hadded⟩ := hcases
      rw [hact] at hstart ⊢
      rw [hadded]
      exact buf_append hstart
  | symbol | bracketedSymbol => exact putSymbol_buf ops hstart
  | put c | putText => exact buf_append hstart

/-- A step makes the next match, if there is one, and otherwise reads no text. -/
theorem step_nextMatch (l : Lexer E) :
    l.nextMatch = none ∧ (l.step ops).1.start = l.start ∨
      ∃ action yytext rest, l.nextMatch = some (action, yytext) ∧
        l.step ops = (l.setRest rest).act ops action yytext := by
  unfold step nextMatch includePop
  cases hrest : l.current.rest with
  | nil =>
      refine Or.inl ⟨rfl, ?_⟩
      cases l.saved <;> rfl
  | cons c rest =>
      dsimp only
      cases hscan : ScanRule.scan l.start.rules (c :: rest) with
      | none => exact Or.inl ⟨rfl, rfl⟩
      | some best => exact Or.inr ⟨_, _, _, rfl, rfl⟩

/-- Within a token, a match adds what it reads to the text. -/
theorem step_buf (l : Lexer E) (hstart : (l.step ops).1.start ≠ .initial) :
    (l.step ops).1.start.buf = if l.begins then [] else l.start.buf ++ l.contribution ops := by
  rw [begins, contribution]
  rcases l.step_nextMatch ops with ⟨hnone, hsame⟩ | ⟨action, yytext, rest, hmatch, hstep⟩
  · rw [hnone, hsame]
    exact (List.append_nil l.start.buf).symm
  · rw [hmatch]
    rw [hstep] at hstart ⊢
    exact (l.setRest rest).act_buf ops action yytext hstart

end Lexer

/-! ## Runs -/

/-- What happens to the lexer: it makes a match, or between two calls the parser and its
callers change the file that is read and the tables. -/
inductive LexEvent (E : Type u) where
  | read
  | outside (current : Source) (saved : List Source) (tables : Tables E)

namespace Lexer

variable (ops : EnvOps E)

def happens (l : Lexer E) : LexEvent E → Lexer E
  | .read => (l.step ops).1
  | .outside current saved tables => ⟨l.start, current, saved, tables⟩

/-- Every match of a run has room. -/
def Roomy (l : Lexer E) : List (LexEvent E) → Prop
  | [] => True
  | event :: rest => (event matches .read → l.HasRoom ops) ∧ (l.happens ops event).Roomy rest

/-- The literal characters, escapes and expansions read since the token began, in a run that
starts behind the given ones. -/
def parts (l : Lexer E) (before : List Text) : List (LexEvent E) → List Text
  | [] => before
  | .read :: rest =>
      (l.step ops).1.parts (if l.begins then [] else before ++ [l.contribution ops]) rest
  | .outside current saved tables :: rest =>
      (l.happens ops (.outside current saved tables)).parts before rest

theorem putSymbol_initial {l : Lexer E} (hstart : l.start = .initial) (name : Text) :
    (l.putSymbol ops name).start = .initial := by
  unfold putSymbol
  cases l.tables.sym ops name with
  | mk found tables =>
      cases found with
      | none => exact hstart
      | some s =>
          dsimp only
          rw [hstart]
          rfl

/-- The start condition `INITIAL` is left where a token begins. -/
theorem begins_of_initial {l : Lexer E} (hstart : l.start = .initial)
    (hnext : (l.step ops).1.start ≠ .initial) : l.begins = true := by
  rw [begins]
  rcases l.step_nextMatch ops with ⟨-, hsame⟩ | ⟨action, yytext, rest, hmatch, hstep⟩
  · exact absurd (hsame.trans hstart) hnext
  · rw [hstep] at hnext
    rw [hmatch]
    have hrest : (l.setRest rest).start = .initial := hstart
    cases action with
    | beginPostop t | beginStr | endStr2 => rfl
    | symbol | bracketedSymbol => exact absurd (putSymbol_initial ops hrest _) hnext
    | _ =>
        obtain ⟨start, current, saved, tables⟩ := l
        subst hstart
        first
        | exact absurd rfl hnext
        | exact absurd (by unfold act; dsimp only; split <;> rfl) hnext

end Lexer

namespace BufLexer

variable (ops : EnvOps E)

def happens (b : BufLexer E) : LexEvent E → Option (BufLexer E)
  | .read => (b.step ops).map Prod.fst
  | .outside current saved tables => some ⟨b.mode, b.got, b.buf, current, saved, tables⟩

/-- A run of the lexer, as long as it stays within the buffer. -/
def run (b : BufLexer E) : List (LexEvent E) → Option (BufLexer E)
  | [] => some b
  | event :: rest => (b.happens ops event).bind fun b => b.run rest

/-- The lexer with an unbounded buffer that starts outside of a token. -/
def unbounded (b : BufLexer E) : Lexer E := ⟨.initial, b.current, b.saved, b.tables⟩

theorem unbounded_represents {b : BufLexer E} (hmode : b.mode = .initial) :
    b.Represents b.unbounded := ⟨rfl, rfl, rfl, hmode⟩

/-- Along a run whose matches all have room, the buffer holds the parts of the token. -/
theorem run_represents (events : List (LexEvent E)) : ∀ {b : BufLexer E} {l : Lexer E}
    {before : List Text}, b.Represents l → (l.start ≠ .initial → l.start.buf = before.flatten) →
    l.Roomy ops events →
    ∃ b' l', b.run ops events = some b' ∧ b'.Represents l' ∧
      (l'.start ≠ .initial → l'.start.buf = (l.parts ops before events).flatten) := by
  induction events with
  | nil =>
      intro b l before hrep hbuf _
      exact ⟨b, l, rfl, hrep, hbuf⟩
  | cons event rest ih =>
      intro b l before hrep hbuf hroomy
      obtain ⟨hroom, hrest⟩ := hroomy
      cases event with
      | outside current saved tables =>
          have hnext : (⟨b.mode, b.got, b.buf, current, saved, tables⟩ : BufLexer E).Represents
              ⟨l.start, current, saved, tables⟩ := ⟨rfl, rfl, rfl, hrep.start⟩
          exact ih hnext hbuf hrest
      | read =>
          obtain ⟨b', hstep, hnext⟩ := step_represents ops hrep (hroom rfl)
          have hparts : (l.step ops).1.start ≠ .initial → (l.step ops).1.start.buf =
              (if l.begins then [] else before ++ [l.contribution ops]).flatten := by
            intro hstart
            rw [l.step_buf ops hstart]
            split
            next => rfl
            next hwithin =>
              have hold : l.start ≠ .initial := fun hinitial =>
                hwithin (Lexer.begins_of_initial ops hinitial hstart)
              rw [hbuf hold, List.flatten_append, List.flatten_singleton]
          obtain ⟨b'', l'', hrun, hlast⟩ := ih hnext hparts hrest
          refine ⟨b'', l'', ?_, hlast⟩
          rw [run, happens, hstep, Option.map_some, Option.bind_some]
          exact hrun

/-- In every run whose matches all have room, the pointer stays within the buffer, and within
a token the buffer holds what was read since it began. -/
theorem run_within_buffer {b : BufLexer E} (hmode : b.mode = .initial)
    (events : List (LexEvent E)) (hroomy : b.unbounded.Roomy ops events) :
    ∃ b', b.run ops events = some b' ∧ (b'.mode ≠ .initial →
      b'.buf.pos < 4096 ∧ b'.buf.pos = (b.unbounded.parts ops [] events).flatten.length ∧
        b'.buf.string = some (b.unbounded.parts ops [] events).flatten) := by
  obtain ⟨b', l', hrun, hrep, hbuf⟩ := run_represents ops events (unbounded_represents hmode)
    (fun hstart => absurd rfl hstart) hroomy
  refine ⟨b', hrun, fun hwithin => ?_⟩
  have hholds := hrep.holds hwithin
  have hstart : l'.start ≠ .initial := by
    intro hinitial
    have hin := hrep.start
    rw [hinitial] at hin
    exact hwithin hin
  rw [hbuf hstart] at hholds
  exact ⟨hholds.pos ▸ hholds.room, hholds.pos, hholds.string_eq⟩

/-- The value of `X=a`. -/
theorem run_within_buffer_value :
    ∃ b', run listOps ⟨.initial, false, .clear, ⟨[], ['X', '=', 'a', '\n']⟩, [], ⟨[], [], [], []⟩⟩
        [.read, .read, .read] = some b' ∧ (b'.mode ≠ .initial →
      b'.buf.pos < 4096 ∧ b'.buf.pos = 1 ∧ b'.buf.string = some ['a']) := by
  have hroomy : (unbounded ⟨.initial, false, .clear, ⟨[], ['X', '=', 'a', '\n']⟩, [],
      ⟨[], [], [], []⟩⟩).Roomy listOps [.read, .read, .read] :=
    ⟨fun _ => ⟨by decide, by decide⟩, fun _ => ⟨by decide, by decide⟩,
      fun _ => ⟨by decide, by decide⟩, trivial⟩
  exact run_within_buffer listOps rfl [.read, .read, .read] hroomy

/-- What is read of `X=~` is the home directory. -/
theorem run_home (home : Text) :
    run listOps ⟨.initial, false, .clear, ⟨[], ['X', '=', '~', '\n']⟩, [],
      ⟨[], [], [], [("HOME".toList, home)]⟩⟩ [.read, .read, .read] =
      (CharBuffer.clear.strncat home 4096).map fun buf =>
        ⟨.postop, false, buf.advance home.length, ⟨[], ['\n']⟩, [],
          ⟨[], [], [], [("HOME".toList, home)]⟩⟩ := by
  have hthird : step listOps ⟨.postop, false, .clear, ⟨[], ['~', '\n']⟩, [],
      ⟨[], [], [], [("HOME".toList, home)]⟩⟩ =
      putString ⟨.postop, false, .clear, ⟨[], ['\n']⟩, [],
        ⟨[], [], [], [("HOME".toList, home)]⟩⟩ home := rfl
  change (((step listOps ⟨.postop, false, .clear, ⟨[], ['~', '\n']⟩, [],
    ⟨[], [], [], [("HOME".toList, home)]⟩⟩).map Prod.fst).bind fun b => some b) = _
  rw [hthird, putString]
  cases CharBuffer.clear.strncat home 4096 <;> rfl

/-- With a home directory of 4096 characters, `X=~` is written past the end of the buffer. -/
theorem home_overruns :
    run listOps ⟨.initial, false, .clear, ⟨[], ['X', '=', '~', '\n']⟩, [],
      ⟨[], [], [], [("HOME".toList, List.replicate 4096 'a')]⟩⟩ [.read, .read, .read] = none := by
  have hfull : 4096 ≤ ([] : Text).length + (List.replicate 4096 'a').length := by
    rw [List.length_replicate, List.length_nil]
  rw [run_home, clear_holds_nil.strncat_none hfull, Option.map_none]

end BufLexer

end SlurmSpank.UseEnv
