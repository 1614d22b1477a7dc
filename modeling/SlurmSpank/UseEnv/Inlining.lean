import SlurmSpank.UseEnv.StatementEnd
import SlurmSpank.UseEnv.TextEnd

/-! # An included file in its place

A file whose text ends between two statements is read like the same text in the including
file. At the end of any other file the lexer goes back in the middle of a statement, which
then goes on with the text behind the `include`.
-/

namespace SlurmSpank.UseEnv

open Foundation Lib

universe u

variable {E : Type u} {w : World E}

namespace Lexer

variable {l : Lexer E}

theorem tables_act (ops : EnvOps E) (l : Lexer E) (action : LexAction) (yytext : Text) :
    (l.act ops action yytext).1.tables.Alike l.tables := by
  cases action with
  | beginStr2 | home =>
      unfold act
      dsimp only
      split <;> exact .refl _
  | endPostop | blanks =>
      unfold act
      dsimp only
      split
      next => split <;> exact .refl _
      next => exact .refl _
  | symItem | bracketedItem => exact Tables.Alike.sym_snd ops l.tables _
  | symbol | bracketedSymbol =>
      unfold act putSymbol
      dsimp only
      split <;> exact Tables.Alike.sym_snd ops l.tables _
  | _ => exact .refl _

/-- A match changes the cache at most. -/
theorem tables_step (ops : EnvOps E) (l : Lexer E) : (l.step ops).1.tables.Alike l.tables := by
  unfold step
  split
  next =>
    split
    next => exact .refl _
    next hpop =>
      obtain ⟨source, saved, -, rfl⟩ := includePop_eq_some hpop
      exact .refl _
  next =>
    split
    next => exact .refl _
    next => exact tables_act ops _ _ _

end Lexer

/-- Turns that are related to the same end of a parse end it in the same way. -/
theorem Turn.Related.join {first second third : Machine E → Machine E → Prop}
    {turn turn' left right : Turn E} (hsame : Related first turn turn')
    (hend : ∀ m executed, turn ≠ .next m executed) (hleft : Related second turn left)
    (hright : Related third turn' right) : Related (fun _ _ => False) left right := by
  cases hsame with
  | next => exact absurd rfl (hend _ _)
  | stop =>
      cases hleft
      cases hright
      exact .stop
  | crash =>
      cases hleft
      cases hright
      exact .crash

namespace Machine

variable {m m' : Machine E}

/-- The machine with another text left of the file that it reads. -/
def reading (m : Machine E) (text : Text) : Machine E := { m with lexer := m.lexer.setRest text }

/-! ## Inside a file -/

/-- Steps in the file that is read, with the statements executed. Each is made while text is
left, from a machine with a property. -/
inductive Within (w : World E) (holds : Machine E → Prop) :
    Machine E → List Action → Machine E → Prop
  | refl (m : Machine E) : Within w holds m [] m
  | next {m m' m'' : Machine E} {executed : Option Action} {more : List Action}
      (hrest : m.lexer.current.rest ≠ []) (hholds : holds m)
      (hstep : m.step w = .next m' executed) (hmore : Within w holds m' more m'') :
      Within w holds m (executed.toList ++ more) m''

/-- One machine comes to the other one in the file that it reads. -/
def Reads (w : World E) (m m' : Machine E) : Prop :=
  ∃ actions, Within w (fun _ => True) m actions m'

/-- The parser comes to no `include` in the file. -/
def NoInclude (w : World E) (m : Machine E) : Prop :=
  ∀ m', m.Reads w m' → m'.parser.stmt.NotInclude

/-- The file ends between two statements. If the parse ends before, it would also do so with a
newline behind the file. -/
structure EndsBetween (w : World E) (m : Machine E) : Prop where
  atEnd : ∀ m', m.Reads w m' → m'.lexer.current.rest = [] →
    m'.lexer.start = .initial ∧ m'.parser.stmt = .start
  ended : ∀ m', m.Reads w m' → m'.lexer.current.rest ≠ [] →
    (∀ m'' executed, m'.step w ≠ .next m'' executed) →
      Turn.Related (fun _ _ => True) (m'.step w)
        ((m'.reading (m'.lexer.current.rest ++ ['\n'])).step w)

theorem Within.steps {holds : Machine E → Prop} {actions : List Action}
    (hwithin : Within w holds m actions m') : Steps w m actions m' := by
  induction hwithin with
  | refl m => exact .refl m
  | next hrest hholds hstep hmore ih => exact .next hstep ih

theorem Within.mono {holds other : Machine E → Prop} (himp : ∀ m, holds m → other m)
    {actions : List Action} (hwithin : Within w holds m actions m') :
    Within w other m actions m' := by
  induction hwithin with
  | refl m => exact .refl m
  | next hrest hholds hstep hmore ih => exact .next hrest (himp _ hholds) hstep ih

theorem Within.reads {holds : Machine E → Prop} {actions : List Action}
    (hwithin : Within w holds m actions m') : m.Reads w m' :=
  ⟨actions, hwithin.mono fun _ _ => trivial⟩

theorem Reads.extend {m₁ : Machine E} (hreads : m.Reads w m₁) (hrest : m₁.lexer.current.rest ≠ [])
    {executed : Option Action} (hstep : m₁.step w = .next m' executed) : m.Reads w m' := by
  obtain ⟨actions, hwithin⟩ := hreads
  induction hwithin with
  | refl m => exact ⟨_, .next hrest trivial hstep (.refl m')⟩
  | next hrest' hholds hstep' hmore ih =>
      obtain ⟨more, hwithin⟩ := ih hrest hstep
      exact ⟨_, .next hrest' trivial hstep' hwithin⟩

/-- The matches of a machine do not depend on whether a newline stands behind the text. -/
def Uncut (m : Machine E) : Prop := m.lexer.NotCut ∧ m.parser.stmt.NotInclude

/-- A file is read to its end, to a match that a newline behind it would change, or to where
the parse ends. -/
theorem exists_last (hplain : m.NoInclude w) : ∃ actions last, Within w Uncut m actions last ∧
    (last.lexer.current.rest ≠ [] → (∀ m' executed, last.step w ≠ .next m' executed) ∨
      ¬ last.lexer.NotCut) := by
  obtain ⟨all, ending, hrun⟩ := ends w m
  induction hrun with
  | @next m m' executed more ending hstep hrest ih =>
      by_cases hlast : m.lexer.current.rest = [] ∨ ¬ m.lexer.NotCut
      · refine ⟨[], m, .refl m, fun hrest => Or.inr (hlast.resolve_left hrest)⟩
      · push Not at hlast
        obtain ⟨actions, last, hwithin, hlast'⟩ := ih fun m'' ⟨actions, hwithin⟩ =>
          hplain m'' ⟨_, .next hlast.1 trivial hstep hwithin⟩
        refine ⟨_, last, .next hlast.1 ⟨hlast.2, hplain m ⟨[], .refl m⟩⟩ hstep hwithin, hlast'⟩
  | stop hstep => exact ⟨[], _, .refl _, fun _ => Or.inl (by simp [hstep])⟩
  | crash hstep => exact ⟨[], _, .refl _, fun _ => Or.inl (by simp [hstep])⟩

/-! ## The same text in two files -/

/-- One machine reads a file, the other one the same text in front of something else. -/
structure Inside (f : Source) (saved below : List Source) (m m' : Machine E) : Prop where
  parser : m.parser = m'.parser
  lexer : m.lexer.Alike m'.lexer
  saved : m.lexer.saved = saved
  savedOther : m'.lexer.saved = below
  current : m'.lexer.current = ⟨f.path, m.lexer.current.rest ++ f.rest⟩

variable {f : Source} {saved below : List Source}

theorem includes_eq_none (hplain : m.parser.stmt.NotInclude) : m.includes w = none := by
  unfold includes
  split
  next => rfl
  next t htoken =>
    split
    next p name hstep =>
      exfalso
      by_cases hitem : ∃ i, t = .item i
      · obtain ⟨i, rfl⟩ := hitem
        exact (Parser.inner_of_step_item hstep).1 name rfl
      · refine Parser.silent_step (fun i ht => hitem ⟨i, ht⟩) (fun x hstmt => ?_) p _ hstep
        rw [hstmt] at hplain
        exact hplain
    next => rfl

/-- Where the same rule matches, both machines make the same step. -/
theorem Inside.step (hinside : Inside f saved below m m') (hrest : m.lexer.current.rest ≠ [])
    (hplain : m.parser.stmt.NotInclude)
    (hscan : ScanRule.scan m.lexer.start.rules m.lexer.current.rest =
      ScanRule.scan m.lexer.start.rules (m.lexer.current.rest ++ f.rest)) :
    Turn.Related (Inside f saved below) (m.step w) (m'.step w) := by
  have hright : m'.lexer.current.rest = m.lexer.current.rest ++ f.rest := by
    rw [hinside.current]
  rw [← List.append_nil m.lexer.current.rest, List.append_assoc, List.nil_append] at hscan
  have hwidth : ∀ best ∈ ScanRule.scan m.lexer.start.rules (m.lexer.current.rest ++ []),
      best.1.width best.2 ≤ m.lexer.current.rest.length := by
    intro best hbest
    rw [List.append_nil] at hbest
    exact (ScanRule.width_of_scan m.lexer.start.rules_proper hbest).2
  obtain ⟨halike, htoken, left, -, hleft, hleft'⟩ := hinside.lexer.step w.ops hrest
    (List.append_nil _).symm hright hscan hwidth
  obtain ⟨-, hsaved⟩ := Lexer.files_step w.ops m.lexer hrest
  obtain ⟨hpath', hsaved'⟩ := Lexer.files_step w.ops m'.lexer (by simp [hright, hrest])
  refine step_related hinside.parser halike htoken ?_ fun p₁ name hincludes => ?_
  · intro l₁ l₁' p₁ executed _ h₁ hc hs hc' hs'
    refine ⟨rfl, h₁, ?_, ?_, ?_⟩
    · exact hs.trans (hsaved.trans hinside.saved)
    · exact hs'.trans (hsaved'.trans hinside.savedOther)
    · apply Source.ext
      · rw [hc', hpath', hinside.current]
      · rw [hc', hleft', hc, hleft, List.append_nil]
  · rw [includes_eq_none hplain] at hincludes
    exact absurd hincludes (by simp)

/-- What stands behind a file is nothing, or it begins with a newline. -/
theorem notCut_scan {l : Lexer E} (hcut : l.NotCut)
    (hf : f.rest = [] ∨ ∃ rest, f.rest = '\n' :: rest) :
    ScanRule.scan l.start.rules l.current.rest =
      ScanRule.scan l.start.rules (l.current.rest ++ f.rest) := by
  rcases hf with hf | ⟨rest, hf⟩
  · rw [hf, List.append_nil]
  · rw [hf, Start.scan_newline _ _ rest []]
    exact (ScanRule.scan_congr hcut).symm

/-- The other machine comes along. -/
theorem Inside.within (hinside : Inside f saved below m m')
    (hf : f.rest = [] ∨ ∃ rest, f.rest = '\n' :: rest) {actions : List Action} {last : Machine E}
    (hwithin : Within w Uncut m actions last) :
    ∃ last', Steps w m' actions last' ∧ Inside f saved below last last' := by
  induction hwithin generalizing m' with
  | refl m => exact ⟨m', .refl m', hinside⟩
  | next hrest huncut hstep hmore ih =>
      have hrelated := hinside.step (w := w) hrest huncut.2 (notCut_scan huncut.1 hf)
      rw [hstep] at hrelated
      generalize hstep' : m'.step w = turn at hrelated
      cases hrelated with
      | next hnext =>
          obtain ⟨last', hsteps, hlast⟩ := ih hnext
          exact ⟨last', .next hstep' hsteps, hlast⟩

/-! ## In front of the included file -/

/-- Steps that execute nothing leave the symbols and the environment. -/
theorem step_tables (hstep : m.step w = .next m' none) :
    m'.lexer.tables.Alike m.lexer.tables := by
  have hmatch := m.lexer.tables_step w.ops
  cases advances_of_step hstep with
  | silent _ => exact hmatch
  | shifted _ _ => exact hmatch
  | included _ _ hpush =>
      obtain ⟨_, -, -, -, -, rfl⟩ := Lexer.includePush_eq_some hpush
      exact hmatch

theorem Steps.tables {actions : List Action} (hsteps : Steps w m actions m')
    (hnone : actions = []) : m'.lexer.tables.Alike m.lexer.tables := by
  induction hsteps with
  | refl => exact .refl _
  | @next m m₁ m₂ executed more hstep hrest ih =>
      obtain ⟨hexecuted, hmore⟩ := List.append_eq_nil_iff.mp hnone
      cases executed with
      | none => exact (ih hmore).trans (step_tables hstep)
      | some action => exact absurd hexecuted (by simp)

/-- The machine reads a file that consists of some text, an `include` statement and more text.
The statement is reached after the given statements, and includes a file. -/
structure Includes (w : World E) (m : Machine E) (pre statement post : Text)
    (before : List Action) (included : Machine E) : Prop where
  boundary : Boundary pre
  ended : ∃ line c, statement = line ++ [c] ∧ (c = '\n' ∨ c = ';')
  nonempty : ∃ c rest, statement = c :: rest ∧ c ≠ '\n' ∧ c ≠ ';'
  reached : ∃ reached, Steps w (m.reading (pre ++ (statement ++ post))) before reached ∧
    reached.lexer.current = ⟨m.lexer.current.path, statement ++ post⟩ ∧
      reached.lexer.saved = m.lexer.saved ∧ reached.lexer.start = .initial ∧
        Steps w reached [] included ∧ included.parser = reached.parser
  saved : included.lexer.saved = ⟨m.lexer.current.path, post⟩ :: m.lexer.saved
  start : included.lexer.start = .initial

/-- The same file is included whatever follows the statement, and its text may stand in the
place of the statement. -/
theorem Includes.insides {pre statement post : Text} {before : List Action} {included : Machine E}
    (hincludes : m.Includes w pre statement post before included) (post' : Text) :
    (∃ included', Steps w (m.reading (pre ++ (statement ++ post'))) before included' ∧
      Inside ⟨included.lexer.current.path, []⟩ (⟨m.lexer.current.path, post⟩ :: m.lexer.saved)
        (⟨m.lexer.current.path, post'⟩ :: m.lexer.saved) included included') ∧
    ∃ inlined, Steps w
        (m.reading (pre ++ (included.lexer.current.rest ++ '\n' :: post'))) before inlined ∧
      Inside ⟨m.lexer.current.path, '\n' :: post'⟩
        (⟨m.lexer.current.path, post⟩ :: m.lexer.saved) m.lexer.saved included inlined := by
  obtain ⟨hboundary, ⟨line, d, hline, hd⟩, ⟨c, rest, hcons, hnewline, hsemi⟩,
    ⟨reached, hreached, hcurrent, hsaved, hstart, hincluded, hparser⟩, hbelow, hinitial⟩ :=
    hincludes
  constructor
  · have hsteps := hreached.trans hincluded
    rw [List.append_nil] at hsteps
    have hfront : Front (pre ++ statement) m.lexer.current.path post post' m.lexer.saved
        (m.reading (pre ++ (statement ++ post))) (m.reading (pre ++ (statement ++ post'))) :=
      ⟨rfl, [], pre ++ statement, List.suffix_refl _, ⟨rfl, .refl _⟩,
        by simp [reading, Lexer.setRest], by simp [reading, Lexer.setRest]⟩
    have hwhole : Boundary (pre ++ statement) :=
      Or.inr ⟨pre ++ line, d, by rw [hline, List.append_assoc], hd.imp_right Or.inl⟩
    obtain ⟨included', hsteps', hparser', halike, hcurrent', hsaved'⟩ :=
      hsteps.replaceIncluded hwhole hfront hbelow
    exact ⟨included', hsteps', hparser', halike, hbelow, hsaved', by
      rw [hcurrent', List.append_nil]⟩
  · have hfront : Front pre m.lexer.current.path (statement ++ post)
        (included.lexer.current.rest ++ '\n' :: post') m.lexer.saved
        (m.reading (pre ++ (statement ++ post)))
        (m.reading (pre ++ (included.lexer.current.rest ++ '\n' :: post'))) :=
      ⟨rfl, [], pre, List.suffix_refl _, ⟨rfl, .refl _⟩, rfl, rfl⟩
    obtain ⟨inlined, hinlined, hparser', halike, hcurrent', hsaved'⟩ :=
      hreached.replace hboundary hfront (by rw [hcons]; exact List.cons_append ..) hnewline hsemi
        hcurrent hsaved hstart
    refine ⟨inlined, hinlined, hparser.trans hparser', ⟨?_, ?_⟩, hbelow, hsaved', hcurrent'⟩
    · exact hinitial.trans (hstart.symm.trans halike.start)
    · exact (hincluded.tables rfl).trans halike.tables

/-! ## The end of an included file -/

/-- The newline behind the file may be read with it. -/
theorem Inside.newline {path post : Text} (hinside : Inside ⟨path, '\n' :: post⟩ saved below m m') :
    Inside ⟨path, post⟩ saved below (m.reading (m.lexer.current.rest ++ ['\n'])) m' where
  parser := hinside.parser
  lexer := ⟨hinside.lexer.start, hinside.lexer.tables⟩
  saved := hinside.saved
  savedOther := hinside.savedOther
  current := by
    rw [hinside.current]
    simp [reading, Lexer.setRest]

theorem comes_next (hstep : m.step w = .next m' none) (actions : List Action)
    (accepted : Option Bool) : m.Comes w actions accepted ↔ m'.Comes w actions accepted := by
  have hsteps : Steps w m [] m' := .next hstep (.refl m')
  rw [hsteps.comes_iff]
  constructor
  · rintro ⟨more, rfl, hcomes⟩
    exact hcomes
  · exact fun hcomes => ⟨actions, rfl, hcomes⟩

/-- Machines whose parses end in the same way here. -/
theorem comes_iff_of_ended
    (hrelated : Turn.Related (fun _ _ => False) (m.step w) (m'.step w)) (actions : List Action)
    (accepted : Option Bool) : m.Comes w actions accepted ↔ m'.Comes w actions accepted := by
  refine @comes_iff_of_related E w m m' (fun i j => i = m ∧ j = m') ?_ ⟨rfl, rfl⟩ actions accepted
  rintro i j ⟨rfl, rfl⟩
  exact hrelated.mono fun _ _ hfalse => hfalse.elim

/-- At the end of an included file the lexer goes back to the including one. -/
theorem step_back (hrest : m.lexer.current.rest = []) {source : Source} {saved : List Source}
    (hsaved : m.lexer.saved = source :: saved) :
    m.step w =
      .next { m with lexer := { m.lexer with current := source, saved := saved } } none := by
  have hback : m.lexer.step w.ops =
      ({ m.lexer with current := source, saved := saved }, none) := by
    simp only [Lexer.step, hrest, Lexer.includePop, hsaved]
  rw [step_silent (congrArg Prod.snd hback), hback]

/-- The parser goes on with the token of the match. -/
theorem parser_of_next {t : Token} {executed : Option Action}
    (hstep : m.step w = .next m' executed) (htoken : (m.lexer.step w.ops).2 = some t) :
    ∃ action, m.parser.step w.setting t = some (.next m'.parser action) := by
  cases advances_of_step hstep with
  | silent hnone => exact absurd (htoken.symm.trans hnone) (by simp)
  | shifted hother hparser | included hother hparser _ | executed hother hparser _ =>
      obtain rfl := Option.some_inj.mp (htoken.symm.trans hother)
      exact ⟨_, hparser⟩

/-- A match that a newline behind the file would change leaves the parse in a statement. -/
theorem not_between_of_cut (hplain : m.parser.stmt.NotInclude)
    (hrest : m.lexer.current.rest ≠ []) (hcut : ¬ m.lexer.NotCut) {executed : Option Action}
    (hstep : m.step w = .next m' executed) :
    m'.lexer.current.rest = [] ∧ ¬ (m'.lexer.start = .initial ∧ m'.parser.stmt = .start) := by
  rcases (m.lexer.notCut_or hrest).resolve_left hcut with ⟨hstart, hall⟩ | ⟨hstart, htext⟩
  · have hdigits := Lexer.step_digits w.ops hstart hrest hall
    obtain ⟨-, hcurrent, -, -⟩ | ⟨name, f, hincludes, -⟩ := step_next hstep
    · obtain ⟨action, hparser⟩ := parser_of_next hstep (congrArg Prod.snd hdigits)
      rw [hcurrent, hdigits]
      exact ⟨rfl, fun hbetween => (Parser.inner_of_step_item hparser).2 hbetween.2⟩
    · rw [includes_eq_none hplain] at hincludes
      exact absurd hincludes (by simp)
  · have hbackslash := Lexer.step_backslash w.ops hstart htext
    rw [step_silent (congrArg Prod.snd hbackslash), hbackslash] at hstep
    obtain ⟨rfl, -⟩ := Turn.next.inj hstep
    refine ⟨rfl, fun hbetween => hstart ?_⟩
    cases hstart' : m.lexer.start with
    | initial => rfl
    | _ =>
        have hinitial := hbetween.1
        rw [hstart'] at hinitial
        exact absurd hinitial (by simp [Start.append])

/-- Where a file has been read that ends between two statements, the parse goes on as it does
behind the same text and a newline. -/
theorem EndsBetween.comes_iff {last included inlined : Machine E} {path file post : Text}
    {saved below : List Source} (hends : m.EndsBetween w) (hplain : m.NoInclude w)
    (hreads : m.Reads w last)
    (hlast : last.lexer.current.rest ≠ [] → (∀ m' executed, last.step w ≠ .next m' executed) ∨
      ¬ last.lexer.NotCut)
    (hincluded : Inside ⟨file, []⟩ saved (⟨path, post⟩ :: below) last included)
    (hinlined : Inside ⟨path, '\n' :: post⟩ saved below last inlined) (actions : List Action)
    (accepted : Option Bool) :
    included.Comes w actions accepted ↔ inlined.Comes w actions accepted := by
  by_cases hrest : last.lexer.current.rest = []
  · obtain ⟨hstart, hstmt⟩ := hends.atEnd last hreads hrest
    have hback := step_back (w := w) (m := included)
      (by rw [hincluded.current, hrest]; rfl) hincluded.savedOther
    have hcurrent : inlined.lexer.current = ⟨path, '\n' :: post⟩ := by
      rw [hinlined.current, hrest]
      rfl
    have hnewline := Lexer.step_newline w.ops (hinlined.lexer.start.symm.trans hstart)
      (congrArg Source.rest hcurrent)
    have hstay : inlined.parser.step w.setting .newline = some (.next inlined.parser none) := by
      rw [hinlined.parser] at hstmt
      generalize inlined.parser = p at hstmt
      obtain ⟨conds, blocks, stmt⟩ := p
      obtain rfl : stmt = .start := hstmt
      rfl
    have hnext : inlined.step w =
        .next { inlined with lexer := inlined.lexer.setRest post } none := by
      rw [step_token (congrArg Prod.snd hnewline), hnewline, feed]
      simp only [hstay]
    rw [comes_next hback, comes_next hnext]
    apply Same.comes_iff
    refine ⟨hincluded.parser.symm.trans hinlined.parser, ⟨?_, ?_⟩, ?_, hinlined.savedOther.symm⟩
    · exact hincluded.lexer.start.symm.trans hinlined.lexer.start
    · exact hincluded.lexer.tables.symm.trans hinlined.lexer.tables
    · simp only [Lexer.setRest, hcurrent]
  · have hstop : ∀ m' executed, last.step w ≠ .next m' executed := by
      rcases hlast hrest with hstop | hcut
      · exact hstop
      · intro m' executed hstep
        obtain ⟨hend, hbetween⟩ := not_between_of_cut (hplain last hreads) hrest hcut hstep
        exact absurd (hends.atEnd m' (hreads.extend hrest hstep) hend) hbetween
    have hsame := hends.ended last hreads hrest hstop
    have hleft := hincluded.step (w := w) hrest (hplain last hreads) (by rw [List.append_nil])
    have hscan : ScanRule.scan last.lexer.start.rules (last.lexer.current.rest ++ ['\n']) =
        ScanRule.scan last.lexer.start.rules (last.lexer.current.rest ++ ['\n'] ++ post) := by
      rw [List.append_assoc]
      exact Start.scan_newline _ _ [] post
    have hright := hinlined.newline.step (w := w) (by simp [reading, Lexer.setRest])
      (hplain last hreads) hscan
    exact comes_iff_of_ended (hsame.join hstop hleft hright) actions accepted

end Machine

end SlurmSpank.UseEnv
