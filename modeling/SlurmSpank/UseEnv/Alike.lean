import SlurmSpank.UseEnv.Termination

/-! # What a run does not depend on

The cache of environment symbols is written and never read, so machines that differ in it run
the same way. Two machines that make the same matches hand the same tokens to the parser,
whatever text stands behind.
-/

namespace SlurmSpank.UseEnv

open Foundation Lib

universe u

variable {E : Type u} {w : World E}

/-! ## Tables -/

/-- The tables differ in the environment symbols only. -/
structure Tables.Alike (t t' : Tables E) : Prop where
  keytab : t.keytab = t'.keytab
  symtab : t.symtab = t'.symtab
  env : t.env = t'.env

namespace Tables.Alike

variable {t t' t'' : Tables E}

theorem refl (t : Tables E) : t.Alike t := ⟨rfl, rfl, rfl⟩

theorem symm (halike : t.Alike t') : t'.Alike t :=
  ⟨halike.keytab.symm, halike.symtab.symm, halike.env.symm⟩

theorem trans (halike : t.Alike t') (hother : t'.Alike t'') : t.Alike t'' :=
  ⟨halike.keytab.trans hother.keytab, halike.symtab.trans hother.symtab,
    halike.env.trans hother.env⟩

/-- A lookup changes only the cache. -/
theorem sym_snd (ops : EnvOps E) (t : Tables E) (name : Text) : (t.sym ops name).2.Alike t := by
  unfold Tables.sym
  split
  next => exact refl t
  next =>
    split
    next => exact refl t
    next => split <;> exact ⟨rfl, rfl, rfl⟩

theorem sym_fst (halike : t.Alike t') (ops : EnvOps E) (name : Text) :
    (t.sym ops name).1 = (t'.sym ops name).1 := by
  obtain ⟨keytab, symtab, envtab, env⟩ := t
  obtain ⟨keytab', symtab', envtab', env'⟩ := t'
  obtain ⟨hkeytab, hsymtab, henv⟩ := halike
  dsimp only at hkeytab hsymtab henv
  subst hkeytab hsymtab henv
  unfold Tables.sym
  dsimp only
  split
  next => rfl
  next =>
    split
    next => rfl
    next => split <;> rfl

theorem sym (halike : t.Alike t') (ops : EnvOps E) (name : Text) :
    (t.sym ops name).2.Alike (t'.sym ops name).2 :=
  (sym_snd ops t name).trans (halike.trans (sym_snd ops t' name).symm)

theorem perform (halike : t.Alike t') (ops : EnvOps E) (action : Action) :
    (action.perform ops t).Alike (action.perform ops t') := by
  obtain ⟨keytab, symtab, envtab, env⟩ := t
  obtain ⟨keytab', symtab', envtab', env'⟩ := t'
  obtain ⟨hkeytab, hsymtab, henv⟩ := halike
  dsimp only at hkeytab hsymtab henv
  subst hkeytab hsymtab henv
  cases action with
  | define name value =>
      unfold Action.perform Tables.symDefine
      dsimp only
      split
      next => exact ⟨rfl, rfl, rfl⟩
      next => split <;> exact ⟨rfl, rfl, rfl⟩
  | _ => exact ⟨rfl, rfl, rfl⟩

end Tables.Alike

/-! ## Matches -/

/-- The lexers are in the same start condition, with tables that are alike. -/
structure Lexer.Alike (l l' : Lexer E) : Prop where
  start : l.start = l'.start
  tables : l.tables.Alike l'.tables

namespace Lexer.Alike

variable {l l' : Lexer E}

/-- An action does the same in both lexers, and gives the same text back. -/
theorem act (halike : l.Alike l') (ops : EnvOps E) (action : LexAction) (yytext : Text) :
    (l.act ops action yytext).1.Alike (l'.act ops action yytext).1 ∧
      (l.act ops action yytext).2 = (l'.act ops action yytext).2 ∧
      ∃ back, (back = [] ∨ back = yytext) ∧
        (l.act ops action yytext).1.current.rest = back ++ l.current.rest ∧
        (l'.act ops action yytext).1.current.rest = back ++ l'.current.rest := by
  obtain ⟨start, current, saved, tables⟩ := l
  obtain ⟨start', current', saved', tables'⟩ := l'
  obtain ⟨hstart, htables⟩ := halike
  dsimp only at hstart htables
  subst hstart
  cases action with
  | beginStr2 =>
      unfold Lexer.act
      dsimp only
      split <;> exact ⟨⟨rfl, htables⟩, rfl, [], Or.inl rfl, rfl, rfl⟩
  | endPostop =>
      unfold Lexer.act
      dsimp only
      split
      next => split <;> exact ⟨⟨rfl, htables⟩, rfl, yytext, Or.inr rfl, rfl, rfl⟩
      next => exact ⟨⟨rfl, htables⟩, rfl, [], Or.inl rfl, rfl, rfl⟩
  | blanks =>
      unfold Lexer.act
      dsimp only
      split
      next => split <;> exact ⟨⟨rfl, htables⟩, rfl, [], Or.inl rfl, rfl, rfl⟩
      next => exact ⟨⟨rfl, htables⟩, rfl, [], Or.inl rfl, rfl, rfl⟩
  | home =>
      unfold Lexer.act
      dsimp only
      rw [htables.env]
      split <;> exact ⟨⟨rfl, htables⟩, rfl, [], Or.inl rfl, rfl, rfl⟩
  | symItem | bracketedItem =>
      unfold Lexer.act Lexer.symItem
      dsimp only
      exact ⟨⟨rfl, htables.sym ops _⟩, by rw [htables.sym_fst], [], Or.inl rfl, rfl, rfl⟩
  | symbol | bracketedSymbol =>
      unfold Lexer.act Lexer.putSymbol
      dsimp only
      rw [htables.sym_fst]
      split <;> exact ⟨⟨rfl, htables.sym ops _⟩, rfl, [], Or.inl rfl, rfl, rfl⟩
  | _ => exact ⟨⟨rfl, htables⟩, rfl, [], Or.inl rfl, rfl, rfl⟩

/-- Where the same rule matches within the same text, the lexers make the same step, whatever
stands behind the text. -/
theorem step (halike : l.Alike l') (ops : EnvOps E) {text x y : Text} (htext : text ≠ [])
    (hleft : l.current.rest = text ++ x) (hright : l'.current.rest = text ++ y)
    (hscan : ScanRule.scan l.start.rules (text ++ x) = ScanRule.scan l.start.rules (text ++ y))
    (hwidth : ∀ best ∈ ScanRule.scan l.start.rules (text ++ x),
      best.1.width best.2 ≤ text.length) :
    (l.step ops).1.Alike (l'.step ops).1 ∧ (l.step ops).2 = (l'.step ops).2 ∧
      ∃ left, left <:+ text ∧ (l.step ops).1.current.rest = left ++ x ∧
        (l'.step ops).1.current.rest = left ++ y := by
  obtain ⟨c, rest, rfl⟩ := List.exists_cons_of_ne_nil htext
  simp only [Lexer.step, hleft, hright, List.cons_append]
  rw [List.cons_append] at hscan hwidth
  rw [List.cons_append, halike.start] at hscan
  rw [halike.start] at hwidth ⊢
  rw [← hscan]
  split
  next => exact ⟨⟨halike.start, halike.tables⟩, rfl, rest, List.suffix_cons c rest, rfl, rfl⟩
  next rule n hfound =>
    have hle : rule.width n ≤ (c :: rest).length := hwidth (rule, n) hfound
    have htake : ∀ z, (c :: (rest ++ z)).take (rule.width n) = (c :: rest).take (rule.width n) :=
      fun z => List.take_append_of_le_length hle
    have hdrop : ∀ z, (c :: (rest ++ z)).drop (rule.width n) =
        (c :: rest).drop (rule.width n) ++ z := fun z => List.drop_append_of_le_length hle
    rw [htake x, htake y, hdrop x, hdrop y]
    have hset : (l.setRest ((c :: rest).drop (rule.width n) ++ x)).Alike
        (l'.setRest ((c :: rest).drop (rule.width n) ++ y)) := ⟨halike.start, halike.tables⟩
    obtain ⟨hacted, htoken, back, hback, hkept, hkept'⟩ :=
      hset.act ops rule.action ((c :: rest).take (rule.width n))
    refine ⟨hacted, htoken, back ++ (c :: rest).drop (rule.width n), ?_, ?_, ?_⟩
    · rcases hback with rfl | rfl
      · exact List.drop_suffix _ _
      · exact ⟨[], by rw [List.nil_append, List.take_append_drop]⟩
    · rw [hkept, List.append_assoc]
      rfl
    · rw [hkept', List.append_assoc]
      rfl

/-- Lexers that read the same files make the same step. -/
theorem step_of_files (halike : l.Alike l') (ops : EnvOps E) (hcurrent : l.current = l'.current)
    (hsaved : l.saved = l'.saved) :
    (l.step ops).1.Alike (l'.step ops).1 ∧ (l.step ops).2 = (l'.step ops).2 ∧
      (l.step ops).1.current = (l'.step ops).1.current ∧
        (l.step ops).1.saved = (l'.step ops).1.saved := by
  by_cases hrest : l.current.rest = []
  · have hrest' : l'.current.rest = [] := hcurrent ▸ hrest
    simp only [Lexer.step, hrest, hrest', includePop, hsaved]
    cases l'.saved with
    | nil => exact ⟨halike, rfl, hcurrent, hsaved⟩
    | cons source saved => exact ⟨⟨halike.start, halike.tables⟩, rfl, rfl, rfl⟩
  · have hrest' : l'.current.rest ≠ [] := hcurrent ▸ hrest
    obtain ⟨hpath, hfiles⟩ := files_step ops l hrest
    obtain ⟨hpath', hfiles'⟩ := files_step ops l' hrest'
    have hwidth : ∀ best ∈ ScanRule.scan l.start.rules (l.current.rest ++ []),
        best.1.width best.2 ≤ l.current.rest.length := by
      intro best hbest
      rw [List.append_nil] at hbest
      exact (ScanRule.width_of_scan l.start.rules_proper hbest).2
    obtain ⟨hstep, htoken, left, -, hleft, hright⟩ := halike.step ops hrest
      (List.append_nil _).symm (by rw [List.append_nil, hcurrent]) rfl hwidth
    refine ⟨hstep, htoken, ?_, hfiles.trans (hsaved.trans hfiles'.symm)⟩
    apply Source.ext
    · rw [hpath, hpath', hcurrent]
    · exact hleft.trans hright.symm

end Lexer.Alike

/-- Whether a file is included, and which one, depends on the paths of the open files only. -/
theorem Lexer.includePush_of_paths {l l' : Lexer E} (hpath : l.current.path = l'.current.path)
    (hpaths : l.saved.map Source.path = l'.saved.map Source.path)
    (files : Text → Option Text) (incl : Text) :
    (l.includePush files incl).2 = none ∧ (l'.includePush files incl).2 = none ∨
      ∃ f, (l.includePush files incl).2 =
          some { l with current := f, saved := l.current :: l.saved } ∧
        (l'.includePush files incl).2 =
          some { l' with current := f, saved := l'.current :: l'.saved } := by
  have hany : ∀ f : Source, (l.saved.any fun source => source.path = f.path) =
      l'.saved.any fun source => source.path = f.path := by
    intro f
    have hmap : ∀ saved : List Source, (saved.any fun source => source.path = f.path) =
        (saved.map Source.path).any fun path => path = f.path := by
      intro saved
      rw [List.any_map]
      rfl
    rw [hmap, hmap, hpaths]
  have hlength : l.saved.length = l'.saved.length := by
    rw [← List.length_map Source.path, hpaths, List.length_map]
  unfold Lexer.includePush
  rw [hpath, hlength]
  split
  next => exact Or.inl ⟨rfl, rfl⟩
  next f _ =>
    rw [hany f]
    split
    next => exact Or.inl ⟨rfl, rfl⟩
    next =>
      split
      next => exact Or.inl ⟨rfl, rfl⟩
      next => exact Or.inr ⟨f, rfl, rfl⟩

/-! ## Runs -/

/-- Two turns execute the same statement and lead to related machines, or end the same way. -/
inductive Turn.Related (related : Machine E → Machine E → Prop) : Turn E → Turn E → Prop
  | next {m m' : Machine E} {executed : Option Action} (hrelated : related m m') :
      Related related (.next m executed) (.next m' executed)
  | stop {m m' : Machine E} {accepted : Bool} :
      Related related (.stop accepted m) (.stop accepted m')
  | crash : Related related .crash .crash

theorem Turn.Related.mono {related other : Machine E → Machine E → Prop} {turn turn' : Turn E}
    (hrelated : turn.Related related turn') (himp : ∀ m m', related m m' → other m m') :
    turn.Related other turn' := by
  cases hrelated with
  | next hnext => exact .next (himp _ _ hnext)
  | stop => exact .stop
  | crash => exact .crash

namespace Machine

variable {m m' : Machine E} {related : Machine E → Machine E → Prop}

/-- A parse from here executes the given statements, with the given result. -/
def Comes (w : World E) (m : Machine E) (actions : List Action) (accepted : Option Bool) : Prop :=
  ∃ ending, Runs w m actions ending ∧ ending.accepted = accepted

/-- Machines whose steps stay related execute the same statements, with the same result. -/
theorem comes_of_related
    (hstep : ∀ m m', related m m' → Turn.Related related (m.step w) (m'.step w))
    (hrelated : related m m') {actions : List Action} {accepted : Option Bool}
    (hcomes : m.Comes w actions accepted) : m'.Comes w actions accepted := by
  obtain ⟨ending, hrun, haccepted⟩ := hcomes
  induction hrun generalizing m' with
  | next hnext hrest ih =>
      have hturn := hstep _ _ hrelated
      rw [hnext] at hturn
      generalize hnext' : m'.step w = turn at hturn
      cases hturn with
      | next hrelated' =>
          obtain ⟨ending', hrun', haccepted'⟩ := ih hrelated' haccepted
          exact ⟨ending', .next hnext' hrun', haccepted'⟩
  | stop hstop =>
      have hturn := hstep _ _ hrelated
      rw [hstop] at hturn
      generalize hstop' : m'.step w = turn at hturn
      cases hturn with
      | stop => exact ⟨_, .stop hstop', haccepted⟩
  | crash hcrash =>
      have hturn := hstep _ _ hrelated
      rw [hcrash] at hturn
      generalize hcrash' : m'.step w = turn at hturn
      cases hturn with
      | crash => exact ⟨_, .crash hcrash', haccepted⟩

/-- As every parse ends, the relation of one direction is enough. -/
theorem comes_iff_of_related
    (hstep : ∀ m m', related m m' → Turn.Related related (m.step w) (m'.step w))
    (hrelated : related m m') (actions : List Action) (accepted : Option Bool) :
    m.Comes w actions accepted ↔ m'.Comes w actions accepted := by
  refine ⟨comes_of_related hstep hrelated, ?_⟩
  rintro ⟨ending', hrun', haccepted'⟩
  obtain ⟨own, ending, hrun⟩ := ends w m
  obtain ⟨other, hother, haccepted⟩ := comes_of_related hstep hrelated ⟨ending, hrun, rfl⟩
  obtain ⟨rfl, rfl⟩ := hother.unique hrun'
  exact ⟨ending, hrun, haccepted.symm.trans haccepted'⟩

/-- What a parse comes to after some steps. -/
theorem Steps.comes_iff {before : List Action} (hsteps : Steps w m before m')
    {actions : List Action} {accepted : Option Bool} :
    m.Comes w actions accepted ↔
      ∃ more, actions = before ++ more ∧ m'.Comes w more accepted := by
  constructor
  · rintro ⟨ending, hrun, haccepted⟩
    obtain ⟨more, ending', hrun'⟩ := ends w m'
    obtain ⟨rfl, rfl⟩ := hrun.unique (hsteps.runs hrun')
    exact ⟨more, rfl, ending, hrun', haccepted⟩
  · rintro ⟨more, rfl, ending, hrun, haccepted⟩
    exact ⟨ending, hsteps.runs hrun, haccepted⟩

/-! ## Machines that differ in the cache -/

/-- The parser takes the same token in lexers that are alike. -/
theorem feed_related {l l' : Lexer E} (halike : l.Alike l') {p : Parser} {t : Token}
    (hplain : ∀ l₁ l₁' p₁ executed, feed w ⟨l, p⟩ t = .next ⟨l₁, p₁⟩ executed →
      l₁.Alike l₁' → l₁.current = l.current → l₁.saved = l.saved → l₁'.current = l'.current →
        l₁'.saved = l'.saved → related ⟨l₁, p₁⟩ ⟨l₁', p₁⟩)
    (hinclude : ∀ p₁ name, p.step w.setting t = some (.next p₁ (some (.include name))) →
      Turn.Related related (execute w ⟨l, p₁⟩ (.include name))
        (execute w ⟨l', p₁⟩ (.include name))) :
    Turn.Related related (feed w ⟨l, p⟩ t) (feed w ⟨l', p⟩ t) := by
  have hperform : ∀ action : Action, Lexer.Alike
      { l with tables := action.perform w.ops l.tables }
      { l' with tables := action.perform w.ops l'.tables } := fun action =>
    ⟨halike.start, halike.tables.perform w.ops action⟩
  unfold feed at hplain ⊢
  dsimp only at hplain ⊢
  cases hparser : p.step w.setting t with
  | none => exact .crash
  | some outcome =>
      rw [hparser] at hplain
      cases outcome with
      | accept conds => exact .stop
      | abort conds => exact .stop
      | next p₁ action =>
          cases action with
          | none => exact .next (hplain _ _ _ _ rfl halike rfl rfl rfl rfl)
          | some action =>
              cases action with
              | «include» name => exact hinclude p₁ name hparser
              | _ => exact .next (hplain _ _ _ _ rfl (hperform _) rfl rfl rfl rfl)

theorem execute_include (l : Lexer E) (p : Parser) (name : Text) :
    execute w ⟨l, p⟩ (.include name) =
      match (l.includePush w.files name).2 with
      | none => .stop false ⟨l, p⟩
      | some lexer => .next ⟨lexer, p⟩ none := by
  unfold execute
  dsimp only
  generalize l.includePush w.files name = result
  obtain ⟨opened, lexer⟩ := result
  cases lexer <;> rfl

/-- The machines differ in the cached environment symbols only. -/
structure Same (m m' : Machine E) : Prop where
  parser : m.parser = m'.parser
  lexer : m.lexer.Alike m'.lexer
  current : m.lexer.current = m'.lexer.current
  saved : m.lexer.saved = m'.lexer.saved

/-- The same for a step with a match. -/
theorem step_related (hparser : m.parser = m'.parser)
    (halike : (m.lexer.step w.ops).1.Alike (m'.lexer.step w.ops).1)
    (htoken : (m.lexer.step w.ops).2 = (m'.lexer.step w.ops).2)
    (hplain : ∀ l₁ l₁' p₁ executed, m.step w = .next ⟨l₁, p₁⟩ executed → l₁.Alike l₁' →
      l₁.current = (m.lexer.step w.ops).1.current → l₁.saved = (m.lexer.step w.ops).1.saved →
        l₁'.current = (m'.lexer.step w.ops).1.current →
          l₁'.saved = (m'.lexer.step w.ops).1.saved → related ⟨l₁, p₁⟩ ⟨l₁', p₁⟩)
    (hinclude : ∀ p₁ name, m.includes w = some name →
      Turn.Related related (execute w ⟨(m.lexer.step w.ops).1, p₁⟩ (.include name))
        (execute w ⟨(m'.lexer.step w.ops).1, p₁⟩ (.include name))) :
    Turn.Related related (m.step w) (m'.step w) := by
  cases hnone : (m.lexer.step w.ops).2 with
  | none =>
      rw [step_silent hnone, step_silent (htoken ▸ hnone), ← hparser]
      exact .next (hplain _ _ _ _ (step_silent hnone) halike rfl rfl rfl rfl)
  | some t =>
      rw [step_token hnone] at hplain
      rw [step_token hnone, step_token (htoken ▸ hnone), ← hparser]
      refine feed_related halike hplain fun p₁ name hstep => hinclude p₁ name ?_
      simp only [includes, hnone, hstep]

/-- Machines that differ in the cache make the same step. -/
theorem Same.step (hsame : m.Same m') : Turn.Related Same (m.step w) (m'.step w) := by
  obtain ⟨halike, htoken, hcurrent, hsaved⟩ :=
    hsame.lexer.step_of_files w.ops hsame.current hsame.saved
  refine step_related hsame.parser halike htoken ?_ ?_
  · intro l₁ l₁' p₁ executed _ h₁ hc hs hc' hs'
    exact ⟨rfl, h₁, (hc.trans hcurrent).trans hc'.symm, (hs.trans hsaved).trans hs'.symm⟩
  · intro p₁ name _
    obtain ⟨hnone, hnone'⟩ | ⟨f, hsome, hsome'⟩ :=
      Lexer.includePush_of_paths (congrArg Source.path hcurrent)
        (congrArg (List.map Source.path) hsaved) w.files name
    · rw [execute_include, execute_include, hnone, hnone']
      exact .stop
    · rw [execute_include, execute_include, hsome, hsome', hcurrent, hsaved]
      exact .next ⟨rfl, ⟨halike.start, halike.tables⟩, rfl, rfl⟩

theorem Same.comes_iff (hsame : m.Same m') (actions : List Action) (accepted : Option Bool) :
    m.Comes w actions accepted ↔ m'.Comes w actions accepted :=
  comes_iff_of_related (fun _ _ hsame => hsame.step) hsame actions accepted

end Machine

end SlurmSpank.UseEnv
