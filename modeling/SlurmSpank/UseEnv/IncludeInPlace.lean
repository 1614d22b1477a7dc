import SlurmSpank.UseEnv.Continuation
import SlurmSpank.UseEnv.Evaluation

/-! # Includes and the text in their place

An `include` does what the text of the file does in its place, whatever follows, exactly if the
file ends between two statements.
-/

namespace SlurmSpank.UseEnv

open Foundation Lib

universe u

variable {E : Type u} {w : World E}

instance : DecidableEq Source := fun f g =>
  decidable_of_iff (f.path = g.path ∧ f.rest = g.rest) Source.ext_iff.symm

namespace Machine

variable {m m' : Machine E}

/-! ## The last machine in a file -/

/-- Where a file or the parse in it ends comes behind all other steps in the file. -/
theorem Within.reads_of_end {holds : Machine E → Prop} {actions : List Action}
    {last end' : Machine E} (hwithin : Within w holds m actions last) (hreads : m.Reads w end')
    (hend : end'.lexer.current.rest = [] ∨ ∀ m' executed, end'.step w ≠ .next m' executed) :
    last.Reads w end' := by
  induction hwithin with
  | refl m => exact hreads
  | next hrest hholds hstep hmore ih =>
      obtain ⟨all, hall⟩ := hreads
      cases hall with
      | refl =>
          rcases hend with hend | hend
          · exact absurd hend hrest
          · exact absurd hstep (hend _ _)
      | next hrest' hholds' hstep' hmore' =>
          obtain ⟨rfl, -⟩ := Turn.next.inj (hstep.symm.trans hstep')
          exact ih ⟨_, hmore'⟩

/-- It is enough that the file ends well behind some steps. -/
theorem EndsBetween.of_within {holds : Machine E → Prop} {actions : List Action}
    {last : Machine E} (hends : last.EndsBetween w) (hwithin : Within w holds m actions last) :
    m.EndsBetween w where
  atEnd m' hreads hrest := hends.atEnd m' (hwithin.reads_of_end hreads (Or.inl hrest)) hrest
  ended m' hreads hrest hstop :=
    hends.ended m' (hwithin.reads_of_end hreads (Or.inr hstop)) hrest hstop

/-- Behind the last machine nothing is read in the file. -/
theorem Reads.eq_last (hlast : m.lexer.current.rest = [] ∨
    ∀ m' executed, m.step w ≠ .next m' executed) (hreads : m.Reads w m') : m' = m := by
  obtain ⟨actions, hwithin⟩ := hreads
  cases hwithin with
  | refl => rfl
  | next hrest hholds hstep hmore =>
      rcases hlast with hlast | hlast
      · exact absurd hlast hrest
      · exact absurd hstep (hlast _ _)

/-! ## Evaluating an included file -/

/-- The parser is between two statements, like another one. -/
def between (m m' : Machine E) : Bool :=
  (m.parser.stmt matches .start) && (m'.parser.stmt matches .start) &&
    decide (m.parser.conds = m'.parser.conds) && decide (m.parser.blocks = m'.parser.blocks)

theorem parser_of_between (hbetween : m.between m' = true) : m.parser = m'.parser := by
  obtain ⟨_, ⟨conds, blocks, stmt⟩⟩ := m
  obtain ⟨_, ⟨conds', blocks', stmt'⟩⟩ := m'
  simp only [between, Bool.and_eq_true, decide_eq_true_eq] at hbetween
  obtain ⟨⟨⟨hstmt, hstmt'⟩, rfl⟩, rfl⟩ := hbetween
  cases stmt with
  | start =>
      cases stmt' with
      | start => rfl
      | _ => exact absurd hstmt' Bool.false_ne_true
  | _ => exact absurd hstmt Bool.false_ne_true

/-- An `include` statement, with the numbers of steps up to it and of its own steps. -/
def includesFor (w : World E) (n k : Nat) (m : Machine E) (pre statement post : Text) :
    Option (List Action × Machine E) :=
  ((m.reading (pre ++ (statement ++ post))).stepsFor w n).bind fun (before, reached) =>
    (reached.stepsFor w k).bind fun (actions, included) =>
      if reached.lexer.current = ⟨m.lexer.current.path, statement ++ post⟩ ∧
          reached.lexer.saved = m.lexer.saved ∧ reached.lexer.start = .initial ∧
          actions = [] ∧ included.between reached = true ∧
          included.lexer.saved = ⟨m.lexer.current.path, post⟩ :: m.lexer.saved ∧
          included.lexer.start = .initial
        then some (before, included) else none

theorem includes_of_includesFor {n k : Nat} {pre statement post : Text} {before : List Action}
    {included : Machine E}
    (hcomputed : m.includesFor w n k pre statement post = some (before, included))
    (hboundary : Boundary pre) (hended : ∃ line c, statement = line ++ [c] ∧ (c = '\n' ∨ c = ';'))
    (hnonempty : ∃ c rest, statement = c :: rest ∧ c ≠ '\n' ∧ c ≠ ';') :
    m.Includes w pre statement post before included := by
  obtain ⟨⟨before', reached⟩, hreached, hbehind⟩ := Option.bind_eq_some_iff.mp hcomputed
  obtain ⟨⟨actions, included'⟩, hincluded, hif⟩ := Option.bind_eq_some_iff.mp hbehind
  dsimp only at hif
  split at hif
  next hconditions =>
    obtain ⟨hcurrent, hsaved, hstart, rfl, hbetween, hbelow, hinitial⟩ := hconditions
    obtain ⟨rfl, rfl⟩ := Prod.mk.inj (Option.some_inj.mp hif)
    exact ⟨hboundary, hended, hnonempty, ⟨reached, steps_of_stepsFor hreached, hcurrent, hsaved,
      hstart, steps_of_stepsFor hincluded, parser_of_between hbetween⟩, hbelow, hinitial⟩
  next => exact absurd hif (by simp)

/-- The machines that read a file, if their number is below the given one. -/
def readsFor (w : World E) : Nat → Machine E → Option (List (Machine E))
  | 0, _ => none
  | n + 1, m =>
      if m.lexer.current.rest = [] then some [m]
      else match m.step w with
        | .next m' _ => (readsFor w n m').map (m :: ·)
        | .stop _ _ | .crash => some [m]

theorem Reads.mem {n : Nat} {machines : List (Machine E)} (hreads : m.Reads w m')
    (hall : m.readsFor w n = some machines) : m' ∈ machines := by
  obtain ⟨actions, hwithin⟩ := hreads
  induction n generalizing m actions machines with
  | zero => exact absurd hall (by simp [readsFor])
  | succ n ih =>
      rw [readsFor] at hall
      cases hwithin with
      | refl =>
          have hhead : m' ∈ machines := by
            split at hall
            next => exact Option.some_inj.mp hall ▸ List.mem_cons_self
            next =>
              split at hall
              next =>
                obtain ⟨more, -, rfl⟩ := Option.map_eq_some_iff.mp hall
                exact List.mem_cons_self
              next => exact Option.some_inj.mp hall ▸ List.mem_cons_self
              next => exact Option.some_inj.mp hall ▸ List.mem_cons_self
          exact hhead
      | next hrest hholds hstep hmore =>
          rw [if_neg hrest, hstep] at hall
          obtain ⟨more, hmachines, rfl⟩ := Option.map_eq_some_iff.mp hall
          exact List.mem_cons_of_mem m (ih hmachines _ hmore)

/-- The machine reads no `include`. -/
def plain (m : Machine E) : Bool := !m.parser.stmt matches .include | .includeItem _

/-- The machine goes on, or the file ends there between two statements. -/
def endsWell (w : World E) (m : Machine E) : Bool :=
  if m.lexer.current.rest = [] then
    decide (m.lexer.start = .initial) && m.parser.stmt matches .start
  else m.step w matches .next _ _

theorem noInclude_of_reads {n : Nat} {machines : List (Machine E)}
    (hall : m.readsFor w n = some machines) (hplain : machines.all plain = true) :
    m.NoInclude w := by
  intro m' hreads
  have hstmt := List.all_eq_true.mp hplain m' (hreads.mem hall)
  unfold plain at hstmt
  generalize m'.parser.stmt = stmt at hstmt ⊢
  cases stmt with
  | «include» | includeItem x => exact absurd hstmt Bool.false_ne_true
  | _ => trivial

theorem endsBetween_of_reads {n : Nat} {machines : List (Machine E)}
    (hall : m.readsFor w n = some machines) (hends : machines.all (endsWell w) = true) :
    m.EndsBetween w where
  atEnd m' hreads hrest := by
    have hwell := List.all_eq_true.mp hends m' (hreads.mem hall)
    rw [endsWell, if_pos hrest] at hwell
    obtain ⟨hstart, hstmt⟩ := Bool.and_eq_true_iff.mp hwell
    refine ⟨of_decide_eq_true hstart, ?_⟩
    generalize m'.parser.stmt = stmt at hstmt ⊢
    cases stmt with
    | start => rfl
    | _ => exact absurd hstmt Bool.false_ne_true
  ended m' hreads hrest hstop := by
    have hwell := List.all_eq_true.mp hends m' (hreads.mem hall)
    rw [endsWell, if_neg hrest] at hwell
    cases hstep : m'.step w with
    | next m'' executed => exact absurd hstep (hstop m'' executed)
    | stop | crash =>
        rw [hstep] at hwell
        exact absurd hwell Bool.false_ne_true

end Machine

/-! ## Files that do not end well -/

/-- In front of a text of an included file, with another text behind the `include`, the parse
is rejected, or it is not. -/
def VerdictIn (w : World E) (start : Start) (text post : Text) (p : Parser) (rejected : Prop) :
    Prop :=
  ∀ (l : Lexer E) (path : Text), l.start = start → l.current.rest = text →
    l.saved = [⟨path, post⟩] → (Machine.Rejects w ⟨l, p⟩ ↔ rejected)

/-- Some text behind the `include` tells the file and its text in place apart. -/
def Distinguished (w : World E) (start : Start) (text : Text) (p : Parser) : Prop :=
  ∃ post rejected, VerdictIn w start text post p rejected ∧
    Verdict w start (text ++ '\n' :: post) p (¬ rejected)

/-- At the end of the included file the parse goes on behind the `include`. -/
theorem Verdict.back {start : Start} {post : Text} {p : Parser} {rejected : Prop}
    (hverdict : Verdict w start post p rejected) : VerdictIn w start [] post p rejected := by
  intro l path hstart hrest hsaved
  rw [Machine.rejects_next (Machine.step_back hrest hsaved)]
  exact hverdict _ ⟨hstart, rfl, rfl⟩

theorem Start.append_nil (start : Start) : start.append [] = start := by
  cases start <;> simp [append]

section Distinguished

variable {start : Start} {p : Parser}

/-- The file ends in a statement, a string or an operand. -/
theorem distinguished_nil (hsafe : p.Safe) (hplain : p.stmt.NotInclude)
    (hinside : start = .initial → p.stmt ≠ .start) (hoperand : start.Operand → p.stmt.Pending) :
    Distinguished w start [] p := by
  obtain ⟨post, rejected, hverdict, hverdict'⟩ :=
    @exists_text E w p start hsafe hplain hinside hoperand [] []
  rw [start.append_nil] at hverdict hverdict'
  exact ⟨post, rejected, hverdict.back, hverdict'⟩

/-- The file ends in a backslash, and that in a string or an operand. -/
theorem distinguished_backslash (hsafe : p.Safe) (hplain : p.stmt.NotInclude)
    (hstart : start ≠ .initial) (hoperand : start.Operand → p.stmt.Pending) :
    Distinguished w start ['\\'] p := by
  obtain ⟨post, rejected, hverdict, hverdict'⟩ := @exists_text E w p start hsafe hplain
    (fun hinitial => absurd hinitial hstart) hoperand ['\\'] ['$']
  refine ⟨post, rejected, ?_, ?_⟩
  · intro l path hl hrest hsaved
    have hstep := l.step_backslash w.ops (by rw [hl]; exact hstart) hrest
    rw [Machine.rejects_next (Machine.step_silent (congrArg Prod.snd hstep)), hstep]
    exact hverdict.back _ path (congrArg (·.append ['\\']) hl) rfl hsaved
  · have hlexes : Lexes w.ops start (['\\'] ++ '\n' :: post) none (start.append ['$'])
        ('\n' :: post) := fun l hfacing =>
      ⟨_, l.step_backslash_newline w.ops (by rw [hfacing.start]; exact hstart) hfacing.rest,
        congrArg (·.append ['$']) hfacing.start, rfl, hfacing.saved⟩
    exact .silent hlexes hverdict'

variable {digits : Text}

/-- Digits at the end of the file are an item. -/
theorem VerdictIn.digits_next (hdigits : digits ≠ []) (hall : ∀ c ∈ digits, LexRule.digit c = true)
    {p' : Parser} {action : Option Action} {post : Text} {rejected : Prop}
    (hparser : p.step w.setting (.item (.ofStr digits)) = some (.next p' action))
    (hverdict : Verdict w .initial post p' rejected) :
    VerdictIn w .initial digits post p rejected := by
  intro l path hstart hrest hsaved
  have hstep := l.step_digits w.ops hstart (hrest ▸ hdigits) (hrest ▸ hall)
  rw [hrest] at hstep
  obtain ⟨tables, hrejects⟩ :=
    Machine.rejects_token hstep hparser (Parser.inner_of_step_item hparser).1
  rw [hrejects]
  exact hverdict.back _ path hstart rfl hsaved

theorem VerdictIn.digits_abort (hdigits : digits ≠ [])
    (hall : ∀ c ∈ digits, LexRule.digit c = true) {conds : CondStack} (post : Text)
    (hparser : p.step w.setting (.item (.ofStr digits)) = some (.abort conds)) :
    VerdictIn w .initial digits post p True := by
  intro l path hstart hrest hsaved
  have hstep := l.step_digits w.ops hstart (hrest ▸ hdigits) (hrest ▸ hall)
  rw [hrest] at hstep
  exact iff_of_true (Machine.rejects_abort hstep hparser) trivial

/-- In front of a newline they are an integer. -/
theorem lexes_digits (ops : EnvOps E) (hdigits : digits ≠ [])
    (hall : ∀ c ∈ digits, LexRule.digit c = true) (rest : Text) :
    Lexes ops .initial (digits ++ '\n' :: rest) (some (.item (.ofInt digits))) .initial
      ('\n' :: rest) := fun l hfacing =>
  ⟨_, l.step_digits_newline ops hfacing.start hdigits hall hfacing.rest, hfacing.start, rfl,
    hfacing.saved⟩

/-- The file ends in digits. The parser takes a word and an integer in the same way if it
aborts. -/
theorem distinguished_digits (hsafe : p.Safe) (hplain : p.stmt.NotInclude) (hdigits : digits ≠ [])
    (hall : ∀ c ∈ digits, LexRule.digit c = true) : Distinguished w .initial digits p ∨
      ∃ conds conds', p.step w.setting (.item (.ofStr digits)) = some (.abort conds) ∧
        p.step w.setting (.item (.ofInt digits)) = some (.abort conds') := by
  have hpos := hsafe.pos
  have hblocks := hsafe.blocks_le
  have hinclude : p.stmt ≠ .include := by
    intro hstmt
    rw [hstmt] at hplain
    exact hplain
  have hlexes := fun rest => lexes_digits w.ops hdigits hall rest
  have hended : ∀ p' : Parser, p'.stmt.Pending → p.conds.length ≤ p'.conds.length →
      p'.blocks = p.blocks → Verdict w .initial ('\n' :: closers p.blocks) p' False := by
    intro p' hpending hlength hsame
    refine .token (lexes_newline w.ops _)
      (Parser.step_newline hpending (Nat.lt_of_lt_of_le hpos hlength)) (by simp [Parser.Plain]) ?_
    rw [← hsame]
    exact verdict_closers
  obtain ⟨word, hword, hpends⟩ := @Parser.step_pends w.setting p _ hinclude hpos
    (Or.inl ⟨.ofStr digits, rfl⟩)
  obtain ⟨number, hnumber, hpends'⟩ := @Parser.step_pends w.setting p _ hinclude hpos
    (Or.inl ⟨.ofInt digits, rfl⟩)
  cases word with
  | accept => exact hpends.elim
  | abort conds =>
      cases number with
      | accept => exact hpends'.elim
      | abort conds' => exact Or.inr ⟨conds, conds', hword, hnumber⟩
      | next p' action =>
          obtain ⟨hpending, hsame, hlength⟩ := hpends'
          refine Or.inl ⟨closers p.blocks, True, .digits_abort hdigits hall _ hword, ?_⟩
          rw [not_true_eq_false]
          exact .token (hlexes _) hnumber (Parser.inner_of_step_item hnumber).1
            (hended p' hpending hlength hsame)
  | next p' action =>
      obtain ⟨hpending, hsame, hlength⟩ := hpends
      cases number with
      | accept => exact hpends'.elim
      | abort conds' =>
          refine Or.inl ⟨'\n' :: closers p.blocks, False,
            .digits_next hdigits hall hword (hended p' hpending hlength hsame), ?_⟩
          rw [not_false_eq_true]
          exact .abort (hlexes _) hnumber
      | next p'' action' =>
          obtain ⟨hpending', hsame', hlength'⟩ := hpends'
          refine Or.inl ⟨closers p.blocks, True, .digits_next hdigits hall hword ?_, ?_⟩
          · rw [← hsame]
            refine verdict_broken hpending.ne_start hpending.ne_inTask ?_ ?_
            · exact Nat.lt_of_lt_of_le hpos hlength
            · rw [hsame]
              exact Nat.le_trans hblocks hlength
          · rw [not_true_eq_false]
            exact .token (hlexes _) hnumber (Parser.inner_of_step_item hnumber).1
              (hended p'' hpending' hlength' hsame')

end Distinguished

namespace Machine

variable {m m' : Machine E} {path file : Text}

/-- Texts that are told apart are not parsed in the same way. -/
theorem not_distinguished {saved : List Source}
    (hsame : ∀ post, ∃ included inlined,
      Inside ⟨file, []⟩ saved [⟨path, post⟩] m included ∧
        Inside ⟨path, '\n' :: post⟩ saved [] m inlined ∧
          (included.Rejects w ↔ inlined.Rejects w)) :
    ¬ Distinguished w m.lexer.start m.lexer.current.rest m.parser := by
  rintro ⟨post, rejected, hverdict, hverdict'⟩
  obtain ⟨included, inlined, hincluded, hinlined, hiff⟩ := hsame post
  have hrest : included.lexer.current.rest = m.lexer.current.rest := by
    rw [hincluded.current]
    exact List.append_nil _
  have hrest' : inlined.lexer.current.rest = m.lexer.current.rest ++ '\n' :: post := by
    rw [hinlined.current]
  have hrejects : included.Rejects w ↔ rejected := by
    obtain ⟨l, p⟩ := included
    obtain rfl : m.parser = p := hincluded.parser
    exact hverdict l path hincluded.lexer.start.symm hrest hincluded.savedOther
  have hrejects' : inlined.Rejects w ↔ ¬ rejected := by
    obtain ⟨l, p⟩ := inlined
    obtain rfl : m.parser = p := hinlined.parser
    exact hverdict' l ⟨hinlined.lexer.start.symm, hrest', hinlined.savedOther⟩
  exact iff_not_self (hrejects.symm.trans (hiff.trans hrejects'))

/-- The last machine in a file that is read in the same way in place, whatever follows. -/
theorem endsBetween_of_last {saved : List Source} (hplain : m.parser.stmt.NotInclude)
    (hsafe : m.parser.Safe) (hoperand : m.lexer.start.Operand → m.parser.stmt.Pending)
    (hlast : m.lexer.current.rest ≠ [] → (∀ m' executed, m.step w ≠ .next m' executed) ∨
      ¬ m.lexer.NotCut)
    (hsame : ∀ post, ∃ included inlined,
      Inside ⟨file, []⟩ saved [⟨path, post⟩] m included ∧
        Inside ⟨path, '\n' :: post⟩ saved [] m inlined ∧
          (included.Rejects w ↔ inlined.Rejects w)) : m.EndsBetween w := by
  have hnot := not_distinguished hsame
  by_cases hrest : m.lexer.current.rest = []
  · have hbetween : m.lexer.start = .initial ∧ m.parser.stmt = .start := by
      by_contra hbetween
      refine hnot (hrest ▸ distinguished_nil hsafe hplain ?_ hoperand)
      exact fun hstart hstmt => hbetween ⟨hstart, hstmt⟩
    constructor
    · intro m' hreads _
      obtain rfl := hreads.eq_last (Or.inl hrest)
      exact hbetween
    · intro m' hreads hrest'
      obtain rfl := hreads.eq_last (Or.inl hrest)
      exact absurd hrest hrest'
  · have hends : (∀ m' executed, m.step w ≠ .next m' executed) ∧
        Turn.Related (fun _ _ => True) (m.step w)
          ((m.reading (m.lexer.current.rest ++ ['\n'])).step w) := by
      by_cases hcut : m.lexer.NotCut
      · have hstop := (hlast hrest).resolve_right (not_not_intro hcut)
        obtain ⟨included, inlined, hincluded, hinlined, -⟩ := hsame []
        have hinside : Inside ⟨m.lexer.current.path, ['\n']⟩ m.lexer.saved m.lexer.saved m
            (m.reading (m.lexer.current.rest ++ ['\n'])) := ⟨rfl, ⟨rfl, .refl _⟩, rfl, rfl, rfl⟩
        exact ⟨hstop, (hinside.step hrest hplain (notCut_scan hcut (Or.inr ⟨[], rfl⟩))).mono
          fun _ _ _ => trivial⟩
      · rcases (m.lexer.notCut_or hrest).resolve_left hcut with ⟨hstart, hall⟩ | ⟨hstart, htext⟩
        · rw [hstart] at hnot
          obtain ⟨conds, conds', hword, hnumber⟩ :=
            (distinguished_digits hsafe hplain hrest hall).resolve_left hnot
          have hdigits := m.lexer.step_digits w.ops hstart hrest hall
          have hdigits' := @Lexer.step_digits_newline E w.ops
            (m.reading (m.lexer.current.rest ++ ['\n'])).lexer _ [] hstart hrest hall rfl
          have hstop : m.step w = .stop false
              ⟨m.lexer.setRest [], { m.parser with conds := conds }⟩ := by
            rw [step_token (congrArg Prod.snd hdigits), hdigits, feed]
            simp only [hword]
          have hstop' : (m.reading (m.lexer.current.rest ++ ['\n'])).step w = .stop false
              ⟨m.lexer.setRest ['\n'], { m.parser with conds := conds' }⟩ := by
            rw [step_token (congrArg Prod.snd hdigits'), hdigits', feed]
            simp only [reading, hnumber]
            rfl
          rw [hstop, hstop']
          exact ⟨fun _ _ => by simp, .stop⟩
        · rw [htext] at hnot
          exact absurd (distinguished_backslash hsafe hplain hstart hoperand) hnot
    constructor
    · intro m' hreads hrest'
      obtain rfl := hreads.eq_last (Or.inr hends.1)
      exact absurd hrest' hrest
    · intro m' hreads _ _
      obtain rfl := hreads.eq_last (Or.inr hends.1)
      exact hends.2

/-- Both texts lead to the last machine in the file. -/
theorem Includes.lasts {pre statement post : Text} {before : List Action}
    {included last : Machine E}
    (hincludes : m.Includes w pre statement post before included) {actions : List Action}
    (hwithin : Within w Uncut included actions last) (post' : Text) :
    ∃ included' inlined',
      Steps w (m.reading (pre ++ (statement ++ post'))) (before ++ actions) included' ∧
      Steps w (m.reading (pre ++ (included.lexer.current.rest ++ '\n' :: post')))
        (before ++ actions) inlined' ∧
      Inside ⟨included.lexer.current.path, []⟩ (⟨m.lexer.current.path, post⟩ :: m.lexer.saved)
        (⟨m.lexer.current.path, post'⟩ :: m.lexer.saved) last included' ∧
      Inside ⟨m.lexer.current.path, '\n' :: post'⟩
        (⟨m.lexer.current.path, post⟩ :: m.lexer.saved) m.lexer.saved last inlined' := by
  obtain ⟨⟨included', hsteps, hinside⟩, inlined, hsteps', hinside'⟩ := hincludes.insides post'
  obtain ⟨last', hlast, hincluded⟩ := hinside.within (Or.inl rfl) hwithin
  obtain ⟨inlast, hinlast, hinlined⟩ := hinside'.within (Or.inr ⟨post', rfl⟩) hwithin
  exact ⟨last', inlast, hsteps.trans hlast, hsteps'.trans hinlast, hincluded, hinlined⟩

/-- An `include` of a file without includes does the same as the text in its place, where the
file ends between two statements. If it does not, some text behind the statement makes a
difference. -/
theorem comes_inlined {pre statement post : Text} {before : List Action} {included : Machine E}
    (hincludes : m.Includes w pre statement post before included)
    (hplain : included.NoInclude w) :
    (included.EndsBetween w → ∀ (post' : Text) (actions : List Action) (accepted : Option Bool),
      (m.reading (pre ++ (statement ++ post'))).Comes w actions accepted ↔
        (m.reading (pre ++ (included.lexer.current.rest ++ '\n' :: post'))).Comes w actions
          accepted) ∧
    (m.lexer.saved = [] → (∀ m', included.Reads w m' → m'.parser.Safe) →
      (∀ (post' : Text) (actions : List Action) (accepted : Option Bool),
        (m.reading (pre ++ (statement ++ post'))).Comes w actions accepted ↔
          (m.reading (pre ++ (included.lexer.current.rest ++ '\n' :: post'))).Comes w actions
            accepted) → included.EndsBetween w) := by
  obtain ⟨actions, last, hwithin, hlast⟩ := exists_last hplain
  have hreads : included.Reads w last := hwithin.reads
  constructor
  · intro hends post' all accepted
    obtain ⟨included', inlined', hsteps, hsteps', hincluded, hinlined⟩ :=
      hincludes.lasts hwithin post'
    rw [hsteps.comes_iff, hsteps'.comes_iff]
    constructor
    · rintro ⟨more, rfl, hcomes⟩
      exact ⟨more, rfl, (hends.comes_iff hplain hreads hlast hincluded hinlined _ _).mp hcomes⟩
    · rintro ⟨more, rfl, hcomes⟩
      exact ⟨more, rfl, (hends.comes_iff hplain hreads hlast hincluded hinlined _ _).mpr hcomes⟩
  · intro hsaved hsafe hsame
    refine EndsBetween.of_within ?_ hwithin
    refine @endsBetween_of_last E w last m.lexer.current.path included.lexer.current.path
      [⟨m.lexer.current.path, post⟩] (hplain last hreads) (hsafe last hreads)
      (pending_of_reads hincludes.start hplain hsafe hreads) hlast fun post' => ?_
    obtain ⟨included', inlined', hsteps, hsteps', hincluded, hinlined⟩ :=
      hincludes.lasts hwithin post'
    rw [hsaved] at hincluded hinlined
    refine ⟨included', inlined', hincluded, hinlined, ?_⟩
    rw [← hsteps.rejects_iff, ← hsteps'.rejects_iff]
    exact exists_congr fun all => hsame post' all (some false)

end Machine

/-- A file that sets variables before and behind an `include`, and the included file. -/
def commentWorld : World (List (Text × Text)) :=
  jobWorld [("/etc/a".toList, "A = 1; include b\nD = 4\n".toList),
    ("/etc/b".toList, "C = 3\n# end".toList)]

/-- The comment at the end of the file does not hide what follows the `include`. -/
theorem comes_inlined_comment : ∃ m included : Machine (List (Text × Text)),
    (Statics.init false [] []).lexFileInit commentWorld.files "/etc/a".toList = some m ∧
      included.lexer.current.rest = "C = 3\n# end".toList ∧
      ∀ (post' : Text) (actions : List Action) (accepted : Option Bool),
        (m.reading ("A = 1;".toList ++ (" include b\n".toList ++ post'))).Comes commentWorld
            actions accepted ↔
          (m.reading ("A = 1;".toList ++ (included.lexer.current.rest ++ '\n' :: post'))).Comes
            commentWorld actions accepted := by
  have hcomputed : ∃ m ∈ (Statics.init false [] []).lexFileInit commentWorld.files "/etc/a".toList,
      ∃ result ∈ m.includesFor commentWorld 7 6 "A = 1;".toList " include b\n".toList
        "D = 4\n".toList, result.2.lexer.current.rest = "C = 3\n# end".toList ∧
          ∃ machines ∈ result.2.readsFor commentWorld 20, machines.all Machine.plain = true ∧
            machines.all (Machine.endsWell commentWorld) = true := by decide +kernel
  obtain ⟨m, hfile, ⟨before, included⟩, hincludes, hrest, machines, hall, hplain, hends⟩ :=
    hcomputed
  refine ⟨m, included, hfile, hrest, ?_⟩
  exact (Machine.comes_inlined (Machine.includes_of_includesFor hincludes
    (Or.inr ⟨"A = 1".toList, ';', rfl, Or.inr (Or.inl rfl)⟩)
    ⟨" include b".toList, '\n', rfl, Or.inl rfl⟩
    ⟨' ', "include b\n".toList, rfl, by decide, by decide⟩)
    (Machine.noInclude_of_reads hall hplain)).1 (Machine.endsBetween_of_reads hall hends)

/-- An included file whose last line does not end. -/
def unfinishedWorld : World (List (Text × Text)) :=
  jobWorld [("/etc/a".toList, "include b\nD = 4\n".toList), ("/etc/b".toList, "C = 3".toList)]

/-- The last operand of the file goes on with the text behind the `include`. -/
theorem comes_unfinished : ∃ m before included,
    (Statics.init false [] []).lexFileInit unfinishedWorld.files "/etc/a".toList = some m ∧
      m.Includes unfinishedWorld [] "include b\n".toList "D = 4\n".toList before included ∧
      included.NoInclude unfinishedWorld ∧ included.lexer.current.rest = "C = 3".toList ∧
      m.Comes unfinishedWorld [.assign "C".toList "3D".toList .assign] (some true) ∧
      (m.reading (included.lexer.current.rest ++ '\n' :: "D = 4\n".toList)).Comes unfinishedWorld
        [.assign "C".toList "3".toList .assign, .assign "D".toList "4".toList .assign]
          (some true) ∧
      ¬ ∀ actions accepted, m.Comes unfinishedWorld actions accepted ↔
        (m.reading (included.lexer.current.rest ++ '\n' :: "D = 4\n".toList)).Comes
          unfinishedWorld actions accepted := by
  have hcomputed : ∃ m ∈ (Statics.init false [] []).lexFileInit unfinishedWorld.files
      "/etc/a".toList, ∃ result ∈ m.includesFor unfinishedWorld 0 5 [] "include b\n".toList
        "D = 4\n".toList, result.2.lexer.current.rest = "C = 3".toList ∧
          (∃ machines ∈ result.2.readsFor unfinishedWorld 20, machines.all Machine.plain = true) ∧
          (∃ run ∈ m.runFor unfinishedWorld 40,
            run.1 = [.assign "C".toList "3D".toList .assign] ∧ run.2.accepted = some true) ∧
          ∃ run ∈ (m.reading (result.2.lexer.current.rest ++ '\n' :: "D = 4\n".toList)).runFor
            unfinishedWorld 40, run.1 = [.assign "C".toList "3".toList .assign,
              .assign "D".toList "4".toList .assign] ∧ run.2.accepted = some true := by
    decide +kernel
  obtain ⟨m, hfile, ⟨before, included⟩, hincludes, hrest, ⟨machines, hall, hplain⟩,
    ⟨⟨_, ending⟩, hrun, rfl, haccepted⟩, ⟨_, ending'⟩, hrun', rfl, haccepted'⟩ := hcomputed
  have hcomes : m.Comes unfinishedWorld _ _ := ⟨ending, Machine.runs_of_runFor hrun, haccepted⟩
  have hcomes' := Machine.runs_of_runFor hrun'
  refine ⟨m, before, included, hfile, ?_, Machine.noInclude_of_reads hall hplain, hrest, hcomes,
    ⟨ending', hcomes', haccepted'⟩, fun hsame => ?_⟩
  · exact Machine.includes_of_includesFor hincludes (Or.inl rfl)
      ⟨"include b".toList, '\n', rfl, Or.inl rfl⟩
      ⟨'i', "nclude b\n".toList, rfl, by decide, by decide⟩
  · obtain ⟨other, hother, -⟩ := (hsame _ _).mp hcomes
    exact absurd (hother.unique hcomes').1 (by decide)

end SlurmSpank.UseEnv
