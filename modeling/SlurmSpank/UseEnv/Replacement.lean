import SlurmSpank.UseEnv.Boundary

/-! # Replacing the text behind a boundary

A run that comes to a boundary in a file has read nothing of what stands behind it, also
where other files have been included on the way. So the same steps lead to the boundary if
something else stands there.
-/

namespace SlurmSpank.UseEnv

open Foundation Lib

universe u

variable {E : Type u} {w : World E}

namespace Machine

variable {m m' : Machine E}

/-! ## What is left to read -/

/-- What is left of the open files, the first one first. The lexer may come back to a saved
file in the middle of an operand. -/
def left (m : Machine E) : List Nat :=
  (m.lexer.saved.map fun source => 2 * source.rest.length + 1).reverse ++ [m.lexer.toRead]

theorem toRead_le (l : Lexer E) : l.toRead ≤ 2 * l.current.rest.length + 1 := by
  unfold Lexer.toRead
  split <;> omega

/-- A step leaves less in the first of the files that it changes. -/
theorem step_left {executed : Option Action} (hstep : m.step w = .next m' executed) :
    m'.left < m.left := by
  unfold left
  rcases step_cases hstep with ⟨hsaved, hless⟩ | hback | ⟨-, source, hsaved, hrest⟩
  · rw [hsaved]
    exact List.append_left_lt (List.Lex.rel hless)
  · rw [hback, List.map_cons, List.reverse_cons, List.append_assoc]
    apply List.append_left_lt
    rcases Nat.lt_or_eq_of_le (toRead_le m'.lexer) with hlt | heq
    · exact List.Lex.rel hlt
    · rw [heq]
      exact List.Lex.cons List.Lex.nil
  · rw [hsaved, List.map_cons, List.reverse_cons, List.append_assoc]
    apply List.append_left_lt
    apply List.Lex.rel
    have hge : 2 * m.lexer.current.rest.length ≤ m.lexer.toRead := by
      unfold Lexer.toRead
      split <;> omega
    omega

theorem Steps.left_le {actions : List Action} (hsteps : Steps w m actions m') :
    m' = m ∨ m'.left < m.left := by
  induction hsteps with
  | refl => exact Or.inl rfl
  | next hstep hrest ih =>
      have hless := step_left hstep
      rcases ih with rfl | hmore
      · exact Or.inr hless
      · exact Or.inr (List.lt_trans hmore hless)

/-- A step that takes enough of a file for good cannot come back to where more is left. -/
theorem left_of_shorter {executed : Option Action} (hstep : m.step w = .next m' executed)
    (hrest : m.lexer.current.rest ≠ []) {k : Nat}
    (hshorter : (m.lexer.step w.ops).1.current.rest.length < k) :
    m'.left < (m.lexer.saved.map fun source => 2 * source.rest.length + 1).reverse ++ [2 * k] := by
  obtain ⟨-, hsaved⟩ := Lexer.files_step w.ops m.lexer hrest
  unfold left
  rcases step_next hstep with ⟨-, hcurrent, hsame, -⟩ | ⟨name, f, -, hpush⟩
  · rw [hsame, hsaved]
    apply List.append_left_lt
    apply List.Lex.rel
    have hle := toRead_le m'.lexer
    rw [hcurrent] at hle
    omega
  · obtain ⟨f', -, -, -, -, hlexer⟩ := Lexer.includePush_eq_some hpush
    rw [hlexer]
    dsimp only
    rw [List.map_cons, List.reverse_cons, List.append_assoc, hsaved]
    apply List.append_left_lt
    apply List.Lex.rel
    omega

end Machine

/-! ## Runs up to a boundary -/

/-- Of the open files, one ends differently: what is left of a text, and then something else. -/
structure Lexer.Front (whole path x y : Text) (below top : List Source) (text : Text)
    (l l' : Lexer E) : Prop where
  suffix : text <:+ whole
  lexer : l.Alike l'
  files : l.current :: l.saved = top ++ ⟨path, text ++ x⟩ :: below
  filesReplaced : l'.current :: l'.saved = top ++ ⟨path, text ++ y⟩ :: below

namespace Lexer.Front

variable {whole path x y text : Text} {below top : List Source} {l l' : Lexer E}

/-- The files have the same paths. -/
theorem paths (hfront : Front whole path x y below top text l l') :
    l.current.path = l'.current.path ∧
      l.saved.map Source.path = l'.saved.map Source.path := by
  have hmap := congrArg (List.map Source.path) hfront.files
  have hmap' := congrArg (List.map Source.path) hfront.filesReplaced
  rw [List.map_cons, List.map_append, List.map_cons] at hmap hmap'
  exact List.cons.inj (hmap.trans hmap'.symm)

/-- A match in the file itself, where no match goes behind the boundary. -/
theorem step_nil (hfront : Front whole path x y below [] text l l') (ops : EnvOps E)
    (htext : text ≠ []) (hstops : ∀ rule ∈ l.start.rules, rule.full.Stops text) :
    (l.step ops).2 = (l'.step ops).2 ∧
      ∃ left, Front whole path x y below [] left (l.step ops).1 (l'.step ops).1 := by
  obtain ⟨hcurrent, hsaved⟩ := List.cons.inj hfront.files
  obtain ⟨hcurrent', hsaved'⟩ := List.cons.inj hfront.filesReplaced
  have hrest : l.current.rest ≠ [] := by rw [hcurrent]; simp [htext]
  have hrest' : l'.current.rest ≠ [] := by rw [hcurrent']; simp [htext]
  obtain ⟨hpath, hkept⟩ := files_step ops l hrest
  obtain ⟨hpath', hkept'⟩ := files_step ops l' hrest'
  obtain ⟨halike, htoken, left, hsuffix, hleft, hleft'⟩ := hfront.lexer.step_stops ops htext
    (congrArg Source.rest hcurrent) (congrArg Source.rest hcurrent') hstops
  refine ⟨htoken, left, hsuffix.trans hfront.suffix, halike, ?_, ?_⟩
  · have hsource : (l.step ops).1.current = ⟨path, left ++ x⟩ :=
      Source.ext (by rw [hpath, hcurrent]) hleft
    rw [hsource, hkept, hsaved, List.nil_append]
  · have hsource : (l'.step ops).1.current = ⟨path, left ++ y⟩ :=
      Source.ext (by rw [hpath', hcurrent']) hleft'
    rw [hsource, hkept', hsaved', List.nil_append]

/-- A match in a file that has been included on the way. -/
theorem step_cons {f : Source} (hfront : Front whole path x y below (f :: top) text l l')
    (ops : EnvOps E) :
    (l.step ops).2 = (l'.step ops).2 ∧
      ∃ top', Front whole path x y below top' text (l.step ops).1 (l'.step ops).1 := by
  obtain ⟨hcurrent, hsaved⟩ := List.cons.inj hfront.files
  obtain ⟨hcurrent', hsaved'⟩ := List.cons.inj hfront.filesReplaced
  by_cases hrest : f.rest = []
  · have hpop : ∀ k : Lexer E, k.current = f → ∀ source saved, k.saved = source :: saved →
        k.step ops = ({ k with current := source, saved := saved }, none) := by
      intro k hk source saved hcons
      have hnil : k.current.rest = [] := by rw [hk, hrest]
      simp only [step, hnil, includePop, hcons]
    cases top with
    | nil =>
        rw [hpop l hcurrent _ _ hsaved, hpop l' hcurrent' _ _ hsaved']
        exact ⟨rfl, [], hfront.suffix, ⟨hfront.lexer.start, hfront.lexer.tables⟩, rfl, rfl⟩
    | cons g top =>
        rw [hpop l hcurrent _ _ hsaved, hpop l' hcurrent' _ _ hsaved']
        exact ⟨rfl, g :: top, hfront.suffix, ⟨hfront.lexer.start, hfront.lexer.tables⟩, rfl,
          rfl⟩
  · have hrestl : l.current.rest ≠ [] := hcurrent ▸ hrest
    have hrestl' : l'.current.rest ≠ [] := hcurrent' ▸ hrest
    obtain ⟨hpath, hkept⟩ := files_step ops l hrestl
    obtain ⟨hpath', hkept'⟩ := files_step ops l' hrestl'
    have hwidth : ∀ best ∈ ScanRule.scan l.start.rules (f.rest ++ []),
        best.1.width best.2 ≤ f.rest.length := by
      intro best hbest
      rw [List.append_nil] at hbest
      exact (ScanRule.width_of_scan l.start.rules_proper hbest).2
    obtain ⟨halike, htoken, left, -, hleft, hleft'⟩ := hfront.lexer.step ops hrest
      (by rw [hcurrent, List.append_nil]) (by rw [hcurrent', List.append_nil]) rfl hwidth
    refine ⟨htoken, ⟨f.path, left ++ []⟩ :: top, hfront.suffix, halike, ?_, ?_⟩
    · have hsource : (l.step ops).1.current = ⟨f.path, left ++ []⟩ :=
        Source.ext (by rw [hpath, hcurrent]) hleft
      rw [hsource, hkept, hsaved]
      rfl
    · have hsource : (l'.step ops).1.current = ⟨f.path, left ++ []⟩ :=
        Source.ext (by rw [hpath', hcurrent']) hleft'
      rw [hsource, hkept', hsaved']
      rfl

end Lexer.Front

namespace Machine

variable {m m' : Machine E} {whole path x y text : Text} {below top : List Source}

/-- The machines differ in what stands behind a text of one file. -/
def Front (whole path x y : Text) (below : List Source) (m m' : Machine E) : Prop :=
  m.parser = m'.parser ∧ ∃ top text, Lexer.Front whole path x y below top text m.lexer m'.lexer

/-- The same match leads to machines that differ there, too. -/
theorem step_front (hparser : m.parser = m'.parser)
    (htoken : (m.lexer.step w.ops).2 = (m'.lexer.step w.ops).2)
    (hfront : Lexer.Front whole path x y below top text (m.lexer.step w.ops).1
      (m'.lexer.step w.ops).1) :
    Turn.Related (Front whole path x y below) (m.step w) (m'.step w) := by
  refine step_related hparser hfront.lexer htoken ?_ ?_
  · intro l₁ l₁' p₁ executed _ h₁ hc hs hc' hs'
    refine ⟨rfl, top, text, hfront.suffix, h₁, ?_, ?_⟩
    · rw [hc, hs, hfront.files]
    · rw [hc', hs', hfront.filesReplaced]
  · intro p₁ name _
    obtain ⟨hpath, hpaths⟩ := hfront.paths
    obtain ⟨hnone, hnone'⟩ | ⟨f, hsome, hsome'⟩ :=
      Lexer.includePush_of_paths hpath hpaths w.files name
    · rw [execute_include, execute_include, hnone, hnone']
      exact .stop
    · rw [execute_include, execute_include, hsome, hsome']
      refine .next ⟨rfl, f :: top, text, hfront.suffix,
        ⟨hfront.lexer.start, hfront.lexer.tables⟩, ?_, ?_⟩
      · dsimp only
        rw [hfront.files]
        rfl
      · dsimp only
        rw [hfront.filesReplaced]
        rfl

/-- Where no text is left up to the boundary, or a comment goes behind it, the run does not
come to what stands behind it any more. -/
theorem left_of_front {executed : Option Action} (hstep : m.step w = .next m' executed)
    {c : Char} {rest : Text} (hx : x = c :: rest) (hnewline : c ≠ '\n') (hsemi : c ≠ ';')
    (hcurrent : m.lexer.current = ⟨path, text ++ x⟩)
    (hpassed : text = [] ∨ (∃ more, text = '#' :: more) ∧ '\n' ∉ text ∧
      LexRule.plain LexRule.comment .skip ∈ m.lexer.start.rules) :
    m'.left < (m.lexer.saved.map fun source => 2 * source.rest.length + 1).reverse ++
      [2 * x.length] := by
  subst hx
  have hnonempty : m.lexer.current.rest ≠ [] := by rw [hcurrent]; simp
  rcases hpassed with rfl | ⟨hcomment, hnotMem, hrule⟩
  · have hrest : m.lexer.current.rest = c :: rest := by rw [hcurrent]; rfl
    cases hstart : m.lexer.start with
    | postop buf got =>
        exact left_of_shorter hstep hnonempty
          (Lexer.step_operand w.ops hstart hnewline hsemi hrest)
    | _ =>
        have hless := step_left hstep
        simp only [left, Lexer.toRead, hstart, hrest] at hless ⊢
        exact hless
  · apply left_of_shorter hstep hnonempty
    have htaken : '\n' ∉ text ++ [c] := by
      intro hmem
      rcases List.mem_append.mp hmem with hmem | hmem
      · exact hnotMem hmem
      · exact hnewline (List.mem_singleton.mp hmem).symm
    obtain ⟨-, hle⟩ := @Lexer.step_comment E m.lexer text rest w.ops hcomment [c] htaken hrule
      (by rw [hcurrent]; rfl)
    exact Nat.lt_succ_of_le hle

/-- A run to a boundary of a file, in front of a statement, is a run to there whatever stands
behind it. -/
theorem Steps.replace {before : List Action} {reached : Machine E}
    (hsteps : Steps w m before reached) (hboundary : Boundary whole)
    (hfront : Front whole path x y below m m') {c : Char} {rest : Text} (hx : x = c :: rest)
    (hnewline : c ≠ '\n') (hsemi : c ≠ ';') (hcurrent : reached.lexer.current = ⟨path, x⟩)
    (hsaved : reached.lexer.saved = below) (hstart : reached.lexer.start = .initial) :
    ∃ reached', Steps w m' before reached' ∧ reached.parser = reached'.parser ∧
      reached.lexer.Alike reached'.lexer ∧ reached'.lexer.current = ⟨path, y⟩ ∧
        reached'.lexer.saved = below := by
  induction hsteps generalizing m' with
  | refl =>
      obtain ⟨hparser, top, text, hlexer⟩ := hfront
      have hfiles := hlexer.files
      rw [hcurrent, hsaved] at hfiles
      obtain rfl : top = [] := by
        have hlength := congrArg List.length hfiles
        rw [List.length_append, List.length_cons, List.length_cons] at hlength
        exact List.length_eq_zero_iff.mp (by omega)
      have htext : x = text ++ x := (Source.mk.inj (List.cons.inj hfiles).1).2
      obtain rfl : text = [] := List.append_left_eq_self.mp htext.symm
      obtain ⟨hcurrent', hsaved'⟩ := List.cons.inj hlexer.filesReplaced
      exact ⟨m', .refl m', hparser, hlexer.lexer, hcurrent', hsaved'⟩
  | @next m₀ m₁ m₂ executed more hstep hrest ih =>
      have hleft : m₂.left = (below.map fun source => 2 * source.rest.length + 1).reverse ++
          [2 * x.length] := by
        rw [left, hsaved, Lexer.toRead, hstart, hcurrent]
        rfl
      have hcomes : ¬ m₁.left < m₂.left := by
        intro hless
        rcases hrest.left_le with rfl | hmore
        · exact List.lt_irrefl _ hless
        · exact List.lt_irrefl _ (List.lt_trans hless hmore)
      obtain ⟨hparser, top, text, hlexer⟩ := hfront
      have hrelated : Turn.Related (Front whole path x y below) (m₀.step w) (m'.step w) := by
        cases top with
        | nil =>
            obtain ⟨hcurrent₀, hsaved₀⟩ := List.cons.inj hlexer.files
            have hgone := @left_of_front E w m₀ m₁ path x text executed hstep c rest hx hnewline
              hsemi hcurrent₀
            rw [hsaved₀, ← hleft] at hgone
            by_cases htext : text = []
            · exact absurd (hgone (Or.inl htext)) hcomes
            have hends := hboundary.of_suffix hlexer.suffix
            rcases m₀.lexer.start.stops_or_comment hends htext with hstops | hcomment
            · obtain ⟨htoken, left, hnext⟩ := hlexer.step_nil w.ops htext hstops
              exact step_front hparser htoken hnext
            · exact absurd (hgone (Or.inr hcomment)) hcomes
        | cons f top =>
            obtain ⟨htoken, top', hnext⟩ := hlexer.step_cons w.ops
            exact step_front hparser htoken hnext
      rw [hstep] at hrelated
      generalize hstep' : m'.step w = turn at hrelated
      cases hrelated with
      | next hnext =>
          obtain ⟨reached', hsteps', hreached⟩ := ih hnext hcurrent hsaved hstart
          exact ⟨reached', .next hstep' hsteps', hreached⟩

/-- Where a file is saved in front of a text, the run has not gone behind that text before. -/
theorem left_of_behind (hsaved : m.lexer.saved = below)
    (hrest : m.lexer.current.rest.length ≤ x.length)
    (hincluded : m'.lexer.saved = ⟨path, x⟩ :: below) : m.left < m'.left := by
  have hle := toRead_le m.lexer
  rw [left, left, hincluded, hsaved, List.map_cons, List.reverse_cons, List.append_assoc]
  apply List.append_left_lt
  rcases Nat.lt_or_eq_of_le (Nat.le_trans hle (by omega : _ ≤ 2 * x.length + 1)) with hlt | heq
  · exact List.Lex.rel hlt
  · rw [heq]
    exact List.Lex.cons List.Lex.nil

/-- A run through a statement of a file that includes another file is a run whatever stands
behind the statement. -/
theorem Steps.replaceIncluded {before : List Action} {included : Machine E}
    (hsteps : Steps w m before included) (hboundary : Boundary whole)
    (hfront : Front whole path x y below m m')
    (hsaved : included.lexer.saved = ⟨path, x⟩ :: below) :
    ∃ included', Steps w m' before included' ∧ included.parser = included'.parser ∧
      included.lexer.Alike included'.lexer ∧
        included'.lexer.current = included.lexer.current ∧
          included'.lexer.saved = ⟨path, y⟩ :: below := by
  induction hsteps generalizing m' with
  | refl m₀ =>
      obtain ⟨hparser, top, text, hlexer⟩ := hfront
      have hfiles := hlexer.files
      rw [hsaved] at hfiles
      have hlength := congrArg List.length hfiles
      simp only [List.length_append, List.length_cons] at hlength
      obtain ⟨f, rfl⟩ := List.length_eq_one_iff.mp (show top.length = 1 by omega)
      obtain ⟨hcurrent, hbelow⟩ := List.cons.inj hfiles
      have htext : x = text ++ x := (Source.mk.inj (List.cons.inj hbelow).1).2
      obtain rfl : text = [] := List.append_left_eq_self.mp htext.symm
      obtain ⟨hcurrent', hsaved'⟩ := List.cons.inj hlexer.filesReplaced
      exact ⟨m', .refl m', hparser, hlexer.lexer, hcurrent'.trans hcurrent.symm, hsaved'⟩
  | @next m₀ m₁ m₂ executed more hstep hrest ih =>
      -- The file that is included would have been opened behind its own statement.
      have hbehind : ∀ m : Machine E, m.lexer.saved = below →
          m.lexer.current.rest.length ≤ x.length → ¬ (m₂ = m ∨ m₂.left < m.left) := by
        intro m hbelow hle hleft
        have hgreater := left_of_behind hbelow hle hsaved
        rcases hleft with rfl | hless
        · exact List.lt_irrefl _ hgreater
        · exact List.lt_irrefl _ (List.lt_trans hless hgreater)
      obtain ⟨hparser, top, text, hlexer⟩ := hfront
      have hrelated : Turn.Related (Front whole path x y below) (m₀.step w) (m'.step w) := by
        cases top with
        | nil =>
            obtain ⟨hcurrent₀, hsaved₀⟩ := List.cons.inj hlexer.files
            by_cases htext : text = []
            · refine absurd ?_ (hbehind m₀ hsaved₀ (by rw [hcurrent₀, htext]; exact Nat.le_refl _))
              rcases hrest.left_le with rfl | hmore
              · exact Or.inr (step_left hstep)
              · exact Or.inr (List.lt_trans hmore (step_left hstep))
            have hends := hboundary.of_suffix hlexer.suffix
            rcases m₀.lexer.start.stops_or_comment hends htext with
              hstops | ⟨hcomment, hnewline, hrule⟩
            · obtain ⟨htoken, left, hnext⟩ := hlexer.step_nil w.ops htext hstops
              exact step_front hparser htoken hnext
            · obtain ⟨hnone, hle⟩ := @Lexer.step_comment E m₀.lexer text x w.ops hcomment []
                (by rw [List.append_nil]; exact hnewline) hrule (by rw [hcurrent₀]; rfl)
              have hkept := (Lexer.files_step w.ops m₀.lexer (by simp [hcurrent₀, htext])).2
              rw [step_silent hnone] at hstep
              obtain ⟨rfl, -⟩ := Turn.next.inj hstep
              exact absurd hrest.left_le (hbehind _ (hkept.trans hsaved₀) hle)
        | cons f top =>
            obtain ⟨htoken, top', hnext⟩ := hlexer.step_cons w.ops
            exact step_front hparser htoken hnext
      rw [hstep] at hrelated
      generalize hstep' : m'.step w = turn at hrelated
      cases hrelated with
      | next hnext =>
          obtain ⟨included', hsteps', hincluded⟩ := ih hnext hsaved
          exact ⟨included', .next hstep' hsteps', hincluded⟩

end Machine

end SlurmSpank.UseEnv
