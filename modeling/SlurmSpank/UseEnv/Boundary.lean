import SlurmSpank.UseEnv.Alike

/-! # The text in front of a statement

What stands behind the end of a statement has no influence on how the text up to there is
read. So in a run that comes to a statement of a file, the text from there on may be replaced.
-/

namespace SlurmSpank.UseEnv

open Foundation Lib

universe u

variable {E : Type u} {w : World E}

/-! ## Matches up to a boundary -/

/-- The texts in front of a statement: no text, or one that ends a statement or begins the
statements of a block. -/
def Boundary (text : Text) : Prop :=
  text = [] ∨ ∃ before c, text = before ++ [c] ∧
    (c = '\n' ∨ c = ';' ∨ c = '{' ∧ before.getLast? ≠ some '$')

theorem Boundary.of_suffix {text left : Text} (hboundary : Boundary text)
    (hsuffix : left <:+ text) :
    Boundary left := by
  rcases hboundary with rfl | ⟨before, c, rfl, hc⟩
  · exact Or.inl (List.suffix_nil.mp hsuffix)
  · obtain ⟨taken, htaken⟩ := hsuffix
    rcases List.eq_nil_or_concat left with rfl | ⟨kept, d, rfl⟩
    · exact Or.inl rfl
    · rw [List.concat_eq_append, ← List.append_assoc] at htaken
      obtain ⟨rfl, hlast⟩ := List.append_inj' htaken rfl
      obtain rfl := (List.cons.inj hlast).1
      refine Or.inr ⟨kept, d, List.concat_eq_append, ?_⟩
      rcases hc with hc | hc | ⟨hc, hdollar⟩
      · exact Or.inl hc
      · exact Or.inr (Or.inl hc)
      · refine Or.inr (Or.inr ⟨hc, fun hkept => hdollar ?_⟩)
        rw [List.getLast?_append, hkept]
        rfl

/-- Behind a brace, only what begins with a dollar sign in front of it goes on. -/
theorem LexRule.stops_bracketedId {before : Text} (hdollar : before.getLast? ≠ some '$') :
    LexRule.bracketedId.Stops (before ++ ['{']) := by
  intro z haccepts
  exfalso
  obtain ⟨u, v, heq, hu, hv⟩ := Regex.accepts_seq haccepts
  obtain ⟨c, hc, rfl⟩ := Regex.accepts_cls.mp hu
  obtain ⟨u', v', rfl, hu', hv'⟩ := Regex.accepts_seq hv
  obtain ⟨d, hd, rfl⟩ := Regex.accepts_cls.mp hu'
  obtain rfl : c = '$' := of_decide_eq_true hc
  have havoids : (Regex.seq LexRule.id (.cls (· = '}'))).avoids '{' = true := by decide
  cases before with
  | nil => exact absurd (List.cons.inj heq).1 (by decide)
  | cons e before =>
      obtain ⟨rfl, hrest⟩ := List.cons.inj heq
      cases before with
      | nil => exact hdollar rfl
      | cons f before =>
          have hv'_eq : before ++ ['{'] ++ z = v' := (List.cons.inj hrest).2
          exact Regex.notMem_of_avoids havoids hv' (by simp [← hv'_eq])

namespace Start

/-- No match goes on behind a newline. -/
theorem rules_newline (start : Start) :
    ∀ rule ∈ start.rules, Regex.OnlyEnds '\n' rule.full := by
  have hinitial : ∀ rule ∈ LexRule.initial, rule.full.endsOnly '\n' = true := by decide
  have hstr : ∀ rule ∈ LexRule.str, rule.full.endsOnly '\n' = true := by decide
  have hstr2 : ∀ rule ∈ LexRule.str2, rule.full.endsOnly '\n' = true := by decide
  have hpostop : ∀ rule ∈ LexRule.postop, rule.full.endsOnly '\n' = true := by decide
  intro rule hrule
  apply Regex.onlyEnds_of_endsOnly
  cases start with
  | initial => exact hinitial rule hrule
  | str buf => exact hstr rule hrule
  | str2 buf got => exact hstr2 rule hrule
  | postop buf got => exact hpostop rule hrule

/-- But for comments and bracketed symbols, no match goes on behind a semicolon or a brace. -/
theorem rules_cases (start : Start) : ∀ rule ∈ start.rules,
    rule = LexRule.plain LexRule.comment .skip ∨ rule.full = LexRule.bracketedId ∨
      rule.full.endsOnly ';' = true ∧ rule.full.endsOnly '{' = true := by
  have hinitial : ∀ rule ∈ LexRule.initial.take 1 ++ (LexRule.initial.drop 2).dropLast,
      rule.full.endsOnly ';' = true ∧ rule.full.endsOnly '{' = true := by decide
  have hshared : ∀ rule ∈ LexRule.shared.take 2 ++ LexRule.shared.drop 3,
      rule.full.endsOnly ';' = true ∧ rule.full.endsOnly '{' = true := by decide
  have hstr : ∀ rule ∈ LexRule.str.take 2 ++ LexRule.str2.take 2,
      rule.full.endsOnly ';' = true ∧ rule.full.endsOnly '{' = true := by decide
  have hpostop : ∀ rule ∈ LexRule.postop.take 3 ++ (LexRule.postop.drop 4).take 1,
      rule.full.endsOnly ';' = true ∧ rule.full.endsOnly '{' = true := by decide
  have hinitials : LexRule.initial = LexRule.initial.take 1 ++
      LexRule.plain LexRule.comment .skip :: ((LexRule.initial.drop 2).dropLast ++
        [LexRule.plain LexRule.bracketedId .bracketedItem]) := rfl
  have hshareds : LexRule.shared = LexRule.shared.take 2 ++
      LexRule.plain LexRule.bracketedId .bracketedSymbol :: LexRule.shared.drop 3 := rfl
  have hshared' : ∀ rule ∈ LexRule.shared, rule.full = LexRule.bracketedId ∨
      rule.full.endsOnly ';' = true ∧ rule.full.endsOnly '{' = true := by
    intro rule hrule
    rw [hshareds, List.mem_append, List.mem_cons] at hrule
    rcases hrule with hrule | rfl | hrule
    · exact Or.inr (hshared rule (List.mem_append_left _ hrule))
    · exact Or.inl rfl
    · exact Or.inr (hshared rule (List.mem_append_right _ hrule))
  intro rule hrule
  cases start with
  | initial =>
      change rule ∈ LexRule.initial at hrule
      rw [hinitials, List.mem_append, List.mem_cons, List.mem_append, List.mem_singleton] at hrule
      rcases hrule with hrule | rfl | hrule | rfl
      · exact Or.inr (Or.inr (hinitial rule (List.mem_append_left _ hrule)))
      · exact Or.inl rfl
      · exact Or.inr (Or.inr (hinitial rule (List.mem_append_right _ hrule)))
      · exact Or.inr (Or.inl rfl)
  | str buf =>
      rcases List.mem_append.mp hrule with hrule | hrule
      · exact Or.inr (Or.inr (hstr rule (List.mem_append_left _ hrule)))
      · exact Or.inr (hshared' rule hrule)
  | str2 buf got =>
      rcases List.mem_append.mp hrule with hrule | hrule
      · exact Or.inr (Or.inr (hstr rule (List.mem_append_right _ hrule)))
      · exact Or.inr (hshared' rule hrule)
  | postop buf got =>
      rcases List.mem_append.mp hrule with hrule | hrule
      · have hpostops : LexRule.postop.take 5 = LexRule.postop.take 3 ++
            LexRule.plain LexRule.comment .skip :: (LexRule.postop.drop 4).take 1 := rfl
        change rule ∈ LexRule.postop.take 5 at hrule
        rw [hpostops, List.mem_append, List.mem_cons] at hrule
        rcases hrule with hrule | rfl | hrule
        · exact Or.inr (Or.inr (hpostop rule (List.mem_append_left _ hrule)))
        · exact Or.inl rfl
        · exact Or.inr (Or.inr (hpostop rule (List.mem_append_right _ hrule)))
      · exact Or.inr (hshared' rule hrule)

/-- No match goes on behind a boundary, unless it is that of a comment. -/
theorem stops_or_comment (start : Start) {text : Text} (hboundary : Boundary text)
    (htext : text ≠ []) :
    (∀ rule ∈ start.rules, rule.full.Stops text) ∨
      (∃ rest, text = '#' :: rest) ∧ '\n' ∉ text ∧
        LexRule.plain LexRule.comment .skip ∈ start.rules := by
  by_cases hnewline : '\n' ∈ text
  · exact Or.inl fun rule hrule => (start.rules_newline rule hrule).stops hnewline
  by_cases hcomment : (∃ rest, text = '#' :: rest) ∧
      LexRule.plain LexRule.comment .skip ∈ start.rules
  · exact Or.inr ⟨hcomment.1, hnewline, hcomment.2⟩
  refine Or.inl fun rule hrule => ?_
  obtain ⟨before, c, rfl, hc⟩ := hboundary.resolve_left htext
  rcases start.rules_cases rule hrule with rfl | hfull | ⟨hsemi, hbrace⟩
  · intro z haccepts
    obtain ⟨u, v, heq, hu, -⟩ := Regex.accepts_seq haccepts
    obtain ⟨d, hd, rfl⟩ := Regex.accepts_cls.mp hu
    obtain rfl : d = '#' := of_decide_eq_true hd
    generalize before ++ [c] = text at heq htext hcomment
    cases text with
    | nil => exact absurd rfl htext
    | cons d rest =>
        obtain rfl : d = '#' := (List.cons.inj heq).1
        exact absurd ⟨⟨rest, rfl⟩, hrule⟩ hcomment
  · rw [hfull]
    rcases hc with rfl | rfl | ⟨rfl, hdollar⟩
    · exact absurd (by simp) hnewline
    · have havoids : LexRule.bracketedId.avoids ';' = true := by decide
      exact (Regex.onlyEnds_of_avoids havoids).stops (by simp)
    · exact LexRule.stops_bracketedId hdollar
  · rcases hc with rfl | rfl | ⟨rfl, -⟩
    · exact absurd (by simp) hnewline
    · exact (Regex.onlyEnds_of_endsOnly hsemi).stops (by simp)
    · exact (Regex.onlyEnds_of_endsOnly hbrace).stops (by simp)

/-- A match that begins like a comment gives nothing back. -/
theorem rules_comment (start : Start) : ∀ rule ∈ start.rules, rule.full.starts '#' = true →
    rule.context.isNone = true ∧ (rule.action matches .skip | .putText) = true := by
  have hinitial : ∀ rule ∈ LexRule.initial, rule.full.starts '#' = true →
      rule.context.isNone = true ∧ (rule.action matches .skip | .putText) = true := by decide
  have hstr : ∀ rule ∈ LexRule.str ++ LexRule.str2 ++ LexRule.postop,
      rule.full.starts '#' = true →
        rule.context.isNone = true ∧ (rule.action matches .skip | .putText) = true := by decide
  intro rule hrule
  cases start with
  | initial => exact hinitial rule hrule
  | str buf => exact hstr rule (List.mem_append_left _ (List.mem_append_left _ hrule))
  | str2 buf got => exact hstr rule (List.mem_append_left _ (List.mem_append_right _ hrule))
  | postop buf got => exact hstr rule (List.mem_append_right _ hrule)

end Start

namespace Lexer

variable {l l' : Lexer E} {text x y : Text}

/-- In front of a boundary that stops all matches, two lexers make the same step. -/
theorem Alike.step_stops (halike : l.Alike l') (ops : EnvOps E) (htext : text ≠ [])
    (hleft : l.current.rest = text ++ x) (hright : l'.current.rest = text ++ y)
    (hstops : ∀ rule ∈ l.start.rules, rule.full.Stops text) :
    (l.step ops).1.Alike (l'.step ops).1 ∧ (l.step ops).2 = (l'.step ops).2 ∧
      ∃ left, left <:+ text ∧ (l.step ops).1.current.rest = left ++ x ∧
        (l'.step ops).1.current.rest = left ++ y := by
  apply halike.step ops htext hleft hright
  · exact ScanRule.scan_congr fun rule hrule => (hstops rule hrule).longest_append x y
  · intro best hbest
    obtain ⟨hmem, hlongest⟩ := ScanRule.of_scan hbest
    refine Nat.le_trans ?_ ((hstops best.1 hmem).longest_le hlongest)
    unfold ScanRule.width
    split
    next => exact Nat.le_refl _
    next => exact Nat.sub_le _ _

/-- A comment goes on behind such a boundary, up to a newline. -/
theorem step_comment (ops : EnvOps E) (hcomment : ∃ rest, text = '#' :: rest) {taken : Text}
    (hnewline : '\n' ∉ text ++ taken)
    (hrule : LexRule.plain LexRule.comment .skip ∈ l.start.rules)
    (hrest : l.current.rest = text ++ (taken ++ x)) :
    (l.step ops).2 = none ∧ (l.step ops).1.current.rest.length ≤ x.length := by
  obtain ⟨rest, rfl⟩ := hcomment
  have htake : ('#' :: rest ++ (taken ++ x)).take (rest.length + taken.length + 1) =
      ['#'] ++ (rest ++ taken) := by
    have hsplit : '#' :: rest ++ (taken ++ x) = ('#' :: rest ++ taken) ++ x := by simp
    rw [hsplit, List.take_append_of_le_length (by simp),
      List.take_of_length_le (by simp)]
    rfl
  have haccepts : LexRule.comment.accepts
      (('#' :: rest ++ (taken ++ x)).take (rest.length + taken.length + 1)) = true := by
    rw [htake]
    refine Regex.accepts_append rfl (Regex.accepts_star_cls fun d hd => decide_eq_true ?_)
    rintro rfl
    exact hnewline (List.mem_cons_of_mem _ hd)
  obtain ⟨n, hlongest, hn⟩ := Regex.le_longest (by simp) haccepts
  obtain ⟨best, m, hscan, hm⟩ := ScanRule.exists_scan hrule hlongest
  obtain ⟨hmem, hbest⟩ := ScanRule.of_scan hscan
  have hstarts : best.full.starts '#' = true := by
    have hword := Regex.accepts_longest hbest
    obtain ⟨k, rfl⟩ : ∃ k, m = k + 1 := ⟨m - 1, by omega⟩
    rw [List.cons_append, List.take_succ_cons] at hword
    exact Regex.starts_of_accepts hword
  obtain ⟨hcontext, haction⟩ := l.start.rules_comment best hmem hstarts
  have hwidth : best.width m = m := by
    rw [ScanRule.width, Option.isNone_iff_eq_none.mp hcontext]
  have hact : ∀ (k : Lexer E) (yytext : Text), (k.act ops best.action yytext).2 = none ∧
      (k.act ops best.action yytext).1.current = k.current := by
    intro k yytext
    cases hbestAction : best.action with
    | skip | putText => exact ⟨rfl, rfl⟩
    | _ =>
        rw [hbestAction] at haction
        exact absurd haction Bool.false_ne_true
  rw [List.cons_append] at hrest hscan
  simp only [step, hrest, hscan, hwidth]
  obtain ⟨hnone, hcurrent⟩ := hact (l.setRest (('#' :: (rest ++ (taken ++ x))).drop m))
    (('#' :: (rest ++ (taken ++ x))).take m)
  refine ⟨hnone, ?_⟩
  rw [hcurrent]
  simp only [setRest, List.length_drop, List.length_cons, List.length_append]
  omega

/-- In an operand, a match that does not end it takes something for good. -/
theorem step_operand (ops : EnvOps E) {buf : Text} {got : Bool} (hstart : l.start = .postop buf got)
    {c : Char} {x : Text} (hnewline : c ≠ '\n') (hsemi : c ≠ ';')
    (hrest : l.current.rest = c :: x) :
    (l.step ops).1.current.rest.length < (c :: x).length := by
  have hothers : ∀ rule ∈ LexRule.postop.take 1 ++ LexRule.postop.drop 2,
      (rule.action matches .endPostop) = false := by decide
  have hpostop : LexRule.postop = LexRule.postop.take 1 ++
      LexRule.plain (.cls fun c => c = '\n' || c = ';') .endPostop :: LexRule.postop.drop 2 := rfl
  simp only [step, hrest, hstart, Start.rules]
  split
  next => exact Nat.lt_succ_self x.length
  next rule n hscan =>
    obtain ⟨hmem, hlongest⟩ := ScanRule.of_scan hscan
    obtain ⟨hpos, hle⟩ := ScanRule.width_of_scan (Start.postop buf got).rules_proper hscan
    obtain ⟨-, -, hkept⟩ := act_spec ops (l.setRest ((c :: x).drop (rule.width n))) rule.action
      ((c :: x).take (rule.width n))
    rcases hkept with hkept | ⟨hback, -⟩
    · rw [hkept]
      simp only [setRest, List.length_drop]
      omega
    · rw [hpostop, List.mem_append, List.mem_cons] at hmem
      rcases hmem with hmem | rfl | hmem
      · have hnot := hothers rule (List.mem_append_left _ hmem)
        rw [hback] at hnot
        exact absurd hnot.symm Bool.false_ne_true
      · obtain ⟨d, hd, htake⟩ := Regex.accepts_cls.mp (Regex.accepts_longest hlongest)
        obtain ⟨k, rfl⟩ : ∃ k, n = k + 1 := ⟨n - 1, by
          have hn : 0 < n := hpos
          omega⟩
        obtain rfl : c = d := (List.cons.inj htake).1
        simp [hnewline, hsemi] at hd
      · have hnot := hothers rule (List.mem_append_right _ hmem)
        rw [hback] at hnot
        exact absurd hnot.symm Bool.false_ne_true

end Lexer

end SlurmSpank.UseEnv
