import SlurmSpank.Cpuset.ConfLexer

/-! # Lines of the cpuset configuration

How a newline divides a text for the lexer. Every pattern but a quotation ends at a newline,
so what stands behind one can only matter to a quotation mark in front of it that no other
mark has closed. A newline behind the last line makes a difference to a comment and to a
backslash that stands alone.
-/

namespace SlurmSpank.Cpuset

open Foundation

namespace ConfRule

variable {rule : ConfRule} {s x y : Text} {w : Text} {n : Nat}

/-! ## The rules -/

/-- A quotation. -/
def quoted (mark : Char) : ConfRule := plain (quotation mark) .quoted

/-- The rule for the end of a line. -/
def newline : ConfRule := plain lineEnd (.token .newline)

theorem all_eq : all = all.take 4 ++ newline :: quoted '"' :: quoted '\x27' :: all.drop 7 := rfl

theorem all_proper : ∀ rule ∈ all, rule.pattern.nullable = false := by decide

theorem all_context : ∀ rule ∈ all, rule.context = none := by
  have hnone : all.all (·.context.isNone) = true := by decide
  intro rule hrule
  exact Option.isNone_iff_eq_none.mp (List.all_eq_true.mp hnone rule hrule)

theorem width_eq (hrule : rule ∈ all) (n : Nat) : rule.width n = n := by
  rw [ScanRule.width, all_context rule hrule]

/-- A rule is the end of a line, a quotation, or has no newline in its matches. -/
theorem all_cases : ∀ rule ∈ all, rule = newline ∨
    (∃ mark, (mark = '"' ∨ mark = '\x27') ∧ rule = quoted mark) ∨
      rule.full.avoids '\n' = true := by
  have hothers : ∀ rule ∈ all.take 4 ++ all.drop 7, rule.full.avoids '\n' = true := by decide
  intro rule hrule
  rw [all_eq, List.mem_append, List.mem_cons, List.mem_cons, List.mem_cons] at hrule
  rcases hrule with hrule | rfl | rfl | rfl | hrule
  · exact Or.inr (Or.inr (hothers rule (List.mem_append_left _ hrule)))
  · exact Or.inl rfl
  · exact Or.inr (Or.inl ⟨_, Or.inl rfl, rfl⟩)
  · exact Or.inr (Or.inl ⟨_, Or.inr rfl, rfl⟩)
  · exact Or.inr (Or.inr (hothers rule (List.mem_append_right _ hrule)))

/-- Nothing but a quotation goes behind a newline. -/
theorem quoted_or_stops (hrule : rule ∈ all) (hnewline : '\n' ∈ s) :
    (∃ mark, (mark = '"' ∨ mark = '\x27') ∧ rule = quoted mark) ∨ rule.full.Stops s := by
  rcases all_cases rule hrule with rfl | hquoted | havoids
  · have hends : Regex.OnlyEnds '\n' newline.full := Regex.onlyEnds_of_endsOnly (by decide)
    exact Or.inr (hends.stops hnewline)
  · exact Or.inl hquoted
  · exact Or.inr ((Regex.onlyEnds_of_avoids havoids).stops hnewline)

/-- The tokens after a match. -/
theorem tokens_of_scan (hscan : ScanRule.scan all s = some (rule, n)) :
    tokens s = (rule.action.act (s.take n)).toList ++ tokens (s.drop n) := by
  obtain ⟨hrule, hlongest⟩ := ScanRule.of_scan hscan
  have hsplit := List.take_append_drop n s
  rw [← hsplit] at hscan
  have hlength : rule.width n = (s.take n).length := by
    rw [width_eq hrule, List.length_take, Nat.min_eq_left (Regex.longest_le hlongest)]
  have htokens := @ScanRule.tokens_take _ _ _ all ConfAction.act _ _ _ all_proper _ hscan hlength
  rwa [hsplit] at htokens

/-! ## Quotations -/

/-- A quotation has its marks at both ends and nowhere else. -/
theorem accepts_quotation {mark : Char} (haccepts : (quotation mark).accepts w = true) :
    ∃ body, w = mark :: (body ++ [mark]) ∧ mark ∉ body := by
  obtain ⟨u, v, rfl, hu, hv⟩ := Regex.accepts_seq haccepts
  obtain ⟨c, hc, rfl⟩ := Regex.accepts_cls.mp hu
  obtain ⟨body, close, rfl, hbody, hclose⟩ := Regex.accepts_seq hv
  obtain ⟨d, hd, rfl⟩ := Regex.accepts_cls.mp hclose
  obtain rfl : c = mark := of_decide_eq_true hc
  obtain rfl : d = c := of_decide_eq_true hd
  refine ⟨body, rfl, fun hmem => ?_⟩
  exact of_decide_eq_true (Regex.of_accepts_star_cls hbody d hmem) rfl

/-- No quotation is the beginning of another one. -/
theorem quotation_prefixFree {mark : Char} {u v : Text}
    (hu : (quotation mark).accepts u = true) (huv : (quotation mark).accepts (u ++ v) = true) :
    v = [] := by
  obtain ⟨body, rfl, -⟩ := accepts_quotation hu
  obtain ⟨longer, heq, hnot⟩ := accepts_quotation huv
  by_contra hv
  have hlonger := congrArg List.dropLast (List.cons.inj heq).2
  rw [List.append_eq, List.dropLast_append_of_ne_nil hv, List.dropLast_concat] at hlonger
  refine hnot ?_
  rw [← hlonger]
  simp

/-- If what stands behind a text matters, the text starts with a mark that it does not close,
and one of the two that come behind closes it. -/
theorem quoted_change {mark : Char} {k : Nat}
    (hlongest : (quotation mark).longest (s ++ x) = some k)
    (hdiff : (quotation mark).longest (s ++ y) ≠ some k) : s.length < k := by
  by_contra hle
  have htake : ∀ z : Text, (s ++ z).take k = s.take k := fun z =>
    List.take_append_of_le_length (Nat.le_of_not_lt hle)
  have haccepts := Regex.accepts_longest hlongest
  rw [htake] at haccepts
  have hshort : k ≤ (s ++ y).length := by
    rw [List.length_append]
    omega
  obtain ⟨m, hm, hkm⟩ := @Regex.le_longest _ (quotation mark) (s ++ y) k hshort
    (by rwa [htake])
  -- A longer match would have this one as its beginning.
  obtain ⟨j, rfl⟩ := Nat.exists_eq_add_of_le hkm
  have hwhole := Regex.accepts_longest hm
  rw [List.take_add, htake] at hwhole
  have hnil := quotation_prefixFree haccepts hwhole
  have hj : j = 0 := by
    have hlength := congrArg List.length hnil
    have hle := Regex.longest_le hm
    rw [List.length_take, List.length_drop, List.length_nil] at hlength
    omega
  rw [hj, Nat.add_zero] at hm
  exact hdiff hm

/-- The marks of a quotation. -/
theorem starts_quotation {mark c : Char} (hstarts : (quotation mark).starts c = true) :
    c = mark := by
  rw [quotation, Regex.starts_seq, Regex.nullable_cls, Bool.false_and, Bool.or_false] at hstarts
  exact of_decide_eq_true hstarts

/-! ## What stands behind a newline -/

/-- A mark starts a quotation or a plain string. -/
theorem of_starts_mark {mark : Char} (hmark : mark = '"' ∨ mark = '\x27') : ∀ rule ∈ all,
    rule.full.starts mark = true →
      rule = quoted mark ∨ rule = plain (.plus (.cls plainChar)) .string := by
  have hothers : ∀ rule ∈ all.take 5 ++ (all.drop 7).take 13,
      rule.full.starts '"' = false ∧ rule.full.starts '\x27' = false := by decide
  have hsplit : all = all.take 5 ++ quoted '"' :: quoted '\x27' :: ((all.drop 7).take 13 ++
      [plain (.plus (.cls plainChar)) .string]) := rfl
  intro rule hrule hstarts
  have hnot : rule ∉ all.take 5 ++ (all.drop 7).take 13 := by
    intro hmem
    obtain ⟨hdouble, hsingle⟩ := hothers rule hmem
    rcases hmark with rfl | rfl
    · exact Bool.false_ne_true (hdouble.symm.trans hstarts)
    · exact Bool.false_ne_true (hsingle.symm.trans hstarts)
  rw [List.mem_append, not_or] at hnot
  rw [hsplit, List.mem_append, List.mem_cons, List.mem_cons, List.mem_append,
    List.mem_singleton] at hrule
  rcases hrule with hrule | rfl | rfl | hrule | rfl
  · exact absurd hrule hnot.1
  · exact Or.inl (by rw [starts_quotation hstarts])
  · exact Or.inl (by rw [starts_quotation hstarts])
  · exact absurd hrule hnot.2
  · exact Or.inr rfl

/-- If what stands behind a newline matters, the text starts with a quotation mark. A match
in the text then is a plain string, and with the other text behind it is a quotation that
contains the newline. -/
theorem scan_change (hnewline : s.getLast? = some '
')
    (hinside : ∀ rule n, ScanRule.scan all (s ++ x) = some (rule, n) → n ≤ s.length)
    (hdiff : ScanRule.scan all (s ++ x) ≠ ScanRule.scan all (s ++ y)) :
    ∃ mark rest k m, (mark = '"' ∨ mark = '\x27') ∧ s = mark :: rest ∧ 0 < k ∧
      ScanRule.scan all (s ++ x) = some (plain (.plus (.cls plainChar)) .string, k) ∧
      ScanRule.scan all (s ++ y) = some (quoted mark, m) ∧ s.length < m := by
  obtain ⟨other, hother, hlongest⟩ : ∃ rule ∈ all,
      rule.full.longest (s ++ x) ≠ rule.full.longest (s ++ y) := by
    by_contra hnone
    refine hdiff (ScanRule.scan_congr fun rule hrule => ?_)
    by_contra hne
    exact hnone ⟨rule, hrule, hne⟩
  have hmem : '\n' ∈ s := List.mem_of_getLast? hnewline
  -- Only a quotation can tell the difference, and it matches with the other text behind.
  obtain ⟨mark, hmark, rfl⟩ := (quoted_or_stops hother hmem).resolve_right
    fun hstops => hlongest (hstops.longest_append x y)
  have hnone : (quotation mark).longest (s ++ x) = none := by
    cases hx : (quotation mark).longest (s ++ x) with
    | none => rfl
    | some k =>
        obtain ⟨best, n, hscan, hk⟩ := ScanRule.exists_scan hother hx
        have hlong := quoted_change hx fun hy => hlongest (hx.trans hy.symm)
        exact absurd (Nat.le_trans hk (hinside best n hscan)) (Nat.not_le_of_lt hlong)
  obtain ⟨k, hy⟩ : ∃ k, (quotation mark).longest (s ++ y) = some k :=
    Option.ne_none_iff_exists'.mp fun hy => hlongest (hnone.trans hy.symm)
  have hlong : s.length < k := by
    apply quoted_change hy
    rw [hnone]
    exact (Option.some_ne_none k).symm
  obtain ⟨c, rest, rfl⟩ := List.exists_cons_of_ne_nil (List.ne_nil_of_mem hmem)
  obtain rfl : c = mark :=
    starts_quotation (Regex.starts_of_longest (Nat.zero_lt_of_lt hlong) hy)
  have hstring : plain (.plus (.cls plainChar)) .string ∈ all := by
    rw [← List.take_append_drop 20 all]
    exact List.mem_append_right _ List.mem_cons_self
  obtain ⟨n, hn, hpos⟩ := @Regex.le_longest _ (.plus (.cls plainChar)) (c :: rest ++ x) 1
    (Nat.succ_le_succ (Nat.zero_le _)) (by rcases hmark with rfl | rfl <;> rfl)
  obtain ⟨first, m, hfirst, hm⟩ := ScanRule.exists_scan hstring hn
  obtain ⟨best, l, hbest, hl⟩ := ScanRule.exists_scan hother hy
  obtain ⟨hfirst', hfirstlong⟩ := ScanRule.of_scan hfirst
  obtain ⟨hbest', hbestlong⟩ := ScanRule.of_scan hbest
  refine ⟨c, rest, m, l, hmark, rfl, Nat.lt_of_lt_of_le hpos hm, ?_, ?_,
    Nat.lt_of_lt_of_le hlong hl⟩
  · rcases of_starts_mark hmark first hfirst'
      (Regex.starts_of_longest (Nat.lt_of_lt_of_le hpos hm) hfirstlong) with rfl | rfl
    · exact absurd (hnone.symm.trans hfirstlong) (by simp)
    · exact hfirst
  · rcases quoted_or_stops hbest' hmem with ⟨mark, -, rfl⟩ | hstops
    · obtain rfl : c = mark := starts_quotation
        (Regex.starts_of_longest (Nat.zero_lt_of_lt (Nat.lt_of_lt_of_le hlong hl)) hbestlong)
      exact hbest
    · exact absurd (hstops.longest_le hbestlong) (Nat.not_le_of_lt (Nat.lt_of_lt_of_le hlong hl))

/-! ## Ends of lines -/

/-- A match that ends with a newline is the end of a line. -/
theorem eq_newline (hrule : rule ∈ all) (haccepts : rule.full.accepts w = true)
    (hlast : w.getLast? = some '\n') : rule = newline := by
  rcases all_cases rule hrule with rfl | ⟨mark, hmark, rfl⟩ | havoids
  · rfl
  · obtain ⟨body, rfl, -⟩ := accepts_quotation haccepts
    rw [← List.cons_append, List.getLast?_concat] at hlast
    obtain rfl := Option.some_inj.mp hlast
    exact absurd hmark (by decide)
  · exact absurd (List.mem_of_getLast? hlast) (Regex.notMem_of_avoids havoids haccepts)

/-- If the text up to a newline is the end of a line, that is the match. -/
theorem scan_newline (haccepts : lineEnd.accepts s = true) (hlast : s.getLast? = some '\n')
    (hmark : ∀ mark rest, s = mark :: rest → mark ≠ '"' ∧ mark ≠ '\x27') (x : Text) :
    ScanRule.scan all (s ++ x) = some (newline, s.length) := by
  have hmem : '\n' ∈ s := List.mem_of_getLast? hlast
  obtain ⟨c, rest, rfl⟩ := List.exists_cons_of_ne_nil (List.ne_nil_of_mem hmem)
  have hsame : ScanRule.scan all (c :: rest ++ x) = ScanRule.scan all (c :: rest ++ []) := by
    refine ScanRule.scan_congr fun rule hrule => ?_
    rcases quoted_or_stops hrule hmem with ⟨mark, hquoted, rfl⟩ | hstops
    · have hnone : ∀ y, (quotation mark).longest (c :: rest ++ y) = none := by
        intro y
        by_contra hsome
        obtain ⟨k, hk⟩ := Option.ne_none_iff_exists'.mp hsome
        have hpos := Regex.longest_pos (by rcases hquoted with rfl | rfl <;> rfl) hk
        obtain rfl : c = mark := starts_quotation (Regex.starts_of_longest hpos hk)
        exact hquoted.elim (hmark c rest rfl).1 (hmark c rest rfl).2
      exact (hnone x).trans (hnone []).symm
    · exact hstops.longest_append x []
  rw [hsame, List.append_nil]
  have hnewline : newline ∈ all := by
    rw [all_eq]
    simp
  obtain ⟨best, hscan, hbest, hwhole⟩ := ScanRule.scan_whole hnewline haccepts
  rw [hscan, eq_newline hbest hwhole hlast]

/-- The tokens of a text that is read up to a newline end with the token for it. -/
theorem lexes_newline {ts : List ConfToken}
    (hlexes : ScanRule.Lexes all ConfAction.act s x ts) (hlast : s.getLast? = some '\n') :
    ∃ us, ts = us ++ [.newline] := by
  induction hlexes with
  | nil => exact absurd hlast (by simp)
  | @pass c text behind ts hscan _ ih =>
      cases text with
      | nil =>
          obtain rfl : c = '\n' := Option.some_inj.mp hlast
          have hnewline := @scan_newline ['\n'] rfl rfl (by simp) behind
          exact absurd (hscan.symm.trans hnewline) (by simp)
      | cons d rest => exact ih hlast
  | @take taken text behind ts rule n hscan hwidth hrest ih =>
      by_cases htext : text = []
      · subst htext
        rw [List.append_nil] at hlast hscan
        obtain ⟨hrule, hlongest⟩ := ScanRule.of_scan hscan
        have haccepts := Regex.accepts_longest hlongest
        rw [width_eq hrule] at hwidth
        rw [hwidth, List.take_left' rfl] at haccepts
        obtain rfl := eq_newline hrule haccepts hlast
        rw [hrest.eq_nil all_proper]
        exact ⟨[], rfl⟩
      · rw [List.getLast?_append_of_ne_nil _ htext] at hlast
        obtain ⟨us, rfl⟩ := ih hlast
        exact ⟨_ ++ us, (List.append_assoc _ _ _).symm⟩

/-! ## Blank lines and comment lines -/

/-- A line that has at most blanks and a comment. -/
def LayoutLine (line : Text) : Prop :=
  ∃ blanks comment : Text, (∀ c ∈ blanks, blank c = true) ∧
    (comment = [] ∨ comment.head? = some '#') ∧ '\n' ∉ comment ∧
      line = blanks ++ (comment ++ ['\n'])

/-- Only the rule for blanks starts with one. -/
theorem of_starts_blank {c : Char} (hblank : blank c = true) : ∀ rule ∈ all,
    rule.full.starts c = true → rule = plain (.plus (.cls blank)) .skip := by
  have hblanks : c = ' ' ∨ c = '\t' ∨ c = '\r' := by
    simpa only [blank, Bool.or_eq_true, decide_eq_true_eq, or_assoc] using hblank
  have hothers : ∀ rule ∈ all.take 1 ++ all.drop 2, rule.full.starts ' ' = false ∧
      rule.full.starts '\t' = false ∧ rule.full.starts '\r' = false := by decide
  have hsplit : all = all.take 1 ++ plain (.plus (.cls blank)) .skip :: all.drop 2 := rfl
  intro rule hrule hstarts
  rw [hsplit, List.mem_append, List.mem_cons] at hrule
  have hnot : rule ∉ all.take 1 ++ all.drop 2 := by
    intro hmem
    obtain ⟨hspace, htab, hreturn⟩ := hothers rule hmem
    rcases hblanks with rfl | rfl | rfl
    · exact Bool.false_ne_true (hspace.symm.trans hstarts)
    · exact Bool.false_ne_true (htab.symm.trans hstarts)
    · exact Bool.false_ne_true (hreturn.symm.trans hstarts)
  rw [List.mem_append, not_or] at hnot
  rcases hrule with hrule | rfl | hrule
  · exact absurd hrule hnot.1
  · rfl
  · exact absurd hrule hnot.2

/-- Blanks are skipped. -/
theorem lexes_blanks {blanks : Text} (hall : ∀ c ∈ blanks, blank c = true)
    (hx : ∀ c, x.head? = some c → blank c = false) :
    ScanRule.Lexes all ConfAction.act blanks x [] := by
  cases blanks with
  | nil => exact .nil
  | cons c rest =>
      have hlongest : (plain (.plus (.cls blank)) .skip : ConfRule).full.longest
          (c :: rest ++ x) = some (c :: rest).length :=
        Regex.longest_plus_cls (List.cons_ne_nil c rest) hall hx
      have hmem : (plain (.plus (.cls blank)) .skip : ConfRule) ∈ all :=
        List.mem_cons_of_mem _ List.mem_cons_self
      obtain ⟨best, n, hscan, hn⟩ := ScanRule.exists_scan hmem hlongest
      obtain ⟨hbest, hbestlong⟩ := ScanRule.of_scan hscan
      obtain rfl := of_starts_blank (hall c List.mem_cons_self) best hbest
        (Regex.starts_of_longest (Nat.lt_of_lt_of_le (Nat.succ_pos _) hn) hbestlong)
      obtain rfl : (c :: rest).length = n := Option.some_inj.mp (hlongest.symm.trans hbestlong)
      have hlexes := @ScanRule.Lexes.take Char ConfAction ConfToken all ConfAction.act (c :: rest)
        [] x [] _ _ (by rwa [List.append_nil]) rfl .nil
      rwa [List.append_nil] at hlexes

theorem accepts_comment (hhead : s.head? = some '#') (hnot : '\n' ∉ s) :
    comment.accepts s = true := by
  obtain ⟨body, rfl⟩ := List.head?_eq_some_iff.mp hhead
  have hbody : ∀ c ∈ body, decide (c ≠ '\n') = true := by
    intro c hc
    refine decide_eq_true fun heq => hnot ?_
    exact List.mem_cons_of_mem _ (heq ▸ hc)
  exact @Regex.accepts_append _ (.cls (· = '#')) (.star (.cls (· ≠ '\n'))) ['#'] body rfl
    (Regex.accepts_star_cls hbody)

/-- A comment with the newline behind it is the end of a line. -/
theorem accepts_commentLine {comment : Text} (hhead : comment = [] ∨ comment.head? = some '#')
    (hnot : '\n' ∉ comment) : lineEnd.accepts (comment ++ ['\n']) = true := by
  have hbackslash : (Regex.seq (optional (.cls (· = '\\'))) (.cls (· = '\n'))).accepts ['\n'] =
      true := rfl
  refine Regex.accepts_append (Regex.accepts_alt.mpr ?_) hbackslash
  rcases hhead with rfl | hhead
  · exact Or.inr rfl
  · exact Or.inl (accepts_comment hhead hnot)

/-- Such a line is one newline. -/
theorem lexes_layoutLine {line : Text} (hline : LayoutLine line) (x : Text) :
    ScanRule.Lexes all ConfAction.act line x [.newline] := by
  obtain ⟨blanks, comment, hblanks, hhead, hnot, rfl⟩ := hline
  have hfirst : ∀ c, (comment ++ ['\n']).head? = some c → c = '#' ∨ c = '\n' := by
    intro c hc
    rcases hhead with rfl | hhead
    · exact Or.inr (Option.some_inj.mp hc).symm
    · obtain ⟨body, rfl⟩ := List.head?_eq_some_iff.mp hhead
      exact Or.inl (Option.some_inj.mp hc).symm
  have hend : ScanRule.scan all ((comment ++ ['\n']) ++ x) =
      some (newline, (comment ++ ['\n']).length) := by
    refine scan_newline (accepts_commentLine hhead hnot) List.getLast?_concat ?_ x
    intro mark rest heq
    rcases hfirst mark (by rw [heq]; rfl) with rfl | rfl
    · exact ⟨by decide, by decide⟩
    · exact ⟨by decide, by decide⟩
  have hlexes := @ScanRule.Lexes.take Char ConfAction ConfToken all ConfAction.act
    (comment ++ ['\n']) [] x [] _ _ (by rwa [List.append_nil]) rfl .nil
  rw [List.append_nil] at hlexes
  have hblank : ∀ c, (comment ++ ['\n'] ++ x).head? = some c → blank c = false := by
    intro c hc
    rw [List.head?_append_of_ne_nil _ (by simp)] at hc
    rcases hfirst c hc with rfl | rfl
    · rfl
    · rfl
  exact (lexes_blanks hblanks hblank).append hlexes

/-- So many lines are so many newlines. -/
theorem lexes_layoutLines {lines : List Text} (hlines : ∀ line ∈ lines, LayoutLine line)
    (x : Text) :
    ScanRule.Lexes all ConfAction.act lines.flatten x
      (List.replicate lines.length .newline) := by
  induction lines with
  | nil => exact .nil
  | cons line lines ih =>
      obtain ⟨hline, hlines⟩ := List.forall_mem_cons.mp hlines
      rw [List.flatten_cons]
      exact (lexes_layoutLine hline (lines.flatten ++ x)).append (ih hlines)

/-! ## A newline at the end -/

/-- A newline behind a text is a match of its own, unless the text is a comment or a
backslash. -/
theorem scan_end (hs : s ≠ []) (hdiff : ScanRule.scan all s ≠ ScanRule.scan all (s ++ ['\n'])) :
    lineEnd.accepts (s ++ ['\n']) = true ∧ (s.head? = some '#' ∨ s = ['\\']) := by
  obtain ⟨rule, hrule, hlongest⟩ : ∃ rule ∈ all,
      rule.full.longest s ≠ rule.full.longest (s ++ ['\n']) := by
    by_contra hnone
    refine hdiff (ScanRule.scan_congr fun rule hrule => ?_)
    by_contra hne
    exact hnone ⟨rule, hrule, hne⟩
  have haccepts : rule.full.accepts (s ++ ['\n']) = true := by
    by_contra hnot
    exact hlongest (Regex.longest_concat (Bool.eq_false_iff.mpr hnot)).symm
  obtain rfl := eq_newline hrule haccepts List.getLast?_concat
  refine ⟨haccepts, ?_⟩
  obtain ⟨u, v, heq, hu, hv⟩ := Regex.accepts_seq haccepts
  rcases Regex.accepts_alt.mp hu with hcomment | hempty
  · obtain ⟨first, body, rfl, hfirst, -⟩ := Regex.accepts_seq hcomment
    obtain ⟨c, hc, rfl⟩ := Regex.accepts_cls.mp hfirst
    obtain rfl : c = '#' := of_decide_eq_true hc
    rw [← List.head?_append_of_ne_nil s hs, heq]
    exact Or.inl rfl
  · obtain rfl := (Regex.accepts_empty u).mp hempty
    obtain ⟨back, last, rfl, hback, hlast⟩ := Regex.accepts_seq hv
    obtain ⟨d, hd, rfl⟩ := Regex.accepts_cls.mp hlast
    rw [List.nil_append] at heq
    obtain ⟨rfl, -⟩ := List.append_inj' heq rfl
    rcases Regex.accepts_alt.mp hback with hbackslash | hempty
    · obtain ⟨c, hc, rfl⟩ := Regex.accepts_cls.mp hbackslash
      obtain rfl : c = '\\' := of_decide_eq_true hc
      exact Or.inr rfl
    · exact absurd ((Regex.accepts_empty _).mp hempty) hs

/-- A comment that is the end of the text is skipped. -/
theorem scan_comment (hhead : s.head? = some '#') (hnot : '\n' ∉ s) :
    ScanRule.scan all s = some (plain comment .skip, s.length) := by
  apply ScanRule.scan_first
  obtain ⟨n, hlongest, hn⟩ := @Regex.le_longest _ comment s _ (Nat.le_refl _)
    (by rw [List.take_length]; exact accepts_comment hhead hnot)
  rw [Nat.le_antisymm hn (Regex.longest_le hlongest)]
  exact hlongest

/-- A text that ends with a match of a single backslash, and the tokens in front of it. -/
def LoneBackslash (text : Text) (ts : List ConfToken) : Prop :=
  ∃ before, text = before ++ ['\\'] ∧ ScanRule.Lexes all ConfAction.act before ['\\'] ts

/-- The backslash is a string, and with a newline behind it the end of a line. -/
theorem LoneBackslash.tokens {text : Text} {ts : List ConfToken}
    (hlone : LoneBackslash text ts) :
    ConfRule.tokens text = ts ++ [.string ['\\']] ∧
      ConfRule.tokens (text ++ ['\n']) = ts ++ [.newline] := by
  obtain ⟨before, rfl, hlexes⟩ := hlone
  refine ⟨hlexes.tokens all_proper, ?_⟩
  rw [List.append_assoc]
  rcases hlexes.change_behind all_proper ['\\', '\n'] with hlexes |
    ⟨front, after, us, vs, -, hafter, -, -, -, hrest, hdiff⟩
  · exact hlexes.tokens all_proper
  · -- A comment in front of the backslash would have taken it.
    have hne : after ++ ['\\'] ≠ [] := by simp
    have hassoc : after ++ ['\\', '\n'] = after ++ ['\\'] ++ ['\n'] := by simp
    rw [hassoc] at hdiff
    obtain ⟨haccepts, hhead | hsingle⟩ := scan_end hne hdiff
    · have hends : Regex.OnlyEnds '\n' lineEnd := Regex.onlyEnds_of_endsOnly (by decide)
      have hnot := hends _ haccepts
      rw [List.dropLast_concat] at hnot
      have hcomment := scan_comment hhead hnot
      have hle : (after ++ ['\\']).length ≤ after.length := hrest.width_le hafter hcomment
      rw [List.length_append, List.length_singleton] at hle
      exact absurd hle (Nat.not_succ_le_self _)
    · exact absurd (List.append_left_eq_self.mp (show after ++ ['\\'] = ['\\'] from hsingle)) hafter

/-- Any other text has one more newline. -/
theorem tokens_concat (text : Text) : (∃ ts, LoneBackslash text ts) ∨
    ConfRule.tokens (text ++ ['\n']) = ConfRule.tokens text ++ [.newline] := by
  rcases (ScanRule.lexes_tokens all_proper text).change_behind all_proper ['\n'] with hlexes |
    ⟨before, after, us, vs, rfl, hafter, htokens, hbefore, hbefore', hrest, hdiff⟩
  · exact Or.inr (hlexes.tokens all_proper)
  rw [List.append_nil] at hbefore hdiff
  obtain ⟨haccepts, hhead | rfl⟩ := scan_end hafter hdiff
  · have hends : Regex.OnlyEnds '\n' lineEnd := Regex.onlyEnds_of_endsOnly (by decide)
    have hnot := hends _ haccepts
    rw [List.dropLast_concat] at hnot
    have hskipped : ConfRule.tokens after = [] := by
      have hcomment := scan_comment hhead hnot
      rw [← List.append_nil after] at hcomment ⊢
      exact ScanRule.tokens_take all_proper hcomment (by rw [List.append_nil]; rfl)
    have hline : ConfRule.tokens (after ++ ['\n']) = [.newline] := by
      have hend := scan_newline haccepts List.getLast?_concat (fun mark rest heq => by
        rw [← List.head?_append_of_ne_nil after hafter, heq] at hhead
        obtain rfl : mark = '#' := Option.some_inj.mp hhead
        exact ⟨by decide, by decide⟩) []
      rw [← List.append_nil (after ++ ['\n'])]
      exact ScanRule.tokens_take all_proper hend rfl
    have htext := hbefore.tokens all_proper
    have hmore := hbefore'.tokens all_proper
    refine Or.inr ?_
    rw [List.append_assoc]
    refine hmore.trans ?_
    rw [show ConfRule.tokens (before ++ after) = us ++ ConfRule.tokens after from htext, hskipped,
      List.append_nil]
    exact congrArg (us ++ ·) hline
  · exact Or.inl ⟨us, before, rfl, hbefore⟩

end ConfRule

end SlurmSpank.Cpuset
