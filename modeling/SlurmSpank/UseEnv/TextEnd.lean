import Mathlib.Tactic.IntervalCases
import SlurmSpank.UseEnv.Replacement

/-! # The end of a text

How the last match in a file depends on whether a newline follows. A number is read as a
string if none does, and a backslash stands for itself.
-/

namespace SlurmSpank.UseEnv

open Foundation Lib

universe u

variable {E : Type u}

/-- What stands behind a newline has no influence on the match. -/
theorem Start.scan_newline (start : Start) (text x y : Text) :
    ScanRule.scan start.rules (text ++ '\n' :: x) =
      ScanRule.scan start.rules (text ++ '\n' :: y) := by
  refine ScanRule.scan_congr fun rule hrule => ?_
  have hstops : rule.full.Stops (text ++ ['\n']) :=
    (start.rules_newline rule hrule).stops (by simp)
  have hsame := hstops.longest_append x y
  rwa [List.append_assoc, List.append_assoc] at hsame

namespace LexRule

/-! ## Digits -/

theorem mem_of_digit {c : Char} (hdigit : digit c = true) : c ∈ "0123456789".toList := by
  obtain ⟨hlow, hhigh⟩ := Bool.and_eq_true_iff.mp hdigit
  have hge : 48 ≤ c.toNat := of_decide_eq_true hlow
  have hle : c.toNat ≤ 57 := of_decide_eq_true hhigh
  rw [← Char.ofNat_toNat c]
  generalize c.toNat = n at hge hle
  interval_cases n <;> decide

theorem of_digit {holds : Char → Bool} {c : Char}
    (hall : "0123456789".toList.all holds = true) (hdigit : digit c = true) : holds c = true :=
  List.all_eq_true.mp hall c (mem_of_digit hdigit)

/-- The rule for numbers. -/
def number : LexRule := ⟨.plus (.cls digit), some p, .intItem⟩

/-- The rule for words. -/
def word : LexRule := plain (.plus (.cls ident)) .strItem

theorem initial_eq : initial = initial.take 36 ++ number :: word :: initial.drop 38 := rfl

/-- Only a number and a word begin with a digit. -/
theorem of_starts_digit {c : Char} (hdigit : digit c = true) : ∀ rule ∈ initial,
    rule.full.starts c = true → rule = number ∨ rule = word := by
  have hothers : "0123456789".toList.all (fun c =>
      (initial.take 36 ++ initial.drop 38).all fun rule => !rule.full.starts c) = true := by decide
  have hothers := List.all_eq_true.mp (of_digit hothers hdigit)
  intro rule hrule hstarts
  rw [initial_eq, List.mem_append, List.mem_cons, List.mem_cons] at hrule
  have hother : ∀ other ∈ initial.take 36 ++ initial.drop 38, rule ≠ other := by
    rintro other hmem rfl
    have hother := hothers rule hmem
    rw [hstarts] at hother
    exact Bool.false_ne_true hother
  rcases hrule with hrule | hrule | hrule | hrule
  · exact absurd rfl (hother rule (List.mem_append_left _ hrule))
  · exact Or.inl hrule
  · exact Or.inr hrule
  · exact absurd rfl (hother rule (List.mem_append_right _ hrule))

/-- A backslash in front of a newline. -/
def lastBackslash : LexRule := ⟨.cls (· = '\\'), some (· = '\n'), .put '$'⟩

/-- A rule that a newline behind the text does not concern. -/
def Short (rule : LexRule) : Prop :=
  rule.full.avoids '\n' = true ∨ ∃ q, rule.full = .cls q

instance (rule : LexRule) : Decidable rule.Short :=
  match hfull : rule.full with
  | .cls q => isTrue (Or.inr ⟨q, hfull⟩)
  | .fail | .empty | .seq _ _ | .alt _ _ | .star _ =>
      if havoids : rule.full.avoids '\n' = true then isTrue (Or.inl havoids)
      else isFalse (by rw [Short, or_iff_right havoids, hfull]; simp)

theorem shared_short : ∀ rule ∈ shared, rule.Short ∨ rule = lastBackslash := by
  have hothers : ∀ rule ∈ shared.take 3 ++ shared.drop 4, rule.Short := by decide
  have hsplit : shared = shared.take 3 ++ lastBackslash :: shared.drop 4 := rfl
  intro rule hrule
  rw [hsplit, List.mem_append, List.mem_cons] at hrule
  rcases hrule with hrule | hrule | hrule
  · exact Or.inl (hothers rule (List.mem_append_left _ hrule))
  · exact Or.inr hrule
  · exact Or.inl (hothers rule (List.mem_append_right _ hrule))

variable {digits : Text}

/-- Digits at the end of a file are a word. -/
theorem scan_digits (hdigits : digits ≠ []) (hall : ∀ c ∈ digits, digit c = true) :
    ScanRule.scan initial digits = some (word, digits.length) := by
  have hident : "0123456789".toList.all ident = true := by decide
  have hp : "0123456789".toList.all (fun c => !p c) = true := by decide
  have hword : word.full.accepts digits = true :=
    Regex.accepts_plus_cls hdigits fun c hc => of_digit hident (hall c hc)
  have hmem : word ∈ initial := by
    rw [initial_eq]
    simp
  obtain ⟨best, hscan, hbest, haccepts⟩ := ScanRule.scan_whole hmem hword
  obtain ⟨c, rest, hcons⟩ := List.exists_cons_of_ne_nil hdigits
  have hstarts : best.full.starts c = true := Regex.starts_of_accepts (hcons ▸ haccepts)
  have hc : c ∈ digits := hcons ▸ List.mem_cons_self
  rcases of_starts_digit (hall c hc) best hbest hstarts with rfl | rfl
  · obtain ⟨u, v, heq, -, hv⟩ := Regex.accepts_seq haccepts
    obtain ⟨d, hd, rfl⟩ := Regex.accepts_cls.mp hv
    have hd' : d ∈ digits := heq ▸ List.mem_append_right u (List.mem_singleton.mpr rfl)
    have hnot := of_digit hp (hall d hd')
    rw [hd] at hnot
    exact absurd hnot Bool.false_ne_true
  · exact hscan

/-- In front of a newline they are a number. -/
theorem scan_digits_newline (hdigits : digits ≠ []) (hall : ∀ c ∈ digits, digit c = true)
    (rest : Text) :
    ScanRule.scan initial (digits ++ '\n' :: rest) = some (number, digits.length + 1) := by
  have hnumber : number.full.accepts (digits ++ ['\n']) = true :=
    Regex.accepts_append (Regex.accepts_plus_cls hdigits hall) (by decide)
  have hmem : number ∈ initial := by
    rw [initial_eq]
    simp
  obtain ⟨best, hscan, hbest, haccepts⟩ := ScanRule.scan_whole hmem hnumber
  rw [List.length_append, List.length_singleton] at hscan
  refine (Start.initial.scan_newline digits rest []).trans ?_
  obtain ⟨c, more, hcons⟩ := List.exists_cons_of_ne_nil hdigits
  have hstarts : best.full.starts c = true := by
    rw [hcons] at haccepts
    exact Regex.starts_of_accepts haccepts
  have hc : c ∈ digits := hcons ▸ List.mem_cons_self
  rcases of_starts_digit (hall c hc) best hbest hstarts with rfl | rfl
  · exact hscan
  · have havoids : word.full.avoids '\n' = true := by decide
    exact absurd (by simp) (Regex.notMem_of_avoids havoids haccepts)

end LexRule

/-- The rules whose match a newline behind the text may change. -/
theorem Start.rules_cut (start : Start) : ∀ rule ∈ start.rules, rule.Short ∨
    (start = .initial ∧ rule = LexRule.number) ∨
      start ≠ .initial ∧ rule = LexRule.lastBackslash := by
  have hinitial : ∀ rule ∈ LexRule.initial.take 36 ++ LexRule.word :: LexRule.initial.drop 38,
      rule.Short := by decide
  have hothers : ∀ rule ∈ LexRule.str.take 2 ++ LexRule.str2.take 2 ++ LexRule.postop.take 5,
      rule.Short := by decide
  intro rule hrule
  cases start with
  | initial =>
      change rule ∈ LexRule.initial at hrule
      rw [LexRule.initial_eq, List.mem_append, List.mem_cons] at hrule
      rcases hrule with hrule | hrule | hrule
      · exact Or.inl (hinitial rule (List.mem_append_left _ hrule))
      · exact Or.inr (Or.inl ⟨rfl, hrule⟩)
      · exact Or.inl (hinitial rule (List.mem_append_right _ hrule))
  | str buf =>
      rcases List.mem_append.mp hrule with hrule | hrule
      · exact Or.inl (hothers rule (List.mem_append_left _ (List.mem_append_left _ hrule)))
      · exact (LexRule.shared_short rule hrule).imp_right fun heq => Or.inr ⟨by simp, heq⟩
  | str2 buf got =>
      rcases List.mem_append.mp hrule with hrule | hrule
      · exact Or.inl (hothers rule (List.mem_append_left _ (List.mem_append_right _ hrule)))
      · exact (LexRule.shared_short rule hrule).imp_right fun heq => Or.inr ⟨by simp, heq⟩
  | postop buf got =>
      rcases List.mem_append.mp hrule with hrule | hrule
      · exact Or.inl (hothers rule (List.mem_append_right _ hrule))
      · exact (LexRule.shared_short rule hrule).imp_right fun heq => Or.inr ⟨by simp, heq⟩

namespace Lexer

/-! ## Matches at the end of a file -/

/-- A newline behind the text would change no match. -/
def NotCut (l : Lexer E) : Prop :=
  ∀ rule ∈ l.start.rules,
    rule.full.longest (l.current.rest ++ ['\n']) = rule.full.longest l.current.rest

/-- Only a number and a backslash are read differently if a newline follows. -/
theorem notCut_or (l : Lexer E) (hrest : l.current.rest ≠ []) :
    l.NotCut ∨ (l.start = .initial ∧ ∀ c ∈ l.current.rest, LexRule.digit c = true) ∨
      l.start ≠ .initial ∧ l.current.rest = ['\\'] := by
  by_cases hcut : l.NotCut
  · exact Or.inl hcut
  obtain ⟨rule, hrule, hlongest⟩ : ∃ rule ∈ l.start.rules,
      rule.full.longest (l.current.rest ++ ['\n']) ≠ rule.full.longest l.current.rest := by
    unfold NotCut at hcut
    push Not at hcut
    exact hcut
  have haccepts : rule.full.accepts (l.current.rest ++ ['\n']) = true := by
    by_contra hnot
    exact hlongest (Regex.longest_concat (Bool.eq_false_iff.mpr hnot))
  rcases l.start.rules_cut rule hrule with hshort | ⟨hstart, rfl⟩ | ⟨hstart, rfl⟩
  · rcases hshort with havoids | ⟨q, hfull⟩
    · exact absurd (by simp) (Regex.notMem_of_avoids havoids haccepts)
    · rw [hfull] at haccepts
      obtain ⟨c, -, heq⟩ := Regex.accepts_cls.mp haccepts
      have hlength := congrArg List.length heq
      rw [List.length_append, List.length_singleton, List.length_singleton] at hlength
      exact absurd (List.length_eq_zero_iff.mp (by omega)) hrest
  · obtain ⟨u, v, heq, hu, hv⟩ := Regex.accepts_seq haccepts
    obtain ⟨c, -, rfl⟩ := Regex.accepts_cls.mp hv
    obtain ⟨rfl, -⟩ := List.append_inj' heq rfl
    exact Or.inr (Or.inl ⟨hstart, Regex.of_accepts_plus_cls hu⟩)
  · obtain ⟨u, v, heq, hu, hv⟩ := Regex.accepts_seq haccepts
    obtain ⟨c, -, rfl⟩ := Regex.accepts_cls.mp hv
    obtain ⟨d, hd, rfl⟩ := Regex.accepts_cls.mp hu
    obtain ⟨hrest', -⟩ := List.append_inj' heq rfl
    obtain rfl : d = '\\' := of_decide_eq_true hd
    exact Or.inr (Or.inr ⟨hstart, hrest'⟩)

section Steps

variable (ops : EnvOps E) {l : Lexer E} {text rest : Text}

theorem step_digits (hstart : l.start = .initial) (hrest : l.current.rest ≠ [])
    (hall : ∀ c ∈ l.current.rest, LexRule.digit c = true) :
    l.step ops = (l.setRest [], some (.item (.ofStr l.current.rest))) := by
  have hscan := LexRule.scan_digits hrest hall
  obtain ⟨c, rest, hcons⟩ := List.exists_cons_of_ne_nil hrest
  rw [hcons] at hscan ⊢
  simp only [step, hcons, hstart, Start.rules, hscan]
  simp [LexRule.word, LexRule.plain, ScanRule.width, act]

theorem step_digits_newline (hstart : l.start = .initial) (htext : text ≠ [])
    (hall : ∀ c ∈ text, LexRule.digit c = true) (hrest : l.current.rest = text ++ '\n' :: rest) :
    l.step ops = (l.setRest ('\n' :: rest), some (.item (.ofInt text))) := by
  have hscan := LexRule.scan_digits_newline htext hall rest
  obtain ⟨c, more, rfl⟩ := List.exists_cons_of_ne_nil htext
  rw [List.cons_append] at hrest hscan
  simp only [step, hrest, hstart, Start.rules, hscan]
  simp [LexRule.number, ScanRule.width, act]

/-- A backslash at the end of a file stands for itself. -/
theorem step_backslash (hstart : l.start ≠ .initial) (hrest : l.current.rest = ['\\']) :
    l.step ops = ({ l.setRest [] with start := l.start.append ['\\'] }, none) := by
  obtain ⟨start, current, saved, tables⟩ := l
  dsimp only at hrest
  cases start with
  | initial => exact absurd rfl hstart
  | _ =>
      simp only [step, hrest]
      rfl

/-- In front of a newline it stands for a dollar sign. -/
theorem step_backslash_newline (hstart : l.start ≠ .initial)
    (hrest : l.current.rest = '\\' :: '\n' :: rest) :
    l.step ops = ({ l.setRest ('\n' :: rest) with start := l.start.append ['$'] }, none) := by
  have hscan := l.start.scan_newline ['\\'] rest []
  rw [List.singleton_append, List.singleton_append] at hscan
  obtain ⟨start, current, saved, tables⟩ := l
  dsimp only at hrest hscan
  cases start with
  | initial => exact absurd rfl hstart
  | _ =>
      simp only [step, hrest, hscan]
      rfl

/-! ## Matches in a line -/

/-- A match in a line that ends does not depend on the next line. -/
theorem step_line (text rest : Text) (hrest : l.current.rest = text ++ '\n' :: rest)
    {rule : LexRule} {n : Nat}
    (hscan : ScanRule.scan l.start.rules (text ++ ['\n']) = some (rule, n)) :
    l.step ops = (l.setRest ((text ++ '\n' :: rest).drop (rule.width n))).act ops rule.action
      ((text ++ '\n' :: rest).take (rule.width n)) := by
  have hscan' := (l.start.scan_newline text rest []).trans hscan
  obtain ⟨c, more, hcons⟩ := List.exists_cons_of_ne_nil (show text ++ '\n' :: rest ≠ [] by simp)
  rw [hcons] at hrest hscan' ⊢
  simp only [step, hrest, hscan']

/-- A newline between two statements is taken. -/
theorem step_newline (hstart : l.start = .initial) (hrest : l.current.rest = '\n' :: rest) :
    l.step ops = (l.setRest rest, some .newline) := by
  have hscan : ScanRule.scan l.start.rules ['\n'] =
      some (LexRule.plain (.cls (· = '\n')) (.token .newline), 1) := by
    rw [hstart]
    rfl
  exact (step_line ops [] rest hrest hscan).trans rfl

end Steps

end Lexer

end SlurmSpank.UseEnv
