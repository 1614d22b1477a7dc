import Mathlib.Tactic.Common
import SlurmSpank.UseEnv.Session

/-! # What a match of the lexer does to the files

A match takes text from the file that is read, or gives it back and leaves `POSTOP`. At the
end of a file the lexer goes back to the one before. Nothing else opens or leaves a file but
`include`.
-/

namespace SlurmSpank.UseEnv

open Foundation Lib

universe u

variable {E : Type u} {ops : EnvOps E} {l : Lexer E}

/-- No rule matches the empty text. -/
theorem Start.rules_proper (start : Start) :
    ∀ rule ∈ start.rules, rule.pattern.nullable = false := by
  have hinitial : ∀ rule ∈ LexRule.initial, rule.pattern.nullable = false := by decide
  have hstr : ∀ rule ∈ LexRule.str, rule.pattern.nullable = false := by decide
  have hstr2 : ∀ rule ∈ LexRule.str2, rule.pattern.nullable = false := by decide
  have hpostop : ∀ rule ∈ LexRule.postop, rule.pattern.nullable = false := by decide
  cases start with
  | initial => exact hinitial
  | str buf => exact hstr
  | str2 buf got => exact hstr2
  | postop buf got => exact hpostop

namespace Lexer

/-- A match is still to be made on text that has been given back. -/
def toRead (l : Lexer E) : Nat :=
  2 * l.current.rest.length +
    match l.start with
    | .postop _ _ => 1
    | .initial | .str _ | .str2 _ _ => 0

/-- What an action leaves of the text: all of it, unless it gives the match back. Then an
item is returned, if anything. -/
theorem act_spec (ops : EnvOps E) (l : Lexer E) (action : LexAction) (yytext : Text) :
    (l.act ops action yytext).1.current.path = l.current.path ∧
      (l.act ops action yytext).1.saved = l.saved ∧
      ((l.act ops action yytext).1.current.rest = l.current.rest ∨
        action = .endPostop ∧ (∃ buf got, l.start = .postop buf got) ∧
          (l.act ops action yytext).1.start = .initial ∧
          (l.act ops action yytext).1.current.rest = yytext ++ l.current.rest ∧
          ∀ t ∈ (l.act ops action yytext).2, ∃ i, t = .item i) := by
  cases action with
  | beginStr2 =>
      unfold act
      dsimp only
      split <;> exact ⟨rfl, rfl, Or.inl rfl⟩
  | endPostop =>
      unfold act
      dsimp only
      split
      next buf got hstart =>
        split
        · exact ⟨rfl, rfl, Or.inr ⟨rfl, ⟨buf, got, hstart⟩, rfl, rfl,
            fun t ht => ⟨_, (Option.some_inj.mp ht).symm⟩⟩⟩
        · exact ⟨rfl, rfl, Or.inr ⟨rfl, ⟨buf, got, hstart⟩, rfl, rfl,
            fun t ht => absurd ht (by simp)⟩⟩
      next => exact ⟨rfl, rfl, Or.inl rfl⟩
  | blanks =>
      unfold act
      dsimp only
      split
      · split <;> exact ⟨rfl, rfl, Or.inl rfl⟩
      · exact ⟨rfl, rfl, Or.inl rfl⟩
  | home =>
      unfold act
      dsimp only
      split <;> exact ⟨rfl, rfl, Or.inl rfl⟩
  | symbol =>
      unfold act putSymbol
      dsimp only
      split <;> exact ⟨rfl, rfl, Or.inl rfl⟩
  | bracketedSymbol =>
      unfold act putSymbol
      dsimp only
      split <;> exact ⟨rfl, rfl, Or.inl rfl⟩
  | _ => exact ⟨rfl, rfl, Or.inl rfl⟩

/-- At the end of an included file the lexer is back in the file that includes it. -/
theorem includePop_eq_some {l l' : Lexer E} (hpop : l.includePop = some l') :
    ∃ source saved, l.saved = source :: saved ∧
      l' = { l with current := source, saved := saved } := by
  unfold includePop at hpop
  split at hpop
  next => exact absurd hpop (by simp)
  next source saved hcons => exact ⟨source, saved, hcons, (Option.some_inj.mp hpop).symm⟩

/-- What one match comes to. -/
theorem step_cases (ops : EnvOps E) (l : Lexer E) :
    (l.current.rest = [] ∧ l.includePop = none ∧ l.step ops = (l, some .eof)) ∨
      (l.current.rest = [] ∧ ∃ l', l.includePop = some l' ∧ l.step ops = (l', none)) ∨
      (l.current.rest ≠ [] ∧ (l.step ops).1.current.path = l.current.path ∧
        (l.step ops).1.saved = l.saved ∧ (l.step ops).1.toRead < l.toRead) := by
  cases hrest : l.current.rest with
  | nil =>
      cases hpop : l.includePop with
      | none => exact Or.inl ⟨rfl, rfl, by simp only [step, hrest, hpop]⟩
      | some l' => exact Or.inr (Or.inl ⟨rfl, l', rfl, by simp only [step, hrest, hpop]⟩)
  | cons c rest =>
      refine Or.inr (Or.inr ⟨List.cons_ne_nil c rest, ?_⟩)
      simp only [step, hrest]
      split
      next =>
        refine ⟨rfl, rfl, ?_⟩
        simp only [toRead, setRest, hrest, List.length_cons]
        split <;> omega
      next rule n hscan =>
        obtain ⟨hpos, hle⟩ := ScanRule.width_of_scan l.start.rules_proper hscan
        obtain ⟨hpath, hsaved, hkept⟩ := act_spec ops
          (l.setRest ((c :: rest).drop (rule.width n))) rule.action
          ((c :: rest).take (rule.width n))
        refine ⟨hpath, hsaved, ?_⟩
        rcases hkept with hkept | ⟨-, ⟨buf, got, hstart⟩, hinitial, hback, -⟩
        · have hlength : ((c :: rest).drop (rule.width n)).length < (c :: rest).length := by
            rw [List.length_drop]
            omega
          rw [toRead, toRead, hkept, hrest]
          simp only [setRest]
          split <;> split <;> omega
        · have hwhole : ((c :: rest).take (rule.width n) ++
              (c :: rest).drop (rule.width n)).length = (c :: rest).length := by
            rw [List.take_append_drop]
          have hold : l.start = .postop buf got := hstart
          rw [toRead, toRead, hinitial, hback, hold, hrest]
          simp only [setRest]
          omega

/-- A match stays in the file. -/
theorem files_step (ops : EnvOps E) (l : Lexer E) (hrest : l.current.rest ≠ []) :
    (l.step ops).1.current.path = l.current.path ∧ (l.step ops).1.saved = l.saved := by
  rcases step_cases ops l with ⟨hnil, -⟩ | ⟨hnil, -⟩ | ⟨-, hpath, hsaved, -⟩
  · exact absurd hnil hrest
  · exact absurd hnil hrest
  · exact ⟨hpath, hsaved⟩

/-- A token that is no item is taken from the text for good. -/
theorem step_shorter (ops : EnvOps E) {l l' : Lexer E} {t : Token} (hrest : l.current.rest ≠ [])
    (hstep : l.step ops = (l', some t)) (hitem : ∀ i, t ≠ .item i) :
    l'.current.rest.length < l.current.rest.length := by
  obtain ⟨c, rest, hcons⟩ := List.exists_cons_of_ne_nil hrest
  simp only [step, hcons] at hstep
  split at hstep
  next => exact absurd (congrArg Prod.snd hstep) (by simp)
  next rule n hscan =>
    obtain ⟨hpos, hle⟩ := ScanRule.width_of_scan l.start.rules_proper hscan
    obtain ⟨-, -, hkept⟩ := act_spec ops (l.setRest ((c :: rest).drop (rule.width n))) rule.action
      ((c :: rest).take (rule.width n))
    rw [hstep] at hkept
    rcases hkept with hkept | ⟨-, -, -, -, hback⟩
    · dsimp only at hkept
      rw [hkept, hcons]
      simp only [setRest, List.length_drop]
      omega
    · obtain ⟨i, hi⟩ := hback t rfl
      exact absurd hi (hitem i)

end Lexer

end SlurmSpank.UseEnv
