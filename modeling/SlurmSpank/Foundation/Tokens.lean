import SlurmSpank.Foundation.Scanner

/-! # Tokens of a text

A scanner that is used over and over, each time on what the last match has left. The rule
that applies may depend on all that follows, so a text is read in front of another one, and
two texts are compared up to the first match that differs.
-/

namespace SlurmSpank.Foundation

universe u v w

namespace ScanRule

variable {α : Type u} {β : Type v} {τ : Type w} (rules : List (ScanRule α β))
  (act : β → List α → Option τ)

/-- The tokens of an input in so many matches. What no rule matches is passed over. -/
def tokensWithin : Nat → List α → List τ
  | 0, _ => []
  | _ + 1, [] => []
  | fuel + 1, c :: rest =>
      match scan rules (c :: rest) with
      | none => tokensWithin fuel rest
      | some (rule, n) =>
          (act rule.action ((c :: rest).take (rule.width n))).toList ++
            tokensWithin fuel ((c :: rest).drop (rule.width n))

/-- The tokens of an input. -/
def tokens (s : List α) : List τ := tokensWithin rules act s.length s

/-- With another text behind it, a text is read up to its end, and the tokens are these. -/
inductive Lexes : List α → List α → List τ → Prop
  | nil {behind : List α} : Lexes [] behind []
  | pass {c : α} {text behind : List α} {ts : List τ}
      (hscan : scan rules (c :: text ++ behind) = none) (hrest : Lexes text behind ts) :
      Lexes (c :: text) behind ts
  | take {taken text behind : List α} {ts : List τ} {rule : ScanRule α β} {n : Nat}
      (hscan : scan rules (taken ++ text ++ behind) = some (rule, n))
      (hwidth : rule.width n = taken.length) (hrest : Lexes text behind ts) :
      Lexes (taken ++ text) behind ((act rule.action taken).toList ++ ts)

variable {rules act} {text behind other s : List α} {ts : List τ} {rule : ScanRule α β} {n : Nat}

/-- No match goes behind a text that is read up to its end. -/
theorem Lexes.width_le (hlexes : Lexes rules act text behind ts) (htext : text ≠ [])
    (hscan : scan rules (text ++ behind) = some (rule, n)) : rule.width n ≤ text.length := by
  cases hlexes with
  | nil => exact absurd rfl htext
  | pass hnone _ => exact absurd (hnone.symm.trans hscan) (by simp)
  | take htake hwidth _ =>
      obtain ⟨rfl, rfl⟩ := Prod.mk.inj (Option.some_inj.mp (htake.symm.trans hscan))
      rw [hwidth, List.length_append]
      exact Nat.le_add_right _ _

section Proper

variable (hproper : ∀ rule ∈ rules, rule.pattern.nullable = false)

include hproper

/-- As many matches as there are characters are enough. -/
theorem tokensWithin_of_le {fuel : Nat} (hle : s.length ≤ fuel) :
    tokensWithin rules act fuel s = tokens rules act s := by
  -- Two bounds that are large enough agree, by induction on one of them.
  have hagree : ∀ fuel other (s : List α), s.length ≤ fuel → s.length ≤ other →
      tokensWithin rules act fuel s = tokensWithin rules act other s := by
    intro fuel
    induction fuel with
    | zero =>
        intro other s hfuel _
        obtain rfl := List.length_eq_zero_iff.mp (Nat.le_zero.mp hfuel)
        cases other <;> rfl
    | succ fuel ih =>
        intro other s hfuel hother
        cases s with
        | nil => cases other <;> rfl
        | cons c rest =>
            cases other with
            | zero => exact absurd hother (by simp)
            | succ other =>
                rw [List.length_cons] at hfuel hother
                rw [tokensWithin, tokensWithin]
                cases hscan : scan rules (c :: rest) with
                | none =>
                    exact ih other rest (Nat.le_of_succ_le_succ hfuel)
                      (Nat.le_of_succ_le_succ hother)
                | some best =>
                    obtain ⟨rule, n⟩ := best
                    obtain ⟨hpos, hle⟩ := width_of_scan hproper hscan
                    have hshort : ((c :: rest).drop (rule.width n)).length ≤ rest.length := by
                      rw [List.length_drop, List.length_cons]
                      omega
                    dsimp only
                    rw [ih other _ (Nat.le_trans hshort (Nat.le_of_succ_le_succ hfuel))
                      (Nat.le_trans hshort (Nat.le_of_succ_le_succ hother))]
  exact hagree fuel s.length s hle (Nat.le_refl _)

/-- The tokens after a match. -/
theorem tokens_take {taken : List α} (hscan : scan rules (taken ++ text) = some (rule, n))
    (hwidth : rule.width n = taken.length) :
    tokens rules act (taken ++ text) = (act rule.action taken).toList ++
      tokens rules act text := by
  obtain ⟨hpos, hle⟩ := width_of_scan hproper hscan
  obtain ⟨c, rest, hcons⟩ := List.exists_cons_of_ne_nil
    (List.length_pos_iff.mp (hwidth ▸ hpos))
  have htokens : tokens rules act (taken ++ text) =
      (act rule.action ((taken ++ text).take (rule.width n))).toList ++
        tokensWithin rules act (rest ++ text).length
          ((taken ++ text).drop (rule.width n)) := by
    rw [hcons, List.cons_append] at hscan ⊢
    rw [tokens, List.length_cons, tokensWithin, hscan]
  rw [htokens, hwidth, List.take_left' rfl, List.drop_left' rfl]
  rw [tokensWithin_of_le hproper (by rw [List.length_append]; omega)]

omit hproper in
theorem tokens_pass {c : α} (hscan : scan rules (c :: text) = none) :
    tokens rules act (c :: text) = tokens rules act text := by
  rw [tokens, List.length_cons, tokensWithin, hscan]
  rfl

/-- A text read in front of another one contributes its tokens. -/
theorem Lexes.tokens (hlexes : Lexes rules act text behind ts) :
    ScanRule.tokens rules act (text ++ behind) = ts ++ ScanRule.tokens rules act behind := by
  induction hlexes with
  | nil => rfl
  | pass hscan _ ih => exact (tokens_pass hscan).trans ih
  | take hscan hwidth _ ih =>
      rw [List.append_assoc] at hscan ⊢
      rw [tokens_take hproper hscan hwidth, ih, List.append_assoc]

theorem Lexes.eq_nil (hlexes : Lexes rules act [] behind ts) : ts = [] := by
  have htokens := hlexes.tokens hproper
  exact List.self_eq_append_left.mp htokens

/-- Every text is read up to its end. -/
theorem lexes_tokens (s : List α) : Lexes rules act s [] (ScanRule.tokens rules act s) := by
  induction hlength : s.length using Nat.strongRecOn generalizing s with
  | _ length ih =>
      cases s with
      | nil => exact .nil
      | cons c rest =>
          cases hscan : scan rules (c :: rest) with
          | none =>
              rw [tokens_pass hscan]
              refine .pass (by rwa [List.append_nil]) (ih rest.length ?_ rest rfl)
              rw [← hlength, List.length_cons]
              exact Nat.lt_succ_self _
          | some best =>
              obtain ⟨rule, n⟩ := best
              obtain ⟨hpos, hle⟩ := width_of_scan hproper hscan
              have hsplit := List.take_append_drop (rule.width n) (c :: rest)
              have hwidth : rule.width n = ((c :: rest).take (rule.width n)).length := by
                rw [List.length_take, Nat.min_eq_left hle]
              have hrest := ih ((c :: rest).drop (rule.width n)).length
                (by rw [List.length_drop]; omega) _ rfl
              generalize (c :: rest).take (rule.width n) = taken at hsplit hwidth
              generalize (c :: rest).drop (rule.width n) = left at hsplit hrest
              rw [← hsplit] at hscan ⊢
              rw [tokens_take hproper hscan hwidth]
              exact .take (by rwa [List.append_nil]) hwidth hrest

/-- If another text is put behind, a text is read as before up to the first match that is
different. -/
theorem Lexes.change_behind (hlexes : Lexes rules act text behind ts) (other : List α) :
    Lexes rules act text other ts ∨
      ∃ before after us vs, text = before ++ after ∧ after ≠ [] ∧ ts = us ++ vs ∧
        Lexes rules act before (after ++ behind) us ∧ Lexes rules act before (after ++ other) us ∧
        Lexes rules act after behind vs ∧
        scan rules (after ++ behind) ≠ scan rules (after ++ other) := by
  induction hlexes with
  | nil => exact Or.inl .nil
  | @pass c text behind ts hscan hrest ih =>
      by_cases hsame : scan rules (c :: text ++ behind) = scan rules (c :: text ++ other)
      · rcases ih with hlexes | ⟨before, after, us, vs, rfl, hafter, rfl, hbefore, hbefore', hvs,
          hdiff⟩
        · exact Or.inl (.pass (hsame ▸ hscan) hlexes)
        · refine Or.inr ⟨c :: before, after, us, vs, rfl, hafter, rfl, ?_, ?_, hvs, hdiff⟩
          · exact .pass (by rwa [List.cons_append, List.append_assoc] at hscan) hbefore
          · rw [hsame, List.cons_append, List.append_assoc] at hscan
            exact .pass hscan hbefore'
      · exact Or.inr ⟨[], c :: text, [], ts, rfl, List.cons_ne_nil c text, rfl, .nil, .nil,
          .pass hscan hrest, hsame⟩
  | @take taken text behind ts rule n hscan hwidth hrest ih =>
      by_cases hsame : scan rules (taken ++ text ++ behind) = scan rules (taken ++ text ++ other)
      · rcases ih with hlexes | ⟨before, after, us, vs, rfl, hafter, rfl, hbefore, hbefore', hvs,
          hdiff⟩
        · exact Or.inl (.take (hsame ▸ hscan) hwidth hlexes)
        · refine Or.inr ⟨taken ++ before, after, _ ++ us, vs, (List.append_assoc _ _ _).symm,
            hafter, (List.append_assoc _ _ _).symm, ?_, ?_, hvs, hdiff⟩
          · exact .take (by simpa only [List.append_assoc] using hscan) hwidth hbefore
          · rw [hsame] at hscan
            exact .take (by simpa only [List.append_assoc] using hscan) hwidth hbefore'
      · have hpos := (width_of_scan hproper hscan).1
        rw [hwidth] at hpos
        have htext : taken ++ text ≠ [] :=
          List.append_ne_nil_of_left_ne_nil (List.length_pos_iff.mp hpos) text
        exact Or.inr ⟨[], taken ++ text, [], _, rfl, htext, rfl, .nil, .nil,
          .take hscan hwidth hrest, hsame⟩

end Proper

/-- Texts are read one after the other. -/
theorem Lexes.append {middle : List α} {us : List τ}
    (hfirst : Lexes rules act text (middle ++ behind) ts)
    (hsecond : Lexes rules act middle behind us) :
    Lexes rules act (text ++ middle) behind (ts ++ us) := by
  generalize hbehind : middle ++ behind = rest at hfirst
  induction hfirst with
  | nil => exact hsecond
  | pass hscan _ ih =>
      subst hbehind
      rw [List.cons_append]
      refine .pass ?_ (ih rfl)
      rwa [List.cons_append, List.append_assoc]
  | take hscan hwidth _ ih =>
      subst hbehind
      rw [List.append_assoc, List.append_assoc]
      exact .take (by simpa only [List.append_assoc] using hscan) hwidth (ih rfl)

end ScanRule

end SlurmSpank.Foundation
