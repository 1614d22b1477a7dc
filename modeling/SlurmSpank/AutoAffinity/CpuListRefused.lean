import Mathlib.Order.Bounds.Basic
import SlurmSpank.AutoAffinity.CpuListEnd
import SlurmSpank.AutoAffinity.CpuListIndex
import SlurmSpank.AutoAffinity.Options

/-! # CPU lists that are refused

What counting makes of a list: the number of turns along ranges that end, or the result for the
first element that is no range. `parse_cpus_list` refuses a list that has a separator with no
number behind it, or that counts as nothing. Everything else it takes, as one CPU if need be.
-/

namespace SlurmSpank.AutoAffinity

open Foundation

/-! ## Walks -/

/-- The number of turns of a walk that ends. -/
def RangeLength (a b s k : Nat) : Prop := IsLeast {k | b < rangeTurn a s k} k

/-- The CPU ids of so many turns. -/
def rangeIds (a s k : Nat) : List Nat := (List.range k).map (rangeTurn a s)

theorem rangeIds_length (a s k : Nat) : (rangeIds a s k).length = k := by
  rw [rangeIds, List.length_map, List.length_range]

/-- The elements are ranges, and the walks along them come to these CPU ids. -/
inductive Walks : List Text → List Nat → Prop
  | nil : Walks [] []
  | cons {p : Text} {rest : List Text} {a b s k : Nat} {ids : List Nat}
      (hread : readElement p = .range a b s) (hlength : RangeLength a b s k)
      (hrest : Walks rest ids) : Walks (p :: rest) (rangeIds a s k ++ ids)

/-- The elements in front of `p` are ranges that end. -/
def Reaches (ps : List Text) (p : Text) : Prop :=
  ∃ before after ids, ps = before ++ p :: after ∧ Walks before ids

variable {a b s : Nat} {p q : Text} {ps rest : List Text} {ids : List Nat}

theorem countRange_eq_some_iff (ha : a < 2 ^ 32) {turns count r : Nat} :
    countRange b s turns a count = some r ↔
      ∃ k < turns, RangeLength a b s k ∧ r = count + k := by
  rw [countRange_eq ha, findSome_range_eq_some_iff]
  constructor
  · rintro ⟨k, hk, hfound, hbefore⟩
    refine ⟨k, hk, ?_⟩
    split at hfound
    next => exact absurd hfound (Option.some_ne_none r).symm
    next hle =>
      refine ⟨⟨Nat.lt_of_not_le hle, fun j hj => Nat.le_of_not_lt fun hlt => ?_⟩,
        (Option.some_inj.mp hfound).symm⟩
      have hnone := hbefore j hlt
      rw [if_neg (Nat.not_le.mpr hj)] at hnone
      exact absurd hnone (Option.some_ne_none _)
  · rintro ⟨k, hk, ⟨hgt, hleast⟩, rfl⟩
    refine ⟨k, hk, if_neg (Nat.not_le.mpr hgt), fun j hj => if_pos ?_⟩
    exact Nat.le_of_not_lt fun hlt => absurd (hleast hlt) (Nat.not_le.mpr hj)

/-- A walk that ends makes fewer turns than there are values. -/
theorem RangeLength.lt {k : Nat} (hlength : RangeLength a b s k) : k < 2 ^ 32 := by
  obtain ⟨hgt, hleast⟩ := hlength
  have hmod : k % 2 ^ 32 < 2 ^ 32 := Nat.mod_lt k (by decide)
  refine Nat.lt_of_le_of_lt (hleast ?_) hmod
  change b < (a + k % 2 ^ 32 * s) % 2 ^ 32
  rw [progression_mod]
  exact hgt

theorem walks_cons_iff : Walks (p :: rest) ids ↔ ∃ a b s k more,
    readElement p = .range a b s ∧ RangeLength a b s k ∧ Walks rest more ∧
      ids = rangeIds a s k ++ more := by
  constructor
  · rintro (_ | ⟨hread, hlength, hrest⟩)
    exact ⟨_, _, _, _, _, hread, hlength, hrest, rfl⟩
  · rintro ⟨a, b, s, k, more, hread, hlength, hrest, rfl⟩
    exact .cons hread hlength hrest

theorem reaches_nil : ¬ Reaches [] p := by
  rintro ⟨before, after, ids, hsplit, -⟩
  exact absurd hsplit (by simp)

theorem reaches_cons_iff : Reaches (p :: rest) q ↔ q = p ∨ ∃ a b s k,
    readElement p = .range a b s ∧ RangeLength a b s k ∧ Reaches rest q := by
  constructor
  · rintro ⟨before, after, ids, hsplit, hwalks⟩
    cases hwalks with
    | nil => exact Or.inl (List.cons.inj hsplit).1.symm
    | cons hread hlength hrest =>
        obtain ⟨rfl, hbehind⟩ := List.cons.inj hsplit
        exact Or.inr ⟨_, _, _, _, hread, hlength, _, _, _, hbehind, hrest⟩
  · rintro (rfl | ⟨a, b, s, k, hread, hlength, before, after, ids, rfl, hwalks⟩)
    · exact ⟨[], rest, [], rfl, .nil⟩
    · exact ⟨p :: before, after, _, rfl, .cons hread hlength hwalks⟩

/-- The result of counting. -/
theorem cstrCountLoop_eq_some_iff {count : Nat} {r : Int} :
    cstrCountLoop (2 ^ 32) ps count = some r ↔
      (∃ ids, Walks ps ids ∧ r = wrapInt (count + ids.length)) ∨
        ∃ p, Reaches ps p ∧
          (readElement p = .unread ∧ r = 1 ∨ readElement p = .broken ∧ r = -1) := by
  induction ps generalizing count with
  | nil =>
      constructor
      · intro hcount
        have hr : wrapInt count = r := Option.some_inj.mp hcount
        exact Or.inl ⟨[], .nil, hr ▸ congrArg wrapInt (Nat.add_zero count).symm⟩
      · rintro (⟨ids, ⟨⟩, hr⟩ | ⟨p, hreaches, -⟩)
        · exact congrArg some hr.symm
        · exact absurd hreaches reaches_nil
  | cons p rest ih =>
      rw [cstrCountLoop]
      simp only [walks_cons_iff, reaches_cons_iff]
      cases hp : readElement p with
      | unread => simp [hp, eq_comm]
      | broken => simp [hp, eq_comm]
      | range a b s =>
          obtain ⟨hle, hlt⟩ := readElement_range hp
          have ha : a < 2 ^ 32 := Nat.lt_of_le_of_lt hle hlt
          have hsum : ∀ k (ids : List Nat),
              count + k + ids.length = count + (rangeIds a s k ++ ids).length := by
            intro k ids
            rw [List.length_append, rangeIds_length, Nat.add_assoc]
          dsimp only
          rw [Option.bind_eq_some_iff]
          constructor
          · rintro ⟨count', hrange, hrest⟩
            obtain ⟨k, -, hlength, rfl⟩ := (countRange_eq_some_iff ha).mp hrange
            rcases ih.mp hrest with ⟨ids, hwalks, hr⟩ | ⟨q, hreaches, hr⟩
            · exact Or.inl ⟨_, ⟨a, b, s, k, ids, rfl, hlength, hwalks, rfl⟩,
                hr.trans (congrArg wrapInt (hsum k ids))⟩
            · exact Or.inr ⟨q, Or.inr ⟨a, b, s, k, rfl, hlength, hreaches⟩, hr⟩
          · rintro (⟨ids, ⟨a', b', s', k, more, hread, hlength, hwalks, rfl⟩, hr⟩ |
              ⟨q, rfl | ⟨a', b', s', k, hread, hlength, hreaches⟩, hr⟩)
            · obtain ⟨rfl, rfl, rfl⟩ := Element.range.inj hread
              exact ⟨count + k,
                (countRange_eq_some_iff ha).mpr ⟨k, hlength.lt, hlength, rfl⟩,
                ih.mpr (Or.inl ⟨more, hwalks, hr.trans (congrArg wrapInt (hsum k more).symm)⟩)⟩
            · rcases hr with ⟨hunread, -⟩ | ⟨hbroken, -⟩
              · exact Element.noConfusion (hp.symm.trans hunread)
              · exact Element.noConfusion (hp.symm.trans hbroken)
            · obtain ⟨rfl, rfl, rfl⟩ := Element.range.inj hread
              exact ⟨count + k, (countRange_eq_some_iff ha).mpr ⟨k, hlength.lt, hlength, rfl⟩,
                ih.mpr (Or.inr ⟨q, hreaches, hr⟩)⟩

/-! ## The text of a list -/

/-- Every string with the separator behind it. -/
def withSeps (sep : Text) (l : List Text) : Text := l.flatMap (· ++ sep)

theorem withSeps_cons (sep str : Text) (l : List Text) :
    withSeps sep (str :: l) = str ++ sep ++ withSeps sep l := List.flatMap_cons

theorem withSeps_comma {l : List Text} (hne : l ≠ []) :
    withSeps [','] l = joinCommas l ++ [','] := by
  induction l with
  | nil => exact absurd rfl hne
  | cons str l ih =>
      rw [withSeps_cons]
      cases l with
      | nil => rw [joinCommas, List.intercalate_singleton, withSeps, List.flatMap_nil,
          List.append_nil]
      | cons next more =>
          rw [joinCommas_cons_cons, ih (List.cons_ne_nil next more), List.append_assoc,
            List.append_assoc]
          rfl

/-- What has been cut stays as it is. -/
theorem listJoinLoop_truncated (len n : Nat) (sep result : Text) (l : List Text) :
    ∃ n', listJoinLoop len sep l (result, n, true) = (result, n', true) := by
  induction l generalizing n with
  | nil => exact ⟨n, rfl⟩
  | cons str rest ih => exact ih (n + str.length + sep.length)

/-- The buffer holds the strings with their separators, as far as they fit. -/
theorem listJoinLoop_eq {len : Nat} {sep result : Text} (hroom : result.length < len)
    (l : List Text) :
    ∃ n, listJoinLoop len sep l (result, result.length, false) =
      ((result ++ withSeps sep l).take (len - 1), n,
        decide (len ≤ (result ++ withSeps sep l).length)) := by
  induction l generalizing result with
  | nil =>
      have hshort : ¬ len ≤ (result ++ withSeps sep []).length := by
        rw [withSeps, List.flatMap_nil, List.append_nil]
        exact Nat.not_le.mpr hroom
      refine ⟨result.length, ?_⟩
      rw [decide_eq_false hshort, withSeps, List.flatMap_nil, List.append_nil,
        List.take_of_length_le (by omega)]
      rfl
  | cons str rest ih =>
      rw [withSeps_cons, ← List.append_assoc]
      have hlength : (result ++ (str ++ sep)).length = result.length + (str ++ sep).length :=
        List.length_append
      by_cases hfull : len - result.length ≤ (str ++ sep).length
      · obtain ⟨n, hn⟩ := listJoinLoop_truncated len result.length sep
          (result ++ (str ++ sep).take (len - result.length - 1)) rest
        refine ⟨n, ?_⟩
        have hcut : (result ++ (str ++ sep) ++ withSeps sep rest).take (len - 1) =
            result ++ (str ++ sep).take (len - result.length - 1) := by
          rw [List.take_append_of_le_length (by omega), List.take_append,
            List.take_of_length_le (by omega), Nat.sub_right_comm]
        have hlong : len ≤ (result ++ (str ++ sep) ++ withSeps sep rest).length := by
          rw [List.length_append]
          omega
        rw [decide_eq_true hlong, hcut]
        unfold listJoinLoop
        dsimp only
        rw [if_neg Bool.false_ne_true, if_pos hfull]
        exact hn
      · obtain ⟨n, hn⟩ := @ih (result ++ (str ++ sep)) (by omega)
        refine ⟨n, ?_⟩
        rw [← hn, hlength, listJoinLoop]
        dsimp only
        rw [if_neg Bool.false_ne_true, if_neg hfull]

/-- `list_join` writes the strings with commas between them, as far as the buffer has room. -/
theorem listJoin_eq {len : Nat} (hlen : 0 < len) (l : List Text) :
    (listJoin len [','] l).1 = (joinCommas l).take (len - 1) := by
  unfold listJoin
  cases l with
  | nil =>
      rw [joinCommas, List.intercalate_nil, List.take_nil]
      rfl
  | cons str rest =>
      obtain ⟨n, hn⟩ := @listJoinLoop_eq len [','] [] hlen (str :: rest)
      rw [if_neg (by simp)]
      rw [List.length_nil] at hn
      rw [hn, List.nil_append, withSeps_comma (List.cons_ne_nil str rest)]
      dsimp only
      have hlength : (joinCommas (str :: rest) ++ [',']).length =
          (joinCommas (str :: rest)).length + 1 := List.length_append
      by_cases hlong : len ≤ (joinCommas (str :: rest) ++ [',']).length
      · rw [if_pos (decide_eq_true hlong)]
        dsimp only
        rw [List.take_take, Nat.min_self, List.take_append_of_le_length (by omega)]
      · have hfits : (joinCommas (str :: rest) ++ [',']).take (len - 1) =
            joinCommas (str :: rest) ++ [','] := List.take_of_length_le (by omega)
        have hjoined : (joinCommas (str :: rest)).take (len - 1) = joinCommas (str :: rest) :=
          List.take_of_length_le (by omega)
        rw [if_neg fun hcut => hlong (of_decide_eq_true hcut)]
        dsimp only
        rw [hfits, hjoined, hlength, List.length_singleton, Nat.add_sub_cancel, List.take_left]

/-! ## Refused lists -/

/-- A text that is refused: behind ranges that end there is a separator with no number behind
it, or there are only such ranges, and the turns along them add up to an `int` that is not
positive. -/
def ListRefused (str : Text) : Prop :=
  (∃ p, Reaches (places str) p ∧ readElement p = .broken) ∨
    ∃ ids, Walks (places str) ids ∧ wrapInt ids.length ≤ 0

/-- The text of a well-formed list. -/
def IsCpuList (str : Text) : Prop :=
  ∃ es : List ListElement, es ≠ [] ∧ (∀ e ∈ es, e.WellFormed) ∧ str = listText es

theorem listRefused_iff {str : Text} :
    ListRefused str ↔ ∃ count ≤ 0, cstrCount str = some count := by
  constructor
  · rintro (⟨p, hreaches, hbroken⟩ | ⟨ids, hwalks, hle⟩)
    · exact ⟨-1, by decide,
        cstrCountLoop_eq_some_iff.mpr (Or.inr ⟨p, hreaches, Or.inr ⟨hbroken, rfl⟩⟩)⟩
    · refine ⟨wrapInt ids.length, hle, cstrCountLoop_eq_some_iff.mpr (Or.inl ⟨ids, hwalks, ?_⟩)⟩
      rw [Nat.zero_add]
  · rintro ⟨count, hle, hcount⟩
    rcases cstrCountLoop_eq_some_iff.mp hcount with ⟨ids, hwalks, hr⟩ | ⟨p, hreaches, hr⟩
    · rw [Nat.zero_add] at hr
      exact Or.inr ⟨ids, hwalks, hr ▸ hle⟩
    · rcases hr with ⟨-, hr⟩ | ⟨hbroken, -⟩
      · rw [hr] at hle
        exact absurd hle (by decide)
      · exact Or.inl ⟨p, hreaches, hbroken⟩

/-- What `parse_cpus_list` makes of the count. -/
theorem parseCpusList_eq (l : List Text) (o : UserOptions) :
    parseCpusList l o = (cstrCount ((joinCommas l).take 4095)).map fun count =>
      if count ≤ 0 then (-1, l, { o with nlistElements := count })
      else
        (0, [],
          { o with nlistElements := count, cpusList := some ((joinCommas l).take 4095) }) := by
  unfold parseCpusList
  rw [listJoin_eq (by decide)]
  dsimp only
  change Option.bind (cstrCount ((joinCommas l).take 4095)) _ = _
  cases cstrCount ((joinCommas l).take 4095) with
  | none => rfl
  | some count =>
      rw [Option.bind_some, Option.map_some]
      by_cases hneg : count < 0
      · rw [if_pos hneg, if_pos (Int.le_of_lt hneg)]
      · by_cases hzero : count = 0
        · rw [if_neg hneg, if_pos hzero, if_pos hzero.le]
        · rw [if_neg hneg, if_neg hzero, if_neg (by omega)]

/-- `parse_cpus_list` fails. -/
theorem parseCpusList_refuses_iff (l : List Text) (o : UserOptions) :
    (∃ rc rest o', parseCpusList l o = some (rc, rest, o') ∧ rc < 0 ∧ o'.cpusList = o.cpusList) ↔
      ListRefused ((joinCommas l).take 4095) := by
  rw [listRefused_iff, parseCpusList_eq]
  constructor
  · rintro ⟨rc, rest, o', hparse, hrc, -⟩
    obtain ⟨count, hcount, hresult⟩ := Option.map_eq_some_iff.mp hparse
    by_cases hle : count ≤ 0
    · exact ⟨count, hle, hcount⟩
    · rw [if_neg hle] at hresult
      have hzero : (0 : Int) = rc := congrArg Prod.fst hresult
      exact absurd hrc (by omega)
  · rintro ⟨count, hle, hcount⟩
    refine ⟨-1, l, { o with nlistElements := count }, ?_, by decide, rfl⟩
    rw [hcount, Option.map_some, if_pos hle]

/-- That a list is refused, and stores nothing, if it is not well-formed, holds exactly of the
lists that are well-formed and of those of which the text, as far as it fits the buffer, is
refused. -/
theorem malformed_refused_iff (l : List Text) (o : UserOptions) :
    (¬ IsCpuList (joinCommas l) → ∃ rc rest o',
        parseCpusList l o = some (rc, rest, o') ∧ rc < 0 ∧ o'.cpusList = o.cpusList) ↔
      IsCpuList (joinCommas l) ∨ ListRefused ((joinCommas l).take 4095) := by
  rw [parseCpusList_refuses_iff, or_iff_not_imp_left]

theorem listText_head {es : List ListElement} (hne : es ≠ []) :
    ∃ c ∈ (listText es).head?, c.isDigit = true := by
  obtain ⟨e, rest, rfl⟩ := List.exists_cons_of_ne_nil hne
  have hdigit : ∀ (n : Numeral) (behind : Text),
      ∃ c ∈ (n.digits ++ behind).head?, c.isDigit = true := by
    intro n behind
    obtain ⟨c, more, hcons⟩ := List.exists_cons_of_ne_nil n.ne_nil
    exact ⟨c, by rw [hcons]; rfl, n.isDigit c (hcons ▸ List.mem_cons_self)⟩
  have htext : ∀ behind : Text, ∃ c ∈ (e.text ++ behind).head?, c.isDigit = true := by
    intro behind
    cases e with
    | one n => exact hdigit n behind
    | span n m =>
        rw [ListElement.text, List.append_assoc]
        exact hdigit n _
    | strided n m s =>
        rw [ListElement.text, List.append_assoc]
        exact hdigit n _
  unfold listText
  cases rest with
  | nil =>
      rw [List.map_singleton, joinCommas, List.intercalate_singleton]
      simpa using htext []
  | cons next more =>
      rw [List.map_cons, List.map_cons, joinCommas_cons_cons]
      exact htext _

/-- `x` is taken as a list of one CPU. -/
theorem letter_accepted :
    ¬ (∀ (l : List Text) (o : UserOptions), ¬ IsCpuList (joinCommas l) → ∃ rc rest o',
        parseCpusList l o = some (rc, rest, o') ∧ rc < 0 ∧ o'.cpusList = o.cpusList) := by
  intro hall
  have hmalformed : ¬ IsCpuList (joinCommas [['x']]) := by
    rintro ⟨es, hne, -, htext⟩
    obtain ⟨c, hc, hdigit⟩ := listText_head hne
    rw [← htext] at hc
    obtain rfl : 'x' = c := Option.some_inj.mp hc
    exact absurd hdigit (by decide)
  obtain ⟨rc, rest, o', hparse, hrc, -⟩ := hall [['x']] {} hmalformed
  have hcount : cstrCount ((joinCommas [['x']]).take 4095) = some 1 := rfl
  rw [parseCpusList_eq, hcount, Option.map_some, if_neg (by decide)] at hparse
  have hzero : (0 : Int) = rc := congrArg (·.1) (Option.some_inj.mp hparse)
  exact absurd hrc (by omega)

end SlurmSpank.AutoAffinity
