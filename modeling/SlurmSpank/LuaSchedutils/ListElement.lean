import SlurmSpank.Foundation.Separated
import SlurmSpank.LuaSchedutils.HexDigits

/-! # The elements of a CPU list

What `cstr_to_cpuset` takes for an element up to a comma, beside the elements of the grammar. It
looks for `-` and `:` in front of the comma and reads a number up to or behind each of them, with
blanks and a sign in front, and does not look at what is left over behind the last number.
-/

namespace SlurmSpank.LuaSchedutils

open Foundation Lib

/-! ## Elements of the grammar -/

/-- A string of decimal digits. -/
def IsDigits (text : Text) : Prop := text ≠ [] ∧ ∀ c ∈ text, c.isDigit = true

/-- The number that digits stand for. -/
def decimalValue (digits : Text) : Nat := Nat.ofDigitChars 10 digits 0

/-- A number without zeros in front. -/
def IsPlainNumber (text : Text) : Prop := IsDigits text ∧ (text = ['0'] ∨ text.head? ≠ some '0')

/-- The elements `N`, `N-M` and `N-M:S`, with the numbers of the range and the stride. -/
inductive IsElement : Text → Nat → Nat → Nat → Prop
  | number {n : Text} (hn : IsPlainNumber n) (hsize : decimalValue n < cpuSetSize) :
      IsElement n (decimalValue n) (decimalValue n) 1
  | range {n m : Text} (hn : IsPlainNumber n) (hm : IsDigits m)
      (hle : decimalValue n ≤ decimalValue m) (hsize : decimalValue m < cpuSetSize) :
      IsElement (n ++ '-' :: m) (decimalValue n) (decimalValue m) 1
  | stride {n m s : Text} (hn : IsPlainNumber n) (hm : IsDigits m) (hs : IsDigits s)
      (hle : decimalValue n ≤ decimalValue m) (hsize : decimalValue m < cpuSetSize)
      (hpos : 1 ≤ decimalValue s) :
      IsElement (n ++ '-' :: (m ++ ':' :: s)) (decimalValue n) (decimalValue m) (decimalValue s)

/-! ## Elements that are taken -/

/-- The number that `strtoul` gives for digits, whatever their number. -/
def ulong (n : Nat) : Nat := min n (2 ^ 64 - 1)

/-- `strtoul` finds a number, and leaves the rest. -/
def Scans (text : Text) (value : Nat) (left : Text) : Prop :=
  strtoul text = (value, left) ∧ left.length ≠ text.length

/-- The look of a number with zeros in front, as far as it is recognized. -/
def Padded (text : Text) (value : Nat) : Prop :=
  (value ≠ 0 ∧ text.head? = some '0') ∨ (value = 0 ∧ text.take 2 = ['0', '0'])

instance (text : Text) (value : Nat) : Decidable (Padded text value) :=
  inferInstanceAs (Decidable (_ ∨ _))

/-- An element that is taken, with the range, the stride and what is left over behind the last
number. -/
inductive Takes : Text → Nat → Nat → Nat → Text → Prop
  | number {piece left : Text} {a : Nat} (hdash : '-' ∉ piece) (ha : Scans piece a left)
      (hsize : a < cpuSetSize) (hpadded : ¬ Padded piece a) : Takes piece a a 1 left
  | range {n m left : Text} {a b : Nat} (hdash : '-' ∉ n) (ha : Scans n a [])
      (hpadded : ¬ Padded n a) (hcolon : ':' ∉ m) (hb : Scans m b left) (hle : a ≤ b)
      (hsize : b < cpuSetSize) : Takes (n ++ '-' :: m) a b 1 left
  | stride {n m t left left' : Text} {a b s : Nat} (hdash : '-' ∉ n) (ha : Scans n a [])
      (hpadded : ¬ Padded n a) (hcolon : ':' ∉ m) (hb : Scans (m ++ ':' :: t) b left') (hle : a ≤ b)
      (hsize : b < cpuSetSize) (hs : Scans t s left) :
      Takes (n ++ '-' :: (m ++ ':' :: t)) a b s left

/-! ## Numbers in front of a separator -/

theorem strtoul_append_comma {rest : Text} (hrest : AtComma rest) (text : Text) :
    strtoul (text ++ rest) = ((strtoul text).1, (strtoul text).2 ++ rest) := by
  rcases hrest with rfl | ⟨more, rfl⟩
  · simp
  · unfold strtoul
    rw [scanInt_append_stop (by decide)]
    cases scanInt text with
    | none => rfl
    | some scanned => rfl

theorem scanSign_append (c : Char) (more rest : Text) :
    scanSign (c :: more ++ rest) =
      ((scanSign (c :: more)).1, (scanSign (c :: more)).2 ++ rest) := by
  by_cases hminus : c = '-'
  · subst hminus
    rfl
  · by_cases hplus : c = '+'
    · subst hplus
      rfl
    · rw [List.cons_append, scanSign_of_ne hminus hplus, scanSign_of_ne hminus hplus]
      rfl

/-- A dash behind anything but blanks ends a number. -/
theorem strtoul_append_dash {text : Text} (htext : text.dropWhile isSpace ≠ []) (rest : Text) :
    strtoul (text ++ '-' :: rest) = ((strtoul text).1, (strtoul text).2 ++ '-' :: rest) := by
  obtain ⟨c, more, hstart⟩ := List.exists_cons_of_ne_nil htext
  have hscan : scanInt (text ++ '-' :: rest) =
      (scanInt text).map fun scanned => (scanned.1, scanned.2 ++ '-' :: rest) := by
    unfold scanInt
    rw [dropWhile_append_stop rfl, hstart, scanSign_append]
    dsimp only
    rw [takeWhile_append_stop rfl, dropWhile_append_stop rfl]
    split
    · rfl
    · rfl
  unfold strtoul
  rw [hscan]
  cases scanInt text with
  | none => rfl
  | some scanned => rfl

/-- Behind blanks the dash is a sign, so that reading goes on behind it, or does not take
anything. -/
theorem strtoul_blanks_dash {text : Text} (htext : text.dropWhile isSpace = []) (rest : Text) :
    (strtoul (text ++ '-' :: rest)).2.length = (text ++ '-' :: rest).length ∨
      (strtoul (text ++ '-' :: rest)).2.length ≠ rest.length + 1 := by
  have hscan : scanInt (text ++ '-' :: rest) =
      if rest.takeWhile Char.isDigit = [] then none
      else some (-(Nat.ofDigitChars 10 (rest.takeWhile Char.isDigit) 0 : Int),
        rest.dropWhile Char.isDigit) := by
    unfold scanInt
    rw [dropWhile_append_stop rfl, htext]
    rfl
  unfold strtoul
  rw [hscan]
  split
  next hnone =>
    exact Or.inl rfl
  next value left hsome =>
    split at hsome
    next => exact absurd hsome (Option.some_ne_none _).symm
    next =>
      obtain ⟨-, rfl⟩ := Prod.mk.inj (Option.some_inj.mp hsome)
      have hle := (List.dropWhile_suffix Char.isDigit (l := rest)).length_le
      refine Or.inr ?_
      dsimp only
      omega

theorem padded_append {text rest : Text} (htext : text ≠ []) (hrest : rest.head? ≠ some '0')
    (value : Nat) : Padded (text ++ rest) value ↔ Padded text value := by
  unfold Padded
  match text with
  | [] => exact absurd rfl htext
  | [c] =>
      match rest with
      | [] => rw [List.append_nil]
      | d :: more =>
          have hd : d ≠ '0' := fun heq => hrest (congrArg some heq)
          simp [hd]
  | c :: d :: more => rfl

/-! ## Reading an element -/

section Reading

variable {piece n m t rest left : Text} {a b s : Nat}

/-- What is read behind a first number and a dash. -/
def readEnd (c1 : Text) (c2 : Option Text) : Option (Nat × Nat × Text) :=
  if (strtoul c1).2.length = c1.length ∨ cpuSetSize ≤ (strtoul c1).1 then none
  else if comesBefore (nexttoken (some c1) ':') c2 then
    (nexttoken (some c1) ':').bind fun c =>
      if (strtoul c).2.length = c.length ∨ cpuSetSize ≤ (strtoul c1).1 then none
      else some ((strtoul c1).1, (strtoul c).1, (strtoul c).2)
  else some ((strtoul c1).1, 1, (strtoul c1).2)

/-- The end of the range, the stride and what is left over, behind the first number. -/
def readRest (p : Text) : Option (Nat × Nat × Text) :=
  if comesBefore (nexttoken (some p) '-') (nexttoken (some p) ',') then
    (nexttoken (some p) '-').bind fun c1 =>
      if (strtoul p).2.length ≠ c1.length + 1 then none
      else readEnd c1 (nexttoken (some p) ',')
  else some ((strtoul p).1, 1, (strtoul p).2)

theorem readRange_eq (p : Text) : readRange p =
    if (strtoul p).2.length = p.length ∨ cpuSetSize ≤ (strtoul p).1 then none
    else if Padded p (strtoul p).1 then none
    else match readRest p with
      | none => none
      | some (b, s, endptr) =>
          if (strtoul p).1 ≤ b then some ((strtoul p).1, b, s, endptr) else none := rfl

theorem readRange_eq_some_iff {p : Text} : readRange p = some (a, b, s, left) ↔
    Scans p a (strtoul p).2 ∧ a < cpuSetSize ∧ ¬ Padded p a ∧ readRest p = some (b, s, left) ∧
      a ≤ b := by
  rw [readRange_eq]
  constructor
  · intro hsome
    split at hsome
    next => exact absurd hsome (Option.some_ne_none _).symm
    next hnumber =>
      split at hsome
      next => exact absurd hsome (Option.some_ne_none _).symm
      next hpadded =>
        obtain ⟨hdigits, hsize⟩ := not_or.mp hnumber
        cases hrest : readRest p with
        | none =>
            rw [hrest] at hsome
            exact absurd hsome (Option.some_ne_none _).symm
        | some ends =>
            obtain ⟨b', s', left'⟩ := ends
            rw [hrest] at hsome
            dsimp only at hsome
            split at hsome
            next hle =>
              simp only [Option.some.injEq, Prod.mk.injEq] at hsome
              obtain ⟨rfl, rfl, rfl, rfl⟩ := hsome
              exact ⟨⟨rfl, hdigits⟩, Nat.not_le.mp hsize, hpadded, rfl, hle⟩
            next => exact absurd hsome (Option.some_ne_none _).symm
  · rintro ⟨⟨hscan, hdigits⟩, hsize, hpadded, hrest, hle⟩
    obtain rfl : (strtoul p).1 = a := congrArg Prod.fst hscan
    rw [if_neg (not_or.mpr ⟨hdigits, Nat.not_le.mpr hsize⟩), if_neg hpadded, hrest]
    exact if_pos hle

theorem readEnd_eq_some_iff {c2 : Option Text} : readEnd m c2 = some (b, s, left) ↔
    b < cpuSetSize ∧
      if comesBefore (nexttoken (some m) ':') c2 then
        Scans m b (strtoul m).2 ∧ ∃ t, nexttoken (some m) ':' = some t ∧ Scans t s left
      else Scans m b left ∧ s = 1 := by
  unfold readEnd
  constructor
  · intro hsome
    split at hsome
    next => exact absurd hsome (Option.some_ne_none _).symm
    next hnumber =>
      obtain ⟨hdigits, hsize⟩ := not_or.mp hnumber
      split at hsome
      next hcomes =>
        obtain ⟨t, ht, hstride⟩ := Option.bind_eq_some_iff.mp hsome
        split at hstride
        next => exact absurd hstride (Option.some_ne_none _).symm
        next hnumber' =>
          simp only [Option.some.injEq, Prod.mk.injEq] at hstride
          obtain ⟨rfl, rfl, rfl⟩ := hstride
          rw [if_pos hcomes]
          exact ⟨Nat.not_le.mp hsize, ⟨rfl, hdigits⟩, t, ht, rfl, (not_or.mp hnumber').1⟩
      next hcomes =>
        simp only [Option.some.injEq, Prod.mk.injEq] at hsome
        obtain ⟨rfl, rfl, rfl⟩ := hsome
        rw [if_neg hcomes]
        exact ⟨Nat.not_le.mp hsize, ⟨rfl, hdigits⟩, rfl⟩
  · rintro ⟨hsize, hends⟩
    split at hends
    next hcomes =>
      obtain ⟨⟨hscan, hdigits⟩, t, ht, hscan', hdigits'⟩ := hends
      obtain rfl : (strtoul m).1 = b := congrArg Prod.fst hscan
      rw [if_neg (not_or.mpr ⟨hdigits, Nat.not_le.mpr hsize⟩), if_pos hcomes, ht, Option.bind_some,
        hscan']
      exact if_neg (not_or.mpr ⟨hdigits', Nat.not_le.mpr hsize⟩)
    next hcomes =>
      obtain ⟨⟨hscan, hdigits⟩, rfl⟩ := hends
      rw [hscan, if_neg (not_or.mpr ⟨hdigits, Nat.not_le.mpr hsize⟩), if_neg hcomes]

/-- A number in front of a comma is read as it is, and leaves what follows. -/
theorem scans_append_iff (hrest : AtComma rest) {left' : Text} :
    Scans (t ++ rest) s left' ↔ ∃ left, left' = left ++ rest ∧ Scans t s left := by
  unfold Scans
  rw [strtoul_append_comma hrest]
  constructor
  · rintro ⟨heq, hdigits⟩
    obtain ⟨rfl, rfl⟩ := Prod.mk.inj heq
    refine ⟨(strtoul t).2, rfl, rfl, fun hsame => hdigits ?_⟩
    rw [List.length_append, List.length_append, hsame]
  · rintro ⟨left, rfl, heq, hdigits⟩
    rw [heq]
    refine ⟨rfl, fun hsame => hdigits ?_⟩
    rw [List.length_append, List.length_append] at hsame
    exact Nat.add_right_cancel hsame

theorem Scans.ne_nil (hscan : Scans t s left) : t ≠ [] := by
  rintro rfl
  have hleft : ([] : Text) = left := congrArg Prod.snd hscan.1
  rw [← hleft] at hscan
  exact hscan.2 rfl

theorem AtComma.head?_ne_zero (hrest : AtComma rest) : rest.head? ≠ some '0' := by
  rcases hrest with rfl | ⟨more, rfl⟩
  · exact (Option.some_ne_none '0').symm
  · intro heq
    exact absurd (Option.some_inj.mp heq) (by decide)

/-- The colon in front of the comma. -/
theorem comesBefore_colon (hrest : AtComma rest) :
    comesBefore (nexttoken (some (m ++ rest)) ':') (nexttoken (some rest) ',') = true ↔
      ':' ∈ m := by
  by_cases hcolon : ':' ∈ m
  · obtain ⟨w, t, rfl, hw⟩ := List.eq_append_cons_of_mem hcolon
    rw [List.append_assoc, List.cons_append, nexttoken_next hw]
    exact iff_of_true (hrest.comesBefore_append t) hcolon
  · rw [nexttoken_append hcolon, hrest.not_comesBefore ':' (by decide)]
    exact iff_of_false Bool.false_ne_true hcolon

/-- In front of a comma or the end, the rest of a range is read as without what follows. -/
theorem readEnd_append_iff (hrest : AtComma rest) {left' : Text} :
    readEnd (m ++ rest) (nexttoken (some rest) ',') = some (b, s, left') ↔
      ∃ left, left' = left ++ rest ∧ b < cpuSetSize ∧
        ((':' ∉ m ∧ Scans m b left ∧ s = 1) ∨
          ∃ w t, m = w ++ ':' :: t ∧ ':' ∉ w ∧ Scans m b (strtoul m).2 ∧ Scans t s left) := by
  rw [readEnd_eq_some_iff]
  by_cases hcolon : ':' ∈ m
  · rw [if_pos ((comesBefore_colon hrest).mpr hcolon)]
    obtain ⟨w, t, rfl, hw⟩ := List.eq_append_cons_of_mem hcolon
    have hnext : nexttoken (some (w ++ ':' :: t ++ rest)) ':' = some (t ++ rest) := by
      rw [List.append_assoc, List.cons_append, nexttoken_next hw]
    constructor
    · rintro ⟨hsize, hb, c, hc, hs⟩
      obtain rfl : t ++ rest = c := Option.some_inj.mp (hnext.symm.trans hc)
      obtain ⟨left, rfl, hstride⟩ := (scans_append_iff hrest).mp hs
      obtain ⟨_, -, hrange⟩ := (scans_append_iff hrest).mp hb
      have hleft := congrArg Prod.snd hrange.1
      exact ⟨left, rfl, hsize, Or.inr ⟨w, t, rfl, hw, hleft ▸ hrange, hstride⟩⟩
    · rintro ⟨left, rfl, hsize, ⟨hnot, -⟩ | ⟨w', t', hsplit, hw', hb, hs⟩⟩
      · exact absurd hcolon hnot
      · obtain rfl : t = t' := by
          rw [← Option.some_inj, ← nexttoken_next hw t, hsplit, nexttoken_next hw' t']
        refine ⟨hsize, ?_, t ++ rest, hnext, (scans_append_iff hrest).mpr ⟨left, rfl, hs⟩⟩
        refine (scans_append_iff hrest).mpr ⟨_, ?_, hb⟩
        rw [strtoul_append_comma hrest]
  · rw [if_neg (mt (comesBefore_colon hrest).mp hcolon), scans_append_iff hrest]
    constructor
    · rintro ⟨hsize, ⟨left, rfl, hb⟩, rfl⟩
      exact ⟨left, rfl, hsize, Or.inl ⟨hcolon, hb, rfl⟩⟩
    · rintro ⟨left, rfl, hsize, ⟨-, hb, rfl⟩ | ⟨w, t, rfl, -⟩⟩
      · exact ⟨hsize, ⟨left, rfl, hb⟩, rfl⟩
      · exact absurd (List.mem_append_right w List.mem_cons_self) hcolon

/-- Without a dash in front of the comma, one number is read. -/
theorem readRest_number_iff (hpiece : ',' ∉ piece) (hdash : '-' ∉ piece) (hrest : AtComma rest)
    {left' : Text} :
    Scans (piece ++ rest) a (strtoul (piece ++ rest)).2 ∧
        readRest (piece ++ rest) = some (b, s, left') ↔
      ∃ left, left' = left ++ rest ∧ Scans piece a left ∧ a = b ∧ s = 1 := by
  have hcomes : comesBefore (nexttoken (some (piece ++ rest)) '-')
      (nexttoken (some (piece ++ rest)) ',') = false := by
    rw [nexttoken_append hdash, nexttoken_append hpiece]
    exact hrest.not_comesBefore '-' (by decide)
  unfold readRest
  rw [hcomes, if_neg Bool.false_ne_true, Option.some_inj, Prod.mk.injEq, Prod.mk.injEq]
  constructor
  · rintro ⟨hscan, rfl, rfl, rfl⟩
    obtain ⟨left, hleft, ha⟩ := (scans_append_iff hrest).mp hscan
    exact ⟨left, hleft, ha, (congrArg Prod.fst hscan.1).symm, rfl⟩
  · rintro ⟨left, rfl, ha, rfl, rfl⟩
    have hscan := (scans_append_iff hrest).mpr ⟨left, rfl, ha⟩
    refine ⟨?_, congrArg Prod.fst hscan.1, rfl, congrArg Prod.snd hscan.1⟩
    rwa [congrArg Prod.snd hscan.1]

/-- With a dash in front of the comma, the first number must end there. -/
theorem readRest_range_iff (hn : ',' ∉ n) (hm : ',' ∉ m) (hdash : '-' ∉ n) (hrest : AtComma rest)
    {left' : Text} :
    Scans (n ++ '-' :: (m ++ rest)) a (strtoul (n ++ '-' :: (m ++ rest))).2 ∧
        readRest (n ++ '-' :: (m ++ rest)) = some (b, s, left') ↔
      Scans n a [] ∧ readEnd (m ++ rest) (nexttoken (some rest) ',') = some (b, s, left') := by
  have hcomma : nexttoken (some (n ++ '-' :: (m ++ rest))) ',' = nexttoken (some rest) ',' := by
    rw [nexttoken_append hn]
    have hword : ',' ∉ '-' :: m := List.not_mem_cons_of_ne_of_not_mem (by decide) hm
    exact nexttoken_append hword rest
  have hends : readRest (n ++ '-' :: (m ++ rest)) =
      if (strtoul (n ++ '-' :: (m ++ rest))).2.length ≠ (m ++ rest).length + 1 then none
      else readEnd (m ++ rest) (nexttoken (some rest) ',') := by
    unfold readRest
    rw [nexttoken_next hdash, hcomma, if_pos (hrest.comesBefore_append m), Option.bind_some]
  rw [hends]
  -- Blanks alone in front of the dash: `strtoul` would read a negative number, which is refused.
  by_cases hblank : n.dropWhile isSpace = []
  · constructor
    · rintro ⟨⟨-, hdigits⟩, hread⟩
      rcases strtoul_blanks_dash hblank (m ++ rest) with hsame | hends
      · exact absurd hsame hdigits
      · rw [if_pos hends] at hread
        exact absurd hread (Option.some_ne_none _).symm
    · rintro ⟨⟨hscan, hdigits⟩, -⟩
      have hnone : scanInt n = none := by
        unfold scanInt
        rw [hblank]
        rfl
      rw [strtoul, hnone] at hscan
      exact absurd (congrArg List.length (Prod.mk.inj hscan).2).symm hdigits
  · have hne : n ≠ [] := by
      rintro rfl
      exact hblank rfl
    rw [strtoul_append_dash hblank]
    constructor
    · rintro ⟨⟨hscan, -⟩, hread⟩
      split at hread
      next => exact absurd hread (Option.some_ne_none _).symm
      next hlength =>
        rw [not_not, List.length_append, List.length_cons] at hlength
        have hnil : (strtoul n).2 = [] := List.length_eq_zero_iff.mp (by omega)
        rw [strtoul_append_dash hblank] at hscan
        have hvalue : (strtoul n).1 = a := congrArg Prod.fst hscan
        refine ⟨⟨Prod.ext hvalue hnil, ?_⟩, hread⟩
        exact (List.length_pos_iff.mpr hne).ne
    · rintro ⟨⟨hscan, -⟩, hread⟩
      rw [hscan, List.nil_append]
      dsimp only
      rw [if_neg (not_not.mpr List.length_cons)]
      refine ⟨⟨?_, ?_⟩, hread⟩
      · rw [strtoul_append_dash hblank, hscan]
        rfl
      · have hpos := List.length_pos_iff.mpr hne
        rw [List.length_append]
        omega

/-- In front of a comma or the end, what is read is an element that is taken. -/
theorem readRange_append_iff (hpiece : ',' ∉ piece) (hrest : AtComma rest) {left' : Text} :
    readRange (piece ++ rest) = some (a, b, s, left') ↔
      ∃ left, left' = left ++ rest ∧ Takes piece a b s left := by
  have hdigit : ∀ more : Text, ('-' :: more).head? ≠ some '0' := fun more heq =>
    absurd (Option.some_inj.mp heq) (by decide)
  have hcommas : ∀ {n m : Text}, ',' ∉ n ++ '-' :: m → ',' ∉ n ∧ ',' ∉ m := by
    intro n m hsplit
    exact ⟨fun hmem => hsplit (List.mem_append_left _ hmem),
      fun hmem => hsplit (List.mem_append_right n (List.mem_cons_of_mem _ hmem))⟩
  rw [readRange_eq_some_iff]
  constructor
  · rintro ⟨hscan, hsize, hpadded, hends, hle⟩
    -- The first dash of the piece decides whether it is a range; its colon, whether it has a
    -- stride.
    by_cases hdash : '-' ∈ piece
    · obtain ⟨n, m, rfl, hn⟩ := List.eq_append_cons_of_mem hdash
      obtain ⟨hcomma, hcomma'⟩ := hcommas hpiece
      rw [List.append_assoc, List.cons_append] at hscan hpadded hends
      obtain ⟨ha, hread⟩ := (readRest_range_iff hcomma hcomma' hn hrest).mp ⟨hscan, hends⟩
      rw [padded_append ha.ne_nil (hdigit _)] at hpadded
      obtain ⟨left, rfl, hb, ⟨hcolon, hm, rfl⟩ | ⟨w, t, rfl, hw, hm, hs⟩⟩ :=
        (readEnd_append_iff hrest).mp hread
      · exact ⟨left, rfl, .range hn ha hpadded hcolon hm hle hb⟩
      · exact ⟨left, rfl, .stride hn ha hpadded hw hm hle hb hs⟩
    · obtain ⟨left, rfl, ha, rfl, rfl⟩ :=
        (readRest_number_iff hpiece hdash hrest).mp ⟨hscan, hends⟩
      rw [padded_append ha.ne_nil hrest.head?_ne_zero] at hpadded
      exact ⟨left, rfl, .number hdash ha hsize hpadded⟩
  · rintro ⟨left, rfl, htakes⟩
    cases htakes with
    | number hdash ha hsize hpadded =>
        obtain ⟨hscan, hends⟩ :=
          (readRest_number_iff hpiece hdash hrest).mpr ⟨left, rfl, ha, rfl, rfl⟩
        rw [padded_append ha.ne_nil hrest.head?_ne_zero]
        exact ⟨hscan, hsize, hpadded, hends, Nat.le_refl a⟩
    | range hdash ha hpadded hcolon hb hle hsize =>
        obtain ⟨hcomma, hcomma'⟩ := hcommas hpiece
        have hread := (readEnd_append_iff hrest).mpr
          ⟨left, rfl, hsize, Or.inl ⟨hcolon, hb, rfl⟩⟩
        obtain ⟨hscan, hends⟩ :=
          (readRest_range_iff hcomma hcomma' hdash hrest).mpr ⟨ha, hread⟩
        rw [List.append_assoc, List.cons_append, padded_append ha.ne_nil (hdigit _)]
        exact ⟨hscan, Nat.lt_of_le_of_lt hle hsize, hpadded, hends, hle⟩
    | @stride n m t _ left₀ _ _ _ hdash ha hpadded hcolon hb hle hsize hs =>
        obtain ⟨hcomma, hcomma'⟩ := hcommas hpiece
        -- The end of the range is read up to the colon or to where its digits stop.
        have hleft : (strtoul (m ++ ':' :: t)).2 = left₀ := congrArg Prod.snd hb.1
        have hread := (readEnd_append_iff hrest).mpr
          ⟨left, rfl, hsize, Or.inr ⟨m, t, rfl, hcolon, hleft ▸ hb, hs⟩⟩
        obtain ⟨hscan, hends⟩ :=
          (readRest_range_iff hcomma hcomma' hdash hrest).mpr ⟨ha, hread⟩
        rw [List.append_assoc, List.cons_append, padded_append ha.ne_nil (hdigit _)]
        exact ⟨hscan, Nat.lt_of_le_of_lt hle hsize, hpadded, hends, hle⟩

theorem Takes.unique {a' b' s' : Nat} {left' : Text} (hpiece : ',' ∉ piece)
    (htakes : Takes piece a b s left) (htakes' : Takes piece a' b' s' left') :
    a = a' ∧ b = b' ∧ s = s' ∧ left = left' := by
  have hread := (readRange_append_iff hpiece (Or.inl rfl)).mpr ⟨left, rfl, htakes⟩
  have hread' := (readRange_append_iff hpiece (Or.inl rfl)).mpr ⟨left', rfl, htakes'⟩
  have hsame := Option.some_inj.mp (hread.symm.trans hread')
  simp only [Prod.mk.injEq, List.append_nil] at hsame
  exact hsame

theorem Takes.bounds (htakes : Takes piece a b s left) : a ≤ b ∧ b < cpuSetSize := by
  cases htakes with
  | number hdash ha hsize hpadded => exact ⟨Nat.le_refl a, hsize⟩
  | range hdash ha hpadded hcolon hb hle hsize => exact ⟨hle, hsize⟩
  | stride hdash ha hpadded hcolon hb hle hsize hs => exact ⟨hle, hsize⟩

theorem Scans.lt (hscan : Scans t s left) : s < 2 ^ 64 := by
  obtain rfl : (strtoul t).1 = s := congrArg Prod.fst hscan.1
  unfold strtoul
  split
  next => exact Nat.two_pow_pos 64
  next value rest hsome =>
    dsimp only
    split
    · exact Nat.sub_lt (Nat.two_pow_pos 64) Nat.one_pos
    · omega

theorem Takes.stride_lt (htakes : Takes piece a b s left) : s < 2 ^ 64 := by
  cases htakes with
  | number hdash ha hsize hpadded => exact Nat.one_lt_two_pow (by decide)
  | range hdash ha hpadded hcolon hb hle hsize => exact Nat.one_lt_two_pow (by decide)
  | stride hdash ha hpadded hcolon hb hle hsize hs => exact hs.lt

end Reading

/-! ## Elements of the grammar are taken -/

theorem IsDigits.notMem {digits : Text} (hdigits : IsDigits digits) {sep : Char}
    (hsep : sep.isDigit = false) : sep ∉ digits := fun hmem =>
  Bool.noConfusion (hsep.symm.trans (hdigits.2 sep hmem))

theorem IsDigits.strtoul_append {digits rest : Text} (hdigits : IsDigits digits)
    (hrest : ∀ c ∈ rest.head?, c.isDigit = false) :
    strtoul (digits ++ rest) = (ulong (decimalValue digits), rest) := by
  unfold strtoul
  rw [scanInt_digits hdigits.1 hdigits.2 hrest]
  dsimp only
  rw [Int.natAbs_natCast]
  change (if 2 ^ 64 ≤ decimalValue digits then 2 ^ 64 - 1
    else ((decimalValue digits : Int) % 2 ^ 64).toNat, rest) = _
  unfold ulong
  split
  next hlarge => rw [Nat.min_eq_right (by omega)]
  next hsmall =>
    rw [Int.emod_eq_of_lt (by omega) (by omega), Int.toNat_natCast, Nat.min_eq_left (by omega)]

theorem IsDigits.scans_append {digits rest : Text} (hdigits : IsDigits digits)
    (hrest : ∀ c ∈ rest.head?, c.isDigit = false) :
    Scans (digits ++ rest) (ulong (decimalValue digits)) rest := by
  refine ⟨hdigits.strtoul_append hrest, ?_⟩
  have hpos := List.length_pos_iff.mpr hdigits.1
  rw [List.length_append]
  omega

theorem IsDigits.scans {digits : Text} (hdigits : IsDigits digits) :
    Scans digits (ulong (decimalValue digits)) [] := by
  have hend : ∀ c ∈ ([] : Text).head?, c.isDigit = false := fun c hc => nomatch hc
  have hscans := hdigits.scans_append hend
  rwa [List.append_nil] at hscans

/-- A number without zeros in front does not look padded. -/
theorem IsPlainNumber.not_padded {n : Text} (hn : IsPlainNumber n) :
    ¬ Padded n (decimalValue n) := by
  obtain ⟨-, hlead⟩ := hn
  rintro (⟨hne, hhead⟩ | ⟨-, htake⟩)
  · rcases hlead with rfl | hnot
    · exact hne rfl
    · exact hnot hhead
  · rcases hlead with rfl | hnot
    · exact absurd htake (by decide)
    · match n with
      | [] => exact absurd htake (by decide)
      | c :: more =>
          rw [List.take_succ_cons] at htake
          exact hnot (congrArg some (List.cons.inj htake).1)

theorem ulong_of_lt {n : Nat} (hn : n < 2 ^ 64) : ulong n = n := by
  unfold ulong
  omega

theorem ulong_of_fits {n : Nat} (hn : n < cpuSetSize) : ulong n = n :=
  ulong_of_lt (hn.trans (by decide))

namespace IsElement

variable {piece : Text} {a b s : Nat}

theorem bounds (helement : IsElement piece a b s) : a ≤ b ∧ b < cpuSetSize ∧ 1 ≤ s := by
  cases helement with
  | number hn hsize => exact ⟨Nat.le_refl _, hsize, Nat.le_refl 1⟩
  | range hn hm hle hsize => exact ⟨hle, hsize, Nat.le_refl 1⟩
  | stride hn hm hs hle hsize hpos => exact ⟨hle, hsize, hpos⟩

/-- An element of the grammar is taken with its numbers, and nothing is left over. -/
theorem takes (helement : IsElement piece a b s) : Takes piece a b (ulong s) [] := by
  cases helement with
  | number hn hsize =>
      have ha := hn.1.scans
      rw [ulong_of_fits hsize] at ha
      exact .number (hn.1.notMem rfl) ha hsize hn.not_padded
  | range hn hm hle hsize =>
      have ha := hn.1.scans
      have hb := hm.scans
      rw [ulong_of_fits (Nat.lt_of_le_of_lt hle hsize)] at ha
      rw [ulong_of_fits hsize] at hb
      exact .range (hn.1.notMem rfl) ha hn.not_padded (hm.notMem rfl) hb hle hsize
  | @stride n m t hn hm hs hle hsize hpos =>
      have hcolon : ∀ c ∈ (':' :: t).head?, c.isDigit = false := by
        intro c hc
        rw [← Option.some_inj.mp hc]
        rfl
      have ha := hn.1.scans
      have hb := hm.scans_append hcolon
      rw [ulong_of_fits (Nat.lt_of_le_of_lt hle hsize)] at ha
      rw [ulong_of_fits hsize] at hb
      exact .stride (hn.1.notMem rfl) ha hn.not_padded (hm.notMem rfl) hb hle hsize hs.scans

end IsElement

end SlurmSpank.LuaSchedutils
