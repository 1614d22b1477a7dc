import Mathlib.Data.List.DropRight
import SlurmSpank.LuaSchedutils.HexMask

/-! # Hexadecimal digits and numerals

What the two readers make of text that need not be written by `cpuset_to_hex`: the bits that
`s_to_cpuset` sets for the digits at the end of a string, and what `strtoul` takes in base 16,
with blanks, a sign and a mark in front of the digits.
-/

namespace SlurmSpank.LuaSchedutils

open Foundation Lib

/-- A hexadecimal digit. -/
def isHex (c : Char) : Bool := (charToVal c).isSome

/-- The number that digits stand for. -/
def hexValue (digits : Text) : Nat :=
  (digits.filterMap charToVal).foldl (fun value digit => 16 * value + digit) 0

/-! ## Digits -/

theorem isHex_iff {c : Char} : isHex c = true ↔ ∃ val, charToVal c = some val :=
  Option.isSome_iff_exists

theorem charToVal_lt {c : Char} {val : Nat} (hval : charToVal c = some val) : val < 16 := by
  unfold charToVal at hval
  split at hval
  next hdigit =>
    obtain rfl := Option.some_inj.mp hval
    have hrange : 48 ≤ c.toNat ∧ c.toNat ≤ 57 := by
      simpa [Char.isDigit, UInt32.le_iff_toNat_le] using hdigit
    have hzero : '0'.toNat = 48 := rfl
    omega
  next =>
    split at hval
    next hletter =>
      obtain rfl := Option.some_inj.mp hval
      have hle : c.toLower.toNat ≤ 102 := Char.le_def.mp hletter.2
      have ha : 'a'.toNat = 97 := rfl
      omega
    next => exact absurd hval (Option.some_ne_none _).symm

theorem hexValue_concat {digits : Text} {c : Char} {val : Nat} (hval : charToVal c = some val) :
    hexValue (digits ++ [c]) = 16 * hexValue digits + val := by
  rw [hexValue, List.filterMap_append, List.foldl_append]
  simp [hval, hexValue]

theorem hexValue_lt {digits : Text} (hdigits : ∀ c ∈ digits, isHex c = true) :
    hexValue digits < 16 ^ digits.length := by
  induction digits using List.reverseRecOn with
  | nil => exact Nat.one_pos
  | append_singleton digits c ih =>
      obtain ⟨val, hval⟩ := isHex_iff.mp (hdigits c (by simp))
      have hlt := ih fun d hd => hdigits d (List.mem_append_left _ hd)
      have hval' := charToVal_lt hval
      rw [hexValue_concat hval, List.length_append, List.length_singleton, pow_succ]
      omega

/-- The last digit gives the lowest four bits. -/
theorem testBit_hexValue_concat {digits : Text} {c : Char} {val : Nat}
    (hval : charToVal c = some val) (j : Nat) :
    (hexValue (digits ++ [c])).testBit j =
      if j < 4 then val.testBit j else (hexValue digits).testBit (j - 4) := by
  have hlt := charToVal_lt hval
  rw [hexValue_concat hval]
  split
  next hlow =>
    rw [← testBit_mod_16 hlow, Nat.mul_add_mod, Nat.mod_eq_of_lt hlt]
  next hhigh =>
    obtain ⟨k, rfl⟩ := Nat.exists_eq_add_of_le (Nat.not_lt.mp hhigh)
    rw [← testBit_div_16, Nat.add_sub_cancel_left, Nat.mul_add_div (by decide),
      Nat.div_eq_of_lt hlt, Nat.add_zero]

/-- Digits are read from the last one on, each four bits further. -/
theorem sToCpusetLoop_digits {digits : Text} (hdigits : ∀ c ∈ digits, isHex c = true)
    (rest : Text) (base : Nat) (mask : CpuSet) :
    ∃ result, sToCpusetLoop (digits.reverse ++ rest) base mask =
        sToCpusetLoop rest (base + 4 * digits.length) result ∧
      ∀ cpu, cpu ∈ result.cpus ↔ cpu ∈ mask.cpus ∨
        cpu < cpuSetSize ∧ ∃ j, (hexValue digits).testBit j = true ∧ cpu = base + j := by
  induction digits using List.reverseRecOn generalizing base mask with
  | nil =>
      refine ⟨mask, rfl, fun cpu => ?_⟩
      simp [hexValue]
  | append_singleton digits c ih =>
      obtain ⟨val, hval⟩ := isHex_iff.mp (hdigits c (by simp))
      obtain ⟨result, hloop, hmem⟩ := ih (fun d hd => hdigits d (List.mem_append_left _ hd))
        (base + 4) (setBits val base 4 mask)
      refine ⟨result, ?_, fun cpu => ?_⟩
      · rw [List.reverse_append, List.reverse_singleton, List.cons_append, List.nil_append,
          List.cons_append, sToCpusetLoop, hval, List.length_append, List.length_singleton]
        dsimp only
        rw [hloop, Nat.mul_add, Nat.add_assoc base, Nat.add_comm 4]
      · rw [hmem, mem_setBits_iff, or_assoc, ← and_or_left]
        refine or_congr_right (and_congr_right fun _ => ?_)
        constructor
        · rintro (⟨j, hj, hset, rfl⟩ | ⟨j, hset, rfl⟩)
          · exact ⟨j, by rw [testBit_hexValue_concat hval, if_pos hj, hset], rfl⟩
          · refine ⟨4 + j, ?_, Nat.add_assoc base 4 j⟩
            rw [testBit_hexValue_concat hval, if_neg (by omega), Nat.add_sub_cancel_left, hset]
        · rintro ⟨j, hset, rfl⟩
          rw [testBit_hexValue_concat hval] at hset
          split at hset
          next hlow => exact Or.inl ⟨j, hlow, hset, rfl⟩
          next hhigh => exact Or.inr ⟨j - 4, hset, by omega⟩

/-- What is set for the characters of a string: the bits of the digits behind the last one that is
no digit. -/
theorem sToCpuset_spec (mask : CpuSet) (text : Text) (len : Nat) :
    ((sToCpuset mask text len).1 = if (text.take len).all isHex then 0 else -1) ∧
      ∀ cpu, cpu ∈ (sToCpuset mask text len).2.cpus ↔ cpu ∈ mask.cpus ∨
        cpu < cpuSetSize ∧
          (hexValue ((text.take len).rtakeWhile isHex)).testBit cpu = true := by
  unfold sToCpuset
  generalize text.take len = read
  have hdigits : ∀ c ∈ read.rtakeWhile isHex, isHex c = true := fun c hc =>
    List.mem_rtakeWhile_imp hc
  obtain ⟨result, hloop, hmem⟩ :=
    sToCpusetLoop_digits hdigits (read.rdropWhile isHex).reverse 0 mask
  have hsplit : (read.rtakeWhile isHex).reverse ++ (read.rdropWhile isHex).reverse =
      read.reverse := by
    rw [List.rtakeWhile, List.rdropWhile, List.reverse_reverse, List.reverse_reverse]
    exact List.takeWhile_append_dropWhile
  rw [hsplit] at hloop
  rw [hloop]
  simp only [Nat.zero_add, exists_eq_right'] at hmem ⊢
  cases hrest : (read.rdropWhile isHex).reverse with
  | nil =>
      have hall := List.rdropWhile_eq_nil_iff.mp (List.reverse_eq_nil_iff.mp hrest)
      rw [if_pos (List.all_eq_true.mpr hall)]
      exact ⟨rfl, hmem⟩
  | cons c front =>
      have hsome : read.rdropWhile isHex = front.reverse ++ [c] := by
        rw [← List.reverse_cons, ← hrest, List.reverse_reverse]
      have hne : read.rdropWhile isHex ≠ [] := by
        rw [hsome]
        exact List.append_ne_nil_of_right_ne_nil _ (List.cons_ne_nil c [])
      have hlast : (read.rdropWhile isHex).getLast hne = c := by
        simp only [hsome, List.getLast_append_singleton]
      have hbad : charToVal c = none := by
        have hnot := List.rdropWhile_last_not isHex read hne
        rw [hlast, isHex, Option.not_isSome_iff_eq_none] at hnot
        exact hnot
      have hnot := mt List.rdropWhile_eq_nil_iff.mpr hne
      rw [if_neg (mt List.all_eq_true.mp hnot), sToCpusetLoop, hbad]
      exact ⟨rfl, hmem⟩

/-! ## Numerals -/

/-- What `strtoul` takes as a whole: digits with blanks, a sign and a mark in front. -/
def IsHexNumeral (text : Text) : Prop :=
  ∃ blanks sign mark digits, text = blanks ++ (sign ++ (mark ++ digits)) ∧
    (∀ c ∈ blanks, isSpace c = true) ∧ sign ∈ [[], ['-'], ['+']] ∧
    mark ∈ [[], ['0', 'x'], ['0', 'X']] ∧ digits ≠ [] ∧ ∀ c ∈ digits, isHex c = true

theorem toLower_toNat (c : Char) :
    c.toLower.toNat = if 65 ≤ c.toNat ∧ c.toNat ≤ 90 then c.toNat + 32 else c.toNat := by
  have hupper : (c.val ≥ 'A'.val ∧ c.val ≤ 'Z'.val) ↔ 65 ≤ c.toNat ∧ c.toNat ≤ 90 := by
    rw [ge_iff_le, UInt32.le_iff_toNat_le, UInt32.le_iff_toNat_le]
    exact Iff.rfl
  unfold Char.toLower
  split
  next h =>
    rw [if_pos (hupper.mp h)]
    have hle := (hupper.mp h).2
    change (c.val + ('a'.val - 'A'.val)).toNat = c.toNat + 32
    rw [UInt32.toNat_add]
    change (c.toNat + 32) % 2 ^ 32 = c.toNat + 32
    omega
  next h => rw [if_neg (mt hupper.mpr h)]

/-- The codes of hexadecimal digits. -/
theorem toNat_of_isHex {c : Char} (hc : isHex c = true) :
    (48 ≤ c.toNat ∧ c.toNat ≤ 57) ∨ (65 ≤ c.toNat ∧ c.toNat ≤ 70) ∨
      (97 ≤ c.toNat ∧ c.toNat ≤ 102) := by
  obtain ⟨val, hval⟩ := isHex_iff.mp hc
  unfold charToVal at hval
  split at hval
  next hdigit =>
    refine Or.inl ?_
    simpa [Char.isDigit, UInt32.le_iff_toNat_le] using hdigit
  next =>
    split at hval
    next hletter =>
      have hle : 97 ≤ c.toLower.toNat ∧ c.toLower.toNat ≤ 102 :=
        ⟨Char.le_def.mp hletter.1, Char.le_def.mp hletter.2⟩
      rw [toLower_toNat] at hle
      split at hle <;> omega
    next => exact absurd hval (Option.some_ne_none _).symm

/-- A hexadecimal digit is no blank, no sign and no separator, and ends no mark. -/
theorem reads_of_isHex {c : Char} (hc : isHex c = true) :
    isSpace c = false ∧ c ≠ '-' ∧ c ≠ '+' ∧ c ≠ ',' ∧ c.toLower ≠ 'x' := by
  have hrange := toNat_of_isHex hc
  have hne : ∀ other : Char, other.toNat < 48 → c ≠ other := by
    rintro other hlt rfl
    omega
  have hmark : c.toLower ≠ 'x' := by
    intro heq
    have hcode : c.toLower.toNat = 120 := congrArg Char.toNat heq
    rw [toLower_toNat] at hcode
    split at hcode <;> omega
  have hcodes : c.toNat ≠ 11 ∧ c.toNat ≠ 12 := by omega
  refine ⟨?_, hne '-' (by decide), hne '+' (by decide), hne ',' (by decide), hmark⟩
  simp [isSpace, hne ' ' (by decide), hne '\t' (by decide), hne '\n' (by decide),
    hne '\r' (by decide), hcodes]

/-- What is behind the mark, if there is a digit. -/
def skipMark (text : Text) : Text :=
  match text with
  | '0' :: x :: c :: more => if x.toLower = 'x' ∧ isHex c = true then c :: more else text
  | _ => text

/-- Where `strtoul` looks for digits: behind blanks, a sign and a mark. -/
def hexStart (text : Text) : Text := skipMark (scanSign (text.dropWhile isSpace)).2

/-- What `strtoul` reads in base 16: everything, or nothing where there are no digits. -/
theorem strtoulHex_eq (text : Text) :
    strtoulHex text =
      if (hexStart text).takeWhile isHex = [] then (0, text)
      else
        (if 2 ^ 64 ≤ hexValue ((hexStart text).takeWhile isHex) then 2 ^ 64 - 1
          else if (scanSign (text.dropWhile isSpace)).1 then
            (2 ^ 64 - hexValue ((hexStart text).takeWhile isHex)) % 2 ^ 64
          else hexValue ((hexStart text).takeWhile isHex),
          (hexStart text).dropWhile isHex) := by
  have hnil : ∀ digits : Text, (∀ c ∈ digits, isHex c = true) →
      (digits.filterMap charToVal = [] ↔ digits = []) := by
    intro digits hdigits
    cases digits with
    | nil => exact iff_of_true rfl rfl
    | cons c more =>
        obtain ⟨val, hval⟩ := isHex_iff.mp (hdigits c List.mem_cons_self)
        rw [List.filterMap_cons, hval]
        exact iff_of_false (List.cons_ne_nil _ _) (List.cons_ne_nil _ _)
  have hdigits := hnil ((hexStart text).takeWhile isHex) fun c hc => List.mem_takeWhile_imp hc
  have hread : strtoulHex text =
      if ((hexStart text).takeWhile isHex).filterMap charToVal = [] then (0, text)
      else
        (if 2 ^ 64 ≤ hexValue ((hexStart text).takeWhile isHex) then 2 ^ 64 - 1
          else if (scanSign (text.dropWhile isSpace)).1 then
            (2 ^ 64 - hexValue ((hexStart text).takeWhile isHex)) % 2 ^ 64
          else hexValue ((hexStart text).takeWhile isHex),
          (hexStart text).dropWhile isHex) := rfl
  rw [hread]
  exact if_congr hdigits rfl rfl

theorem skipMark_cons (first x c : Char) (more : Text) :
    skipMark (first :: x :: c :: more) =
      if first = '0' ∧ x.toLower = 'x' ∧ isHex c = true then c :: more
      else first :: x :: c :: more := by
  by_cases hfirst : first = '0'
  · subst hfirst
    simp only [skipMark, true_and]
  · rw [if_neg fun hmark => hfirst hmark.1]
    unfold skipMark
    split
    next heq => exact absurd (List.cons.inj heq).1 hfirst
    next => rfl

theorem skipMark_short {text : Text} (hshort : text.length ≤ 2) : skipMark text = text := by
  unfold skipMark
  split
  next => simp at hshort
  next => rfl

/-- What is behind a comma is no part of a mark. -/
theorem skipMark_append_comma (text rest : Text) :
    skipMark (text ++ ',' :: rest) = skipMark text ++ ',' :: rest := by
  match text with
  | [] =>
      match rest with
      | [] | [_] => rfl
      | x :: c :: more => exact skipMark_cons ',' x c more
  | [a] =>
      have hself : skipMark [a] = [a] := skipMark_short (Nat.le_succ 1)
      rw [hself]
      match rest with
      | [] => exact skipMark_short (Nat.le_refl 2)
      | c :: more =>
          have hmark : ¬ (a = '0' ∧ (',').toLower = 'x' ∧ isHex c = true) := fun hmark =>
            absurd hmark.2.1 (by decide)
          exact (skipMark_cons a ',' c more).trans (if_neg hmark)
  | [a, b] =>
      have hself : skipMark [a, b] = [a, b] := skipMark_short (Nat.le_refl 2)
      rw [hself]
      have hmark : ¬ (a = '0' ∧ b.toLower = 'x' ∧ isHex ',' = true) := fun hmark =>
        absurd hmark.2.2 (by decide)
      exact (skipMark_cons a b ',' rest).trans (if_neg hmark)
  | a :: b :: c :: more =>
      rw [List.cons_append, List.cons_append, List.cons_append, skipMark_cons, skipMark_cons]
      split
      · rfl
      · rfl

theorem hexStart_append_comma (text rest : Text) :
    hexStart (text ++ ',' :: rest) = hexStart text ++ ',' :: rest := by
  unfold hexStart
  rw [dropWhile_append_stop rfl, scanSign_append_stop (by decide) (by decide),
    skipMark_append_comma]

/-- What is read in front of a comma does not depend on what is behind it. -/
theorem strtoulHex_append {rest : Text} (hrest : AtComma rest) (text : Text) :
    strtoulHex (text ++ rest) = ((strtoulHex text).1, (strtoulHex text).2 ++ rest) := by
  rcases hrest with rfl | ⟨more, rfl⟩
  · simp
  · rw [strtoulHex_eq, strtoulHex_eq, hexStart_append_comma, takeWhile_append_stop rfl,
      dropWhile_append_stop rfl, dropWhile_append_stop rfl,
      scanSign_append_stop (by decide) (by decide)]
    split
    · rfl
    · rfl

/-- Blanks, a sign and a mark are what is skipped. -/
theorem exists_hexStart (text : Text) :
    ∃ blanks sign mark, text = blanks ++ (sign ++ (mark ++ hexStart text)) ∧
      (∀ c ∈ blanks, isSpace c = true) ∧ sign ∈ [[], ['-'], ['+']] ∧
      mark ∈ [[], ['0', 'x'], ['0', 'X']] := by
  have hsign : ∀ rest : Text, ∃ sign ∈ [[], ['-'], ['+']], rest = sign ++ (scanSign rest).2 := by
    intro rest
    unfold scanSign
    split
    · exact ⟨['-'], by simp, rfl⟩
    · exact ⟨['+'], by simp, rfl⟩
    · exact ⟨[], by simp, rfl⟩
  have hmark : ∀ rest : Text, ∃ mark ∈ [[], ['0', 'x'], ['0', 'X']],
      rest = mark ++ skipMark rest := by
    intro rest
    unfold skipMark
    split
    next x c more =>
      split
      next hx =>
        refine ⟨['0', x], ?_, rfl⟩
        have hcode : x.toLower.toNat = 120 := congrArg Char.toNat hx.1
        rw [toLower_toNat] at hcode
        split at hcode
        next =>
          obtain rfl : x = 'X' := Char.ext (UInt32.toNat_inj.mp (by change x.toNat = 88; omega))
          simp
        next =>
          obtain rfl : x = 'x' := Char.ext (UInt32.toNat_inj.mp (by change x.toNat = 120; omega))
          simp
      next => exact ⟨[], by simp, rfl⟩
    next => exact ⟨[], by simp, rfl⟩
  obtain ⟨sign, hsigns, hsignText⟩ := hsign (text.dropWhile isSpace)
  obtain ⟨mark, hmarks, hmarkText⟩ := hmark (scanSign (text.dropWhile isSpace)).2
  refine ⟨text.takeWhile isSpace, sign, mark, ?_, fun c hc => List.mem_takeWhile_imp hc, hsigns,
    hmarks⟩
  rw [hexStart, ← hmarkText, ← hsignText, List.takeWhile_append_dropWhile]

theorem scanSign_of_ne {c : Char} {more : Text} (hminus : c ≠ '-') (hplus : c ≠ '+') :
    scanSign (c :: more) = (false, c :: more) := by
  unfold scanSign
  split
  next heq => exact absurd (List.cons.inj heq).1 hminus
  next heq => exact absurd (List.cons.inj heq).1 hplus
  next => rfl

/-- Where digits follow them, blanks, a sign and a mark are skipped. -/
theorem hexStart_numeral {blanks sign mark more : Text} {c : Char}
    (hblanks : ∀ c ∈ blanks, isSpace c = true) (hsign : sign ∈ [[], ['-'], ['+']])
    (hmark : mark ∈ [[], ['0', 'x'], ['0', 'X']]) (hc : isHex c = true)
    (hmore : ∀ x ∈ more.head?, x.toLower ≠ 'x') :
    hexStart (blanks ++ (sign ++ (mark ++ c :: more))) = c :: more := by
  obtain ⟨hblank, hminus, hplus, -, -⟩ := reads_of_isHex hc
  have hskip : skipMark (mark ++ c :: more) = c :: more := by
    simp only [List.mem_cons, List.not_mem_nil, or_false] at hmark
    rcases hmark with rfl | rfl | rfl
    · rcases more with _ | ⟨x, _ | ⟨d, tail⟩⟩
      · exact skipMark_short (by simp)
      · exact skipMark_short (by simp)
      · refine (skipMark_cons c x d tail).trans (if_neg ?_)
        rintro ⟨-, hx, -⟩
        exact hmore x rfl hx
    · exact (skipMark_cons '0' 'x' c more).trans (if_pos ⟨rfl, rfl, hc⟩)
    · exact (skipMark_cons '0' 'X' c more).trans (if_pos ⟨rfl, rfl, hc⟩)
  have hhead : ∃ first tail, mark ++ c :: more = first :: tail ∧ isSpace first = false ∧
      first ≠ '-' ∧ first ≠ '+' := by
    simp only [List.mem_cons, List.not_mem_nil, or_false] at hmark
    rcases hmark with rfl | rfl | rfl
    · exact ⟨c, more, rfl, hblank, hminus, hplus⟩
    · exact ⟨'0', 'x' :: c :: more, rfl, rfl, by decide, by decide⟩
    · exact ⟨'0', 'X' :: c :: more, rfl, rfl, by decide, by decide⟩
  obtain ⟨first, tail, heq, hfirst, hfirstMinus, hfirstPlus⟩ := hhead
  unfold hexStart
  rw [List.dropWhile_append_of_pos hblanks]
  rw [heq] at hskip ⊢
  simp only [List.mem_cons, List.not_mem_nil, or_false] at hsign
  rcases hsign with rfl | rfl | rfl
  · rw [List.nil_append, List.dropWhile_cons_of_neg (by simp [hfirst]),
      scanSign_of_ne hfirstMinus hfirstPlus, hskip]
  · exact hskip
  · exact hskip

/-- `strtoul` takes everything if there is nothing, or a numeral. -/
theorem strtoulHex_whole_iff (text : Text) :
    (strtoulHex text).2 = [] ↔ text = [] ∨ IsHexNumeral text := by
  rw [strtoulHex_eq]
  constructor
  · intro hwhole
    obtain ⟨blanks, sign, mark, htext, hblanks, hsign, hmark⟩ := exists_hexStart text
    split at hwhole
    next => exact Or.inl hwhole
    next hne =>
      dsimp only at hwhole
      have hall : (hexStart text).takeWhile isHex = hexStart text := by
        have hsplit := @List.takeWhile_append_dropWhile _ isHex (hexStart text)
        rwa [hwhole, List.append_nil] at hsplit
      rw [hall] at hne
      refine Or.inr ⟨blanks, sign, mark, hexStart text, htext, hblanks, hsign, hmark, hne, ?_⟩
      exact List.takeWhile_eq_self_iff.mp hall
  · rintro (rfl | ⟨blanks, sign, mark, digits, rfl, hblanks, hsign, hmark, hne, hdigits⟩)
    · rfl
    · obtain ⟨c, more, rfl⟩ := List.exists_cons_of_ne_nil hne
      have hmore : ∀ x ∈ more.head?, x.toLower ≠ 'x' := fun x hx =>
        (reads_of_isHex (hdigits x (List.mem_cons_of_mem c (List.mem_of_mem_head? hx)))).2.2.2.2
      rw [hexStart_numeral hblanks hsign hmark (hdigits c List.mem_cons_self) hmore,
        List.takeWhile_eq_self_iff.mpr hdigits, if_neg hne]
      exact List.dropWhile_eq_nil_iff.mpr hdigits

/-- Where a digit and no mark stands in front, the digits are read. -/
theorem strtoulHex_of_isHex {c : Char} {more : Text} (hc : isHex c = true)
    (hmore : ∀ x ∈ more.head?, x.toLower ≠ 'x') :
    (strtoulHex (c :: more)).2 = (c :: more).dropWhile isHex ∧
      (hexValue ((c :: more).takeWhile isHex) < 2 ^ 64 →
        (strtoulHex (c :: more)).1 = hexValue ((c :: more).takeWhile isHex)) := by
  have hstart : hexStart (c :: more) = c :: more :=
    @hexStart_numeral [] [] [] more c (by simp) (by simp) (by simp) hc hmore
  obtain ⟨hblank, hminus, hplus, -, -⟩ := reads_of_isHex hc
  rw [strtoulHex_eq, hstart, if_neg (by simp [hc]),
    List.dropWhile_cons_of_neg (by simp [hblank]), scanSign_of_ne hminus hplus]
  refine ⟨rfl, fun hsmall => ?_⟩
  dsimp only
  rw [if_neg (Nat.not_le.mpr hsmall)]
  rfl

end SlurmSpank.LuaSchedutils
