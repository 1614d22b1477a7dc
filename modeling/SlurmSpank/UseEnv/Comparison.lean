import SlurmSpank.UseEnv.Item
import SlurmSpank.UseEnv.SymbolLayers

/-! # Comparisons of items

The six operators of `item_cmp` against each other and against the order of the integers that
the texts stand for. A number is kept in an `int`, so the order of two integers survives only
if the same multiple of `2 ^ 32` is taken off both. And `!=` on numbers compares the unions,
which hold addresses where the items are symbols.
-/

namespace SlurmSpank.UseEnv

open Foundation Lib

universe u

variable {setting : Setting} {x y : Item} {u v : Int} {text : Text} {conds : CondStack}

/-! ## The operators against each other -/

/-- For two numbers, the unions differ just if the numbers do. -/
def UnionsTell (setting : Setting) (x y : Item) : Prop :=
  ∀ u v, x.typeInt = some u → y.typeInt = some v →
    (x.num (setting.address x y).1 = y.num (setting.address x y).2 ↔ u = v)

/-- What the operators do to two numbers. -/
theorem itemCmp_ints (hx : x.typeInt = some u) (hy : y.typeInt = some v) :
    itemCmp setting .lt x y = some (decide (u < v)) ∧
      itemCmp setting .gt x y = some (decide (u > v)) ∧
      itemCmp setting .le x y = some (decide (u ≤ v)) ∧
      itemCmp setting .ge x y = some (decide (u ≥ v)) ∧
      itemCmp setting .eq x y = some (decide (u = v)) ∧
      itemCmp setting .ne x y =
        some (decide (x.num (setting.address x y).1 ≠ y.num (setting.address x y).2)) := by
  simp only [itemCmp, hx, hy, and_self]

/-- What they do if one of two items is no number. -/
theorem itemCmp_strs (hnone : x.typeInt = none ∨ y.typeInt = none) :
    itemCmp setting .eq x y = some (decide (x.str = y.str)) ∧
      itemCmp setting .ne x y = some (decide (x.str ≠ y.str)) ∧
      ∀ cmp, cmp ≠ .eq → cmp ≠ .ne → itemCmp setting cmp x y = none := by
  rcases hnone with hnone | hnone
  · refine ⟨?_, ?_, fun cmp heq hne => ?_⟩
    · simp only [itemCmp, hnone]
    · simp only [itemCmp, hnone]
    · cases cmp with
      | eq => exact absurd rfl heq
      | ne => exact absurd rfl hne
      | _ => simp only [itemCmp, hnone]
  · refine ⟨?_, ?_, fun cmp heq hne => ?_⟩
    · cases hx : x.typeInt with
      | _ => simp only [itemCmp, hx, hnone]
    · cases hx : x.typeInt with
      | _ => simp only [itemCmp, hx, hnone]
    · cases cmp with
      | eq => exact absurd rfl heq
      | ne => exact absurd rfl hne
      | _ =>
          cases hx : x.typeInt with
          | _ => simp only [itemCmp, hx, hnone]

/-- The laws of the operators on two items. -/
structure Coherent (setting : Setting) (x y : Item) : Prop where
  ne_eq : ∃ b, itemCmp setting .eq x y = some b ∧ itemCmp setting .ne x y = some !b
  lt_ge : x.typeInt.isSome → y.typeInt.isSome →
    ∃ b, itemCmp setting .lt x y = some b ∧ itemCmp setting .ge x y = some !b
  gt_le : x.typeInt.isSome → y.typeInt.isSome →
    ∃ b, itemCmp setting .gt x y = some b ∧ itemCmp setting .le x y = some !b
  le_iff : x.typeInt.isSome → y.typeInt.isSome →
    (itemCmp setting .le x y = some true ↔
      itemCmp setting .lt x y = some true ∨ itemCmp setting .eq x y = some true)
  lt_swap : x.typeInt.isSome → y.typeInt.isSome →
    itemCmp setting .lt x y = itemCmp setting .gt y x
  le_swap : x.typeInt.isSome → y.typeInt.isSome →
    itemCmp setting .le x y = itemCmp setting .ge y x
  invalid : x.typeInt = none ∨ y.typeInt = none → ∀ cmp, cmp ≠ .eq → cmp ≠ .ne →
    itemCmp setting cmp x y = none

/-- The operators are coherent on two items just if the unions tell two numbers apart. -/
theorem itemCmp_coherent (setting : Setting) (x y : Item) :
    Coherent setting x y ↔ UnionsTell setting x y := by
  constructor
  · intro hcoherent u v hx hy
    obtain ⟨-, -, -, -, heq, hne⟩ := @itemCmp_ints setting x y u v hx hy
    obtain ⟨b, heq', hne'⟩ := hcoherent.ne_eq
    have hb : decide (u = v) = b := Option.some_inj.mp (heq.symm.trans heq')
    have hnb := Option.some_inj.mp (hne.symm.trans hne')
    rw [← hb, ← decide_not, decide_eq_decide] at hnb
    exact not_iff_not.mp hnb
  · intro htell
    rcases Decidable.em (x.typeInt = none ∨ y.typeInt = none) with hnone | hnone
    · have hnot : x.typeInt.isSome → y.typeInt.isSome → False := by
        intro hx hy
        rcases hnone with hnone | hnone
        · rw [hnone] at hx
          exact Bool.false_ne_true hx
        · rw [hnone] at hy
          exact Bool.false_ne_true hy
      obtain ⟨heq, hne, hinvalid⟩ := @itemCmp_strs setting x y hnone
      exact ⟨⟨_, heq, by rw [hne, decide_not]⟩, fun hx hy => (hnot hx hy).elim,
        fun hx hy => (hnot hx hy).elim, fun hx hy => (hnot hx hy).elim,
        fun hx hy => (hnot hx hy).elim, fun hx hy => (hnot hx hy).elim, fun _ => hinvalid⟩
    · obtain ⟨hx, hy⟩ := not_or.mp hnone
      obtain ⟨u, hx⟩ := Option.ne_none_iff_exists'.mp hx
      obtain ⟨v, hy⟩ := Option.ne_none_iff_exists'.mp hy
      obtain ⟨hlt, hgt, hle, hge, heq, hne⟩ := @itemCmp_ints setting x y u v hx hy
      obtain ⟨-, hgt', -, hge', -⟩ := @itemCmp_ints setting y x v u hy hx
      have hunions := htell u v hx hy
      exact {
        ne_eq := ⟨_, heq, by rw [hne, ← decide_not, decide_eq_decide.mpr (not_congr hunions)]⟩
        lt_ge := fun _ _ => ⟨_, hlt, by rw [hge, ← decide_not, decide_eq_decide.mpr Int.not_lt]⟩
        gt_le := fun _ _ => ⟨_, hgt, by rw [hle, ← decide_not, decide_eq_decide.mpr Int.not_lt]⟩
        le_iff := fun _ _ => by
          rw [hle, hlt, heq, Option.some_inj, Option.some_inj, Option.some_inj,
            decide_eq_true_iff, decide_eq_true_iff, decide_eq_true_iff, Int.le_iff_lt_or_eq]
        lt_swap := fun _ _ => by rw [hlt, hgt']
        le_swap := fun _ _ => by rw [hle, hge']
        invalid := fun hnone' => absurd hnone' hnone }

/-- Two symbols with the same number are equal and not equal. -/
theorem equal_symbols_ne :
    ∃ setting x y, itemCmp setting .eq x y = some true ∧ itemCmp setting .ne x y = some true :=
  ⟨⟨false, fun pattern text => pattern = text, fun _ _ => (4096, 4160)⟩,
    ⟨['A'], .sym (some (symCreate ['A'] ['1']))⟩, ⟨['B'], .sym (some (symCreate ['B'] ['1']))⟩,
    rfl, rfl⟩

/-! ## The integers of the texts -/

/-- The decimal strings with their integers. -/
inductive DecimalText : Text → Int → Prop
  | plain {digits : Text} (hne : digits ≠ []) (hall : ∀ c ∈ digits, c.isDigit = true) :
      DecimalText digits (Nat.ofDigitChars 10 digits 0)
  | plus {digits : Text} (hne : digits ≠ []) (hall : ∀ c ∈ digits, c.isDigit = true) :
      DecimalText ('+' :: digits) (Nat.ofDigitChars 10 digits 0)
  | minus {digits : Text} (hne : digits ≠ []) (hall : ∀ c ∈ digits, c.isDigit = true) :
      DecimalText ('-' :: digits) (-Nat.ofDigitChars 10 digits 0)

/-- The item is a literal, or a symbol that was made with the text. Keywords, defined symbols
and environment values are all made in this way. -/
inductive HasText : Item → Text → Prop
  | literal {text : Text} : HasText (.ofInt text) text
  | symbol {name text : Text} : HasText ⟨name, .sym (some (symCreate name text))⟩ text

/-- What a name is looked up to after any history is made in this way. -/
theorem sym_hasText {E : Type u} (ops : EnvOps E) (env : E) (history : List Request) (name : Text)
    {s : Sym} (hsym : (((Tables.start env).after ops history).sym ops name).1 = some s) :
    ∃ value, HasText ⟨name, .sym (some s)⟩ value ∧
      (keywordValue name history).or ((symbolValue name history).or
        (ops.getenv (environmentAfter ops env history) name)) = some value := by
  rw [(sym_after ops env history name).1] at hsym
  obtain ⟨value, hvalue, rfl⟩ := Option.map_eq_some_iff.mp hsym
  exact ⟨value, .symbol, hvalue⟩

/-- Digits behind a sign are scanned to their end. -/
theorem scanInt_digits {digits input : Text} {negative : Bool} (hne : digits ≠ [])
    (hall : ∀ c ∈ digits, c.isDigit = true) (hspace : input.dropWhile isSpace = input)
    (hsign : scanSign input = (negative, digits)) :
    scanInt input = some (if negative then -(Nat.ofDigitChars 10 digits 0 : Int)
      else (Nat.ofDigitChars 10 digits 0 : Int), []) := by
  have htake : digits.takeWhile Char.isDigit = digits := List.takeWhile_eq_self_iff.mpr hall
  have hdrop : digits.dropWhile Char.isDigit = [] := List.dropWhile_eq_nil_iff.mpr hall
  simp only [scanInt, hspace, hsign, htake, hdrop, if_neg hne]

/-- All of a decimal string is read as its integer. -/
theorem scanInt_decimalText (htext : DecimalText text u) : scanInt text = some (u, []) := by
  cases htext with
  | plain hne hall =>
      obtain ⟨c, rest, rfl⟩ := List.exists_cons_of_ne_nil hne
      have hc := hall c List.mem_cons_self
      have hspace : (c :: rest).dropWhile isSpace = c :: rest :=
        List.dropWhile_cons_of_neg (by simp [isSpace_of_isDigit hc])
      exact scanInt_digits hne hall hspace (scanSign_of_isDigit hc)
  | @plus digits hne hall => exact @scanInt_digits digits ('+' :: digits) false hne hall rfl rfl
  | @minus digits hne hall => exact @scanInt_digits digits ('-' :: digits) true hne hall rfl rfl

/-- The integers in the range of a C `long`. -/
def InLong (u : Int) : Prop := -2 ^ 63 ≤ u ∧ u ≤ 2 ^ 63 - 1

theorem strtol_decimalText (htext : DecimalText text u) (hlong : InLong u) :
    strtol text = (u, []) := by
  rw [strtol, scanInt_decimalText htext]
  dsimp only
  rw [Int.min_eq_right hlong.2, Int.max_eq_right hlong.1]

/-- An item with such a text is the number that the `int` holds. -/
theorem HasText.typeInt (hitem : HasText x text) (htext : DecimalText text u)
    (hlong : InLong u) : x.typeInt = some (toInt u) := by
  have hstrtol := strtol_decimalText htext hlong
  cases hitem with
  | literal => rw [Item.ofInt, hstrtol]; rfl
  | @symbol name _ =>
      have hsym : symCreate name text = ⟨name, .int, toInt u, text⟩ := by
        simp only [symCreate, symResetValue, hstrtol, if_true]
      rw [hsym]
      rfl

/-! ## The order of the integers -/

/-- The multiple of `2 ^ 32` that the cast to `int` takes off. -/
def window (u : Int) : Int := (u + 2 ^ 31) / 2 ^ 32

theorem toInt_eq (u : Int) : toInt u = u - 2 ^ 32 * window u := by
  rw [toInt, BitVec.toInt_ofInt, Int.bmod, window]
  omega

theorem toInt_bounds (u : Int) : -2 ^ 31 ≤ toInt u ∧ toInt u < 2 ^ 31 := by
  rw [toInt_eq, window]
  omega

/-- The casts of two integers are in the order of the integers. -/
def InOrder (u v : Int) : Prop :=
  window u = window v ∨ (window u < window v ∧ toInt u < toInt v) ∨
    (window v < window u ∧ toInt v < toInt u)

theorem inOrder_iff : InOrder u v ↔
    (toInt u < toInt v ↔ u < v) ∧ (toInt u = toInt v ↔ u = v) := by
  have hu := toInt_eq u
  have hv := toInt_eq v
  have hubounds := toInt_bounds u
  have hvbounds := toInt_bounds v
  unfold InOrder
  omega

/-- The relation of an operator. -/
def Cmp.holds : Cmp → Int → Int → Bool
  | .eq, u, v => u = v
  | .lt, u, v => u < v
  | .gt, u, v => u > v
  | .le, u, v => u ≤ v
  | .ge, u, v => u ≥ v
  | .ne, u, v => u ≠ v

/-- The tests of two items with decimal texts are the tests of the integers just if their casts
are in the same order, the first is zero if its cast is, and the unions differ if the integers
do. -/
theorem tests_of_integers (setting : Setting) (conds : CondStack) (x y : Item)
    (textx texty : Text) (u v : Int) (hexecuting : condition conds = some true)
    (htextx : DecimalText textx u) (htexty : DecimalText texty v) (hu : InLong u) (hv : InLong v)
    (hx : HasText x textx) (hy : HasText y texty) :
    ((∀ cmp, cmpItems setting conds cmp x y = some (some (cmp.holds u v))) ∧
        testItem conds x = some (decide (u ≠ 0))) ↔
      InOrder u v ∧ (2 ^ 32 ∣ u → u = 0) ∧
        (x.num (setting.address x y).1 = y.num (setting.address x y).2 ↔ u = v) := by
  have hxint := hx.typeInt htextx hu
  have hyint := hy.typeInt htexty hv
  obtain ⟨hlt, hgt, hle, hge, heq, hne⟩ := @itemCmp_ints setting x y _ _ hxint hyint
  have hcmp : ∀ cmp, cmpItems setting conds cmp x y = some (itemCmp setting cmp x y) := by
    intro cmp
    rw [cmpItems, hexecuting]
    rfl
  have htest : testItem conds x = some (decide (toInt u ≠ 0)) := by
    simp only [testItem, hexecuting, hxint]
    rfl
  have hzero : toInt u = 0 ↔ 2 ^ 32 ∣ u := by
    rw [toInt_eq, window]
    omega
  rw [htest]
  simp only [hcmp, Option.some_inj]
  constructor
  · rintro ⟨hall, hbare⟩
    have hlt' := Option.some_inj.mp (hlt.symm.trans (hall .lt))
    have heq' := Option.some_inj.mp (heq.symm.trans (hall .eq))
    have hne' := Option.some_inj.mp (hne.symm.trans (hall .ne))
    refine ⟨inOrder_iff.mpr ⟨decide_eq_decide.mp hlt', decide_eq_decide.mp heq'⟩, ?_, ?_⟩
    · intro hdvd
      by_contra hnot
      exact (decide_eq_decide.mp hbare).mpr hnot (hzero.mpr hdvd)
    · exact not_iff_not.mp (decide_eq_decide.mp hne')
  · rintro ⟨horder, hdvd, hunions⟩
    obtain ⟨hltiff, heqiff⟩ := inOrder_iff.mp horder
    refine ⟨fun cmp => ?_, ?_⟩
    · cases cmp with
      | eq => rw [heq, Cmp.holds, decide_eq_decide.mpr heqiff]
      | lt => rw [hlt, Cmp.holds, decide_eq_decide.mpr hltiff]
      | gt => rw [hgt, Cmp.holds]; exact congrArg some (decide_eq_decide.mpr (by omega))
      | le => rw [hle, Cmp.holds]; exact congrArg some (decide_eq_decide.mpr (by omega))
      | ge => rw [hge, Cmp.holds]; exact congrArg some (decide_eq_decide.mpr (by omega))
      | ne => rw [hne, Cmp.holds, decide_eq_decide.mpr (not_congr hunions)]
    · refine decide_eq_decide.mpr (not_congr ?_)
      rw [hzero]
      exact ⟨hdvd, fun h => h ▸ Int.dvd_zero _⟩

/-- Two small literals. -/
theorem tests_of_integers_literals :
    ((∀ cmp, cmpItems ⟨false, fun pattern text => pattern = text, fun _ _ => (0, 0)⟩
          (conditionInit false) cmp (.ofInt ['3']) (.ofInt ['7']) = some (some (cmp.holds 3 7))) ∧
        testItem (conditionInit false) (.ofInt ['3']) = some (decide ((3 : Int) ≠ 0))) ↔
      InOrder 3 7 ∧ ((2 : Int) ^ 32 ∣ 3 → (3 : Int) = 0) ∧
        ((Item.ofInt ['3']).num 0 = (Item.ofInt ['7']).num 0 ↔ (3 : Int) = 7) :=
  tests_of_integers ⟨false, fun pattern text => pattern = text, fun _ _ => (0, 0)⟩
    (conditionInit false) (.ofInt ['3']) (.ofInt ['7']) ['3'] ['7'] 3 7 rfl
    (@DecimalText.plain ['3'] (by simp) (List.all_eq_true.mp rfl))
    (@DecimalText.plain ['7'] (by simp) (List.all_eq_true.mp rfl)) ⟨by decide, by decide⟩
    ⟨by decide, by decide⟩
    .literal .literal

/-- The step id of a batch script is not greater than zero. -/
theorem batch_stepid_not_positive :
    ∃ setting conds x y textx texty u v, condition conds = some true ∧ DecimalText textx u ∧
      DecimalText texty v ∧ InLong u ∧ InLong v ∧ HasText x textx ∧ HasText y texty ∧
      u = 4294967294 ∧ v = 0 ∧ cmpItems setting conds .gt x y = some (some false) :=
  ⟨⟨false, fun pattern text => pattern = text, fun _ _ => (4096, 4160)⟩, conditionInit false,
    ⟨"SLURM_STEPID".toList, .sym (some (symCreate "SLURM_STEPID".toList "4294967294".toList))⟩,
    .ofInt ['0'], "4294967294".toList, ['0'], 4294967294, 0, rfl,
    @DecimalText.plain "4294967294".toList (by simp) (List.all_eq_true.mp rfl),
    @DecimalText.plain ['0'] (by simp) (List.all_eq_true.mp rfl), ⟨by decide, by decide⟩,
    ⟨by decide, by decide⟩, .symbol, .literal, rfl, rfl, by decide⟩

end SlurmSpank.UseEnv
