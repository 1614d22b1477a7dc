import SlurmSpank.AutoAffinity.CpuList

/-! # What a CPU list stands for

A well-formed list is written in numerals, and every element of it stands for a sequence of CPU
ids. The two readers of CPU lists agree with the sequence of the whole list.
-/

namespace SlurmSpank.AutoAffinity

open Foundation

/-! ## Well-formed lists -/

/-- A number in decimal digits. -/
structure Numeral where
  digits : Text
  ne_nil : digits ≠ []
  isDigit : ∀ c ∈ digits, c.isDigit = true

/-- The number. -/
def Numeral.value (number : Numeral) : Nat := Nat.ofDigitChars 10 number.digits 0

/-- `N`, `N-M` or `N-M:S`. -/
inductive ListElement where
  | one (n : Numeral)
  | span (n m : Numeral)
  | strided (n m s : Numeral)

namespace ListElement

/-- How an element is written. -/
def text : ListElement → Text
  | one n => n.digits
  | span n m => n.digits ++ '-' :: m.digits
  | strided n m s => n.digits ++ '-' :: (m.digits ++ ':' :: s.digits)

/-- `N`. -/
def first : ListElement → Nat
  | one n => n.value
  | span n _ => n.value
  | strided n _ _ => n.value

/-- `M`, or `N` if there is no other number. -/
def last : ListElement → Nat
  | one n => n.value
  | span _ m => m.value
  | strided _ m _ => m.value

/-- `S`, or 1. -/
def stride : ListElement → Nat
  | one _ => 1
  | span _ _ => 1
  | strided _ _ s => s.value

/-- The ids from the first one on in steps of the stride, up to the last one. -/
def ids (e : ListElement) : List Nat :=
  List.range' e.first ((e.last - e.first) / e.stride + 1) e.stride

/-- A range that runs forward. -/
structure WellFormed (e : ListElement) : Prop where
  first_le_last : e.first ≤ e.last
  stride_pos : 1 ≤ e.stride

/-- A range of which all numbers are values of `int`. -/
structure Bounded (e : ListElement) : Prop extends e.WellFormed where
  last_lt : e.last < 2 ^ 31
  stride_lt : e.stride < 2 ^ 31

end ListElement

/-- How a list is written. -/
def listText (es : List ListElement) : Text := joinCommas (es.map ListElement.text)

/-- The CPU ids that a list stands for. -/
def listIds (es : List ListElement) : List Nat := es.flatMap ListElement.ids

theorem listIds_cons (e : ListElement) (rest : List ListElement) :
    listIds (e :: rest) = e.ids ++ listIds rest := List.flatMap_cons

/-! ## Reading well-formed elements -/

namespace Numeral

theorem notMem_digits (number : Numeral) {c : Char} (hc : c.isDigit = false) :
    c ∉ number.digits := fun hmem =>
  Bool.false_ne_true (hc.symm.trans (number.isDigit c hmem))

theorem sscanfU (number : Numeral) (hlt : number.value < 2 ^ 32) {rest : Text}
    (hrest : ∀ c ∈ rest.head?, c.isDigit = false) :
    AutoAffinity.sscanfU (number.digits ++ rest) = some number.value := by
  have hscan := scanInt_digits number.ne_nil number.isDigit hrest
  have hvalue : (Nat.ofDigitChars 10 number.digits 0 : Nat) = number.value := rfl
  rw [hvalue] at hscan
  unfold AutoAffinity.sscanfU strtoul
  rw [hscan, Option.map_some]
  dsimp only
  rw [Int.natAbs_natCast, if_neg (by omega)]
  congr 1
  omega

end Numeral

namespace ListElement

theorem comma_notMem_text (e : ListElement) : ',' ∉ e.text := by
  have hnumeral : ∀ number : Numeral, ',' ∉ number.digits := fun number =>
    number.notMem_digits rfl
  cases e with
  | one n => exact hnumeral n
  | span n m => simp [text, hnumeral]
  | strided n m s => simp [text, hnumeral]

/-- An element is read as its numbers, as long as they are values of `unsigned int`. -/
theorem readElement_text {e : ListElement} (hfirst : e.first < 2 ^ 32) (hlast : e.last < 2 ^ 32)
    (hstride : e.stride < 2 ^ 32) :
    readElement e.text = Element.ofBounds e.first e.last e.stride := by
  unfold readElement
  rw [nexttoken_none e.comma_notMem_text]
  cases e with
  | one n =>
      have hn := n.sscanfU hfirst (fun c hc => absurd hc (by simp) : ∀ c ∈ [].head?, _)
      rw [List.append_nil] at hn
      have hdash : nexttoken (some n.digits) '-' = none := nexttoken_none (n.notMem_digits rfl)
      dsimp only [text]
      rw [hn, hdash]
      rfl
  | span n m =>
      have hn := @Numeral.sscanfU n hfirst ('-' :: m.digits) (by simp)
      have hm := m.sscanfU hlast (fun c hc => absurd hc (by simp) : ∀ c ∈ [].head?, _)
      rw [List.append_nil] at hm
      have hdash : nexttoken (some (n.digits ++ '-' :: m.digits)) '-' = some m.digits := by
        rw [nexttoken_of_notMem (n.notMem_digits rfl)]
        rfl
      have hcolon : nexttoken (some m.digits) ':' = none := nexttoken_none (m.notMem_digits rfl)
      dsimp only [text]
      rw [hn, hdash, Option.bind_some, hm, hcolon]
      rfl
  | strided n m s =>
      have hn := @Numeral.sscanfU n hfirst ('-' :: (m.digits ++ ':' :: s.digits)) (by simp)
      have hm := @Numeral.sscanfU m hlast (':' :: s.digits) (by simp)
      have hs := s.sscanfU hstride (fun c hc => absurd hc (by simp) : ∀ c ∈ [].head?, _)
      rw [List.append_nil] at hs
      have hdash : nexttoken (some (n.digits ++ '-' :: (m.digits ++ ':' :: s.digits))) '-' =
          some (m.digits ++ ':' :: s.digits) := by
        rw [nexttoken_of_notMem (n.notMem_digits rfl)]
        rfl
      have hcolon : nexttoken (some (m.digits ++ ':' :: s.digits)) ':' = some s.digits := by
        rw [nexttoken_of_notMem (m.notMem_digits rfl)]
        rfl
      dsimp only [text]
      rw [hn, hdash, Option.bind_some, hm, hcolon, Option.bind_some, hs]
      rfl

theorem Bounded.readElement {e : ListElement} (hbounded : e.Bounded) :
    readElement e.text = .range e.first e.last e.stride := by
  have hle := hbounded.first_le_last
  have hlast := hbounded.last_lt
  have hstride := hbounded.stride_lt
  rw [readElement_text (by omega) (by omega) (by omega), Element.ofBounds, if_pos hle]

end ListElement

/-! ## Walks without overflow -/

theorem wrapInt_of_lt {n : Nat} (hn : n < 2 ^ 31) : wrapInt n = n := by
  unfold wrapInt
  exact Int.bmod_eq_of_le (by omega) (by omega)

theorem wrapInt_eq (n : Nat) :
    wrapInt n = (n : Int) % 2 ^ 32 - if 2 ^ 31 ≤ (n : Int) % 2 ^ 32 then 2 ^ 32 else 0 := by
  unfold wrapInt
  rw [Int.bmod_eq_emod]
  split <;> split <;> omega

section Walk

variable {b s : Nat}

/-- A range in which `k` steps can be made counts for `k + 1`. -/
theorem countRange_of_steps (hb : b < 2 ^ 31) (hs : s < 2 ^ 31) {k a turns : Nat}
    (hle : a + k * s ≤ b) (hgt : b < a + (k + 1) * s) (hturns : k + 1 < turns) (count : Nat) :
    countRange b s turns a count = some (count + (k + 1)) := by
  induction k generalizing a turns count with
  | zero =>
      obtain ⟨turns, rfl⟩ := Nat.exists_eq_add_of_le' hturns
      rw [countRange, if_pos (by omega), countRange, if_neg]
      rw [Nat.mod_eq_of_lt (by omega)]
      omega
  | succ k ih =>
      obtain ⟨turns, rfl⟩ := Nat.exists_eq_add_of_le' (Nat.zero_lt_of_lt hturns)
      rw [Nat.succ_mul] at hle hgt
      have hmul := Nat.zero_le (k * s)
      rw [countRange, if_pos (by omega), Nat.mod_eq_of_lt (by omega)]
      rw [ih (by omega) (by omega) (by omega)]
      congr 1
      omega

/-- Looking for an index in such a range finds its CPU, or goes on behind the range. -/
theorem seekRange_of_steps (hb : b < 2 ^ 31) (hs : s < 2 ^ 31) {k a turns index n : Nat}
    (hle : a + k * s ≤ b) (hgt : b < a + (k + 1) * s) (hturns : k + 1 < turns)
    (hindex : index ≤ n) (hbound : index + (k + 1) < 2 ^ 31) :
    seekRange b s n turns a index =
      if n < index + (k + 1) then some (.inl (a + (n - index) * s))
      else some (.inr (index + (k + 1))) := by
  have hn : ∀ {i : Nat}, i < 2 ^ 31 → (wrapInt i = n ↔ i = n) := fun hi => by
    rw [wrapInt_of_lt hi, Nat.cast_inj]
  induction k generalizing a turns index with
  | zero =>
      obtain ⟨turns, rfl⟩ := Nat.exists_eq_add_of_le' hturns
      rw [seekRange, if_pos (by omega)]
      by_cases heq : index = n
      · rw [if_pos ((hn (by omega)).mpr heq), if_pos (by omega), heq, Nat.sub_self, Nat.zero_mul,
          Nat.add_zero]
      · rw [if_neg (mt (hn (by omega)).mp heq), if_neg (by omega), seekRange, if_neg]
        rw [Nat.mod_eq_of_lt (by omega)]
        omega
  | succ k ih =>
      obtain ⟨turns, rfl⟩ := Nat.exists_eq_add_of_le' (Nat.zero_lt_of_lt hturns)
      rw [Nat.succ_mul] at hle hgt
      have hmul := Nat.zero_le (k * s)
      rw [seekRange, if_pos (by omega)]
      by_cases heq : index = n
      · rw [if_pos ((hn (by omega)).mpr heq), if_pos (by omega), heq, Nat.sub_self, Nat.zero_mul,
          Nat.add_zero]
      · rw [if_neg (mt (hn (by omega)).mp heq), Nat.mod_eq_of_lt (by omega)]
        rw [ih (by omega) (by omega) (by omega) (by omega) (by omega)]
        obtain ⟨ahead, rfl⟩ := Nat.exists_eq_add_of_lt (Nat.lt_of_le_of_ne hindex heq)
        have hahead : index + ahead + 1 - (index + 1) = ahead := by omega
        have hahead' : index + ahead + 1 - index = ahead + 1 := by omega
        have hback : index + 1 + (k + 1) = index + (k + 1 + 1) := by omega
        rw [hahead, hahead', hback, Nat.succ_mul, Nat.add_assoc a s, Nat.add_comm s]

end Walk

namespace ListElement.Bounded

variable {e : ListElement}

/-- The steps that can be made from the first id to the last one. -/
theorem steps (hbounded : e.Bounded) :
    e.first + (e.last - e.first) / e.stride * e.stride ≤ e.last ∧
      e.last < e.first + ((e.last - e.first) / e.stride + 1) * e.stride := by
  have hle := hbounded.first_le_last
  have hdiv := Nat.div_mul_le_self (e.last - e.first) e.stride
  have hmod := Nat.lt_div_mul_add hbounded.stride_pos (a := e.last - e.first)
  rw [Nat.succ_mul]
  omega

theorem length_ids (e : ListElement) : e.ids.length = (e.last - e.first) / e.stride + 1 :=
  List.length_range'

theorem length_ids_le (hbounded : e.Bounded) : e.ids.length ≤ 2 ^ 31 := by
  have hdiv := Nat.div_le_self (e.last - e.first) e.stride
  have hlast := hbounded.last_lt
  rw [length_ids]
  omega

theorem countRange (hbounded : e.Bounded) (count : Nat) :
    countRange e.last e.stride (2 ^ 32) e.first count = some (count + e.ids.length) := by
  obtain ⟨hle, hgt⟩ := hbounded.steps
  have hlength := hbounded.length_ids_le
  rw [length_ids] at hlength ⊢
  exact countRange_of_steps hbounded.last_lt hbounded.stride_lt hle hgt (by omega) count

theorem seekRange (hbounded : e.Bounded) {index n : Nat} (hindex : index ≤ n)
    (hbound : index + e.ids.length < 2 ^ 31) :
    seekRange e.last e.stride n (2 ^ 32) e.first index =
      some (match e.ids[n - index]? with
        | some id => .inl id
        | none => .inr (index + e.ids.length)) := by
  obtain ⟨hle, hgt⟩ := hbounded.steps
  have hlength := hbounded.length_ids_le
  rw [length_ids] at hlength hbound ⊢
  rw [seekRange_of_steps hbounded.last_lt hbounded.stride_lt hle hgt (by omega) hindex hbound]
  by_cases hlt : n < index + ((e.last - e.first) / e.stride + 1)
  · have hget : e.ids[n - index]? = some (e.first + e.stride * (n - index)) := by
      rw [ids, List.getElem?_range' (by omega)]
    rw [if_pos hlt, hget, Nat.mul_comm]
  · have hget : e.ids[n - index]? = none := by
      rw [List.getElem?_eq_none_iff, length_ids]
      omega
    rw [if_neg hlt, hget]

/-- The ids are values of `int`. -/
theorem id_lt (hbounded : e.Bounded) {id : Nat} (hid : id ∈ e.ids) : id < 2 ^ 31 := by
  obtain ⟨k, hk, rfl⟩ := List.mem_range'.mp hid
  have hle := hbounded.steps.1
  have hmul := Nat.mul_le_mul_left e.stride (Nat.le_of_lt_succ hk)
  rw [Nat.mul_comm e.stride (_ / _)] at hmul
  have hlast := hbounded.last_lt
  omega

end ListElement.Bounded

/-! ## Counting and indexing agree with the ids -/

variable {es : List ListElement}

theorem cstrCountLoop_listIds (hbounded : ∀ e ∈ es, e.Bounded) (count : Nat) :
    cstrCountLoop (2 ^ 32) (es.map ListElement.text) count =
      some (wrapInt (count + (listIds es).length)) := by
  induction es generalizing count with
  | nil => rfl
  | cons e rest ih =>
      have he : e.Bounded := hbounded e List.mem_cons_self
      have hrest : ∀ e ∈ rest, e.Bounded := fun e hmem => hbounded e (List.mem_cons_of_mem _ hmem)
      rw [List.map_cons, cstrCountLoop, he.readElement]
      dsimp only
      rw [he.countRange, Option.bind_some, ih hrest, listIds_cons, List.length_append,
        Nat.add_assoc]

theorem cstrToCpuIdLoop_listIds (hbounded : ∀ e ∈ es, e.Bounded) {index n : Nat}
    (hindex : index ≤ n) (htotal : index + (listIds es).length < 2 ^ 31) :
    cstrToCpuIdLoop (2 ^ 32) n (es.map ListElement.text) index =
      some (match (listIds es)[n - index]? with
        | some id => id
        | none => -1) := by
  induction es generalizing index with
  | nil => rfl
  | cons e rest ih =>
      have he : e.Bounded := hbounded e List.mem_cons_self
      have hrest : ∀ e ∈ rest, e.Bounded := fun e hmem => hbounded e (List.mem_cons_of_mem _ hmem)
      rw [listIds_cons, List.length_append] at htotal
      rw [List.map_cons, cstrToCpuIdLoop, he.readElement]
      dsimp only
      rw [he.seekRange hindex (by omega), Option.bind_some, listIds_cons, List.getElem?_append]
      by_cases hlt : n - index < e.ids.length
      · rw [if_pos hlt, List.getElem?_eq_getElem hlt]
        dsimp only
        rw [wrapInt_of_lt (he.id_lt (List.getElem_mem hlt))]
      · rw [if_neg hlt, List.getElem?_eq_none (Nat.not_lt.mp hlt)]
        dsimp only
        rw [ih hrest (by omega) (by omega), Nat.sub_sub]

/-- A well-formed list within the values of `int` is counted as the length of the sequence that
it stands for, and an index finds the element there, or fails behind the sequence. -/
theorem cpu_list_agrees (hne : es ≠ []) (hbounded : ∀ e ∈ es, e.Bounded)
    (htotal : (listIds es).length < 2 ^ 31) :
    cstrCount (listText es) = some ((listIds es).length : Int) ∧
      (∀ (n : Nat) (hn : n < (listIds es).length),
        cstrToCpuId (listText es) n = some ((listIds es)[n] : Int)) ∧
      ∀ n : Nat, (listIds es).length ≤ n → cstrToCpuId (listText es) n = some (-1) := by
  have hread : (places (listText es)).map readElement =
      (es.map ListElement.text).map readElement :=
    map_readElement_places (mt List.map_eq_nil_iff.mp hne)
      (List.forall_mem_map.mpr fun e _ => e.comma_notMem_text)
  have hid : ∀ n : Nat, cstrToCpuId (listText es) n =
      some (match (listIds es)[n]? with
        | some id => id
        | none => -1) := by
    intro n
    have hloop := cstrToCpuIdLoop_listIds hbounded (Nat.zero_le n) (by omega)
    rw [← cstrToCpuIdLoop_congr hread, Nat.sub_zero] at hloop
    exact hloop
  refine ⟨?_, ?_, ?_⟩
  · have hcount := cstrCountLoop_listIds hbounded 0
    rw [← cstrCountLoop_congr hread, Nat.zero_add, wrapInt_of_lt htotal] at hcount
    exact hcount
  · intro n hn
    rw [hid, List.getElem?_eq_getElem hn]
  · intro n hn
    rw [hid, List.getElem?_eq_none hn]

/-- The numeral of one digit. -/
def Numeral.ofDigit (digit : Char) (hdigit : digit.isDigit = true) : Numeral where
  digits := [digit]
  ne_nil := List.cons_ne_nil digit []
  isDigit := fun _ hc => List.mem_singleton.mp hc ▸ hdigit

/-- `0-6:2,8`. -/
def evenCpus : List ListElement :=
  [.strided (.ofDigit '0' rfl) (.ofDigit '6' rfl) (.ofDigit '2' rfl), .one (.ofDigit '8' rfl)]

theorem cpu_list_agrees_evenCpus :
    cstrCount (listText evenCpus) = some ((listIds evenCpus).length : Int) ∧
      (∀ (n : Nat) (hn : n < (listIds evenCpus).length),
        cstrToCpuId (listText evenCpus) n = some ((listIds evenCpus)[n] : Int)) ∧
      ∀ n : Nat, (listIds evenCpus).length ≤ n →
        cstrToCpuId (listText evenCpus) n = some (-1) := by
  refine cpu_list_agrees (List.cons_ne_nil _ _) ?_ (by decide)
  intro e he
  rcases List.mem_cons.mp he with rfl | he
  · exact ⟨⟨by decide, by decide⟩, by decide, by decide⟩
  · obtain rfl := List.mem_singleton.mp he
    exact ⟨⟨by decide, by decide⟩, by decide, by decide⟩

end SlurmSpank.AutoAffinity
