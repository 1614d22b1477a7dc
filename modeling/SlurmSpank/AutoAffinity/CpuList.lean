import SlurmSpank.Foundation.Decimal

/-! # CPU lists

The two functions that read a CPU list such as `0-3:2,8`, one to count the CPUs and one to
find the CPU at an index. A pointer into the list is the rest of the list from there on. Ranges
are walked in `unsigned int`, and the counters are `int`.
-/

namespace SlurmSpank.AutoAffinity

open Foundation

/-- A C string. -/
abbrev Text := List Char

/-! ## Elements -/

/-- `nexttoken`. -/
def nexttoken (p : Option Text) (sep : Char) : Option Text :=
  p.bind fun p =>
    match p.dropWhile (· ≠ sep) with
    | [] => none
    | _ :: rest => some rest

theorem nexttoken_length_lt {p q : Text} {sep : Char} (hnext : nexttoken (some p) sep = some q) :
    q.length < p.length := by
  unfold nexttoken at hnext
  rw [Option.bind_some] at hnext
  split at hnext
  next => exact absurd hnext (Option.some_ne_none q).symm
  next c rest hdrop =>
    have hsuffix : (p.dropWhile (· ≠ sep)).length ≤ p.length :=
      (List.dropWhile_suffix fun c => decide (c ≠ sep)).length_le
    rw [hdrop, List.length_cons, Option.some_inj.mp hnext] at hsuffix
    exact hsuffix

/-- The places behind the commas of a string. -/
def afterCommas : Text → List Text
  | [] => []
  | c :: rest => if c = ',' then rest :: afterCommas rest else afterCommas rest

/-- The values of `p` in `while (p = q, q = nexttoken(q, ','), p)`. -/
def places (str : Text) : List Text := str :: afterCommas str

theorem places_eq (str : Text) :
    places str = str :: match nexttoken (some str) ',' with
      | none => []
      | some q => places q := by
  unfold places nexttoken
  rw [Option.bind_some]
  congr 1
  induction str with
  | nil => rfl
  | cons c rest ih =>
      rw [afterCommas]
      by_cases hc : c = ','
      · rw [if_pos hc, List.dropWhile_cons_of_neg (by simpa using hc)]
      · rw [if_neg hc, List.dropWhile_cons_of_pos (by simpa using hc)]
        exact ih

/-- `c1 != NULL && (c2 == NULL || c1 < c2)` for two places in one string. -/
def comesBefore (c1 c2 : Option Text) : Bool :=
  match c1, c2 with
  | none, _ => false
  | some _, none => true
  | some c1, some c2 => c2.length < c1.length

/-- `sscanf (p, "%u", &a)`: what is stored, unless there is no number. -/
def sscanfU (p : Text) : Option Nat := (scanInt p).map fun _ => (strtoul p).1 % 2 ^ 32

/-- What both functions make of an element. Without a number at its start, or with a range that
runs backward, they return 1. Without a number behind `-` or `:` they fail. -/
inductive Element where
  | unread
  | broken
  | range (a b s : Nat)
  deriving DecidableEq, Repr

/-- The range of an element, if it does not run backward. -/
def Element.ofBounds (a b s : Nat) : Element := if a ≤ b then .range a b s else .unread

/-- The part of the loops that reads the element at `p`. -/
def readElement (p : Text) : Element :=
  match sscanfU p with
  | none => .unread
  | some a =>
      let c1 := nexttoken (some p) '-'
      let c2 := nexttoken (some p) ','
      if comesBefore c1 c2 then
        match c1.bind sscanfU with
        | none => .broken
        | some b =>
            let c1 := nexttoken c1 ':'
            if comesBefore c1 c2 then
              match c1.bind sscanfU with
              | none => .broken
              | some s => .ofBounds a b s
            else .ofBounds a b 1
      else .ofBounds a a 1

theorem sscanfU_lt {p : Text} {a : Nat} (hscan : sscanfU p = some a) : a < 2 ^ 32 := by
  obtain ⟨-, -, rfl⟩ := Option.map_eq_some_iff.mp hscan
  exact Nat.mod_lt _ (by decide)

theorem Element.ofBounds_eq_range {a b s a' b' s' : Nat}
    (hrange : Element.ofBounds a b s = .range a' b' s') : a' = a ∧ b' = b ∧ s' = s ∧ a ≤ b := by
  unfold Element.ofBounds at hrange
  split at hrange
  next hle =>
    obtain ⟨rfl, rfl, rfl⟩ := Element.range.inj hrange
    exact ⟨rfl, rfl, rfl, hle⟩
  next => exact Element.noConfusion hrange

/-- The bounds of a range are values of `unsigned int` in their order. -/
theorem readElement_range {p : Text} {a b s : Nat} (hread : readElement p = .range a b s) :
    a ≤ b ∧ b < 2 ^ 32 := by
  unfold readElement at hread
  cases ha : sscanfU p with
  | none =>
      rw [ha] at hread
      exact Element.noConfusion hread
  | some a' =>
      rw [ha] at hread
      dsimp only at hread
      split at hread
      next =>
        split at hread
        next => exact Element.noConfusion hread
        next b' hb =>
          obtain ⟨q, -, hq⟩ := Option.bind_eq_some_iff.mp hb
          have hlt := sscanfU_lt hq
          split at hread
          next =>
            split at hread
            next => exact Element.noConfusion hread
            next =>
              obtain ⟨rfl, rfl, rfl, hle⟩ := Element.ofBounds_eq_range hread
              exact ⟨hle, hlt⟩
          next =>
            obtain ⟨rfl, rfl, rfl, hle⟩ := Element.ofBounds_eq_range hread
            exact ⟨hle, hlt⟩
      next =>
        obtain ⟨rfl, rfl, rfl, hle⟩ := Element.ofBounds_eq_range hread
        exact ⟨hle, sscanfU_lt ha⟩

/-! ## Counting -/

/-- The `int` that a counter holds. -/
def wrapInt (n : Nat) : Int := (n : Int).bmod (2 ^ 32)

/-- The inner loop of `cstr_count`, for so many turns at most. -/
def countRange (b s : Nat) : Nat → Nat → Nat → Option Nat
  | 0, _, _ => none
  | turns + 1, a, count =>
      if a ≤ b then countRange b s turns ((a + s) % 2 ^ 32) (count + 1) else some count

/-- The loop of `cstr_count` over the values of `p`. -/
def cstrCountLoop (turns : Nat) : List Text → Nat → Option Int
  | [], count => some (wrapInt count)
  | p :: rest, count =>
      match readElement p with
      | .unread => some 1
      | .broken => some (-1)
      | .range a b s => (countRange b s turns a count).bind (cstrCountLoop turns rest)

/-- `cstr_count`, if no range takes more turns. -/
def cstrCountWithin (turns : Nat) (str : Text) : Option Int := cstrCountLoop turns (places str) 0

/-- `cstr_count`. In as many turns as there are values, a loop has come to its end or is back
where it was. -/
def cstrCount (str : Text) : Option Int := cstrCountWithin (2 ^ 32) str

/-! ## Indexing -/

/-- The inner loop of `cstr_to_cpu_id`, for so many turns at most: the CPU at the index `n`, or
the index behind the range. -/
def seekRange (b s : Nat) (n : Int) : Nat → Nat → Nat → Option (Nat ⊕ Nat)
  | 0, _, _ => none
  | turns + 1, a, index =>
      if a ≤ b then
        if wrapInt index = n then some (.inl a)
        else seekRange b s n turns ((a + s) % 2 ^ 32) (index + 1)
      else some (.inr index)

/-- The loop of `cstr_to_cpu_id` over the values of `p`. -/
def cstrToCpuIdLoop (turns : Nat) (n : Int) : List Text → Nat → Option Int
  | [], _ => some (-1)
  | p :: rest, index =>
      match readElement p with
      | .unread => some 1
      | .broken => some (-11)
      | .range a b s =>
          (seekRange b s n turns a index).bind fun
            | .inl found => some (wrapInt found)
            | .inr index => cstrToCpuIdLoop turns n rest index

/-- `cstr_to_cpu_id`, if no range takes more turns. -/
def cstrToCpuIdWithin (turns : Nat) (str : Text) (n : Int) : Option Int :=
  cstrToCpuIdLoop turns n (places str) 0

/-- `cstr_to_cpu_id`. -/
def cstrToCpuId (str : Text) (n : Int) : Option Int := cstrToCpuIdWithin (2 ^ 32) str n

example : cstrCount "0-6:2,8".toList = some 5 := rfl

example : cstrToCpuId "0-6:2,8".toList 4 = some 8 := by decide

/-! ## An element ends at its comma -/

section Pieces

variable {piece rest : Text}

theorem nexttoken_of_notMem {sep : Char} (hsep : sep ∉ piece) (text : Text) :
    nexttoken (some (piece ++ text)) sep = nexttoken (some text) sep := by
  unfold nexttoken
  have hall : ∀ c ∈ piece, decide (c ≠ sep) = true := fun c hc =>
    decide_eq_true fun heq => hsep (heq ▸ hc)
  rw [Option.bind_some, Option.bind_some, List.dropWhile_append_of_pos hall]

theorem nexttoken_comma (hpiece : ',' ∉ piece) :
    nexttoken (some (piece ++ ',' :: rest)) ',' = some rest := by
  rw [nexttoken_of_notMem hpiece]
  rfl

theorem nexttoken_none {sep : Char} (hsep : sep ∉ piece) : nexttoken (some piece) sep = none := by
  have hnil := nexttoken_of_notMem hsep []
  rw [List.append_nil] at hnil
  exact hnil

/-- A separator within the piece is found there, whatever stands behind. -/
theorem nexttoken_append {sep : Char} (hsep : sep ∈ piece) (text : Text) :
    ∃ q, nexttoken (some piece) sep = some q ∧
      nexttoken (some (piece ++ text)) sep = some (q ++ text) ∧ q <:+ piece := by
  induction piece with
  | nil => exact absurd hsep List.not_mem_nil
  | cons c more ih =>
      by_cases hc : c = sep
      · subst hc
        refine ⟨more, ?_, ?_, List.suffix_cons c more⟩
        · unfold nexttoken
          rw [Option.bind_some, List.dropWhile_cons_of_neg (by simp)]
        · unfold nexttoken
          rw [Option.bind_some, List.cons_append, List.dropWhile_cons_of_neg (by simp)]
      · have hmore : sep ∈ more := (List.mem_cons.mp hsep).resolve_left fun heq => hc heq.symm
        obtain ⟨q, hq, hqtext, hsuffix⟩ := ih hmore
        have hskip : ∀ text, nexttoken (some (c :: text)) sep = nexttoken (some text) sep := by
          intro text
          exact @nexttoken_of_notMem [c] sep (by simpa using Ne.symm hc) text
        exact ⟨q, (hskip more).trans hq, (hskip (more ++ text)).trans hqtext,
          hsuffix.trans (List.suffix_cons c more)⟩

theorem comesBefore_none (c : Option Text) : comesBefore c none = c.isSome := by
  cases c <;> rfl

/-- Of the separators in the text, those in the piece come before the comma. -/
theorem comesBefore_piece {sep : Char} (hcomma : sep ≠ ',') :
    comesBefore (nexttoken (some (piece ++ ',' :: rest)) sep) (some rest) =
      (nexttoken (some piece) sep).isSome := by
  by_cases hsep : sep ∈ piece
  · obtain ⟨q, hq, hqtext, -⟩ := nexttoken_append hsep (',' :: rest)
    rw [hq, hqtext]
    refine decide_eq_true ?_
    rw [List.length_append, List.length_cons]
    omega
  · rw [nexttoken_of_notMem hsep, nexttoken_none hsep]
    cases hbehind : nexttoken (some (',' :: rest)) sep with
    | none => rfl
    | some q =>
        have hskip : nexttoken (some (',' :: rest)) sep = nexttoken (some rest) sep :=
          @nexttoken_of_notMem [','] sep (by simpa using hcomma) rest
        have hlt := nexttoken_length_lt (hskip ▸ hbehind)
        exact decide_eq_false (by omega)

theorem sscanfU_piece (piece rest : Text) : sscanfU (piece ++ ',' :: rest) = sscanfU piece := by
  have hscan := @scanInt_append_stop ',' rfl piece rest
  unfold sscanfU strtoul
  rw [hscan]
  cases scanInt piece with
  | none => rfl
  | some scanned => rfl

/-- What an element is does not depend on the elements behind it. -/
theorem readElement_piece (hpiece : ',' ∉ piece) :
    readElement (piece ++ ',' :: rest) = readElement piece := by
  unfold readElement
  rw [sscanfU_piece, nexttoken_comma hpiece, nexttoken_none hpiece]
  cases sscanfU piece with
  | none => rfl
  | some a =>
      dsimp only
      rw [comesBefore_piece (by decide), comesBefore_none]
      by_cases hdash : '-' ∈ piece
      · obtain ⟨q, hq, hqtext, hsuffix⟩ := nexttoken_append hdash (',' :: rest)
        have hqcomma : ',' ∉ q := fun hmem => hpiece (hsuffix.subset hmem)
        rw [hq, hqtext, Option.bind_some, Option.bind_some, sscanfU_piece]
        cases sscanfU q with
        | none => rfl
        | some b =>
            dsimp only
            rw [comesBefore_piece (by decide), comesBefore_none]
            by_cases hcolon : ':' ∈ q
            · obtain ⟨t, ht, httext, -⟩ := nexttoken_append hcolon (',' :: rest)
              rw [ht, httext, Option.bind_some, Option.bind_some, sscanfU_piece]
            · rw [nexttoken_none hcolon]
              rfl
      · rw [nexttoken_none hdash]
        rfl

end Pieces

/-! ## Lists of elements -/

/-- The elements of a list, with commas between them. -/
def joinCommas (pieces : List Text) : Text := [','].intercalate pieces

theorem joinCommas_cons_cons (piece next : Text) (more : List Text) :
    joinCommas (piece :: next :: more) = piece ++ ',' :: joinCommas (next :: more) := by
  rw [joinCommas, List.intercalate_cons_cons, List.append_assoc]
  rfl

theorem places_append {piece : Text} (hpiece : ',' ∉ piece) (rest : Text) :
    places (piece ++ ',' :: rest) = (piece ++ ',' :: rest) :: places rest := by
  rw [places_eq, nexttoken_comma hpiece]

theorem places_piece {piece : Text} (hpiece : ',' ∉ piece) : places piece = [piece] := by
  rw [places_eq, nexttoken_none hpiece]

/-- The elements that are read are those that have been joined. -/
theorem map_readElement_places {pieces : List Text} (hne : pieces ≠ [])
    (hpieces : ∀ piece ∈ pieces, ',' ∉ piece) :
    (places (joinCommas pieces)).map readElement = pieces.map readElement := by
  induction pieces with
  | nil => exact absurd rfl hne
  | cons piece rest ih =>
      have hpiece : ',' ∉ piece := hpieces piece List.mem_cons_self
      have hrest : ∀ piece ∈ rest, ',' ∉ piece := fun piece hmem =>
        hpieces piece (List.mem_cons_of_mem _ hmem)
      cases rest with
      | nil =>
          rw [joinCommas, List.intercalate_singleton, places_piece hpiece]
      | cons next more =>
          rw [joinCommas_cons_cons, places_append hpiece, List.map_cons, readElement_piece hpiece,
            ih (List.cons_ne_nil next more) hrest]
          rfl

/-- Counting depends on nothing but what the elements are. -/
theorem cstrCountLoop_congr {ps qs : List Text} (hread : ps.map readElement = qs.map readElement)
    (turns count : Nat) : cstrCountLoop turns ps count = cstrCountLoop turns qs count := by
  induction ps generalizing qs count with
  | nil => rw [List.map_eq_nil_iff.mp hread.symm]
  | cons p ps ih =>
      obtain ⟨q, rest, rfl, hq, hrest⟩ := List.map_eq_cons_iff.mp hread.symm
      rw [cstrCountLoop, cstrCountLoop, hq]
      cases readElement p with
      | unread => rfl
      | broken => rfl
      | range a b s =>
          refine congrArg (Option.bind _) ?_
          funext count
          exact ih hrest.symm count

/-- So does finding a CPU. -/
theorem cstrToCpuIdLoop_congr {ps qs : List Text}
    (hread : ps.map readElement = qs.map readElement) (turns : Nat) (n : Int) (index : Nat) :
    cstrToCpuIdLoop turns n ps index = cstrToCpuIdLoop turns n qs index := by
  induction ps generalizing qs index with
  | nil => rw [List.map_eq_nil_iff.mp hread.symm]
  | cons p ps ih =>
      obtain ⟨q, rest, rfl, hq, hrest⟩ := List.map_eq_cons_iff.mp hread.symm
      rw [cstrToCpuIdLoop, cstrToCpuIdLoop, hq]
      cases readElement p with
      | unread => rfl
      | broken => rfl
      | range a b s =>
          refine congrArg (Option.bind _) ?_
          funext found
          cases found with
          | inl found => rfl
          | inr index => exact ih hrest.symm index

end SlurmSpank.AutoAffinity
