import Mathlib.Data.List.Basic

/-! # Scanning by longest match

Regular expressions over classes of characters, matched by derivatives, and the longest
prefix of an input that one of them accepts. A scanner reads no further than it has to: if a
character can only end a word, then what follows that character does not matter.
-/

namespace SlurmSpank.Foundation

universe u

/-- Regular expressions over classes of characters. -/
inductive Regex (α : Type u) where
  | fail
  | empty
  | cls (p : α → Bool)
  | seq (first second : Regex α)
  | alt (left right : Regex α)
  | star (body : Regex α)

namespace Regex

variable {α : Type u}

/-- One or more times. -/
def plus (r : Regex α) : Regex α := seq r (star r)

/-- One certain word. -/
def word [BEq α] : List α → Regex α
  | [] => empty
  | c :: rest => seq (cls (c == ·)) (word rest)

/-- The empty word is accepted. -/
def nullable : Regex α → Bool
  | fail | cls _ => false
  | empty | star _ => true
  | seq first second => first.nullable && second.nullable
  | alt left right => left.nullable || right.nullable

section

variable (p : α → Bool) (first second left right body : Regex α)

@[simp] theorem nullable_fail : (fail : Regex α).nullable = false := rfl

@[simp] theorem nullable_empty : (empty : Regex α).nullable = true := rfl

@[simp] theorem nullable_cls : (cls p).nullable = false := rfl

@[simp] theorem nullable_star : (star body).nullable = true := rfl

@[simp] theorem nullable_seq :
    (seq first second).nullable = (first.nullable && second.nullable) := rfl

@[simp] theorem nullable_alt :
    (alt left right).nullable = (left.nullable || right.nullable) := rfl

end

/-- What may follow a character. -/
def deriv (c : α) : Regex α → Regex α
  | fail | empty => fail
  | cls p => if p c then empty else fail
  | seq first second =>
      if first.nullable then alt (seq (deriv c first) second) (deriv c second)
      else seq (deriv c first) second
  | alt left right => alt (deriv c left) (deriv c right)
  | star body => seq (deriv c body) (star body)

section

variable (c : α) (p : α → Bool) (first second left right body : Regex α)

@[simp] theorem deriv_fail : (fail : Regex α).deriv c = fail := rfl

@[simp] theorem deriv_empty : (empty : Regex α).deriv c = fail := rfl

theorem deriv_cls : (cls p).deriv c = if p c then empty else fail := rfl

theorem deriv_seq :
    (seq first second).deriv c =
      if first.nullable then alt (seq (first.deriv c) second) (second.deriv c)
      else seq (first.deriv c) second := rfl

@[simp] theorem deriv_alt : (alt left right).deriv c = alt (left.deriv c) (right.deriv c) := rfl

@[simp] theorem deriv_star : (star body).deriv c = seq (body.deriv c) (star body) := rfl

end

/-- A word is accepted. -/
def accepts : Regex α → List α → Bool
  | r, [] => r.nullable
  | r, c :: rest => accepts (r.deriv c) rest

@[simp] theorem accepts_nil (r : Regex α) : r.accepts [] = r.nullable := rfl

theorem accepts_cons (r : Regex α) (c : α) (rest : List α) :
    r.accepts (c :: rest) = (r.deriv c).accepts rest := rfl

/-- The length of the longest prefix that is accepted. -/
def longest : Regex α → List α → Option Nat
  | r, [] => if r.nullable then some 0 else none
  | r, c :: rest =>
      match longest (r.deriv c) rest with
      | some n => some (n + 1)
      | none => if r.nullable then some 0 else none

theorem longest_nil (r : Regex α) : r.longest [] = if r.nullable then some 0 else none := rfl

theorem longest_cons (r : Regex α) (c : α) (rest : List α) :
    r.longest (c :: rest) =
      match (r.deriv c).longest rest with
      | some n => some (n + 1)
      | none => if r.nullable then some 0 else none := rfl

/-! ## The words that are accepted -/

@[simp] theorem accepts_fail (w : List α) : accepts fail w = false := by
  induction w with
  | nil => rfl
  | cons c rest ih => exact ih

@[simp] theorem accepts_empty (w : List α) : accepts empty w = true ↔ w = [] := by
  cases w with
  | nil => simp
  | cons c rest => simp [accepts_cons]

theorem accepts_cls {p : α → Bool} {w : List α} :
    accepts (cls p) w = true ↔ ∃ c, p c = true ∧ w = [c] := by
  cases w with
  | nil => simp
  | cons c rest =>
      rw [accepts_cons, deriv_cls]
      split
      next hp =>
        rw [accepts_empty]
        constructor
        · rintro rfl
          exact ⟨c, hp, rfl⟩
        · rintro ⟨d, -, heq⟩
          exact (List.cons.inj heq).2
      next hp =>
        rw [accepts_fail]
        constructor
        · exact fun hfalse => absurd hfalse Bool.false_ne_true
        · rintro ⟨d, hd, heq⟩
          exact absurd ((List.cons.inj heq).1 ▸ hd) hp

@[simp] theorem accepts_alt {left right : Regex α} {w : List α} :
    accepts (alt left right) w = true ↔ accepts left w = true ∨ accepts right w = true := by
  induction w generalizing left right with
  | nil => simp
  | cons c rest ih => exact ih

theorem accepts_seq {first second : Regex α} {w : List α}
    (haccepts : accepts (seq first second) w = true) :
    ∃ u v, w = u ++ v ∧ accepts first u = true ∧ accepts second v = true := by
  induction w generalizing first second with
  | nil =>
      rw [accepts_nil, nullable_seq, Bool.and_eq_true] at haccepts
      exact ⟨[], [], rfl, haccepts.1, haccepts.2⟩
  | cons c rest ih =>
      rw [accepts_cons, deriv_seq] at haccepts
      have hleft : accepts (seq (deriv c first) second) rest = true →
          ∃ u v, c :: rest = u ++ v ∧ accepts first u = true ∧ accepts second v = true := by
        intro hseq
        obtain ⟨u, v, rfl, hu, hv⟩ := ih hseq
        exact ⟨c :: u, v, rfl, hu, hv⟩
      split at haccepts
      next hnullable =>
        rcases accepts_alt.mp haccepts with hseq | hsecond
        · exact hleft hseq
        · exact ⟨[], c :: rest, rfl, hnullable, hsecond⟩
      next => exact hleft haccepts

theorem accepts_append {first second : Regex α} {u v : List α} (hfirst : first.accepts u = true)
    (hsecond : second.accepts v = true) : (seq first second).accepts (u ++ v) = true := by
  induction u generalizing first with
  | nil =>
      have hnullable : first.nullable = true := hfirst
      cases v with
      | nil =>
          have hempty : second.nullable = true := hsecond
          simp [hnullable, hempty]
      | cons c rest =>
          rw [List.nil_append, accepts_cons, deriv_seq, if_pos hnullable, accepts_alt]
          exact Or.inr hsecond
  | cons c rest ih =>
      rw [List.cons_append, accepts_cons, deriv_seq]
      split
      next => exact accepts_alt.mpr (Or.inl (ih hfirst))
      next => exact ih hfirst

/-- A class may be repeated along a word. -/
theorem accepts_star_cls {p : α → Bool} {w : List α} (hall : ∀ c ∈ w, p c = true) :
    (star (cls p)).accepts w = true := by
  induction w with
  | nil => rfl
  | cons c rest ih =>
      rw [accepts_cons, deriv_star, deriv_cls, if_pos (hall c List.mem_cons_self)]
      exact @accepts_append _ empty (star (cls p)) [] rest rfl
        (ih fun d hd => hall d (List.mem_cons_of_mem c hd))

theorem accepts_plus_cls {p : α → Bool} {w : List α} (hw : w ≠ [])
    (hall : ∀ c ∈ w, p c = true) : (plus (cls p)).accepts w = true := by
  obtain ⟨c, rest, rfl⟩ := List.exists_cons_of_ne_nil hw
  obtain ⟨hc, hrest⟩ := List.forall_mem_cons.mp hall
  exact @accepts_append _ (cls p) (star (cls p)) [c] rest (accepts_cls.mpr ⟨c, hc, rfl⟩)
    (accepts_star_cls hrest)

theorem of_accepts_star_cls {p : α → Bool} {w : List α}
    (haccepts : (star (cls p)).accepts w = true) : ∀ c ∈ w, p c = true := by
  induction w with
  | nil => simp
  | cons c rest ih =>
      rw [accepts_cons, deriv_star, deriv_cls] at haccepts
      obtain ⟨u, v, rfl, hu, hv⟩ := accepts_seq haccepts
      split at hu
      next hc =>
        obtain rfl := (accepts_empty u).mp hu
        exact List.forall_mem_cons.mpr ⟨hc, ih hv⟩
      next => exact absurd hu (by simp)

theorem of_accepts_plus_cls {p : α → Bool} {w : List α}
    (haccepts : (plus (cls p)).accepts w = true) : ∀ c ∈ w, p c = true := by
  obtain ⟨u, v, rfl, hu, hv⟩ := accepts_seq haccepts
  obtain ⟨c, hc, rfl⟩ := accepts_cls.mp hu
  exact List.forall_mem_cons.mpr ⟨hc, of_accepts_star_cls hv⟩

/-! ## Where a character can stand -/

/-- A character is in no class of the expression. -/
def avoids (c : α) : Regex α → Bool
  | fail | empty => true
  | cls p => !p c
  | seq first second => first.avoids c && second.avoids c
  | alt left right => left.avoids c && right.avoids c
  | star body => body.avoids c

section

variable (c : α) (p : α → Bool) (first second left right body : Regex α)

@[simp] theorem avoids_fail : (fail : Regex α).avoids c = true := rfl

@[simp] theorem avoids_empty : (empty : Regex α).avoids c = true := rfl

@[simp] theorem avoids_cls : (cls p).avoids c = !p c := rfl

@[simp] theorem avoids_seq :
    (seq first second).avoids c = (first.avoids c && second.avoids c) := rfl

@[simp] theorem avoids_alt : (alt left right).avoids c = (left.avoids c && right.avoids c) := rfl

@[simp] theorem avoids_star : (star body).avoids c = body.avoids c := rfl

end

theorem avoids_deriv {c : α} (d : α) {r : Regex α} (havoids : r.avoids c = true) :
    (r.deriv d).avoids c = true := by
  induction r with
  | fail | empty => rfl
  | cls p =>
      rw [deriv_cls]
      split <;> rfl
  | seq first second ihfirst ihsecond =>
      rw [avoids_seq, Bool.and_eq_true] at havoids
      rw [deriv_seq]
      split <;> simp [havoids, ihfirst, ihsecond]
  | alt left right ihleft ihright =>
      rw [avoids_alt, Bool.and_eq_true] at havoids
      simp [havoids, ihleft, ihright]
  | star body ih => simp_all

/-- A character may start a word. -/
def starts (c : α) : Regex α → Bool
  | fail | empty => false
  | cls p => p c
  | seq first second => first.starts c || first.nullable && second.starts c
  | alt left right => left.starts c || right.starts c
  | star body => body.starts c

section

variable (c : α) (p : α → Bool) (first second left right body : Regex α)

@[simp] theorem starts_cls : (cls p).starts c = p c := rfl

@[simp] theorem starts_seq :
    (seq first second).starts c = (first.starts c || first.nullable && second.starts c) := rfl

@[simp] theorem starts_alt : (alt left right).starts c = (left.starts c || right.starts c) := rfl

@[simp] theorem starts_star : (star body).starts c = body.starts c := rfl

end

theorem not_starts_of_avoids {c : α} {r : Regex α} (havoids : r.avoids c = true) :
    r.starts c = false := by
  induction r with
  | fail | empty => rfl
  | cls p => simpa using havoids
  | seq first second ihfirst ihsecond =>
      rw [avoids_seq, Bool.and_eq_true] at havoids
      simp [ihfirst havoids.1, ihsecond havoids.2]
  | alt left right ihleft ihright =>
      rw [avoids_alt, Bool.and_eq_true] at havoids
      simp [ihleft havoids.1, ihright havoids.2]
  | star body ih => exact ih havoids

/-- No word starts with another character. -/
theorem accepts_deriv_of_not_starts {c : α} {r : Regex α} (hstarts : r.starts c = false)
    (w : List α) : accepts (r.deriv c) w = false := by
  induction r generalizing w with
  | fail | empty => exact accepts_fail w
  | cls p =>
      have hp : p c = false := hstarts
      rw [deriv_cls, if_neg (by simp [hp]), accepts_fail]
  | seq first second ihfirst ihsecond =>
      rw [starts_seq, Bool.or_eq_false_iff] at hstarts
      have hseq : accepts (seq (deriv c first) second) w = false := by
        by_contra haccepts
        obtain ⟨u, v, -, hu, -⟩ := accepts_seq (Bool.not_eq_false _ ▸ haccepts)
        rw [ihfirst hstarts.1 u] at hu
        exact Bool.false_ne_true hu
      rw [deriv_seq]
      split
      next hnullable =>
        rw [hnullable, Bool.true_and] at hstarts
        rw [Bool.eq_false_iff, Ne, accepts_alt, hseq, ihsecond hstarts.2 w]
        simp
      next => exact hseq
  | alt left right ihleft ihright =>
      rw [starts_alt, Bool.or_eq_false_iff] at hstarts
      rw [deriv_alt, Bool.eq_false_iff, Ne, accepts_alt, ihleft hstarts.1 w, ihright hstarts.2 w]
      simp
  | star body ih =>
      by_contra haccepts
      obtain ⟨u, v, -, hu, -⟩ := accepts_seq (Bool.not_eq_false _ ▸ haccepts)
      rw [ih hstarts u] at hu
      exact Bool.false_ne_true hu

theorem starts_of_accepts {c : α} {r : Regex α} {rest : List α}
    (haccepts : r.accepts (c :: rest) = true) : r.starts c = true := by
  by_contra hnot
  rw [accepts_cons, accepts_deriv_of_not_starts (Bool.eq_false_iff.mpr hnot)] at haccepts
  exact Bool.false_ne_true haccepts

/-- A character that is avoided is in no word. -/
theorem notMem_of_avoids {c : α} {r : Regex α} (havoids : r.avoids c = true) {w : List α}
    (haccepts : r.accepts w = true) : c ∉ w := by
  induction w generalizing r with
  | nil => exact List.not_mem_nil
  | cons d rest ih =>
      intro hmem
      rcases List.mem_cons.mp hmem with rfl | hmem
      · rw [accepts_cons, accepts_deriv_of_not_starts (not_starts_of_avoids havoids)] at haccepts
        exact Bool.false_ne_true haccepts
      · exact ih (avoids_deriv d havoids) haccepts hmem

/-- A character can only end a word. -/
def OnlyEnds (c : α) (r : Regex α) : Prop := ∀ w, r.accepts w = true → c ∉ w.dropLast

theorem onlyEnds_of_avoids {c : α} {r : Regex α} (havoids : r.avoids c = true) : OnlyEnds c r :=
  fun _ haccepts hmem =>
    notMem_of_avoids havoids haccepts (List.dropLast_subset _ hmem)

theorem onlyEnds_cls (c : α) (p : α → Bool) : OnlyEnds c (cls p) := by
  intro w haccepts
  obtain ⟨d, -, rfl⟩ := accepts_cls.mp haccepts
  exact List.not_mem_nil

/-- What comes before a word that the character can only end avoids it. -/
theorem onlyEnds_seq {c : α} {first second : Regex α} (havoids : first.avoids c = true)
    (hends : OnlyEnds c second) : OnlyEnds c (seq first second) := by
  intro w haccepts
  obtain ⟨u, v, rfl, hu, hv⟩ := accepts_seq haccepts
  cases v with
  | nil =>
      rw [List.append_nil]
      exact fun hmem => notMem_of_avoids havoids hu (List.dropLast_subset _ hmem)
  | cons d rest =>
      rw [List.dropLast_append_of_ne_nil (List.cons_ne_nil d rest), List.mem_append, not_or]
      exact ⟨notMem_of_avoids havoids hu, hends _ hv⟩

theorem onlyEnds_seq_empty {c : α} {first : Regex α} (hends : OnlyEnds c first) :
    OnlyEnds c (seq first empty) := by
  intro w haccepts
  obtain ⟨u, v, rfl, hu, hv⟩ := accepts_seq haccepts
  rw [(accepts_empty v).mp hv, List.append_nil]
  exact hends u hu

/-- The character is avoided but for a class at the end. -/
def endsOnly (c : α) : Regex α → Bool
  | cls _ => true
  | seq first empty => first.endsOnly c
  | seq first second => first.avoids c && second.endsOnly c
  | r => r.avoids c

theorem onlyEnds_of_endsOnly {c : α} {r : Regex α} (hends : r.endsOnly c = true) :
    OnlyEnds c r := by
  induction r with
  | cls p => exact onlyEnds_cls c p
  | seq first second ihfirst ihsecond =>
      cases second with
      | empty => exact onlyEnds_seq_empty (ihfirst hends)
      | _ =>
          obtain ⟨hfirst, hsecond⟩ := Bool.and_eq_true_iff.mp hends
          exact onlyEnds_seq hfirst (ihsecond hsecond)
  | _ => exact onlyEnds_of_avoids hends

/-! ## The longest match -/

theorem longest_le {r : Regex α} {s : List α} {n : Nat} (hlongest : r.longest s = some n) :
    n ≤ s.length := by
  induction s generalizing r n with
  | nil =>
      rw [longest_nil] at hlongest
      split at hlongest
      · exact Nat.le_of_eq (Option.some_inj.mp hlongest).symm
      · exact absurd hlongest (by simp)
  | cons c rest ih =>
      rw [longest_cons] at hlongest
      split at hlongest
      next m hm =>
        obtain rfl := Option.some_inj.mp hlongest
        exact Nat.succ_le_succ (ih hm)
      next =>
        split at hlongest
        · obtain rfl := Option.some_inj.mp hlongest
          exact Nat.zero_le _
        · exact absurd hlongest (by simp)

/-- The longest match is a match. -/
theorem accepts_longest {r : Regex α} {s : List α} {n : Nat} (hlongest : r.longest s = some n) :
    r.accepts (s.take n) = true := by
  induction s generalizing r n with
  | nil =>
      rw [longest_nil] at hlongest
      split at hlongest
      next hnullable =>
        rw [List.take_nil]
        exact hnullable
      next => exact absurd hlongest (by simp)
  | cons c rest ih =>
      rw [longest_cons] at hlongest
      split at hlongest
      next m hm =>
        obtain rfl := Option.some_inj.mp hlongest
        exact ih hm
      next =>
        split at hlongest
        next hnullable =>
          obtain rfl := Option.some_inj.mp hlongest
          exact hnullable
        next => exact absurd hlongest (by simp)

/-- No match is longer. -/
theorem le_longest {r : Regex α} {s : List α} {k : Nat} (hle : k ≤ s.length)
    (haccepts : r.accepts (s.take k) = true) : ∃ n, r.longest s = some n ∧ k ≤ n := by
  induction s generalizing r k with
  | nil =>
      rw [List.take_nil] at haccepts
      have hnullable : r.nullable = true := haccepts
      exact ⟨0, by rw [longest_nil, if_pos hnullable], hle⟩
  | cons c rest ih =>
      cases k with
      | zero =>
          rw [longest_cons]
          split
          next n _ => exact ⟨n + 1, rfl, Nat.zero_le _⟩
          next => exact ⟨0, if_pos haccepts, Nat.le_refl 0⟩
      | succ k =>
          obtain ⟨n, hn, hk⟩ := ih (Nat.le_of_succ_le_succ hle) haccepts
          exact ⟨n + 1, by rw [longest_cons, hn], Nat.succ_le_succ hk⟩

theorem longest_pos {r : Regex α} (hnullable : r.nullable = false) {s : List α} {n : Nat}
    (hlongest : r.longest s = some n) : 0 < n := by
  have haccepts := accepts_longest hlongest
  rcases Nat.eq_zero_or_pos n with rfl | hpos
  · rw [List.take_zero, accepts_nil, hnullable] at haccepts
    exact absurd haccepts Bool.false_ne_true
  · exact hpos

/-- A match that is not empty starts the word. -/
theorem starts_of_longest {r : Regex α} {c : α} {rest : List α} {n : Nat} (hpos : 0 < n)
    (hlongest : r.longest (c :: rest) = some n) : r.starts c = true := by
  obtain ⟨m, rfl⟩ := Nat.exists_eq_add_of_lt hpos
  have haccepts := accepts_longest hlongest
  rw [Nat.zero_add, List.take_succ_cons] at haccepts
  exact starts_of_accepts haccepts

theorem longest_of_accepts_nothing {r : Regex α} (hnothing : ∀ w, r.accepts w = false)
    (s : List α) : r.longest s = none := by
  cases hlongest : r.longest s with
  | none => rfl
  | some n =>
      have haccepts := accepts_longest hlongest
      rw [hnothing] at haccepts
      exact absurd haccepts Bool.false_ne_true

theorem longest_of_accepts_nil {r : Regex α} (hnil : ∀ w, r.accepts w = true → w = [])
    (s : List α) : r.longest s = if r.nullable then some 0 else none := by
  cases s with
  | nil => rfl
  | cons c rest =>
      have hnothing : ∀ w, (r.deriv c).accepts w = false := by
        intro w
        by_contra haccepts
        exact absurd (hnil (c :: w) (Bool.not_eq_false _ ▸ haccepts)) (List.cons_ne_nil c w)
      rw [longest_cons, longest_of_accepts_nothing hnothing]

/-- A class that may be repeated is repeated up to the first character outside of it. -/
theorem longest_plus_cls {p : α → Bool} {w rest : List α} (hw : w ≠ [])
    (hall : ∀ c ∈ w, p c = true) (hrest : ∀ c, rest.head? = some c → p c = false) :
    (plus (cls p)).longest (w ++ rest) = some w.length := by
  have hwhole : (plus (cls p)).accepts ((w ++ rest).take w.length) = true := by
    rw [List.take_left' rfl]
    exact accepts_plus_cls hw hall
  obtain ⟨n, hlongest, hn⟩ := le_longest (by simp) hwhole
  rcases Nat.eq_or_lt_of_le hn with rfl | hlt
  · exact hlongest
  · have htaken := of_accepts_plus_cls (accepts_longest hlongest)
    have hle := longest_le hlongest
    cases rest with
    | nil =>
        rw [List.append_nil] at hle
        exact absurd hle (Nat.not_le_of_lt hlt)
    | cons c rest =>
        have hmem : c ∈ (w ++ c :: rest).take n := by
          rw [List.take_append]
          refine List.mem_append_right _ ?_
          obtain ⟨k, hk⟩ := Nat.exists_eq_add_of_lt hlt
          rw [show n - w.length = k + 1 by omega, List.take_succ_cons]
          exact List.mem_cons_self
        exact absurd (htaken c hmem) (by simp [hrest c rfl])

/-- A character that does not complete a match is not looked at. -/
theorem longest_concat {r : Regex α} {s : List α} {c : α}
    (hnot : r.accepts (s ++ [c]) = false) : r.longest (s ++ [c]) = r.longest s := by
  induction s generalizing r with
  | nil =>
      have hnullable : (r.deriv c).nullable = false := hnot
      simp [longest_cons, longest_nil, hnullable]
  | cons d rest ih => rw [List.cons_append, longest_cons, longest_cons, ih hnot]

/-- No word goes on behind a text. -/
def Stops (r : Regex α) (text : List α) : Prop :=
  ∀ z, r.accepts (text ++ z) = true → z = []

/-- A character that can only end a word stops it. -/
theorem OnlyEnds.stops {c : α} {r : Regex α} (hends : OnlyEnds c r) {text : List α}
    (hmem : c ∈ text) : r.Stops text := by
  intro z haccepts
  cases z with
  | nil => rfl
  | cons d rest =>
      refine absurd ?_ (hends _ haccepts)
      rw [List.dropLast_append_of_ne_nil (List.cons_ne_nil d rest)]
      exact List.mem_append_left _ hmem

/-- What follows a text that no word goes behind does not matter. -/
theorem Stops.longest_append {r : Regex α} {text : List α} (hstops : r.Stops text)
    (x y : List α) : r.longest (text ++ x) = r.longest (text ++ y) := by
  induction text generalizing r with
  | nil =>
      rw [List.nil_append, List.nil_append, longest_of_accepts_nil hstops x,
        longest_of_accepts_nil hstops y]
  | cons c text ih =>
      have hrest : (r.deriv c).Stops text := fun z haccepts => hstops z haccepts
      rw [List.cons_append, List.cons_append, longest_cons, longest_cons, ih hrest]

/-- No match goes behind such a text. -/
theorem Stops.longest_le {r : Regex α} {text x : List α} (hstops : r.Stops text) {n : Nat}
    (hlongest : r.longest (text ++ x) = some n) : n ≤ text.length := by
  by_contra hmore
  have haccepts := accepts_longest hlongest
  rw [List.take_append, List.take_of_length_le (Nat.le_of_not_le hmore)] at haccepts
  have hnil := hstops _ haccepts
  have hle := Regex.longest_le hlongest
  rw [List.length_append] at hle
  have hlength := congrArg List.length hnil
  rw [List.length_take, List.length_nil] at hlength
  omega

end Regex

end SlurmSpank.Foundation
