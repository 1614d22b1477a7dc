import Mathlib.Data.List.Basic

/-! # Lists in pieces

A list with separators in it is its last piece, or it is a piece, a separator and such a list
again. The place of a piece is the number of pieces behind it.
-/

namespace SlurmSpank.Foundation

universe u v

variable {α : Type u} [DecidableEq α] {sep : α}

/-- Induction along the pieces of a list. -/
@[elab_as_elim]
theorem separated_induction (sep : α) {motive : List α → Prop}
    (last : ∀ piece, sep ∉ piece → motive piece)
    (next : ∀ piece rest, sep ∉ piece → motive rest → motive (piece ++ sep :: rest))
    (l : List α) : motive l := by
  induction hlength : l.length using Nat.strongRecOn generalizing l with
  | _ n ih =>
      by_cases hmem : sep ∈ l
      · obtain ⟨piece, rest, rfl, hpiece⟩ := List.eq_append_cons_of_mem hmem
        rw [List.length_append, List.length_cons] at hlength
        exact next piece rest hpiece (ih rest.length (by omega) rest rfl)
      · exact last l hmem

/-- The items of a list, each with the number of items behind it. -/
def numbered {β : Type v} : List β → List (Nat × β)
  | [] => []
  | item :: rest => (rest.length, item) :: numbered rest

/-- The pieces of a list, each with its place. -/
def pieces (sep : α) (l : List α) : List (Nat × List α) := numbered (l.splitOn sep)

@[simp] theorem numbered_length {β : Type v} (l : List β) : (numbered l).length = l.length := by
  induction l with
  | nil => rfl
  | cons item rest ih => rw [numbered, List.length_cons, List.length_cons, ih]

variable {piece rest : List α}

theorem pieces_last (hpiece : sep ∉ piece) : pieces sep piece = [(0, piece)] := by
  rw [pieces, List.splitOn_eq_singleton hpiece]
  rfl

theorem pieces_next (hpiece : sep ∉ piece) (rest : List α) :
    pieces sep (piece ++ sep :: rest) = ((pieces sep rest).length, piece) :: pieces sep rest := by
  rw [pieces, List.splitOn_append_cons_self_of_not_mem hpiece, numbered, ← numbered_length]
  rfl

theorem pieces_length_pos (sep : α) (l : List α) : 0 < (pieces sep l).length := by
  rw [pieces, numbered_length]
  exact List.length_pos_iff.mpr (List.splitOn_ne_nil sep l)

/-- There is one piece only where there is no separator. -/
theorem pieces_length_eq_one_iff (l : List α) : (pieces sep l).length = 1 ↔ sep ∉ l := by
  induction l using separated_induction sep with
  | last piece hpiece =>
      rw [pieces_last hpiece]
      exact iff_of_true rfl hpiece
  | next piece rest hpiece ih =>
      have hpos := pieces_length_pos sep rest
      rw [pieces_next hpiece, List.length_cons]
      refine iff_of_false (by omega) ?_
      exact not_not.mpr (List.mem_append_right piece List.mem_cons_self)

end SlurmSpank.Foundation
