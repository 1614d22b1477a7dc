import Mathlib.Data.List.Nodup
import SlurmSpank.Lib.ListCursor
import SlurmSpank.Lib.ListMemory

/-! # Where cursors stand in memory

An iterator stores the node that it returns next and the address of the variable that leads to
the node it returned last. Both follow from its cursor and the cells of its list, and the
adjustments at the creation and at the end of a node keep that so.
-/

namespace SlurmSpank.Lib

open Foundation

/-! ## Slots of lists that change -/

section Slots

theorem insertIdx_eq_append {β : Type} {items : List β} {n : Nat} (hn : n ≤ items.length)
    (x : β) : items.insertIdx n x = items.take n ++ x :: items.drop n := by
  induction items generalizing n with
  | nil =>
      obtain rfl : n = 0 := by simpa using hn
      rfl
  | cons item items ih =>
      cases n with
      | zero => rfl
      | succ n => simp [ih (Nat.le_of_succ_le_succ hn)]

theorem insertIdx_append {β : Type} {front : List β} {n : Nat} (hn : n ≤ front.length) (x : β)
    (back : List β) : (front ++ back).insertIdx n x = front.insertIdx n x ++ back := by
  rw [insertIdx_eq_append (by simp; omega), insertIdx_eq_append hn,
    List.take_append_of_le_length hn, List.drop_append_of_le_length hn, List.append_assoc,
    List.cons_append]

variable {root : NodeSlot} {cells : List Nat} {n k p : Nat}

theorem slotAt_insertIdx_of_le (hk : k ≤ n) :
    Chain.slotAt root (cells.insertIdx n p) k = Chain.slotAt root cells k := by
  rw [Chain.slotAt, Chain.slotAt, List.take_insertIdx_eq_take_of_le _ _ _ _ hk]

theorem slotAt_insertIdx_self (hn : n ≤ cells.length) :
    Chain.slotAt root (cells.insertIdx n p) (n + 1) = .next p := by
  apply Chain.slotAt_succ
  simp [List.getElem?_insertIdx_self, hn]

theorem slotAt_insertIdx_of_lt (hn : n < k) (hk : k ≤ cells.length) :
    Chain.slotAt root (cells.insertIdx n p) (k + 1) = Chain.slotAt root cells k := by
  obtain ⟨k, rfl⟩ := Nat.exists_eq_add_one_of_ne_zero (Nat.ne_of_gt (Nat.zero_lt_of_lt hn))
  have hcell : cells[k]? = some cells[k] := List.getElem?_eq_getElem hk
  rw [Chain.slotAt_succ hcell]
  apply Chain.slotAt_succ
  rw [List.getElem?_insertIdx_of_gt hn]
  exact hcell

theorem slotAt_eraseIdx_of_le (hk : k ≤ n) :
    Chain.slotAt root (cells.eraseIdx n) k = Chain.slotAt root cells k := by
  rw [Chain.slotAt, Chain.slotAt, List.eraseIdx_eq_take_drop_succ]
  rcases Nat.lt_or_ge cells.length n with hlt | hge
  · rw [List.take_of_length_le hlt.le, List.drop_of_length_le (by omega), List.append_nil]
  · rw [List.take_append_of_le_length (by simp; omega), List.take_take, Nat.min_eq_left hk]

theorem slotAt_eraseIdx_of_gt (hn : n < k) (hk : k < cells.length) :
    Chain.slotAt root (cells.eraseIdx n) k = Chain.slotAt root cells (k + 1) := by
  obtain ⟨k, rfl⟩ := Nat.exists_eq_add_one_of_ne_zero (Nat.ne_of_gt (Nat.zero_lt_of_lt hn))
  have hcell : cells[k + 1]? = some cells[k + 1] := List.getElem?_eq_getElem hk
  rw [Chain.slotAt_succ hcell]
  apply Chain.slotAt_succ
  rw [List.getElem?_eraseIdx_of_ge (by omega)]
  exact hcell

theorem root_ne_slotAt {l l' : Nat} (hne : l' ≠ l) (hn : n ≤ cells.length) :
    (Slot.root l' : NodeSlot) ≠ Chain.slotAt (.root l) cells n := by
  cases n with
  | zero => simp [hne]
  | succ n => simp [Chain.slotAt_succ (List.getElem?_eq_getElem hn)]

theorem next_ne_slotAt {l : Nat} (hp : p ∉ cells) (hn : n ≤ cells.length) :
    Slot.next p ≠ Chain.slotAt (.root l) cells n := by
  cases n with
  | zero => simp
  | succ n =>
      rw [Chain.slotAt_succ (List.getElem?_eq_getElem hn), Ne, Slot.next.injEq]
      rintro rfl
      exact hp (List.getElem_mem hn)

theorem not_mem_eraseIdx (hnodup : cells.Nodup) (hp : cells[n]? = some p) :
    p ∉ cells.eraseIdx n := by
  obtain ⟨hn, hget⟩ := List.getElem?_eq_some_iff.mp hp
  have hsplit : cells = cells.take n ++ p :: cells.drop (n + 1) := by
    rw [← hget, ← List.drop_eq_getElem_cons hn, List.take_append_drop]
  rw [hsplit, List.nodup_middle, List.nodup_cons] at hnodup
  rw [List.eraseIdx_eq_take_drop_succ]
  exact hnodup.1

theorem mem_eraseIdx_or (hp : cells[n]? = some p) (q : Nat) :
    q ∈ cells ↔ q = p ∨ q ∈ cells.eraseIdx n := by
  obtain ⟨hn, hget⟩ := List.getElem?_eq_some_iff.mp hp
  conv_lhs => rw [← List.take_append_drop n cells, List.drop_eq_getElem_cons hn, hget]
  rw [List.eraseIdx_eq_take_drop_succ]
  simp only [List.mem_append, List.mem_cons]
  tauto

theorem last_insertIdx (hn : n ≤ cells.length) :
    Chain.last root (cells.insertIdx n p) =
      if cells[n]? = none then .next p else Chain.last root cells := by
  rw [insertIdx_eq_append hn, Chain.last_append, Chain.last_cons]
  split
  next hend =>
    rw [List.drop_of_length_le (List.getElem?_eq_none_iff.mp hend), Chain.last_nil]
  next hend =>
    have hlt : n < cells.length := by
      by_contra hge
      exact hend (List.getElem?_eq_none (Nat.le_of_not_lt hge))
    conv_rhs => rw [← List.take_append_drop n cells]
    rw [Chain.last_append, List.drop_eq_getElem_cons hlt, Chain.last_cons, Chain.last_cons]

theorem last_eraseIdx :
    Chain.last root (cells.eraseIdx n) =
      if cells[n + 1]? = none then Chain.slotAt root cells n else Chain.last root cells := by
  rw [List.eraseIdx_eq_take_drop_succ, Chain.last_append]
  split
  next hend =>
    rw [List.drop_of_length_le (List.getElem?_eq_none_iff.mp hend), Chain.last_nil, Chain.slotAt]
  next hend =>
    have hlt : n + 1 < cells.length := by
      by_contra hge
      exact hend (List.getElem?_eq_none (Nat.le_of_not_lt hge))
    conv_rhs => rw [← List.take_append_drop (n + 1) cells]
    rw [Chain.last_append, List.drop_eq_getElem_cons hlt, Chain.last_cons, Chain.last_cons]

end Slots

/-! ## Iterators -/

/-- An iterator is where a cursor says. -/
structure HoldsCursor (cells : Nat → List Nat) (it : ListIterator) (l : Nat) (c : Cursor) :
    Prop where
  list : it.list = l
  le : c.pos ≤ (cells l).length
  current : c.current = true → 0 < c.pos
  pos : it.pos = (cells l)[c.pos]?
  prev : it.prev = Chain.slotAt (.root l) (cells l) c.slot

namespace HoldsCursor

variable {cells : Nat → List Nat} {it : ListIterator} {l : Nat} {c : Cursor} {n p : Nat}

theorem slot_le (hholds : HoldsCursor cells it l c) : c.slot ≤ (cells l).length := by
  have hle := hholds.le
  unfold Cursor.slot
  split <;> omega

/-- An iterator of a list whose nodes are replaced. -/
theorem update {nodes : List Nat} {pos : Nat} {current : Bool} (hlist : it.list = l)
    (hle : pos ≤ nodes.length) (hcurrent : current = true → 0 < pos) (hpos : it.pos = nodes[pos]?)
    (hprev : it.prev = Chain.slotAt (.root l) nodes (Cursor.slot ⟨pos, current⟩)) :
    HoldsCursor (Function.update cells l nodes) it l ⟨pos, current⟩ := by
  constructor <;> simpa

theorem pos_eq_iff (hholds : HoldsCursor cells it l c) (hnodup : (cells l).Nodup)
    (hn : n ≤ (cells l).length) : it.pos = (cells l)[n]? ↔ c.pos = n := by
  rw [hholds.pos]
  constructor
  · intro heq
    rcases Nat.lt_or_ge c.pos (cells l).length with hlt | hge
    · exact (List.getElem?_inj hlt hnodup).mp heq
    · have hnone : (cells l)[n]? = none := by
        rw [← heq]
        exact List.getElem?_eq_none hge
      have hend := List.getElem?_eq_none_iff.mp hnone
      have hle := hholds.le
      omega
  · intro heq
    rw [heq]

theorem prev_eq_iff (hholds : HoldsCursor cells it l c) (hnodup : (cells l).Nodup)
    (hn : n ≤ (cells l).length) :
    it.prev = Chain.slotAt (.root l) (cells l) n ↔ c.slot = n := by
  rw [hholds.prev]
  constructor
  · exact Chain.slotAt_inj hnodup hholds.slot_le hn
  · intro heq
    rw [heq]

/-- The iterator behind the insertion of a node. -/
theorem insert (hholds : HoldsCursor cells it l c) (hnodup : (cells l).Nodup)
    (hn : n ≤ (cells l).length) :
    HoldsCursor (Function.update cells l ((cells l).insertIdx n p))
      (if it.prev = Chain.slotAt (.root l) (cells l) n then { it with prev := .next p }
        else if it.pos = (cells l)[n]? then { it with pos := some p }
        else it)
      l (c.insertAt n) := by
  have hslot := hholds.slot_le
  have hbehind := hholds.pos_eq_iff hnodup hn
  have hsame := hholds.prev_eq_iff hnodup hn
  obtain ⟨hlist, hle, hcurrent, hpos, hprev⟩ := hholds
  have hlength : ((cells l).insertIdx n p).length = (cells l).length + 1 :=
    List.length_insertIdx_of_le_length hn p
  have hcases : c.slot = if c.current = true then c.pos - 1 else c.pos := rfl
  by_cases hsl : c.slot = n
  · -- the iterator points to the slot that now leads to the new node
    rw [if_pos (hsame.mpr hsl)]
    have hmove : c.insertAt n = { c with pos := c.pos + 1 } := by
      unfold Cursor.insertAt
      apply if_neg
      rintro (hlt | ⟨heq, hcur⟩)
      · split at hcases <;> omega
      · rw [if_pos hcur] at hcases
        have := hcurrent hcur
        omega
    have hpos' : n < c.pos + 1 := by
      split at hcases <;> omega
    rw [hmove]
    refine update hlist ?_ ?_ ?_ ?_
    · simp [hlength, hle]
    · simp
    · rw [List.getElem?_insertIdx_of_gt hpos', Nat.add_sub_cancel, hpos]
    · have hslot' : Cursor.slot { c with pos := c.pos + 1 } = n + 1 := by
        unfold Cursor.slot
        dsimp only
        split at hcases
        next hcur =>
          have hpos := hcurrent hcur
          rw [if_pos hcur]
          omega
        next hcur =>
          rw [if_neg hcur]
          omega
      rw [hslot', slotAt_insertIdx_self hn]
  · rw [if_neg (fun heq => hsl (hsame.mp heq))]
    by_cases hps : c.pos = n
    · -- the new node comes next
      have hcur : c.current = true := by
        by_contra hcur
        rw [if_neg hcur] at hcases
        exact hsl (hcases.trans hps)
      rw [if_pos (hbehind.mpr hps)]
      have hmove : c.insertAt n = c := if_pos (Or.inr ⟨hps, hcur⟩)
      rw [hmove]
      refine update hlist ?_ ?_ ?_ ?_
      · rw [hlength]
        omega
      · exact hcurrent
      · simp [hps, List.getElem?_insertIdx_self, hn]
      · have hle' : c.slot ≤ n := by
          split at hcases <;> omega
        exact hprev.trans (slotAt_insertIdx_of_le hle').symm
    · rw [if_neg (fun heq => hps (hbehind.mp heq))]
      rcases Nat.lt_or_gt_of_ne hps with hlt | hgt
      · have hmove : c.insertAt n = c := if_pos (Or.inl hlt)
        rw [hmove]
        refine update hlist ?_ ?_ ?_ ?_
        · rw [hlength]
          omega
        · exact hcurrent
        · rw [List.getElem?_insertIdx_of_lt hlt, hpos]
        · have hle' : c.slot ≤ n := by
            split at hcases <;> omega
          exact hprev.trans (slotAt_insertIdx_of_le hle').symm
      · have hmove : c.insertAt n = { c with pos := c.pos + 1 } := by
          unfold Cursor.insertAt
          apply if_neg
          rintro (hlt | ⟨heq, _⟩) <;> omega
        have hslot' : Cursor.slot { c with pos := c.pos + 1 } = c.slot + 1 := by
          unfold Cursor.slot
          dsimp only
          split <;> omega
        rw [hmove]
        refine update hlist ?_ ?_ ?_ ?_
        · simp [hlength, hle]
        · simp
        · rw [List.getElem?_insertIdx_of_gt (by omega), Nat.add_sub_cancel, hpos]
        · rw [hslot', slotAt_insertIdx_of_lt _ hslot, hprev]
          split at hcases <;> omega

/-- The iterator behind the removal of a node. -/
theorem remove (hholds : HoldsCursor cells it l c) (hnodup : (cells l).Nodup)
    (hp : (cells l)[n]? = some p) :
    HoldsCursor (Function.update cells l ((cells l).eraseIdx n))
      (if it.pos = some p then
          { it with pos := (cells l)[n + 1]?, prev := Chain.slotAt (.root l) (cells l) n }
        else if it.prev = .next p then
          { it with prev := Chain.slotAt (.root l) (cells l) n }
        else it)
      l (c.removeAt n) := by
  have hn : n < (cells l).length := (List.getElem?_eq_some_iff.mp hp).1
  have hslot := hholds.slot_le
  have hbehind := hholds.pos_eq_iff hnodup hn.le
  have hsame := hholds.prev_eq_iff hnodup (n := n + 1) hn
  rw [hp] at hbehind
  rw [Chain.slotAt_succ hp] at hsame
  obtain ⟨hlist, hle, hcurrent, hpos, hprev⟩ := hholds
  have hlength : ((cells l).eraseIdx n).length = (cells l).length - 1 :=
    List.length_eraseIdx_of_lt hn
  have hcases : c.slot = if c.current = true then c.pos - 1 else c.pos := rfl
  have hnext : ((cells l).eraseIdx n)[n]? = (cells l)[n + 1]? :=
    List.getElem?_eraseIdx_of_ge le_rfl
  have hprev' : Chain.slotAt (.root l) ((cells l).eraseIdx n) n =
      Chain.slotAt (.root l) (cells l) n := slotAt_eraseIdx_of_le le_rfl
  by_cases hps : c.pos = n
  · rw [if_pos (hbehind.mpr hps)]
    have hmove : c.removeAt n = ⟨n, false⟩ := by
      unfold Cursor.removeAt
      rw [if_neg (by omega), if_pos (by omega)]
    rw [hmove]
    refine update hlist ?_ ?_ ?_ ?_
    · rw [hlength]
      omega
    · simp
    · simp [hnext]
    · simp [Cursor.slot, hprev']
  · rw [if_neg (fun heq => hps (hbehind.mp heq))]
    by_cases hsl : c.slot = n + 1
    · rw [if_pos (hsame.mpr hsl)]
      by_cases hcur : c.current = true
      · rw [if_pos hcur] at hcases
        have hmove : c.removeAt n = ⟨n + 1, true⟩ := by
          unfold Cursor.removeAt
          rw [if_neg (by omega), if_neg (by omega), hcur]
          congr 1
          omega
        rw [hmove]
        refine update hlist ?_ ?_ ?_ ?_
        · rw [hlength]
          omega
        · simp
        · rw [List.getElem?_eraseIdx_of_ge (by omega), hpos]
          congr 1
          omega
        · simp [Cursor.slot, hprev']
      · rw [if_neg hcur] at hcases
        have hmove : c.removeAt n = ⟨n, false⟩ := by
          unfold Cursor.removeAt
          rw [if_neg (by omega), if_pos (by omega)]
        rw [hmove]
        refine update hlist ?_ ?_ ?_ ?_
        · rw [hlength]
          omega
        · simp
        · rw [hnext, hpos]
          congr 1
          omega
        · simp [Cursor.slot, hprev']
    · rw [if_neg (fun heq => hsl (hsame.mp heq))]
      rcases Nat.lt_or_gt_of_ne hps with hlt | hgt
      · have hmove : c.removeAt n = c := if_pos hlt
        rw [hmove]
        refine update hlist ?_ ?_ ?_ ?_
        · rw [hlength]
          omega
        · exact hcurrent
        · rw [List.getElem?_eraseIdx_of_lt hlt, hpos]
        · have hle' : c.slot ≤ n := by
            split at hcases <;> omega
          exact hprev.trans (slotAt_eraseIdx_of_le hle').symm
      · by_cases hnear : c.pos = n + 1
        · -- what the iterator returned last is removed
          have hcur : c.current = true := by
            by_contra hcur
            rw [if_neg hcur] at hcases
            exact hsl (hcases.trans hnear)
          rw [if_pos hcur] at hcases
          have hmove : c.removeAt n = ⟨n, false⟩ := by
            unfold Cursor.removeAt
            rw [if_neg (by omega), if_pos (by omega)]
          rw [hmove]
          refine update hlist ?_ ?_ ?_ ?_
          · rw [hlength]
            omega
          · simp
          · rw [hnext, hpos, hnear]
          · have heq : c.slot = n := by omega
            rw [hprev, heq]
            simp [Cursor.slot, hprev']
        · have hmove : c.removeAt n = { c with pos := c.pos - 1 } := by
            unfold Cursor.removeAt
            rw [if_neg (by omega), if_neg (by omega)]
          have hslot' : Cursor.slot { c with pos := c.pos - 1 } = c.slot - 1 := by
            unfold Cursor.slot
            dsimp only
            split <;> omega
          have hfar : n + 1 < c.slot := by
            split at hcases <;> omega
          rw [hmove]
          refine update hlist ?_ ?_ ?_ ?_
          · rw [hlength]
            omega
          · intro _
            omega
          · rw [List.getElem?_eraseIdx_of_ge (by omega), hpos]
            congr 1
            omega
          · rw [hslot', slotAt_eraseIdx_of_gt (by omega) (by omega), hprev,
              Nat.sub_add_cancel (by omega)]

end HoldsCursor

end SlurmSpank.Lib
