import SlurmSpank.Lib.ListLoops

/-! # Deleting the selected items

The loop of `list_delete_all` removes one node after the other, and the iterators move at each of
these. Behind the loop each iterator is as far behind the start as items in front of it were
kept.
-/

namespace SlurmSpank.Lib

open Foundation

variable {α : Type}

/-! ## One item -/

namespace Cursor

variable {f : α → Bool} {items : List α} {n : Nat} {x : α}

theorem drop_take_of_le {a b : Nat} (hle : b ≤ a) : (items.take b).drop a = [] :=
  List.drop_of_length_le ((List.length_take_le _ _).trans hle)

theorem drop_take_of_lt {a b : Nat} (hx : items[a]? = some x) (hlt : a < b) :
    (items.take b).drop a = x :: (items.take b).drop (a + 1) := by
  have hlength : a < (items.take b).length := by
    rw [List.length_take]
    have := (List.getElem?_eq_some_iff.mp hx).1
    omega
  rw [List.drop_eq_getElem_cons hlength]
  congr 1
  obtain ⟨_, rfl⟩ := List.getElem?_eq_some_iff.mp hx
  exact List.getElem_take

/-- An item that is kept is passed. -/
theorem deleteFrom_succ (hx : items[n]? = some x) (hkeep : f x = false) (c : Cursor) :
    deleteFrom f items (n + 1) c = deleteFrom f items n c := by
  unfold deleteFrom
  congr 2
  · rcases Nat.lt_or_ge n c.pos with hlt | hge
    · rw [drop_take_of_lt hx hlt, List.countP_cons_of_neg (by simp [hkeep])]
    · rw [drop_take_of_le hge, drop_take_of_le (by omega)]
  · congr 1
    rcases Nat.lt_or_ge n c.pos with hlt | hge
    · rcases Nat.lt_or_ge n (c.pos - 1) with hfar | hnear
      · rw [Nat.max_eq_right (by omega), Nat.max_eq_right (by omega)]
      · rw [Nat.max_eq_left (by omega), Nat.max_eq_left (by omega),
          drop_take_of_lt hx (by omega), List.any_cons, hkeep, Bool.false_or]
    · rw [Nat.max_eq_left (by omega), Nat.max_eq_left (by omega),
        drop_take_of_le (a := n + 1) (by omega)]
      rcases Nat.lt_or_ge n (c.pos + 1) with hlast | hbehind
      · rw [drop_take_of_lt hx hlast, List.any_cons, hkeep, drop_take_of_le (by omega)]
        rfl
      · rw [drop_take_of_le hbehind]

theorem drop_take_eraseIdx {a b : Nat} (hle : n ≤ a) :
    ((items.eraseIdx n).take b).drop a = (items.take (b + 1)).drop (a + 1) := by
  apply List.ext_getElem?
  intro i
  rw [List.getElem?_drop, List.getElem?_drop, List.getElem?_take, List.getElem?_take,
    List.getElem?_eraseIdx_of_ge (by omega)]
  have hsame : a + 1 + i = a + i + 1 := by omega
  simp only [hsame, Nat.add_lt_add_iff_right]

/-- An item that is removed moves the iterator as its removal does. -/
theorem deleteFrom_removeAt (hx : items[n]? = some x) (hgone : f x = true) (c : Cursor) :
    deleteFrom f (items.eraseIdx n) n (c.removeAt n) = deleteFrom f items n c := by
  unfold removeAt
  split
  next hlt =>
    simp [deleteFrom, drop_take_of_le hlt.le, drop_take_of_le (show c.pos + 1 ≤ n from hlt),
      Nat.max_eq_left (show c.pos - 1 ≤ n by omega)]
  next hge =>
    split
    next hnear =>
      have hany : ((items.take (c.pos + 1)).drop (max n (c.pos - 1))).any f = true := by
        rw [Nat.max_eq_left (by omega), drop_take_of_lt hx (by omega), List.any_cons, hgone]
        rfl
      have hcount : c.pos - ((items.take c.pos).drop n).countP f = n := by
        rcases Nat.lt_or_ge n c.pos with hlt | hle
        · rw [drop_take_of_lt hx hlt, List.countP_cons_of_pos hgone, drop_take_of_le (by omega)]
          simp
          omega
        · rw [drop_take_of_le hle]
          simp
          omega
      simp [deleteFrom, drop_take_of_le (le_refl n), hany, hcount]
    next hfar =>
      have hsame : c.pos - 1 + 1 = c.pos := by omega
      unfold deleteFrom
      congr 1
      · rw [drop_take_of_lt hx (by omega), List.countP_cons_of_pos hgone,
          drop_take_eraseIdx le_rfl]
        dsimp only
        rw [hsame]
        omega
      · dsimp only
        rw [drop_take_eraseIdx (by omega), hsame, Nat.max_eq_right (by omega),
          Nat.max_eq_right (by omega)]
        congr 4
        omega

/-- No items are behind the last one. -/
theorem deleteFrom_length (c : Cursor) : deleteFrom f items items.length c = c := by
  have hpos : (items.take c.pos).drop items.length = [] :=
    List.drop_of_length_le (List.length_take_le' _ _)
  have hcurrent : (items.take (c.pos + 1)).drop (max items.length (c.pos - 1)) = [] :=
    List.drop_of_length_le ((List.length_take_le' _ _).trans (Nat.le_max_left _ _))
  simp [deleteFrom, hpos, hcurrent]

end Cursor

/-! ## The lists -/

namespace Lists

variable {s : Lists α} {l n : Nat} {f : α → Bool} {contents : Contents α} {x : α}

@[simp] theorem items_delete (s : Lists α) (l l' : Nat) (gone : List α) :
    (s.delete l gone).items l' = s.items l' := by
  simp [items]

theorem items_change (hcontents : s.lists l = some contents) (items : List α)
    (move : Cursor → Cursor) : (s.change l items move).items l = items := by
  simp [Lists.items, lists_change, hcontents]

theorem change_change (s : Lists α) (l : Nat) (first second : List α)
    (move move' : Cursor → Cursor) :
    (s.change l first move).change l second move' = s.change l second (move' ∘ move) := by
  ext1
  · simp only [lists_change, Function.update_self, Function.update_idem, Option.map_map]
    rfl
  · funext i
    simp only [cursors_change]
    cases s.cursors i with
    | none => rfl
    | some place =>
        by_cases heq : place.1 = l
        · simp [heq]
        · simp [heq]
  · rfl

theorem change_delete (s : Lists α) (l : Nat) (gone items : List α) (move : Cursor → Cursor) :
    (s.delete l gone).change l items move = (s.change l items move).delete l gone := by
  ext1
  · simp [lists_change]
  · funext i
    simp [cursors_change]
  · simp only [deleted_change, deleted_delete, lists_change, Function.update_self]
    cases s.lists l <;> rfl

theorem delete_delete (s : Lists α) (l : Nat) (first second : List α) :
    (s.delete l first).delete l second = s.delete l (first ++ second) := by
  ext1
  · simp
  · simp
  · simp only [deleted_delete, lists_delete]
    split <;> simp

theorem delete_nil (s : Lists α) (l : Nat) : s.delete l [] = s := by
  ext1
  · simp
  · simp
  · simp [deleted_delete]

theorem change_self (s : Lists α) (l : Nat) : s.change l (s.items l) id = s := by
  ext1
  · funext l'
    rw [lists_change]
    by_cases heq : l' = l
    · subst heq
      cases hlist : s.lists l' with
      | none => simp
      | some contents => simp [items, hlist]
    · simp [heq]
  · funext i
    rw [cursors_change]
    cases s.cursors i <;> simp
  · rfl

/-- The lists when the items from the `n`th on that `f` selects are deleted. -/
def deleteFrom (s : Lists α) (f : α → Bool) (l n : Nat) : Lists α :=
  (s.change l ((s.items l).take n ++ ((s.items l).drop n).filter (!f ·))
    (Cursor.deleteFrom f (s.items l) n)).delete l (((s.items l).drop n).filter f)

theorem deleteFrom_keep (hx : (s.items l)[n]? = some x) (hkeep : f x = false) :
    s.deleteFrom f l (n + 1) = s.deleteFrom f l n := by
  obtain ⟨hn, rfl⟩ := List.getElem?_eq_some_iff.mp hx
  have hmove : Cursor.deleteFrom f (s.items l) (n + 1) = Cursor.deleteFrom f (s.items l) n :=
    funext (Cursor.deleteFrom_succ hx hkeep)
  unfold deleteFrom
  rw [hmove, List.drop_eq_getElem_cons hn, List.filter_cons_of_pos (by simpa using hkeep),
    List.filter_cons_of_neg (by simpa using hkeep), List.take_add_one, hx, Option.toList_some,
    List.append_assoc, List.singleton_append]

theorem deleteFrom_gone (hcontents : s.lists l = some contents)
    (hx : (s.items l)[n]? = some x) (hgone : f x = true) :
    ((s.removeAt l n).delete l [x]).deleteFrom f l n = s.deleteFrom f l n := by
  obtain ⟨hn, rfl⟩ := List.getElem?_eq_some_iff.mp hx
  have hmove : Cursor.deleteFrom f ((s.items l).eraseIdx n) n ∘ Cursor.removeAt n =
      Cursor.deleteFrom f (s.items l) n :=
    funext (Cursor.deleteFrom_removeAt hx hgone)
  have hitems : ((s.removeAt l n).delete l [(s.items l)[n]]).items l =
      (s.items l).eraseIdx n := by
    rw [items_delete, removeAt, items_change hcontents]
  unfold deleteFrom
  rw [hitems, change_delete, delete_delete, removeAt, change_change, hmove,
    List.drop_eq_getElem_cons hn, List.filter_cons_of_pos hgone,
    List.filter_cons_of_neg (by simpa using hgone), List.eraseIdx_eq_take_drop_succ,
    List.take_append_of_le_length (by simp; omega), List.drop_append_of_le_length (by simp; omega)]
  simp [List.take_take]

theorem deleteFrom_end (s : Lists α) (f : α → Bool) (l : Nat) :
    s.deleteFrom f l (s.items l).length = s := by
  have hmove : Cursor.deleteFrom f (s.items l) (s.items l).length = id :=
    funext Cursor.deleteFrom_length
  simp [deleteFrom, hmove, change_self, delete_nil]

end Lists

/-! ## The loop -/

theorem drop_eraseIdx_self (items : List α) (n : Nat) :
    (items.eraseIdx n).drop n = items.drop (n + 1) := by
  apply List.ext_getElem?
  intro i
  rw [List.getElem?_drop, List.getElem?_drop, List.getElem?_eraseIdx_of_ge (by omega)]
  congr 1
  omega

namespace Holds

variable {m : ListMemory α} {s : Lists α} {cells : Nat → List Nat} {l : Nat} {list : ListObject}

/-- The loop deletes the selected items from the slot on that it is at, and counts them. -/
theorem deleteFrom_eq {f : α → Bool} {fuel n : Nat} (k : Int) (hholds : Holds m s cells)
    (hlist : m.lists l = some list) (hn : n ≤ (cells l).length)
    (hfuel : (cells l).length - n < fuel) :
    ∃ m' cells', ListMemory.deleteFrom f l list.fDel fuel (Chain.slotAt (.root l) (cells l) n) k m =
        some (k + (((s.items l).drop n).filter f).length, m') ∧
      Holds m' (s.deleteFrom f l n) cells' := by
  induction fuel generalizing m s cells list n k with
  | zero => exact absurd hfuel (Nat.not_lt_zero _)
  | succ fuel ih =>
      obtain ⟨contents, hcontents, hheld⟩ := hholds.exists_contents hlist
      have hlive : (m.lists l).isSome := by simp [hlist]
      have hlength := hholds.length_items hlist
      have hload := hheld.load_slotAt hlive hn
      rw [ListMemory.deleteFrom, hload]
      simp only [Option.bind_eq_bind, Option.bind_some]
      cases hp : (cells l)[n]? with
      | none =>
          obtain rfl : n = (s.items l).length := by
            have := List.getElem?_eq_none_iff.mp hp
            omega
          exact ⟨m, cells, by simp, by rwa [Lists.deleteFrom_end]⟩
      | some p =>
          have hlt := (List.getElem?_eq_some_iff.mp hp).1
          obtain ⟨x, hx, hnode⟩ := hheld.node hp
          have hitem : (s.items l)[n]? = some x := by simpa [Lists.items, hcontents] using hx
          have hdrop : (s.items l).drop n = x :: (s.items l).drop (n + 1) := by
            obtain ⟨_, rfl⟩ := List.getElem?_eq_some_iff.mp hitem
            exact List.drop_eq_getElem_cons _
          simp only [hnode, Option.bind_some]
          cases hfound : f x with
          | false =>
              obtain ⟨m', cells', hloop, hholds'⟩ := ih k hholds hlist hlt (by omega)
              rw [Chain.slotAt_succ hp] at hloop
              refine ⟨m', cells', ?_, Lists.deleteFrom_keep hitem hfound ▸ hholds'⟩
              rw [hdrop, List.filter_cons_of_neg (by simp [hfound])]
              simpa using hloop
          | true =>
              rcases hholds.nodeDestroy hlist hn with
                ⟨hend, -⟩ | ⟨q, y, m₁, -, hy, hdestroy, hholds₁⟩
              · rw [hp] at hend
                cases hend
              · obtain rfl : x = y := Option.some_inj.mp (hitem.symm.trans hy)
                -- the list behind the removal, with the deletion function that it had
                have hcontents₁ : (s.removeAt l n).lists l =
                    some { contents with items := (s.items l).eraseIdx n } := by
                  simp [Lists.removeAt, Lists.lists_change, hcontents]
                have hholds₂ := hholds₁.callDelete hcontents₁ x
                rw [← Lists.lists_delete (s.removeAt l n) l [x]] at hcontents₁
                obtain ⟨list₂, hlist₂, hheld₂⟩ := hholds₂.exists_object hcontents₁
                have hfDel : list₂.fDel = list.fDel := hheld₂.fDel.trans hheld.fDel.symm
                have hcells : Function.update cells l ((cells l).eraseIdx n) l =
                    (cells l).eraseIdx n := Function.update_self ..
                have herased := List.length_eraseIdx_of_lt hlt
                obtain ⟨m', cells', hloop, hholds'⟩ := ih (n := n) (k + 1) hholds₂ hlist₂
                  (by rw [hcells]; omega) (by rw [hcells]; omega)
                rw [Lists.deleteFrom_gone hcontents hitem hfound] at hholds'
                refine ⟨m', cells', ?_, hholds'⟩
                rw [hcells, slotAt_eraseIdx_of_le le_rfl, hfDel, Lists.items_delete,
                  Lists.removeAt, Lists.items_change hcontents] at hloop
                rw [hdrop, List.filter_cons_of_pos hfound, hdestroy, if_pos rfl]
                rw [drop_eraseIdx_self, ← hheld.fDel] at hloop
                simp only [Option.bind_some, List.length_cons, hloop]
                congr 2
                omega

theorem deleteAll (hholds : Holds m s cells) (hlist : m.lists l = some list) (f : α → Bool) :
    ∃ m' cells',
      m.listDeleteAll l f = some ((((s.items l).filter f).length : Int), m') ∧
      Holds m' ((s.change l (listDeleteAll f (s.items l))
        (Cursor.deleteFrom f (s.items l) 0)).delete l ((s.items l).filter f)) cells' := by
  have hfuel : (cells l).length - 0 < m.bound := hholds.length_lt_bound l
  obtain ⟨m', cells', hloop, hholds'⟩ :=
    hholds.deleteFrom_eq (f := f) 0 hlist (Nat.zero_le _) hfuel
  rw [Chain.slotAt_zero] at hloop
  refine ⟨m', cells', ?_, hholds'⟩
  rw [ListMemory.listDeleteAll, hlist]
  simpa using hloop

end Holds

end SlurmSpank.Lib
