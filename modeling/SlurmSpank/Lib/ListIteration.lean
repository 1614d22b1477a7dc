import SlurmSpank.Lib.ListCalls

/-! # A pass over a list that changes

An iterator runs over a list while other calls insert and delete items, also through other
iterators. No item is returned twice, the items that were there from the start are returned in
their order, and each of these that is still in the list is returned or still ahead.
-/

namespace SlurmSpank.Lib

open Foundation

variable {α σ : Type}

/-! ## Passes -/

/-- What a call does to the items of a list and to those that are ahead of an iterator, with the
items that it inserts and those that the iterator returns. -/
inductive Effect (items ahead : List α) : List α → List α → List α → List α → Prop
  | keep (inserted : List α) : Effect items ahead inserted [] items ahead
  | advance {x : α} {rest : List α} (hahead : ahead = x :: rest) :
      Effect items ahead [] [x] items rest
  | delete (keep : α → Bool) : Effect items ahead [] [] (items.filter keep) (ahead.filter keep)
  | behind (x : α) {n : Nat} (hn : n ≤ items.length) :
      Effect items ahead [x] [] (items.insertIdx n x) ahead
  | inFront (x : α) {n k : Nat} (hn : n ≤ items.length) (hk : k ≤ ahead.length) :
      Effect items ahead [x] [] (items.insertIdx n x) (ahead.insertIdx k x)

/-- A pass over the items of the start, when the given items were inserted and the seen ones were
returned. -/
structure Pass [DecidableEq α] (start given seen items ahead : List α) : Prop where
  nodup : (seen ++ ahead).Nodup
  itemsNodup : items.Nodup
  known : ∀ x ∈ seen ++ ahead, x ∈ start ++ given
  itemsKnown : ∀ x ∈ items, x ∈ start ++ given
  order : ((seen ++ ahead).filter (· ∈ start)).Sublist start
  complete : ∀ x ∈ start, x ∈ items → x ∈ seen ++ ahead

namespace Pass

variable [DecidableEq α] {start given seen items ahead inserted returned items' ahead' : List α}

theorem start_pass (hnodup : start.Nodup) : Pass start [] [] start start := by
  constructor <;> simp [hnodup]

/-- An item that no list had before is inserted in front of the iterator. -/
theorem insert_ahead {x : α} {k : Nat} (hpass : Pass start given seen items ahead)
    (hk : k ≤ ahead.length) (hfresh : x ∉ start ++ given) :
    (seen ++ ahead.insertIdx k x).Nodup ∧
      ((seen ++ ahead.insertIdx k x).filter (· ∈ start)).Sublist start := by
  have hout : x ∉ seen ++ ahead := fun hmem => hfresh (hpass.known x hmem)
  have hstart : x ∉ start := fun hmem => hfresh (List.mem_append_left _ hmem)
  have hperm : (seen ++ ahead.insertIdx k x).Perm (x :: (seen ++ ahead)) :=
    ((List.perm_insertIdx x ahead hk).append_left seen).trans List.perm_middle
  refine ⟨hperm.nodup_iff.mpr (List.nodup_cons.mpr ⟨hout, hpass.nodup⟩), ?_⟩
  -- the new item is not one of the start
  have hsame : (ahead.insertIdx k x).filter (· ∈ start) = ahead.filter (· ∈ start) := by
    rw [insertIdx_eq_append hk x, List.filter_append,
      List.filter_cons_of_neg (by simpa using hstart), ← List.filter_append, List.take_append_drop]
  rw [List.filter_append, hsame, ← List.filter_append]
  exact hpass.order

/-- An item that no list had before is inserted into the items. -/
theorem insert_items {x : α} {n : Nat} (hpass : Pass start given seen items ahead)
    (hn : n ≤ items.length) (hfresh : x ∉ start ++ given) :
    (items.insertIdx n x).Nodup ∧ (∀ y ∈ items.insertIdx n x, y ∈ start ++ (given ++ [x])) ∧
      ∀ y ∈ start, y ∈ items.insertIdx n x → y ∈ items := by
  have hperm : (items.insertIdx n x).Perm (x :: items) := List.perm_insertIdx x items hn
  have hout : x ∉ items := fun hmem => hfresh (hpass.itemsKnown x hmem)
  refine ⟨hperm.nodup_iff.mpr (List.nodup_cons.mpr ⟨hout, hpass.itemsNodup⟩), ?_, ?_⟩
  · intro y hy
    rw [← List.append_assoc, List.mem_append, List.mem_singleton]
    rcases List.mem_cons.mp (hperm.mem_iff.mp hy) with heq | hmem
    · exact Or.inr heq
    · exact Or.inl (hpass.itemsKnown y hmem)
  · intro y hstart hy
    rcases List.mem_cons.mp (hperm.mem_iff.mp hy) with rfl | hmem
    · exact absurd (List.mem_append_left _ hstart) hfresh
    · exact hmem

/-- What one call does keeps the pass. -/
theorem step (hpass : Pass start given seen items ahead)
    (heffect : Effect items ahead inserted returned items' ahead')
    (hfresh : (start ++ (given ++ inserted)).Nodup) :
    Pass start (given ++ inserted) (seen ++ returned) items' ahead' := by
  have hmore : ∀ x ∈ start ++ given, x ∈ start ++ (given ++ inserted) := by
    intro x hx
    rw [← List.append_assoc]
    exact List.mem_append_left _ hx
  -- An item that is inserted was neither there at the start nor given before.
  have hnew : ∀ x, inserted = [x] → x ∉ start ++ given := by
    rintro x rfl hmem
    rw [← List.append_assoc] at hfresh
    exact (List.nodup_append.mp hfresh).2.2 x hmem x (List.mem_singleton_self x) rfl
  cases heffect with
  | keep =>
      rw [List.append_nil]
      exact { hpass with
        known := fun x hx => hmore x (hpass.known x hx)
        itemsKnown := fun x hx => hmore x (hpass.itemsKnown x hx) }
  | @advance x rest hahead =>
      have hsame : seen ++ [x] ++ ahead' = seen ++ ahead := by simp [hahead]
      rw [List.append_nil]
      exact ⟨hsame ▸ hpass.nodup, hpass.itemsNodup, hsame ▸ hpass.known, hpass.itemsKnown,
        hsame ▸ hpass.order, hsame ▸ hpass.complete⟩
  | delete keep =>
      rw [List.append_nil, List.append_nil]
      have hless : (seen ++ ahead.filter keep).Sublist (seen ++ ahead) :=
        (List.Sublist.refl seen).append List.filter_sublist
      refine ⟨hpass.nodup.sublist hless, hpass.itemsNodup.sublist List.filter_sublist,
        fun x hx => hpass.known x (hless.subset hx),
        fun x hx => hpass.itemsKnown x (List.mem_of_mem_filter hx),
        (hless.filter _).trans hpass.order, ?_⟩
      intro x hstart hx
      obtain ⟨hitems, hkeep⟩ := List.mem_filter.mp hx
      rcases List.mem_append.mp (hpass.complete x hstart hitems) with hseen | hahead
      · exact List.mem_append_left _ hseen
      · exact List.mem_append_right _ (List.mem_filter.mpr ⟨hahead, hkeep⟩)
  | behind x hn =>
      have hout := hnew x rfl
      obtain ⟨hnodup, hknown, hold⟩ := hpass.insert_items hn hout
      rw [List.append_nil]
      exact ⟨hpass.nodup, hnodup, fun y hy => hmore y (hpass.known y hy), hknown, hpass.order,
        fun y hstart hy => hpass.complete y hstart (hold y hstart hy)⟩
  | @inFront x n k hn hk =>
      have hout := hnew x rfl
      obtain ⟨hnodup, hknown, hold⟩ := hpass.insert_items hn hout
      obtain ⟨hahead, horder⟩ := hpass.insert_ahead hk hout
      have hmem : ∀ y, y ∈ seen ++ ahead.insertIdx k x ↔ y = x ∨ y ∈ seen ++ ahead := by
        intro y
        rw [List.mem_append, List.mem_insertIdx hk, List.mem_append]
        tauto
      rw [List.append_nil]
      refine ⟨hahead, hnodup, ?_, hknown, horder, ?_⟩
      · intro y hy
        rcases (hmem y).mp hy with rfl | hold'
        · simp
        · exact hmore y (hpass.known y hold')
      · intro y hstart hy
        exact (hmem y).mpr (Or.inr (hpass.complete y hstart (hold y hstart hy)))

end Pass

/-! ## What is ahead of a cursor -/

namespace Cursor

variable {items : List α} {n : Nat} {x : α} {c : Cursor}

theorem drop_filter (keep : α → Bool) (items : List α) (n : Nat) :
    (items.filter keep).drop ((items.take n).countP keep) = (items.drop n).filter keep := by
  conv_lhs => rw [← List.take_append_drop n items]
  rw [List.filter_append, List.take_append_drop, List.countP_eq_length_filter, List.drop_left]

theorem drop_insertAt (hn : n ≤ items.length) (c : Cursor) :
    (items.insertIdx n x).drop (c.insertAt n).pos = items.drop c.pos ∨
      ∃ k ≤ (items.drop c.pos).length,
        (items.insertIdx n x).drop (c.insertAt n).pos = (items.drop c.pos).insertIdx k x := by
  rw [insertIdx_eq_append hn]
  unfold insertAt
  split
  next hbefore =>
    have hle : c.pos ≤ n := by omega
    refine Or.inr ⟨n - c.pos, by simp; omega, ?_⟩
    rw [insertIdx_eq_append (by simp; omega), List.drop_append_of_le_length (by simp; omega),
      List.drop_drop, Nat.add_sub_cancel' hle, List.drop_take]
  next hbehind =>
    have hge : n ≤ c.pos := by
      by_contra hlt
      exact hbehind (Or.inl (Nat.lt_of_not_le hlt))
    left
    have hlength : (items.take n).length = n := List.length_take_of_le hn
    have hpos : c.pos + 1 - (items.take n).length = c.pos - n + 1 := by omega
    dsimp only
    rw [List.drop_append, List.drop_of_length_le (by omega), hpos, List.drop_succ_cons,
      List.drop_drop, Nat.add_sub_cancel' hge, List.nil_append]

theorem eraseIdx_eq_filter [DecidableEq α] (hnodup : items.Nodup) (hx : items[n]? = some x) :
    items.eraseIdx n = items.filter (· != x) := by
  obtain ⟨hn, rfl⟩ := List.getElem?_eq_some_iff.mp hx
  rw [← hnodup.erase_eq_filter, hnodup.erase_getElem n hn]

/-- The items in front of the iterator are the kept ones of those that were. -/
theorem removeAt_pos [DecidableEq α] (hnodup : items.Nodup) (hx : items[n]? = some x)
    (hle : c.pos ≤ items.length) :
    (c.removeAt n).pos = (items.take c.pos).countP (· != x) := by
  have hpos : (c.removeAt n).pos = if n < c.pos then c.pos - 1 else c.pos := by
    unfold removeAt
    grind
  have hfront : (items.take c.pos).Nodup := hnodup.sublist (List.take_sublist _ _)
  rw [hpos, List.countP_eq_length_filter]
  split
  next hlt =>
    have hx' : (items.take c.pos)[n]? = some x := by rw [List.getElem?_take_of_lt hlt, hx]
    rw [← eraseIdx_eq_filter hfront hx',
      List.length_eraseIdx_of_lt (by rw [List.length_take_of_le hle]; exact hlt),
      List.length_take_of_le hle]
  next hge =>
    have hout : x ∉ items.take c.pos := by
      intro hmem
      obtain ⟨k, hk, heq⟩ := List.mem_take_iff_getElem.mp hmem
      obtain ⟨hn, rfl⟩ := List.getElem?_eq_some_iff.mp hx
      have hsame : k = n := (hnodup.getElem_inj_iff).mp heq
      omega
    rw [List.filter_eq_self.mpr, List.length_take_of_le hle]
    intro y hy
    rw [bne_iff_ne]
    rintro rfl
    exact hout hy

theorem deleteFrom_pos (f : α → Bool) (hle : c.pos ≤ items.length) :
    (deleteFrom f items 0 c).pos = (items.take c.pos).countP (!f ·) := by
  have hcount := List.length_eq_countP_add_countP f (l := items.take c.pos)
  rw [List.length_take_of_le hle] at hcount
  simp only [deleteFrom, List.drop_zero]
  have hsame : (fun x => decide ¬f x = true) = fun x => !f x := by
    funext x
    cases f x <;> rfl
  rw [hsame] at hcount
  omega

end Cursor

/-! ## Calls -/

namespace Lists

/-- The items that a call inserts. -/
def inserted : Op α σ × Result α σ → List α
  | (.append _ x _, .data (some _)) | (.prepend _ x _, .data (some _))
  | (.insert _ x _, .data (some _)) => [x]
  | _ => []

/-- The items that a call returns from an iterator. -/
def returned (i : Nat) : Op α σ × Result α σ → List α
  | (.next j, .data (some x)) => if j = i then [x] else []
  | _ => []

/-- The calls that leave an iterator in its pass over a list: the list is neither destroyed nor
sorted, its items are not replaced, and the iterator is used for `list_next` and for changes at
its place only. -/
def Op.Keeps (l i : Nat) : Op α σ → Prop
  | .destroy l' | .forEach l' _ _ | .sort l' _ => l' ≠ l
  | .reset j | .release j | .find j _ => j ≠ i
  | _ => True

/-- The items of a list, and those ahead of an iterator of it. -/
structure View (s : Lists α) (l i : Nat) (items ahead : List α) : Prop where
  contents : ∃ fDel, s.lists l = some ⟨items, fDel⟩
  cursor : ∃ c, s.cursors i = some (l, c) ∧ items.drop c.pos = ahead

/-- The iterators are within their lists. -/
def Bounded (s : Lists α) : Prop :=
  ∀ i l c, s.cursors i = some (l, c) → c.pos ≤ (s.items l).length

theorem Bounded.slot_le {s : Lists α} {i l : Nat} {c : Cursor} (hbounded : s.Bounded)
    (hcursor : s.cursors i = some (l, c)) : c.slot ≤ (s.items l).length := by
  have hle := hbounded i l c hcursor
  unfold Cursor.slot
  split <;> omega

namespace View

variable {s : Lists α} {l i : Nat} {items ahead : List α}

theorem items_eq (hview : View s l i items ahead) : s.items l = items := by
  obtain ⟨fDel, hcontents⟩ := hview.contents
  simp [Lists.items, hcontents]

theorem change_self {c : Cursor} (hview : View s l i items ahead)
    (hcursor : s.cursors i = some (l, c)) (items' : List α) (move : Cursor → Cursor) :
    View (s.change l items' move) l i items' (items'.drop (move c).pos) := by
  obtain ⟨fDel, hcontents⟩ := hview.contents
  refine ⟨⟨fDel, ?_⟩, move c, ?_, rfl⟩
  · simp [lists_change, hcontents]
  · simp [cursors_change, hcursor]

theorem change_other {l' : Nat} (hview : View s l i items ahead) (hne : l' ≠ l)
    (items' : List α) (move : Cursor → Cursor) :
    View (s.change l' items' move) l i items ahead := by
  obtain ⟨fDel, hcontents⟩ := hview.contents
  obtain ⟨c, hcursor, hahead⟩ := hview.cursor
  refine ⟨⟨fDel, ?_⟩, c, ?_, hahead⟩
  · simp [lists_change, hne.symm, hcontents]
  · simp [cursors_change, hcursor, hne.symm]

theorem setCursor {j : Nat} (hview : View s l i items ahead) (hne : j ≠ i)
    (cursor : Option (Nat × Cursor)) : View (s.setCursor j cursor) l i items ahead := by
  obtain ⟨c, hcursor, hahead⟩ := hview.cursor
  exact ⟨hview.contents, c, by simp [Lists.setCursor, hne.symm, hcursor], hahead⟩

theorem delete (hview : View s l i items ahead) (l' : Nat) (gone : List α) :
    View (s.delete l' gone) l i items ahead := by
  obtain ⟨fDel, hcontents⟩ := hview.contents
  exact ⟨⟨fDel, by simpa using hcontents⟩, by simpa using hview.cursor⟩

/-- An insertion, in this list or in another one. -/
theorem insertItem {l' n : Nat} (hview : View s l i items ahead) (hn : n ≤ (s.items l').length)
    (x : α) (given : Bool) :
    ∃ items' ahead', View (s.insertItem l' n x given : Result α σ × Lists α).2 l i items' ahead' ∧
      Effect items ahead (if given then [x] else []) [] items' ahead' := by
  obtain ⟨c, hcursor, rfl⟩ := hview.cursor
  cases given with
  | false => exact ⟨_, _, hview, .keep _⟩
  | true =>
      by_cases heq : l' = l
      · subst heq
        have hitems := hview.items_eq
        rw [hitems] at hn
        have hafter := hview.change_self hcursor (items.insertIdx n x) (Cursor.insertAt n)
        refine ⟨_, _, by rw [← hitems] at hafter; exact hafter, ?_⟩
        rw [hitems]
        rcases Cursor.drop_insertAt hn c with hsame | ⟨k, hk, hinsert⟩
        · rw [hsame]
          exact .behind x hn
        · rw [hinsert]
          exact .inFront x hn hk
      · exact ⟨_, _, hview.change_other heq _ _, .keep _⟩

/-- A removal, from this list or from another one. -/
theorem removeItem [DecidableEq α] {l' n : Nat} (hview : View s l i items ahead)
    (hnodup : items.Nodup) (hbounded : s.Bounded) :
    ∃ items' ahead', View (s.removeItem l' n).2 l i items' ahead' ∧
      Effect items ahead [] [] items' ahead' := by
  unfold Lists.removeItem
  cases hx : (s.items l')[n]? with
  | none => exact ⟨_, _, hview, .keep _⟩
  | some x =>
      by_cases heq : l' = l
      · subst heq
        obtain ⟨c, hcursor, rfl⟩ := hview.cursor
        have hitems := hview.items_eq
        have hle := hbounded i l' c hcursor
        rw [hitems] at hx hle
        have hafter := hview.change_self hcursor (items.eraseIdx n) (Cursor.removeAt n)
        refine ⟨_, _, by rw [← hitems] at hafter; exact hafter, ?_⟩
        rw [hitems, Cursor.removeAt_pos hnodup hx hle, Cursor.eraseIdx_eq_filter hnodup hx,
          Cursor.drop_filter]
        exact .delete _
      · exact ⟨_, _, hview.change_other heq _ _, .keep _⟩

/-- The removal of a current item, of this iterator or of another one. -/
theorem removeCurrent [DecidableEq α] (hview : View s l i items ahead) (j : Nat)
    (hnodup : items.Nodup) (hbounded : s.Bounded) :
    ∃ items' ahead', View (s.removeCurrent j).2 l i items' ahead' ∧
      Effect items ahead [] [] items' ahead' := by
  unfold Lists.removeCurrent
  split
  next => exact ⟨_, _, hview, .keep _⟩
  next =>
    split
    · exact hview.removeItem hnodup hbounded
    · exact ⟨_, _, hview, .keep _⟩

/-- The deletion of all selected items, from this list or from another one. -/
theorem deleteAll (l' : Nat) (hview : View s l i items ahead) (hbounded : s.Bounded)
    (f : α → Bool) :
    ∃ items' ahead', View (s.change l' (listDeleteAll f (s.items l'))
        (Cursor.deleteFrom f (s.items l') 0)) l i items' ahead' ∧
      Effect items ahead [] [] items' ahead' := by
  by_cases heq : l' = l
  · subst heq
    obtain ⟨c, hcursor, rfl⟩ := hview.cursor
    have hitems := hview.items_eq
    have hle := hbounded i l' c hcursor
    rw [hitems] at hle ⊢
    refine ⟨_, _, hview.change_self hcursor _ _, ?_⟩
    rw [Cursor.deleteFrom_pos f hle, listDeleteAll, Cursor.drop_filter]
    exact .delete _
  · exact ⟨_, _, hview.change_other heq _ _, .keep _⟩

/-- A step of this iterator, or of another one. -/
theorem nextItem (hview : View s l i items ahead) (j : Nat) :
    ∃ items' ahead', View (s.nextItem j).2 l i items' ahead' ∧
      Effect items ahead [] (if j = i then (s.nextItem j).1.toList else []) items' ahead' := by
  by_cases heq : j = i
  · subst heq
    obtain ⟨c, hcursor, rfl⟩ := hview.cursor
    have hitems := hview.items_eq
    cases hx : items[c.pos]? with
    | none =>
        rw [Lists.nextItem_none hcursor (hitems ▸ hx)]
        refine ⟨items, items.drop c.pos, ⟨hview.contents, ⟨c.pos, false⟩, ?_, rfl⟩, ?_⟩
        · simp [Lists.setCursor]
        · simpa using Effect.keep []
    | some x =>
        rw [Lists.nextItem_some hcursor (hitems ▸ hx)]
        obtain ⟨hlt, rfl⟩ := List.getElem?_eq_some_iff.mp hx
        refine ⟨items, items.drop (c.pos + 1), ⟨hview.contents, ⟨c.pos + 1, true⟩, ?_, rfl⟩, ?_⟩
        · simp [Lists.setCursor]
        · simpa using Effect.advance (List.drop_eq_getElem_cons hlt)
  · rw [if_neg heq]
    unfold Lists.nextItem
    split
    next => exact ⟨_, _, hview, .keep _⟩
    next =>
      split
      · exact ⟨_, _, hview.setCursor heq _, .keep _⟩
      · exact ⟨_, _, hview.setCursor heq _, .keep _⟩

end View

/-- What a call does to a pass that it leaves alone. -/
theorem Step.effect [DecidableEq α] {s s' : Lists α} {label : Op α σ × Result α σ} {l i : Nat}
    {items ahead : List α} (hstep : s.Step label s') (hkeeps : label.1.Keeps l i)
    (hview : View s l i items ahead) (hnodup : items.Nodup) (hbounded : s.Bounded) :
    ∃ items' ahead', View s' l i items' ahead' ∧
      Effect items ahead (inserted label) (returned i label) items' ahead' := by
  obtain ⟨op, result⟩ := label
  obtain ⟨given, ⟨-, hgiven⟩, happly⟩ := hstep
  -- an insertion returns the item exactly if it inserts it
  have hinsert : ∀ {l' n : Nat} {x : α}, n ≤ (s.items l').length →
      s.insertItem l' n x given.isSome = (result, s') → ∃ items' ahead',
        View s' l i items' ahead' ∧
          (result = .data none ∧ Effect items ahead [] [] items' ahead' ∨
            result = .data (some x) ∧ Effect items ahead [x] [] items' ahead') := by
    intro l' n x hn hresult
    obtain ⟨items', ahead', hafter, heffect⟩ := hview.insertItem (σ := σ) hn x given.isSome
    rw [hresult] at hafter
    cases hfound : given.isSome with
    | false =>
        rw [hfound] at hresult heffect
        exact ⟨items', ahead', hafter, Or.inl ⟨(Prod.mk.inj hresult).1.symm, heffect⟩⟩
    | true =>
        rw [hfound] at hresult heffect
        exact ⟨items', ahead', hafter, Or.inr ⟨(Prod.mk.inj hresult).1.symm, heffect⟩⟩
  cases op with
  | create fDel memory =>
      cases given with
      | none =>
          obtain ⟨rfl, rfl⟩ := Prod.mk.inj happly
          exact ⟨_, _, hview, .keep _⟩
      | some l' =>
          obtain ⟨rfl, rfl⟩ := Prod.mk.inj happly
          obtain ⟨fDel', hcontents⟩ := hview.contents
          have hnone : s.lists l' = none := hgiven
          have hne : l ≠ l' := by
            rintro rfl
            rw [hcontents] at hnone
            cases hnone
          exact ⟨_, _, ⟨⟨fDel', by simpa [hne] using hcontents⟩, hview.cursor⟩, .keep _⟩
  | destroy l' =>
      obtain ⟨rfl, rfl⟩ := Prod.mk.inj happly
      have hne : l' ≠ l := hkeeps
      obtain ⟨fDel, hcontents⟩ := hview.contents
      obtain ⟨c, hcursor, hahead⟩ := hview.cursor
      refine ⟨_, _, ⟨⟨fDel, ?_⟩, c, ?_, hahead⟩, .keep _⟩
      · simpa [hne.symm] using hcontents
      · simp [hcursor, Option.filter_some, hne.symm]
  | isEmpty l' | count l' | peek l' | findFirst l' f =>
      obtain ⟨rfl, rfl⟩ := Prod.mk.inj happly
      exact ⟨_, _, hview, .keep _⟩
  | append l' x memory =>
      obtain ⟨items', ahead', hafter, ⟨rfl, heffect⟩ | ⟨rfl, heffect⟩⟩ := hinsert le_rfl happly
      · exact ⟨items', ahead', hafter, heffect⟩
      · exact ⟨items', ahead', hafter, heffect⟩
  | prepend l' x memory =>
      obtain ⟨items', ahead', hafter, ⟨rfl, heffect⟩ | ⟨rfl, heffect⟩⟩ :=
        hinsert (Nat.zero_le _) happly
      · exact ⟨items', ahead', hafter, heffect⟩
      · exact ⟨items', ahead', hafter, heffect⟩
  | pop l' =>
      obtain ⟨rfl, rfl⟩ := Prod.mk.inj happly
      exact hview.removeItem hnodup hbounded
  | deleteAll l' f =>
      obtain ⟨rfl, rfl⟩ := Prod.mk.inj happly
      obtain ⟨items', ahead', hafter, heffect⟩ := hview.deleteAll l' hbounded f
      exact ⟨items', ahead', hafter.delete _ _, heffect⟩
  | forEach l' f state =>
      obtain ⟨rfl, rfl⟩ := Prod.mk.inj happly
      exact ⟨_, _, hview.change_other hkeeps _ _, .keep _⟩
  | sort l' cmp =>
      obtain ⟨rfl, rfl⟩ := Prod.mk.inj happly
      split
      · exact ⟨_, _, hview, .keep _⟩
      · exact ⟨_, _, hview.change_other hkeeps _ _, .keep _⟩
  | iterate l' memory =>
      cases given with
      | none =>
          obtain ⟨rfl, rfl⟩ := Prod.mk.inj happly
          exact ⟨_, _, hview, .keep _⟩
      | some j =>
          obtain ⟨rfl, rfl⟩ := Prod.mk.inj happly
          have hnone : s.cursors j = none := hgiven
          have hne : j ≠ i := by
            rintro rfl
            obtain ⟨c, hcursor, -⟩ := hview.cursor
            rw [hcursor] at hnone
            cases hnone
          exact ⟨_, _, hview.setCursor hne _, .keep _⟩
  | reset j | release j =>
      obtain ⟨rfl, rfl⟩ := Prod.mk.inj happly
      exact ⟨_, _, hview.setCursor hkeeps _, .keep _⟩
  | next j =>
      obtain ⟨rfl, rfl⟩ := Prod.mk.inj happly
      obtain ⟨items', ahead', hafter, heffect⟩ := hview.nextItem j
      refine ⟨items', ahead', hafter, ?_⟩
      have hreturned : returned i ((.next j : Op α σ), .data (s.nextItem j).1) =
          if j = i then (s.nextItem j).1.toList else [] := by
        cases (s.nextItem j).1 with
        | none => simp [returned]
        | some x => rfl
      exact hreturned ▸ heffect
  | insert j x memory =>
      cases hcursor : s.cursors j with
      | none =>
          simp only [apply, hcursor] at happly
          obtain ⟨rfl, rfl⟩ := Prod.mk.inj happly
          exact ⟨_, _, hview, .keep _⟩
      | some place =>
          obtain ⟨l', c⟩ := place
          simp only [apply, hcursor] at happly
          obtain ⟨items', ahead', hafter, ⟨rfl, heffect⟩ | ⟨rfl, heffect⟩⟩ :=
            hinsert (hbounded.slot_le hcursor) happly
          · exact ⟨items', ahead', hafter, heffect⟩
          · exact ⟨items', ahead', hafter, heffect⟩
  | find j f =>
      obtain ⟨rfl, rfl⟩ := Prod.mk.inj happly
      refine ⟨items, ahead, ?_, .keep _⟩
      change View (s.findItem j f).2 l i items ahead
      unfold findItem
      split
      next => exact hview
      next =>
        split
        · exact hview.setCursor hkeeps _
        · exact hview.setCursor hkeeps _
  | remove j =>
      obtain ⟨rfl, rfl⟩ := Prod.mk.inj happly
      exact hview.removeCurrent j hnodup hbounded
  | delete j =>
      obtain ⟨items', ahead', hafter, heffect⟩ := hview.removeCurrent j hnodup hbounded
      cases hcursor : s.cursors j with
      | none =>
          simp only [apply, hcursor] at happly
          obtain ⟨rfl, rfl⟩ := Prod.mk.inj happly
          exact ⟨_, _, hview, .keep _⟩
      | some place =>
          rcases hremove : s.removeCurrent j with ⟨_ | x, after⟩
          · simp only [apply, hcursor, hremove] at happly
            obtain ⟨rfl, rfl⟩ := Prod.mk.inj happly
            exact ⟨_, _, hview, .keep _⟩
          · simp only [apply, hcursor, hremove] at happly
            obtain ⟨rfl, rfl⟩ := Prod.mk.inj happly
            rw [hremove] at hafter
            exact ⟨items', ahead', hafter.delete _ _, heffect⟩

end Lists

/-! ## Passes in memory -/

namespace ListMemory

/-- The items in the nodes of a chain. -/
def itemsFrom (m : ListMemory α) : Nat → Option Nat → List α
  | 0, _ => []
  | _ + 1, none => []
  | fuel + 1, some p => (m.nodes p).toList ++ itemsFrom m fuel (m.link (.next p))

/-- The items of a list. -/
def items (m : ListMemory α) (l : Nat) : List α := m.itemsFrom m.bound (m.link (.root l))

/-- The items that an iterator has in front of it. -/
def ahead (m : ListMemory α) (i : Nat) : List α :=
  (m.iterators i).elim [] fun it => m.itemsFrom m.bound it.pos

/-- A call during the pass of an iterator over a list. -/
def PassStep (l i : Nat) (m : ListMemory α) (label : Lists.Op α σ × Lists.Result α σ)
    (m' : ListMemory α) : Prop :=
  label.1.Keeps l i ∧ m.Step label m'

theorem itemsFrom_eq {m : ListMemory α} {slot : NodeSlot} {cells : List Nat} {items : List α}
    {fuel : Nat} (hchain : Chain.Complete m.link slot cells)
    (hnodes : cells.map m.nodes = items.map some) (hfuel : cells.length < fuel) :
    m.itemsFrom fuel (m.link slot) = items := by
  induction cells generalizing slot items fuel with
  | nil =>
      obtain ⟨fuel, rfl⟩ := Nat.exists_eq_add_one_of_ne_zero (Nat.ne_zero_of_lt hfuel)
      obtain rfl : items = [] := by simpa using hnodes.symm
      rw [Chain.complete_nil.mp hchain]
      rfl
  | cons p cells ih =>
      obtain ⟨fuel, rfl⟩ := Nat.exists_eq_add_one_of_ne_zero (Nat.ne_zero_of_lt hfuel)
      obtain ⟨hlink, hrest⟩ := Chain.complete_cons.mp hchain
      cases items with
      | nil => simp at hnodes
      | cons x items =>
          simp only [List.map_cons, List.cons.injEq] at hnodes
          rw [hlink, itemsFrom, hnodes.1, ih hrest hnodes.2 (by simpa using hfuel)]
          rfl

end ListMemory

namespace Holds

variable {m : ListMemory α} {s : Lists α} {cells : Nat → List Nat} {l i : Nat} {c : Cursor}

theorem bounded (hholds : Holds m s cells) : s.Bounded := by
  intro i l c hcursor
  obtain ⟨it, hit, hheld⟩ := hholds.exists_iterator hcursor
  obtain ⟨list, hlist⟩ := hholds.exists_list hit
  rw [hheld.list] at hlist
  exact hholds.length_items hlist ▸ hheld.le

theorem items_eq (hholds : Holds m s cells) (l : Nat) (hlive : (m.lists l).isSome) :
    m.items l = s.items l := by
  obtain ⟨list, hlist⟩ := Option.isSome_iff_exists.mp hlive
  obtain ⟨contents, hcontents, hheld⟩ := hholds.exists_contents hlist
  have hitems : s.items l = contents.items := by simp [Lists.items, hcontents]
  rw [hitems]
  exact ListMemory.itemsFrom_eq hheld.chain hheld.nodes (hholds.length_lt_bound l)

theorem ahead_eq (hholds : Holds m s cells) (hcursor : s.cursors i = some (l, c)) :
    m.ahead i = (s.items l).drop c.pos := by
  obtain ⟨it, hit, hheld⟩ := hholds.exists_iterator hcursor
  obtain ⟨list, hlist⟩ := hholds.exists_list hit
  rw [hheld.list] at hlist
  obtain ⟨contents, hcontents, hheldList⟩ := hholds.exists_contents hlist
  have hitems : s.items l = contents.items := by simp [Lists.items, hcontents]
  have hchain := hheldList.chain
  have hlink := hchain.link c.pos hheld.le
  rw [← List.take_append_drop c.pos (cells l)] at hchain
  have hnodes : ((cells l).drop c.pos).map m.nodes = (contents.items.drop c.pos).map some := by
    rw [List.map_drop, hheldList.nodes, List.map_drop]
  have hbound := hholds.length_lt_bound l
  rw [hitems, ListMemory.ahead, hit, Option.elim_some, hheld.pos, ← hlink]
  exact ListMemory.itemsFrom_eq (Chain.complete_append.mp hchain).2 hnodes
    (by rw [List.length_drop]; omega)

end Holds

/-- An iterator that was created or reset has all items of its list ahead. -/
theorem Holds.view_start {m : ListMemory α} {s : Lists α} {cells : Nat → List Nat} {l i : Nat}
    (hholds : Holds m s cells)
    (hstart : m.iterators i = some ⟨l, m.link (.root l), .root l⟩) :
    s.View l i (m.items l) (m.items l) := by
  have hlive : (m.lists l).isSome := hholds.owned i _ hstart
  obtain ⟨list, hlist⟩ := Option.isSome_iff_exists.mp hlive
  obtain ⟨contents, hcontents, hheld⟩ := hholds.exists_contents hlist
  obtain ⟨c, hspec, hcursor⟩ := hholds.exists_cursor hstart
  have hitems : m.items l = contents.items := by
    rw [hholds.items_eq l hlive]
    simp [Lists.items, hcontents]
  have hfirst : m.link (.root l) = (cells l)[0]? := by
    simpa using hheld.chain.link 0 (Nat.zero_le _)
  have hpos : c.pos = 0 :=
    (hcursor.pos_eq_iff (hholds.nodup l) (Nat.zero_le _)).mp hfirst
  rw [hitems]
  exact ⟨⟨contents.fDel, hcontents⟩, c, hspec, by rw [hpos, List.drop_zero]⟩

/-- Every run of calls in a pass keeps it. -/
theorem ListMemory.pass_holds [DecidableEq α] {calls : List (Lists.Op α σ × Lists.Result α σ)}
    {m m' : ListMemory α} {s : Lists α} {cells : Nat → List Nat} {l i : Nat} {start : List α}
    (hholds : Holds m s cells) (hview : s.View l i start start)
    (pass : Run (PassStep l i) m calls m')
    (hfresh : (start ++ calls.flatMap Lists.inserted).Nodup) :
    ∃ s' cells' items ahead, Holds m' s' cells' ∧ s'.View l i items ahead ∧
      Pass start (calls.flatMap Lists.inserted) (calls.flatMap (Lists.returned i)) items ahead := by
  induction pass with
  | start =>
      have hnodup : start.Nodup := by simpa using hfresh
      exact ⟨s, cells, start, start, hholds, hview, Pass.start_pass hnodup⟩
  | @extend calls label before after prior last ih =>
      rw [List.flatMap_append, List.flatMap_singleton] at hfresh ⊢
      have hless : (start ++ calls.flatMap Lists.inserted).Nodup := by
        rw [← List.append_assoc] at hfresh
        exact hfresh.sublist (List.sublist_append_left _ _)
      obtain ⟨s₁, cells₁, items, ahead, hholds₁, hview₁, hpass⟩ := ih hless
      obtain ⟨hkeeps, hlive, hcall⟩ := last
      obtain ⟨result, m₂, s₂, cells₂, hcall₂, hstep, hholds₂⟩ := hholds₁.call label.1 hlive
      rw [hcall, Option.some.injEq, Prod.mk.injEq] at hcall₂
      obtain ⟨rfl, rfl⟩ := hcall₂
      obtain ⟨items', ahead', hview₂, heffect⟩ :=
        hstep.effect hkeeps hview₁ hpass.itemsNodup hholds₁.bounded
      rw [List.flatMap_append, List.flatMap_singleton]
      exact ⟨s₂, cells₂, items', ahead', hholds₂, hview₂, hpass.step heffect hfresh⟩

/-- In a pass over a list no item is returned twice, the items of the start are returned in their
order, and those that are still in the list are returned or ahead. -/
theorem ListMemory.pass_visits [DecidableEq α]
    {prior calls : List (Lists.Op α σ × Lists.Result α σ)} {m m' : ListMemory α} {l i : Nat}
    (run : Run ListMemory.Step .initial prior m)
    (hstart : m.iterators i = some ⟨l, m.link (.root l), .root l⟩)
    (pass : Run (PassStep l i) m calls m')
    (hfresh : (m.items l ++ calls.flatMap Lists.inserted).Nodup) :
    (calls.flatMap (Lists.returned i) ++ m'.ahead i).Nodup ∧
      ((calls.flatMap (Lists.returned i)).filter (· ∈ m.items l)).Sublist (m.items l) ∧
      ∀ x ∈ m.items l, x ∈ m'.items l →
        x ∈ calls.flatMap (Lists.returned i) ++ m'.ahead i := by
  obtain ⟨s, cells, -, hholds⟩ := ListMemory.run_holds run
  obtain ⟨s', cells', items, ahead, hholds', hview, hpass⟩ :=
    ListMemory.pass_holds hholds (hholds.view_start hstart) pass hfresh
  have hitems := hview.items_eq
  obtain ⟨c, hcursor, hahead⟩ := hview.cursor
  have hlive : (m'.lists l).isSome := by
    rw [hholds'.lists_isSome]
    obtain ⟨fDel, hcontents⟩ := hview.contents
    simp [hcontents]
  rw [hholds'.ahead_eq hcursor, hholds'.items_eq l hlive, hitems, hahead]
  refine ⟨hpass.nodup, ?_, hpass.complete⟩
  exact ((List.sublist_append_left _ _).filter _).trans hpass.order

/-- The first of two items is deleted when the iterator has returned it. -/
theorem ListMemory.pass_visits_delete : ∃ m m' : ListMemory Nat,
    ([1, 2] ++ m'.ahead 0).Nodup ∧
      ([1, 2].filter (· ∈ m.items 0)).Sublist (m.items 0) ∧
      ∀ x ∈ m.items 0, x ∈ m'.items 0 → x ∈ [1, 2] ++ m'.ahead 0 := by
  have hvisits := ListMemory.pass_visits (σ := Unit) (α := Nat) (l := 0) (i := 0)
    (.extend (.extend (.extend (.extend .start
      (⟨?_, rfl⟩ : ListMemory.Step _ (.create false true, .object (some 0)) _))
      (⟨?_, rfl⟩ : ListMemory.Step _ (.append 0 1 true, .data (some 1)) _))
      (⟨?_, rfl⟩ : ListMemory.Step _ (.append 0 2 true, .data (some 2)) _))
      (⟨?_, rfl⟩ : ListMemory.Step _ (.iterate 0 true, .object (some 0)) _))
    ?_
    (.extend (.extend (.extend .start
      (⟨?_, ?_, rfl⟩ : ListMemory.PassStep 0 0 _ (.next 0, .data (some 1)) _))
      (⟨?_, ?_, rfl⟩ : ListMemory.PassStep 0 0 _ (.delete 0, .number 1) _))
      (⟨?_, ?_, rfl⟩ : ListMemory.PassStep 0 0 _ (.next 0, .data (some 2)) _)) ?_
  · exact ⟨_, _, hvisits⟩
  all_goals first | rfl | trivial

end SlurmSpank.Lib
