import SlurmSpank.Lib.ListNodes

/-! # Iterators in memory

Each call on an iterator does what the cursor says: it moves the iterator over the next items, and
inserts and removes items at its place.
-/

namespace SlurmSpank.Lib

open Foundation

variable {α : Type}

namespace HoldsCursor

variable {cells : Nat → List Nat} {it : ListIterator} {l : Nat} {c : Cursor}

/-- An iterator in front of the first node. -/
theorem start (cells : Nat → List Nat) (l : Nat) :
    HoldsCursor cells ⟨l, (cells l)[0]?, .root l⟩ l .start := by
  constructor <;> simp [Cursor.start, Cursor.slot]

/-- An iterator at the end has no current node. -/
theorem next_none (hholds : HoldsCursor cells it l c) (hend : (cells l)[c.pos]? = none) :
    HoldsCursor cells ⟨it.list, none, Chain.slotAt (.root l) (cells l) c.pos⟩ l
      ⟨c.pos, false⟩ where
  list := hholds.list
  le := hholds.le
  current := by simp
  pos := hend.symm
  prev := rfl

/-- The next node is the current one of an iterator that returned it. -/
theorem next_some {p : Nat} (hholds : HoldsCursor cells it l c)
    (hp : (cells l)[c.pos]? = some p) :
    HoldsCursor cells ⟨it.list, (cells l)[c.pos + 1]?, Chain.slotAt (.root l) (cells l) c.pos⟩ l
      ⟨c.pos + 1, true⟩ where
  list := hholds.list
  le := (List.getElem?_eq_some_iff.mp hp).1
  current _ := Nat.succ_pos _
  pos := rfl
  prev := rfl

/-- An iterator has a current node exactly when its address leads to another node than the next
one. -/
theorem slot_eq_pos_iff (hholds : HoldsCursor cells it l c) (hnodup : (cells l).Nodup) :
    (cells l)[c.slot]? = it.pos ↔ c.current = false := by
  rw [eq_comm, hholds.pos_eq_iff hnodup hholds.slot_le, Cursor.slot]
  cases hcurrent : c.current with
  | false => simp
  | true =>
      have hpos := hholds.current hcurrent
      simp
      omega

/-- The node behind the address of an iterator with a current node is in front of the next one. -/
theorem current_node (hholds : HoldsCursor cells it l c) (hcurrent : c.current = true) :
    ∃ p, (cells l)[c.slot]? = some p ∧ Slot.next p = Chain.slotAt (.root l) (cells l) c.pos := by
  have hpos := hholds.current hcurrent
  have hle := hholds.le
  have hslot : c.slot = c.pos - 1 := if_pos hcurrent
  have hlt : c.slot < (cells l).length := by omega
  have hp : (cells l)[c.slot]? = some (cells l)[c.slot] := List.getElem?_eq_getElem hlt
  have hbehind : c.pos = c.slot + 1 := by omega
  exact ⟨_, hp, by rw [hbehind, Chain.slotAt_succ hp]⟩

end HoldsCursor

namespace Holds

variable {m : ListMemory α} {s : Lists α} {cells : Nat → List Nat} {l i : Nat} {c : Cursor}
  {list : ListObject} {it : ListIterator}

/-- The lists do not depend on their iterators. -/
theorem lists_congr (m' : ListMemory α) (hholds : Holds m s cells) (hlists : m'.lists = m.lists)
    (hlink : m'.link = m.link) (hnodes : m'.nodes = m.nodes) (l : Nat) :
    Option.Rel (HoldsList m' l (cells l)) (m'.lists l) (s.lists l) := by
  rw [hlists]
  have hrel := hholds.lists l
  generalize m.lists l = found at hrel
  generalize s.lists l = spec at hrel
  cases hrel with
  | none => exact .none
  | some hheld =>
      exact .some (hheld.congr (by rw [hlink]) (fun _ _ => by rw [hlink]) fun _ _ => by rw [hnodes])

/-- An iterator moves in its list. -/
theorem setIterator {it' : ListIterator} (hholds : Holds m s cells)
    (hit : m.iterators i = some it) (hcursor : HoldsCursor cells it' it.list c) :
    Holds (m.setIterator i (some it')) (s.setCursor i (some (it.list, c))) cells := by
  have hmem : ∀ j l, (∃ it'', Function.update m.iterators i (some it') j = some it'' ∧
      it''.list = l) ↔ ∃ it'', m.iterators j = some it'' ∧ it''.list = l := by
    intro j l
    by_cases heq : j = i
    · subst heq
      simp [hit, hcursor.list]
    · simp [heq]
  refine { hholds with
    lists := hholds.lists_congr _ rfl rfl rfl, cursors := ?_, chains := ?_, owned := ?_,
    freeIterators := ?_ }
  · intro j
    by_cases heq : j = i
    · subst heq
      simpa [ListMemory.setIterator, Lists.setCursor] using Option.Rel.some hcursor
    · simpa [ListMemory.setIterator, Lists.setCursor, heq] using hholds.cursors j
  · intro l list hlist
    have hchain := hholds.chains l list hlist
    exact ⟨hchain.nodup, fun j => (hchain.mem_iff j).trans (hmem j l).symm⟩
  · intro j it'' hit''
    obtain ⟨old, hold, hsame⟩ := (hmem j it''.list).mp ⟨it'', hit'', rfl⟩
    rw [← hsame]
    exact hholds.owned j old hold
  · refine hholds.freeIterators.congr fun j => ?_
    by_cases heq : j = i
    · simp [ListMemory.setIterator, heq, hit]
    · simp [ListMemory.setIterator, heq]

/-- The iterator that a cursor stands for. -/
theorem exists_iterator (hholds : Holds m s cells) (hspec : s.cursors i = some (l, c)) :
    ∃ it, m.iterators i = some it ∧ HoldsCursor cells it l c := by
  have hrel := hholds.cursors i
  rw [hspec] at hrel
  generalize m.iterators i = found at hrel
  cases hrel with
  | some hcursor => exact ⟨_, rfl, hcursor⟩

theorem exists_list (hholds : Holds m s cells) (hit : m.iterators i = some it) :
    ∃ list, m.lists it.list = some list :=
  Option.isSome_iff_exists.mp (hholds.owned i it hit)

/-- What an iterator reads through its address, and the node that it returns next. -/
theorem load_prev (hholds : Holds m s cells) (hit : m.iterators i = some it)
    (hcursor : HoldsCursor cells it it.list c) :
    m.load it.prev = some (cells it.list)[c.slot]? := by
  obtain ⟨list, hlist⟩ := hholds.exists_list hit
  obtain ⟨contents, -, hheld⟩ := hholds.exists_contents hlist
  rw [hcursor.prev]
  exact hheld.load_slotAt (by simp [hlist]) hcursor.slot_le

/-! ## Operations -/

theorem iteratorReset (hholds : Holds m s cells) (hit : m.iterators i = some it) :
    ∃ m', m.listIteratorReset i = some m' ∧
      Holds m' (s.setCursor i ((s.cursors i).map fun (l, _) => (l, .start))) cells := by
  obtain ⟨list, hlist⟩ := hholds.exists_list hit
  obtain ⟨contents, -, hheld⟩ := hholds.exists_contents hlist
  obtain ⟨c, hspec, hcursor⟩ := hholds.exists_cursor hit
  have hload := hheld.load_slotAt (by simp [hlist]) (Nat.zero_le _)
  rw [Chain.slotAt_zero] at hload
  rw [hspec]
  refine ⟨_, ?_, hholds.setIterator hit (.start cells it.list)⟩
  simp [ListMemory.listIteratorReset, hit, hload]

/-- The iterator moves over the next item. -/
theorem next (hholds : Holds m s cells) (hit : m.iterators i = some it) :
    ∃ m', m.listNext i = some ((s.nextItem i).1, m') ∧ Holds m' (s.nextItem i).2 cells := by
  obtain ⟨list, hlist⟩ := hholds.exists_list hit
  obtain ⟨contents, hcontents, hheld⟩ := hholds.exists_contents hlist
  obtain ⟨c, hspec, hcursor⟩ := hholds.exists_cursor hit
  have hlive : (m.lists it.list).isSome := by simp [hlist]
  have hitems : s.items it.list = contents.items := by simp [Lists.items, hcontents]
  have hprev := hholds.load_prev hit hcursor
  -- in both cases the new address is that of the slot in front of the node that is returned
  have hslot : (if (cells it.list)[c.slot]? = it.pos then some it.prev
      else ((cells it.list)[c.slot]?).map Slot.next) =
        some (Chain.slotAt (.root it.list) (cells it.list) c.pos) := by
    have hsame := hcursor.slot_eq_pos_iff (hholds.nodup _)
    cases hcurrent : c.current with
    | false =>
        rw [if_pos (hsame.mpr hcurrent), hcursor.prev, Cursor.slot, hcurrent]
        rfl
    | true =>
        obtain ⟨p, hp, hnext⟩ := hcursor.current_node hcurrent
        rw [if_neg (by simp [hsame, hcurrent]), hp, Option.map_some, hnext]
  cases hp : (cells it.list)[c.pos]? with
  | none =>
      have hend : contents.items[c.pos]? = none := by
        have hle := List.getElem?_eq_none_iff.mp hp
        exact List.getElem?_eq_none (hheld.length_cells ▸ hle)
      have hpos : it.pos = none := hcursor.pos.trans hp
      rw [hpos] at hslot
      have hresult : s.nextItem i = (none, s.setCursor i (some (it.list, ⟨c.pos, false⟩))) := by
        simp [Lists.nextItem, hspec, hitems, hend]
      rw [hresult]
      refine ⟨_, ?_, hholds.setIterator hit (hcursor.next_none hp)⟩
      simp only [ListMemory.listNext, hit, hpos, hprev, Option.bind_eq_bind, Option.bind_some,
        hslot]
      rfl
  | some p =>
      obtain ⟨x, hx, hnode⟩ := hheld.node hp
      have hnext := hheld.load_next hlive hp
      have hpos : it.pos = some p := hcursor.pos.trans hp
      rw [hpos] at hslot
      have hresult :
          s.nextItem i = (some x, s.setCursor i (some (it.list, ⟨c.pos + 1, true⟩))) := by
        simp [Lists.nextItem, hspec, hitems, hx]
      rw [hresult]
      refine ⟨_, ?_, hholds.setIterator hit (hcursor.next_some hp)⟩
      simp only [ListMemory.listNext, hit, hpos, hprev, hnext, Option.bind_eq_bind,
        Option.bind_some, hslot, ListMemory.setIterator, hnode]
      rfl

end Holds

namespace Lists

variable {s : Lists α} {l i : Nat} {c : Cursor}

@[simp] theorem items_setCursor (s : Lists α) (i l : Nat) (cursor : Option (Nat × Cursor)) :
    (s.setCursor i cursor).items l = s.items l := rfl

theorem nextItem_none (hcursor : s.cursors i = some (l, c)) (hend : (s.items l)[c.pos]? = none) :
    s.nextItem i = (none, s.setCursor i (some (l, ⟨c.pos, false⟩))) := by
  simp only [nextItem, hcursor, hend]

theorem nextItem_some {x : α} (hcursor : s.cursors i = some (l, c))
    (hx : (s.items l)[c.pos]? = some x) :
    s.nextItem i = (some x, s.setCursor i (some (l, ⟨c.pos + 1, true⟩))) := by
  simp only [nextItem, hcursor, hx]

@[simp] theorem setCursor_setCursor (s : Lists α) (i : Nat)
    (first second : Option (Nat × Cursor)) :
    (s.setCursor i first).setCursor i second = s.setCursor i second := by
  simp [setCursor]

/-- The search of an iterator takes one item after the other. -/
theorem findItem_eq_nextItem (hcursor : s.cursors i = some (l, c))
    (hle : c.pos ≤ (s.items l).length) (f : α → Bool) :
    s.findItem i f =
      match s.nextItem i with
      | (none, s) => (none, s)
      | (some x, s) => if f x then (some x, s) else s.findItem i f := by
  rw [findItem, nextItem, hcursor]
  dsimp only
  rcases Nat.lt_or_ge c.pos (s.items l).length with hlt | hge
  · have hx : (s.items l)[c.pos]? = some (s.items l)[c.pos] := List.getElem?_eq_getElem hlt
    rw [hx, List.drop_eq_getElem_cons hlt, List.findIdx?_cons]
    dsimp only
    by_cases hfound : f (s.items l)[c.pos]
    · simp [hfound, hx]
    · have hnext : (s.setCursor i (some (l, ⟨c.pos + 1, true⟩))).cursors i =
          some (l, ⟨c.pos + 1, true⟩) := by
        simp [setCursor]
      rw [if_neg hfound, if_neg hfound, findItem, hnext]
      dsimp only [items_setCursor]
      cases (List.drop (c.pos + 1) (s.items l)).findIdx? f with
      | none => simp
      | some n =>
          have hpos : c.pos + (n + 1) = c.pos + 1 + n := by omega
          simp [hpos]
  · have hend : c.pos = (s.items l).length := Nat.le_antisymm hle hge
    simp [hend]

end Lists

namespace Holds

variable {m : ListMemory α} {s : Lists α} {cells : Nat → List Nat} {l i : Nat} {c : Cursor}
  {list : ListObject} {it : ListIterator}

theorem length_items (hholds : Holds m s cells) (hlist : m.lists l = some list) :
    (cells l).length = (s.items l).length := by
  obtain ⟨contents, hcontents, hheld⟩ := hholds.exists_contents hlist
  simpa [Lists.items, hcontents] using hheld.length_cells

/-- The iterator moves over the items up to the first that it looks for. -/
theorem find (hholds : Holds m s cells) (hspec : s.cursors i = some (l, c)) (f : α → Bool)
    {fuel : Nat} (hfuel : (s.items l).length - c.pos < fuel) :
    ∃ m', ListMemory.listFind i f fuel m = some ((s.findItem i f).1, m') ∧
      Holds m' (s.findItem i f).2 cells := by
  induction fuel generalizing m s c with
  | zero => exact absurd hfuel (Nat.not_lt_zero _)
  | succ fuel ih =>
      obtain ⟨it, hit, hcursor⟩ := hholds.exists_iterator hspec
      obtain ⟨list, hlist⟩ := hholds.exists_list hit
      rw [hcursor.list] at hlist
      have hle := hcursor.le
      rw [hholds.length_items hlist] at hle
      obtain ⟨m', hnext, hholds'⟩ := hholds.next hit
      rw [Lists.findItem_eq_nextItem hspec hle, ListMemory.listFind, hnext]
      cases hx : (s.items l)[c.pos]? with
      | none =>
          rw [Lists.nextItem_none hspec hx] at hholds' ⊢
          exact ⟨m', rfl, hholds'⟩
      | some x =>
          rw [Lists.nextItem_some hspec hx] at hholds' ⊢
          by_cases hfound : f x = true
          · simp only [hfound, if_true]
            exact ⟨m', by simp [hfound], hholds'⟩
          · have hlt := (List.getElem?_eq_some_iff.mp hx).1
            have hrest := ih hholds' (c := ⟨c.pos + 1, true⟩) (by simp [Lists.setCursor])
              (by simp; omega)
            simpa [hfound] using hrest

/-- An item is inserted in front of some others, if there is memory for its node. -/
theorem insertItem {σ : Type} (hholds : Holds m s cells) (hlist : m.lists l = some list) {n : Nat}
    (hn : n ≤ (cells l).length) (x : α) (memory : Bool) :
    ∃ (given : Bool) (m' : ListMemory α) (cells' : Nat → List Nat) (result : Option α),
      m.listNodeCreate l (Chain.slotAt (.root l) (cells l) n) x memory = some (result, m') ∧
      (s.insertItem l n x given : Lists.Result α σ × Lists α).1 = .data result ∧
      Holds m' (s.insertItem l n x given : Lists.Result α σ × Lists α).2 cells' ∧
      (memory = true → given = true) := by
  rcases hholds.nodeCreate hlist hn x memory with ⟨hcreate, hmemory⟩ | ⟨p, m', hcreate, hholds'⟩
  · exact ⟨false, m, cells, none, hcreate, rfl, hholds, by simp [hmemory]⟩
  · exact ⟨true, m', _, some x, hcreate, rfl, hholds', fun _ => rfl⟩

/-- The item behind some others is removed, if there is one. -/
theorem removeItem (hholds : Holds m s cells) (hlist : m.lists l = some list) {n : Nat}
    (hn : n ≤ (cells l).length) :
    ∃ m' cells', m.listNodeDestroy l (Chain.slotAt (.root l) (cells l) n) =
        some ((s.removeItem l n).1, m') ∧ Holds m' (s.removeItem l n).2 cells' := by
  rcases hholds.nodeDestroy hlist hn with ⟨hend, hdestroy⟩ | ⟨p, x, m', -, hx, hdestroy, hholds'⟩
  · have hend' : (s.items l)[n]? = none := by
      rw [List.getElem?_eq_none_iff, ← hholds.length_items hlist]
      exact List.getElem?_eq_none_iff.mp hend
    exact ⟨m, cells, by simpa [Lists.removeItem, hend'] using hdestroy,
      by simpa [Lists.removeItem, hend'] using hholds⟩
  · exact ⟨m', _, by simpa [Lists.removeItem, hx] using hdestroy,
      by simpa [Lists.removeItem, hx] using hholds'⟩

/-- The current item of an iterator is removed, if there is one. -/
theorem removeCurrent (hholds : Holds m s cells) (hit : m.iterators i = some it) :
    ∃ m' cells', m.listRemove i = some ((s.removeCurrent i).1, m') ∧
      Holds m' (s.removeCurrent i).2 cells' := by
  obtain ⟨list, hlist⟩ := hholds.exists_list hit
  obtain ⟨c, hspec, hcursor⟩ := hholds.exists_cursor hit
  have hprev := hholds.load_prev hit hcursor
  have hsame := hcursor.slot_eq_pos_iff (hholds.nodup _)
  have hremove : m.listRemove i =
      if c.current then m.listNodeDestroy it.list it.prev else some (none, m) := by
    simp only [ListMemory.listRemove, hit, hprev, hsame, Option.bind_eq_bind, Option.bind_some]
    cases c.current <;> rfl
  have hresult : s.removeCurrent i =
      if c.current then s.removeItem it.list c.slot else (none, s) := by
    simp only [Lists.removeCurrent, hspec]
  rw [hremove, hresult]
  cases hcurrent : c.current with
  | false => exact ⟨m, cells, rfl, hholds⟩
  | true =>
      rw [if_pos rfl, if_pos rfl, hcursor.prev]
      exact hholds.removeItem hlist hcursor.slot_le

/-- An iterator of a list joins its chain or leaves it. -/
theorem rechain {m' : ListMemory α} {it' : Option ListIterator} {cursor : Option Cursor}
    {iNext : List Nat} (hholds : Holds m s cells) (hlist : m.lists l = some list)
    (hlists : m'.lists = Function.update m.lists l (some { list with iNext }))
    (hiterators : m'.iterators = Function.update m.iterators i it')
    (hcursor : Option.Rel (fun it c => HoldsCursor cells it l c) it' cursor)
    (hbefore : ∀ it, m.iterators i = some it → it.list = l) (hnodup : iNext.Nodup)
    (hmem : ∀ j, j ∈ iNext ↔ if j = i then it'.isSome = true else j ∈ list.iNext)
    (hlink : m'.link = m.link) (hnodes : m'.nodes = m.nodes)
    (hfreeLists : m'.freeLists = m.freeLists) (hfreeNodes : m'.freeNodes = m.freeNodes)
    (hfreeIterators : m'.freeIterators.Owns fun j => (m'.iterators j).isSome)
    (hdeleted : m'.deleted = m.deleted) :
    Holds m' (s.setCursor i (cursor.map fun c => (l, c))) cells := by
  have hlive : ∀ l', (m'.lists l').isSome = (m.lists l').isSome := by
    intro l'
    rw [hlists]
    by_cases heq : l' = l
    · simp [heq, hlist]
    · rw [Function.update_of_ne heq]
  -- Only the chain of this list and this iterator change.
  have hafter : ∀ it, it' = some it → it.list = l := by
    rintro it rfl
    cases hcursor with
    | some hholds' => exact hholds'.list
  constructor
  · intro l'
    by_cases heq : l' = l
    · subst heq
      obtain ⟨contents, hcontents, hheld⟩ := hholds.exists_contents hlist
      have hheld' : HoldsItems m' l' (cells l') contents.items :=
        hheld.toHoldsItems.congr (by rw [hlink]) (fun _ _ => by rw [hlink])
          fun _ _ => by rw [hnodes]
      rw [hlists, Function.update_self]
      change Option.Rel _ _ (s.lists l')
      rw [hcontents]
      exact .some ⟨hheld', hheld.tail, hheld.count, hheld.fDel⟩
    · have hrel := hholds.lists_congr { m' with lists := m.lists } rfl hlink hnodes l'
      have hsame : m'.lists l' = m.lists l' := by rw [hlists, Function.update_of_ne heq]
      rw [hsame]
      change Option.Rel _ _ (s.lists l')
      generalize s.lists l' = spec at hrel
      change Option.Rel _ (m.lists l') spec at hrel
      generalize m.lists l' = found at hrel
      cases hrel with
      | none => exact .none
      | some hheld => exact .some (hheld.congr rfl (fun _ _ => rfl) fun _ _ => rfl)
  · intro j
    rw [hiterators]
    by_cases heq : j = i
    · subst heq
      cases hcursor with
      | none => simp [Lists.setCursor]
      | some hholds' => simpa [Lists.setCursor] using Option.Rel.some hholds'
    · simpa [Lists.setCursor, heq] using hholds.cursors j
  · intro l' list' hlist'
    rw [hlists] at hlist'
    by_cases heq : l' = l
    · subst heq
      obtain rfl : _ = list' := by simpa using hlist'
      refine ⟨hnodup, fun j => (hmem j).trans ?_⟩
      rw [hiterators]
      by_cases hj : j = i
      · subst hj
        rw [if_pos rfl, Function.update_self, Option.isSome_iff_exists]
        exact ⟨fun ⟨it, hit⟩ => ⟨it, hit, hafter it hit⟩, fun ⟨it, hit, _⟩ => ⟨it, hit⟩⟩
      · rw [if_neg hj, Function.update_of_ne hj]
        exact (hholds.chains l' list hlist).mem_iff j
    · rw [Function.update_of_ne heq] at hlist'
      have hother := hholds.chains l' list' hlist'
      refine ⟨hother.nodup, fun j => (hother.mem_iff j).trans ?_⟩
      rw [hiterators]
      by_cases hj : j = i
      · subst hj
        rw [Function.update_self]
        constructor
        · rintro ⟨it, hit, hl'⟩
          exact absurd (hl'.symm.trans (hbefore it hit)) heq
        · rintro ⟨it, hit, hl'⟩
          exact absurd (hl'.symm.trans (hafter it hit)) heq
      · rw [Function.update_of_ne hj]
  · intro j it hit
    rw [hiterators] at hit
    rw [hlive]
    by_cases heq : j = i
    · subst heq
      rw [Function.update_self] at hit
      simp [hafter it hit, hlist]
    · rw [Function.update_of_ne heq] at hit
      exact hholds.owned j it hit
  · exact hholds.nodup
  · exact hholds.disjoint
  · intro p
    rw [hnodes]
    exact hholds.used p
  · intro l' hnone
    have hsame := hlive l'
    rw [hnone] at hsame
    exact hholds.unused l' (by simpa using hsame.symm)
  · rw [hfreeLists]
    exact hholds.freeLists.congr fun l' => by rw [hlive]
  · rw [hfreeNodes, hnodes]
    exact hholds.freeNodes
  · exact hfreeIterators
  · rw [hdeleted]
    exact hholds.deleted

/-- A new iterator is in front of the first item. -/
theorem iteratorCreate (hholds : Holds m s cells) (hlist : m.lists l = some list)
    (memory : Bool) :
    ∃ given m', m.listIteratorCreate l memory = some (given, m') ∧
      (∀ i, given = some i → s.cursors i = none) ∧
      Holds m' (given.elim s fun i => s.setCursor i (some (l, .start))) cells ∧
      (memory = true → given.isSome = true) := by
  unfold ListMemory.listIteratorCreate
  cases htake : m.freeIterators.take listAllocChunk memory with
  | none =>
      refine ⟨none, m, rfl, by simp, hholds, ?_⟩
      rintro rfl
      obtain ⟨_, _, htake'⟩ := m.freeIterators.exists_take (show 0 < listAllocChunk by decide)
      rw [htake] at htake'
      cases htake'
  | some taken =>
      obtain ⟨i, freeIterators⟩ := taken
      obtain ⟨hdead, hfree⟩ := hholds.freeIterators.take htake
      have hnone : m.iterators i = none := by simpa using hdead
      obtain ⟨contents, hcontents, hheld⟩ := hholds.exists_contents hlist
      have hload := hheld.load_slotAt (by simp [hlist]) (Nat.zero_le _)
      rw [Chain.slotAt_zero] at hload
      have hspec : s.cursors i = none := by
        have hrel := hholds.cursors i
        rw [hnone] at hrel
        generalize s.cursors i = found at hrel
        cases hrel
        rfl
      have hchain := hholds.chains l list hlist
      have hout : i ∉ list.iNext := by
        rw [hchain.mem_iff, hnone]
        simp
      refine ⟨some i, { m with
          lists := Function.update m.lists l (some { list with iNext := i :: list.iNext })
          iterators := Function.update m.iterators i (some ⟨l, (cells l)[0]?, .root l⟩)
          freeIterators := freeIterators }, ?_, ?_, ?_, by simp⟩
      · simp [hlist, hload, ListMemory.setIterator, ListMemory.setList]
      · rintro _ ⟨⟩
        exact hspec
      have hcursor : Option.Rel (fun it c => HoldsCursor cells it l c)
          (some ⟨l, (cells l)[0]?, .root l⟩) (some .start) := .some (.start cells l)
      refine hholds.rechain hlist rfl rfl hcursor ?_
        (List.nodup_cons.mpr ⟨hout, hchain.nodup⟩) ?_ rfl rfl rfl rfl ?_ rfl
      · simp [hnone]
      · intro j
        by_cases heq : j = i
        · simp [heq]
        · simp [heq]
      · refine hfree.congr fun j => ?_
        by_cases heq : j = i
        · simp [heq]
        · simp [heq]

theorem iteratorDestroy (hholds : Holds m s cells) (hit : m.iterators i = some it) :
    ∃ m', m.listIteratorDestroy i = some m' ∧ Holds m' (s.setCursor i none) cells := by
  obtain ⟨list, hlist⟩ := hholds.exists_list hit
  have hchain := hholds.chains it.list list hlist
  refine ⟨_, by simp only [ListMemory.listIteratorDestroy, hit, hlist, Option.bind_eq_bind,
    Option.bind_some]; rfl, ?_⟩
  have hcursor : Option.Rel (fun it' c => HoldsCursor cells it' it.list c) none none := .none
  refine hholds.rechain hlist rfl rfl hcursor ?_
    (hchain.nodup.erase i) ?_ rfl rfl rfl rfl ?_ rfl
  · intro it' hit'
    rw [hit, Option.some.injEq] at hit'
    rw [hit']
  · intro j
    rw [hchain.nodup.mem_erase_iff]
    by_cases heq : j = i
    · simp [heq]
    · simp [heq]
  · refine (hholds.freeIterators.release (by simp [hit])).congr fun j => ?_
    by_cases heq : j = i
    · simp [ListMemory.setList, ListMemory.setIterator, heq]
    · simp [ListMemory.setList, ListMemory.setIterator, heq]

/-- The deletion function of a list is called on an item. -/
theorem callDelete {contents : Contents α} (hholds : Holds m s cells)
    (hcontents : s.lists l = some contents) (x : α) :
    Holds (m.callDelete contents.fDel x) (s.delete l [x]) cells := by
  obtain ⟨items, fDel⟩ := contents
  unfold ListMemory.callDelete Lists.delete
  rw [hcontents]
  cases fDel with
  | false => exact hholds
  | true =>
      refine { hholds with
        lists := hholds.lists_congr _ rfl rfl rfl
        chains := fun l list hlist => ?_
        deleted := ?_ }
      · exact ⟨(hholds.chains l list hlist).nodup, (hholds.chains l list hlist).mem_iff⟩
      · simp [hholds.deleted]

end Holds

end SlurmSpank.Lib
