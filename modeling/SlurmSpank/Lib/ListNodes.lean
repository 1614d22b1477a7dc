import Mathlib.Data.Option.Basic
import SlurmSpank.Lib.ListPlaces

/-! # How the memory holds the lists

The cells of each list are the nodes of its chain. Creating a node behind a slot inserts an item
there, and destroying the node behind a slot removes its item; the iterators in the chain of the
list keep their places, and nothing else changes.
-/

namespace SlurmSpank.Lib

open Foundation

variable {α : Type}

/-! ## The whole memory -/

/-- The chain of a list leads through the given cells, which hold the items. -/
structure HoldsItems (m : ListMemory α) (l : Nat) (cells : List Nat) (items : List α) : Prop where
  chain : Chain.Complete m.link (.root l) cells
  nodes : cells.map m.nodes = items.map some

/-- A list holds its items in the given cells. -/
structure HoldsList (m : ListMemory α) (l : Nat) (cells : List Nat) (list : ListObject)
    (contents : Contents α) : Prop extends HoldsItems m l cells contents.items where
  tail : list.tail = Chain.last (.root l) cells
  count : list.count = contents.items.length
  fDel : list.fDel = contents.fDel

/-- The chain of a list has its iterators. -/
structure HoldsChain (m : ListMemory α) (l : Nat) (list : ListObject) : Prop where
  nodup : list.iNext.Nodup
  mem_iff : ∀ i, i ∈ list.iNext ↔ ∃ it, m.iterators i = some it ∧ it.list = l

/-- The memory holds the lists and their cursors, each list in its own cells, and every object is
in use or free. -/
structure Holds (m : ListMemory α) (s : Lists α) (cells : Nat → List Nat) : Prop where
  lists : ∀ l, Option.Rel (HoldsList m l (cells l)) (m.lists l) (s.lists l)
  cursors : ∀ i, Option.Rel (fun it c => HoldsCursor cells it c.1 c.2) (m.iterators i) (s.cursors i)
  chains : ∀ l list, m.lists l = some list → HoldsChain m l list
  owned : ∀ i it, m.iterators i = some it → (m.lists it.list).isSome
  nodup : ∀ l, (cells l).Nodup
  disjoint : ∀ l l' p, p ∈ cells l → p ∈ cells l' → l = l'
  used : ∀ p, (m.nodes p).isSome ↔ ∃ l, p ∈ cells l
  unused : ∀ l, m.lists l = none → cells l = []
  freeLists : m.freeLists.Owns fun l => (m.lists l).isSome
  freeNodes : m.freeNodes.Owns fun p => (m.nodes p).isSome
  freeIterators : m.freeIterators.Owns fun i => (m.iterators i).isSome
  deleted : m.deleted = s.deleted

theorem holds_initial : Holds (.initial : ListMemory α) .initial fun _ => [] := by
  constructor <;> simp [ListMemory.initial, Lists.initial, FreeList.owns_empty]

namespace ListMemory

variable {m : ListMemory α} {s : Lists α} {cells : Nat → List Nat} {l p i : Nat}
  {list : ListObject} {contents : Contents α} {it : ListIterator} {c : Cursor}

theorem load_of_inUse {pp : NodeSlot} (huse : m.inUse pp = true) : m.load pp = some (m.link pp) :=
  if_pos huse

theorem store_of_inUse {pp : NodeSlot} (huse : m.inUse pp = true) (p : Option Nat) :
    m.store pp p = some { m with link := Function.update m.link pp p } :=
  if_pos huse

end ListMemory

namespace HoldsItems

variable {m : ListMemory α} {cells : List Nat} {items : List α} {l p n : Nat}

theorem length_cells (hheld : HoldsItems m l cells items) :
    cells.length = items.length := by
  rw [← List.length_map (f := m.nodes), hheld.nodes, List.length_map]

theorem node (hheld : HoldsItems m l cells items) (hp : cells[n]? = some p) :
    ∃ x, items[n]? = some x ∧ m.nodes p = some x := by
  have hnode := congrArg (·[n]?) hheld.nodes
  simp only [List.getElem?_map, hp, Option.map_some] at hnode
  cases hitem : items[n]? with
  | none => simp [hitem] at hnode
  | some x => exact ⟨x, rfl, by simpa [hitem] using hnode⟩

theorem inUse_slotAt (hheld : HoldsItems m l cells items) (hlive : (m.lists l).isSome)
    (hn : n ≤ cells.length) : m.inUse (Chain.slotAt (.root l) cells n) = true := by
  cases n with
  | zero => simpa [ListMemory.inUse] using hlive
  | succ n =>
      have hp : cells[n]? = some cells[n] := List.getElem?_eq_getElem hn
      obtain ⟨x, -, hx⟩ := hheld.node hp
      simp [Chain.slotAt_succ hp, ListMemory.inUse, hx]

/-- The slots of a list are in use, and lead to its cells. -/
theorem load_slotAt (hheld : HoldsItems m l cells items) (hlive : (m.lists l).isSome)
    (hn : n ≤ cells.length) : m.load (Chain.slotAt (.root l) cells n) = some cells[n]? := by
  rw [ListMemory.load_of_inUse (hheld.inUse_slotAt hlive hn), Chain.slotAt, hheld.chain.link n hn]

theorem load_next (hheld : HoldsItems m l cells items) (hlive : (m.lists l).isSome)
    (hp : cells[n]? = some p) : m.load (.next p) = some cells[n + 1]? := by
  have hn := (List.getElem?_eq_some_iff.mp hp).1
  have hslot : Chain.slotAt (.root l) cells (n + 1) = .next p := Chain.slotAt_succ hp
  rw [← hslot]
  exact hheld.load_slotAt hlive hn

/-- The assertion about an iterator holds. -/
theorem assertIterator {cells : Nat → List Nat} {it : ListIterator} {c : Cursor}
    (hheld : HoldsItems m l (cells l) items) (hlive : (m.lists l).isSome)
    (hcursor : HoldsCursor cells it l c) : m.assertIterator it = some () := by
  have hload := hheld.load_slotAt hlive hcursor.slot_le
  rw [← hcursor.prev] at hload
  unfold ListMemory.assertIterator
  simp only [hload, Option.bind_eq_bind, Option.bind_some]
  split
  next => rfl
  next hne =>
    rw [hcursor.pos] at hne
    have hslot : c.current = true := by
      by_contra hcur
      exact hne (by rw [Cursor.slot, if_neg hcur])
    have hpos := hcursor.current hslot
    have hle := hcursor.le
    have hlt : c.pos - 1 < (cells l).length := by omega
    have hcell : (cells l)[c.slot]? = some (cells l)[c.pos - 1] := by
      rw [Cursor.slot, if_pos hslot]
      exact List.getElem?_eq_getElem _
    have hbehind : c.slot + 1 = c.pos := by
      rw [Cursor.slot, if_pos hslot, Nat.sub_add_cancel hpos]
    have hnext := hheld.load_next hlive hcell
    rw [hbehind] at hnext
    simp only [hcell, Option.bind_some, hnext, hcursor.pos, if_true]
    rfl

/-- What other cells hold does not matter for a list. -/
theorem congr {m' : ListMemory α} (hheld : HoldsItems m l cells items)
    (hroot : m'.link (.root l) = m.link (.root l))
    (hnext : ∀ p ∈ cells, m'.link (.next p) = m.link (.next p))
    (hnodes : ∀ p ∈ cells, m'.nodes p = m.nodes p) : HoldsItems m' l cells items where
  chain := hheld.chain.congr hroot hnext
  nodes := by rw [← hheld.nodes, List.map_congr_left hnodes]

/-- The items behind the insertion of a node. -/
theorem insert (m' : ListMemory α) {x : α} (hheld : HoldsItems m l cells items)
    (hnodup : cells.Nodup) (hn : n ≤ cells.length) (hp : p ∉ cells)
    (hlink : m'.link = Function.update (Function.update m.link (.next p) cells[n]?)
      (Chain.slotAt (.root l) cells n) (some p))
    (hnodes : m'.nodes = Function.update m.nodes p (some x)) :
    HoldsItems m' l (cells.insertIdx n p) (items.insertIdx n x) := by
  constructor
  · have hchain := hheld.chain
    rw [← List.take_append_drop n cells] at hchain hnodup
    have hout : p ∉ cells.take n ++ cells.drop n := by rwa [List.take_append_drop]
    have hinsert := hchain.insert hnodup hout
    rw [List.take_append_drop] at hchain
    have hnext := hchain.link n hn
    rw [hnext] at hinsert
    rw [insertIdx_eq_append hn, hlink]
    exact hinsert
  · have hold : ∀ q ∈ cells, m'.nodes q = m.nodes q := by
      intro q hq
      rw [hnodes, Function.update_of_ne]
      rintro rfl
      exact hp hq
    have hmap : cells.map m'.nodes = items.map some := by
      rw [← hheld.nodes, List.map_congr_left hold]
    rw [List.map_insertIdx, List.map_insertIdx, hmap, hnodes, Function.update_self]

/-- The items behind the removal of a node. -/
theorem remove (m' : ListMemory α) (hheld : HoldsItems m l cells items)
    (hnodup : cells.Nodup) (hp : cells[n]? = some p)
    (hlink : m'.link = Function.update m.link (Chain.slotAt (.root l) cells n) cells[n + 1]?)
    (hnodes : ∀ q ∈ cells.eraseIdx n, m'.nodes q = m.nodes q) :
    HoldsItems m' l (cells.eraseIdx n) (items.eraseIdx n) := by
  obtain ⟨hn, hget⟩ := List.getElem?_eq_some_iff.mp hp
  have hsplit : cells = cells.take n ++ p :: cells.drop (n + 1) := by
    rw [← hget, ← List.drop_eq_getElem_cons hn, List.take_append_drop]
  constructor
  · have hchain := hheld.chain
    have hnext : m.link (.next p) = cells[n + 1]? := by
      have hlink' := hchain.link (n + 1) hn
      rwa [← Chain.slotAt, Chain.slotAt_succ hp] at hlink'
    rw [hsplit] at hchain
    have hremove := hchain.remove (hsplit ▸ hnodup)
    rw [hnext] at hremove
    rw [List.eraseIdx_eq_take_drop_succ, hlink]
    exact hremove
  · rw [List.map_congr_left hnodes, ← List.eraseIdx_map, hheld.nodes, List.eraseIdx_map]

end HoldsItems

namespace HoldsList

variable {m : ListMemory α} {cells : List Nat} {l p n : Nat} {list : ListObject}
  {contents : Contents α}

/-- The list behind the insertion of a node. -/
theorem insert (m' : ListMemory α) {x : α} (hheld : HoldsList m l cells list contents)
    (hnodup : cells.Nodup) (hn : n ≤ cells.length) (hp : p ∉ cells)
    (hlink : m'.link = Function.update (Function.update m.link (.next p) cells[n]?)
      (Chain.slotAt (.root l) cells n) (some p))
    (hnodes : m'.nodes = Function.update m.nodes p (some x)) :
    HoldsList m' l (cells.insertIdx n p)
      { list with
        tail := if cells[n]? = none then .next p else list.tail
        count := list.count + 1 }
      { contents with items := contents.items.insertIdx n x } where
  toHoldsItems := hheld.toHoldsItems.insert m' hnodup hn hp hlink hnodes
  tail := by rw [last_insertIdx hn, hheld.tail]
  count := by simp [List.length_insertIdx_of_le_length (hheld.length_cells ▸ hn), hheld.count]
  fDel := hheld.fDel

/-- The list behind the removal of a node. -/
theorem remove (m' : ListMemory α) (hheld : HoldsList m l cells list contents)
    (hnodup : cells.Nodup) (hp : cells[n]? = some p)
    (hlink : m'.link = Function.update m.link (Chain.slotAt (.root l) cells n) cells[n + 1]?)
    (hnodes : ∀ q ∈ cells.eraseIdx n, m'.nodes q = m.nodes q) :
    HoldsList m' l (cells.eraseIdx n)
      { list with
        tail := if cells[n + 1]? = none then Chain.slotAt (.root l) cells n else list.tail
        count := list.count - 1 }
      { contents with items := contents.items.eraseIdx n } where
  toHoldsItems := hheld.toHoldsItems.remove m' hnodup hp hlink hnodes
  tail := by rw [last_eraseIdx, hheld.tail]
  count := by
    have hn := (List.getElem?_eq_some_iff.mp hp).1
    have hcount := hheld.count
    rw [hheld.length_cells] at hn
    simp only [List.length_eraseIdx_of_lt hn, hcount]
    omega
  fDel := hheld.fDel

/-- What other cells hold does not matter for a list. -/
theorem congr {m' : ListMemory α} (hheld : HoldsList m l cells list contents)
    (hroot : m'.link (.root l) = m.link (.root l))
    (hnext : ∀ p ∈ cells, m'.link (.next p) = m.link (.next p))
    (hnodes : ∀ p ∈ cells, m'.nodes p = m.nodes p) : HoldsList m' l cells list contents where
  toHoldsItems := hheld.toHoldsItems.congr hroot hnext hnodes
  tail := hheld.tail
  count := hheld.count
  fDel := hheld.fDel

end HoldsList

/-- A node is in one of the lists: in the given one, or in another. -/
theorem exists_mem_cells_iff {cells : Nat → List Nat} {p : Nat} (l : Nat) :
    (∃ l', p ∈ cells l') ↔ p ∈ cells l ∨ ∃ l', l' ≠ l ∧ p ∈ cells l' := by
  constructor
  · rintro ⟨l', hmem⟩
    by_cases heq : l' = l
    · exact Or.inl (heq ▸ hmem)
    · exact Or.inr ⟨l', heq, hmem⟩
  · rintro (hmem | ⟨l', -, hmem⟩)
    · exact ⟨l, hmem⟩
    · exact ⟨l', hmem⟩

namespace Holds

variable {m : ListMemory α} {s : Lists α} {cells : Nat → List Nat} {l p i n : Nat}
  {list : ListObject} {it : ListIterator} {contents : Contents α}

theorem exists_contents (hholds : Holds m s cells) (hlist : m.lists l = some list) :
    ∃ contents, s.lists l = some contents ∧ HoldsList m l (cells l) list contents := by
  have hrel := hholds.lists l
  rw [hlist] at hrel
  generalize s.lists l = found at hrel
  cases hrel with
  | some hheld => exact ⟨_, rfl, hheld⟩

/-- The object that holds a list. -/
theorem exists_object (hholds : Holds m s cells) (hcontents : s.lists l = some contents) :
    ∃ list, m.lists l = some list ∧ HoldsList m l (cells l) list contents := by
  have hrel := hholds.lists l
  rw [hcontents] at hrel
  generalize m.lists l = found at hrel
  cases hrel with
  | some hheld => exact ⟨_, rfl, hheld⟩

theorem exists_cursor (hholds : Holds m s cells) (hit : m.iterators i = some it) :
    ∃ c, s.cursors i = some (it.list, c) ∧ HoldsCursor cells it it.list c := by
  have hrel := hholds.cursors i
  rw [hit] at hrel
  generalize s.cursors i = found at hrel
  cases hrel with
  | @some _ place hheld =>
      obtain ⟨l, c⟩ := place
      obtain rfl : it.list = l := hheld.list
      exact ⟨c, rfl, hheld⟩

/-- A loop over the nodes of a list has enough rounds. -/
theorem length_lt_bound (hholds : Holds m s cells) (l : Nat) : (cells l).length < m.bound := by
  have hmade : cells l ⊆ List.range m.freeNodes.made := by
    intro p hp
    exact List.mem_range.mpr ((hholds.freeNodes.made p).mpr (Or.inr ((hholds.used p).mpr ⟨l, hp⟩)))
  have hle := (List.subperm_of_subset (hholds.nodup l) hmade).length_le
  rw [List.length_range] at hle
  exact Nat.lt_succ_of_le hle

/-- A loop over iterators that all are in use changes each of them once. -/
theorem forIterators_eq (change : ListIterator → Option ListIterator) {chain : List Nat}
    (hnodup : chain.Nodup)
    (hchange : ∀ i ∈ chain, ∃ it it', m.iterators i = some it ∧ change it = some it') :
    m.forIterators change chain = some { m with
      iterators := fun i => if i ∈ chain then (m.iterators i).bind change else m.iterators i } := by
  induction chain generalizing m with
  | nil => simp [ListMemory.forIterators]
  | cons i chain ih =>
      obtain ⟨hi, hnodup⟩ := List.nodup_cons.mp hnodup
      obtain ⟨it, it', hit, hit'⟩ := hchange i (by simp)
      have hrest : ∀ j ∈ chain, (m.setIterator i (some it')).iterators j = m.iterators j := by
        intro j hj
        apply Function.update_of_ne
        rintro rfl
        exact hi hj
      simp only [ListMemory.forIterators, hit, Option.bind_eq_bind, Option.bind_some, hit']
      rw [ih hnodup]
      · congr 2
        funext j
        by_cases hj : j ∈ chain
        · simp [hj, hrest j hj]
        · by_cases heq : j = i
          · subst heq
            simp [hi, hit, hit', ListMemory.setIterator]
          · simp [hj, heq, ListMemory.setIterator]
      · intro j hj
        rw [hrest j hj]
        exact hchange j (by simp [hj])

/-- The loop over the iterators of a list adjusts each of them, where it moves with the cells. -/
theorem forIterators_moved {m₁ : ListMemory α} {nodes : List Nat} {move : Cursor → Cursor}
    {adjust : ListIterator → Option ListIterator} (hholds : Holds m s cells)
    (hlist : m.lists l = some list) (hsame : m₁.iterators = m.iterators)
    (hmove : ∀ it c, HoldsCursor cells it l c → ∃ it', adjust it = some it' ∧
      HoldsCursor (Function.update cells l nodes) it' l (move c)) :
    m₁.forIterators adjust list.iNext = some { m₁ with
      iterators := fun i =>
        if i ∈ list.iNext then (m₁.iterators i).bind adjust else m₁.iterators i } := by
  have hchain := hholds.chains l list hlist
  refine forIterators_eq adjust hchain.nodup fun i hi => ?_
  obtain ⟨it, hit, hitlist⟩ := (hchain.mem_iff i).mp hi
  obtain ⟨c, -, hcursor⟩ := hholds.exists_cursor hit
  obtain ⟨it', hadjust, -⟩ := hmove it c (hitlist ▸ hcursor)
  exact ⟨it, it', by rw [hsame, hit], hadjust⟩

/-- An iterator stays in place when the cells of another list are exchanged. -/
theorem cursor_update {nodes : List Nat} {c : Cursor} (hcursor : HoldsCursor cells it it.list c)
    (hne : it.list ≠ l) : HoldsCursor (Function.update cells l nodes) it it.list c := by
  have hsame : Function.update cells l nodes it.list = cells it.list :=
    Function.update_of_ne hne _ _
  exact ⟨rfl, hsame ▸ hcursor.le, hcursor.current, hsame ▸ hcursor.pos, hsame ▸ hcursor.prev⟩

/-- The iterators in the chain of a list are adjusted, each to where its place moves. -/
structure Adjusts (m m' : ListMemory α) (cells : Nat → List Nat) (l : Nat) (list : ListObject)
    (nodes : List Nat) (move : Cursor → Cursor) (adjust : ListIterator → Option ListIterator) :
    Prop where
  iterators : m'.iterators =
    fun i => if i ∈ list.iNext then (m.iterators i).bind adjust else m.iterators i
  moved : ∀ it c, HoldsCursor cells it l c → ∃ it', adjust it = some it' ∧
    HoldsCursor (Function.update cells l nodes) it' l (move c)

namespace Adjusts

variable {m' : ListMemory α} {nodes : List Nat} {move : Cursor → Cursor}
  {adjust : ListIterator → Option ListIterator} {it' : ListIterator}

/-- An iterator of this list. -/
theorem of_mem (hadjusts : Adjusts m m' cells l list nodes move adjust) (hholds : Holds m s cells)
    (hlist : m.lists l = some list) (hit : m.iterators i = some it) (heq : it.list = l) {c : Cursor}
    (hcursor : HoldsCursor cells it l c) : ∃ it', m'.iterators i = some it' ∧
      HoldsCursor (Function.update cells l nodes) it' l (move c) := by
  obtain ⟨it', hadjust, hcursor'⟩ := hadjusts.moved it c hcursor
  refine ⟨it', ?_, hcursor'⟩
  rw [hadjusts.iterators]
  simp [((hholds.chains l list hlist).mem_iff i).mpr ⟨it, hit, heq⟩, hit, hadjust]

/-- An iterator of another list. -/
theorem of_ne (hadjusts : Adjusts m m' cells l list nodes move adjust) (hholds : Holds m s cells)
    (hlist : m.lists l = some list) (hit : m.iterators i = some it) (hne : it.list ≠ l) :
    m'.iterators i = some it := by
  have hi : i ∉ list.iNext := by
    intro hi
    obtain ⟨_, hit', hitlist⟩ := ((hholds.chains l list hlist).mem_iff i).mp hi
    rw [hit, Option.some.injEq] at hit'
    exact hne (hit' ▸ hitlist)
  rw [hadjusts.iterators]
  simp [hi, hit]

theorem of_none (hadjusts : Adjusts m m' cells l list nodes move adjust)
    (hit : m.iterators i = none) : m'.iterators i = none := by
  rw [hadjusts.iterators]
  simp [hit]

/-- An iterator keeps the list that it belongs to. -/
theorem behind (hadjusts : Adjusts m m' cells l list nodes move adjust) (hholds : Holds m s cells)
    (hlist : m.lists l = some list) (hit : m.iterators i = some it) :
    ∃ it', m'.iterators i = some it' ∧ it'.list = it.list := by
  by_cases heq : it.list = l
  · obtain ⟨c, -, hcursor⟩ := hholds.exists_cursor hit
    rw [heq] at hcursor
    obtain ⟨it', hit', hcursor'⟩ := hadjusts.of_mem hholds hlist hit heq hcursor
    exact ⟨it', hit', hcursor'.list.trans heq.symm⟩
  · exact ⟨it, hadjusts.of_ne hholds hlist hit heq, rfl⟩

theorem before (hadjusts : Adjusts m m' cells l list nodes move adjust) (hholds : Holds m s cells)
    (hlist : m.lists l = some list) (hit' : m'.iterators i = some it') :
    ∃ it, m.iterators i = some it ∧ it'.list = it.list := by
  cases hit : m.iterators i with
  | none =>
      rw [hadjusts.of_none hit] at hit'
      cases hit'
  | some it =>
      obtain ⟨_, hfound, hsame⟩ := hadjusts.behind hholds hlist hit
      rw [hit', Option.some.injEq] at hfound
      exact ⟨it, rfl, hfound ▸ hsame⟩

theorem chain (hadjusts : Adjusts m m' cells l list nodes move adjust) (hholds : Holds m s cells)
    (hlist : m.lists l = some list) {l' : Nat} {other : ListObject}
    (hchain : HoldsChain m l' other) : HoldsChain m' l' other := by
  refine ⟨hchain.nodup, fun i => ?_⟩
  rw [hchain.mem_iff i]
  constructor
  · rintro ⟨it, hit, hl'⟩
    obtain ⟨it', hit', heq⟩ := hadjusts.behind hholds hlist hit
    exact ⟨it', hit', heq.trans hl'⟩
  · rintro ⟨it', hit', hl'⟩
    obtain ⟨it, hit, heq⟩ := hadjusts.before hholds hlist hit'
    exact ⟨it, hit, heq ▸ hl'⟩

/-- The iterators are at the places of the cursors. -/
theorem cursors (hadjusts : Adjusts m m' cells l list nodes move adjust) (hholds : Holds m s cells)
    (hlist : m.lists l = some list) (items : List α) (i : Nat) :
    Option.Rel (fun it c => HoldsCursor (Function.update cells l nodes) it c.1 c.2)
      (m'.iterators i) ((s.change l items move).cursors i) := by
  cases hit : m.iterators i with
  | none =>
      have hrel := hholds.cursors i
      rw [hit] at hrel
      generalize hcursor : s.cursors i = spec at hrel
      cases hrel
      simp [hadjusts.of_none hit, Lists.cursors_change, hcursor]
  | some it =>
      obtain ⟨c, hspec, hcursor⟩ := hholds.exists_cursor hit
      by_cases heq : it.list = l
      · rw [heq] at hcursor
        obtain ⟨it', hit', hcursor'⟩ := hadjusts.of_mem hholds hlist hit heq hcursor
        simpa [hit', Lists.cursors_change, hspec, heq] using Option.Rel.some hcursor'
      · simpa [hadjusts.of_ne hholds hlist hit heq, Lists.cursors_change, hspec, heq] using
          Option.Rel.some (cursor_update hcursor heq)

theorem iterators_isSome (hadjusts : Adjusts m m' cells l list nodes move adjust)
    (hholds : Holds m s cells) (hlist : m.lists l = some list) (i : Nat) :
    (m'.iterators i).isSome ↔ (m.iterators i).isSome := by
  simp only [Option.isSome_iff_exists]
  constructor
  · rintro ⟨it', hit'⟩
    obtain ⟨it, hit, -⟩ := hadjusts.before hholds hlist hit'
    exact ⟨it, hit⟩
  · rintro ⟨it, hit⟩
    obtain ⟨it', hit', -⟩ := hadjusts.behind hholds hlist hit
    exact ⟨it', hit'⟩

end Adjusts

/-- The cells of different lists are still different when those of one list are exchanged. -/
theorem disjoint_update {nodes : List Nat} (hholds : Holds m s cells)
    (hdisjoint : ∀ l', l' ≠ l → ∀ p ∈ cells l', p ∉ nodes) (l₁ l₂ p : Nat)
    (hp₁ : p ∈ Function.update cells l nodes l₁) (hp₂ : p ∈ Function.update cells l nodes l₂) :
    l₁ = l₂ := by
  by_cases heq₁ : l₁ = l
  · by_cases heq₂ : l₂ = l
    · exact heq₁.trans heq₂.symm
    · rw [heq₁, Function.update_self] at hp₁
      rw [Function.update_of_ne heq₂] at hp₂
      exact absurd hp₁ (hdisjoint l₂ heq₂ p hp₂)
  · rw [Function.update_of_ne heq₁] at hp₁
    by_cases heq₂ : l₂ = l
    · rw [heq₂, Function.update_self] at hp₂
      exact absurd hp₂ (hdisjoint l₁ heq₁ p hp₁)
    · rw [Function.update_of_ne heq₂] at hp₂
      exact hholds.disjoint l₁ l₂ p hp₁ hp₂

theorem exists_mem_update_iff {nodes : List Nat} {p : Nat} :
    (∃ l', p ∈ Function.update cells l nodes l') ↔ p ∈ nodes ∨ ∃ l', l' ≠ l ∧ p ∈ cells l' := by
  constructor
  · rintro ⟨l', hp⟩
    by_cases heq : l' = l
    · rw [heq, Function.update_self] at hp
      exact Or.inl hp
    · rw [Function.update_of_ne heq] at hp
      exact Or.inr ⟨l', heq, hp⟩
  · rintro (hp | ⟨l', heq, hp⟩)
    · exact ⟨l, by simpa using hp⟩
    · exact ⟨l', by rwa [Function.update_of_ne heq]⟩

/-- One list changes, with the iterators in its chain; the cells of the others are left alone. -/
theorem change {m' : ListMemory α} {list' : ListObject} {items : List α} {nodes : List Nat}
    {move : Cursor → Cursor} {adjust : ListIterator → Option ListIterator}
    (hholds : Holds m s cells) (hlist : m.lists l = some list)
    (hlists : m'.lists = Function.update m.lists l (some list'))
    (hchain : list'.iNext = list.iNext)
    (hheld : ∀ contents, s.lists l = some contents →
      HoldsList m' l nodes list' { contents with items })
    (hroots : ∀ l', l' ≠ l → m'.link (.root l') = m.link (.root l'))
    (hcells : ∀ l', l' ≠ l → ∀ p ∈ cells l',
      m'.link (.next p) = m.link (.next p) ∧ m'.nodes p = m.nodes p)
    (hiterators : m'.iterators =
      fun i => if i ∈ list.iNext then (m.iterators i).bind adjust else m.iterators i)
    (hmove : ∀ it c, HoldsCursor cells it l c → ∃ it', adjust it = some it' ∧
      HoldsCursor (Function.update cells l nodes) it' l (move c))
    (hnodup : nodes.Nodup) (hdisjoint : ∀ l', l' ≠ l → ∀ p ∈ cells l', p ∉ nodes)
    (hused : ∀ p, (m'.nodes p).isSome ↔ p ∈ nodes ∨ ∃ l', l' ≠ l ∧ p ∈ cells l')
    (hfreeLists : m'.freeLists = m.freeLists)
    (hfreeNodes : m'.freeNodes.Owns fun p => (m'.nodes p).isSome)
    (hfreeIterators : m'.freeIterators = m.freeIterators)
    (hdeleted : m'.deleted = m.deleted) :
    Holds m' (s.change l items move) (Function.update cells l nodes) := by
  have hadjusts : Adjusts m m' cells l list nodes move adjust := ⟨hiterators, hmove⟩
  -- No list is created and none is destroyed.
  have hlive : ∀ l', (m'.lists l').isSome = (m.lists l').isSome := by
    intro l'
    rw [hlists]
    by_cases heq : l' = l
    · simp [heq, hlist]
    · rw [Function.update_of_ne heq]
  refine
    { lists := fun l' => ?_
      cursors := hadjusts.cursors hholds hlist items
      chains := fun l' list'' hlist'' => ?_
      owned := fun i it' hit' => ?_
      nodup := fun l' => ?_
      disjoint := hholds.disjoint_update hdisjoint
      used := fun p => (hused p).trans exists_mem_update_iff.symm
      unused := fun l' hnone => ?_
      freeLists := ?_
      freeNodes := hfreeNodes
      freeIterators := ?_
      deleted := by rw [hdeleted, hholds.deleted, Lists.deleted_change] }
  · rw [hlists]
    by_cases heq : l' = l
    · subst heq
      obtain ⟨contents, hcontents, -⟩ := hholds.exists_contents hlist
      simpa [Lists.lists_change, hcontents] using Option.Rel.some (hheld contents hcontents)
    · rw [Function.update_of_ne heq, Function.update_of_ne heq, Lists.lists_change,
        Function.update_of_ne heq]
      have hrel := hholds.lists l'
      generalize m.lists l' = before at hrel
      generalize s.lists l' = spec at hrel
      cases hrel with
      | none => exact .none
      | some hheld' =>
          exact .some (hheld'.congr (hroots l' heq) (fun p hp => (hcells l' heq p hp).1)
            fun p hp => (hcells l' heq p hp).2)
  · rw [hlists] at hlist''
    by_cases heq : l' = l
    · subst heq
      rw [Function.update_self, Option.some.injEq] at hlist''
      subst hlist''
      have hkept := hadjusts.chain hholds hlist (hholds.chains l' list hlist)
      exact ⟨hchain ▸ hkept.nodup, fun i => by rw [hchain, hkept.mem_iff i]⟩
    · rw [Function.update_of_ne heq] at hlist''
      exact hadjusts.chain hholds hlist (hholds.chains l' list'' hlist'')
  · obtain ⟨it, hit, heq⟩ := hadjusts.before hholds hlist hit'
    rw [hlive, heq]
    exact hholds.owned i it hit
  · by_cases heq : l' = l
    · simpa [heq] using hnodup
    · simpa [heq] using hholds.nodup l'
  · have heq : l' ≠ l := by
      rintro rfl
      simp [hlists] at hnone
    rw [hlists, Function.update_of_ne heq] at hnone
    rw [Function.update_of_ne heq]
    exact hholds.unused l' hnone
  · rw [hfreeLists]
    exact hholds.freeLists.congr fun l' => by rw [hlive]
  · rw [hfreeIterators]
    exact hholds.freeIterators.congr (hadjusts.iterators_isSome hholds hlist)

/-- Creating a node behind a slot inserts an item, if there is memory for it. -/
theorem nodeCreate (hholds : Holds m s cells) (hlist : m.lists l = some list)
    (hn : n ≤ (cells l).length) (x : α) (memory : Bool) :
    (m.listNodeCreate l (Chain.slotAt (.root l) (cells l) n) x memory = some (none, m) ∧
        memory = false) ∨
      ∃ p m', m.listNodeCreate l (Chain.slotAt (.root l) (cells l) n) x memory =
          some (some x, m') ∧
        Holds m' (s.insertAt l n x) (Function.update cells l ((cells l).insertIdx n p)) := by
  unfold ListMemory.listNodeCreate
  cases htake : m.freeNodes.take listAllocChunk memory with
  | none =>
      left
      refine ⟨rfl, ?_⟩
      cases memory with
      | false => rfl
      | true =>
          obtain ⟨_, _, htake'⟩ := m.freeNodes.exists_take (show 0 < listAllocChunk by decide)
          rw [htake] at htake'
          cases htake'
  | some given =>
      right
      obtain ⟨p, freeNodes⟩ := given
      obtain ⟨hdead, hfree⟩ := hholds.freeNodes.take htake
      have hp : ∀ l', p ∉ cells l' := fun l' hmem => hdead ((hholds.used p).mpr ⟨l', hmem⟩)
      have hlive : (m.lists l).isSome := by simp [hlist]
      obtain ⟨contents, hcontents, hheld⟩ := hholds.exists_contents hlist
      have huse := hheld.inUse_slotAt hlive hn
      have hlink := hheld.chain.link n hn
      have hnodup := hholds.nodup l
      have hitems : contents.items = s.items l := by simp [Lists.items, hcontents]
      generalize hpp : Chain.slotAt (.root l) (cells l) n = pp at huse
      -- The slot is in use, and so is not the one in the new node.
      have hne : pp ≠ .next p := by
        rintro rfl
        exact hdead huse
      let m₁ : ListMemory α :=
        { m with
          lists := Function.update m.lists l
            (some { list with
              tail := if (cells l)[n]? = none then .next p else list.tail
              count := list.count + 1 })
          nodes := Function.update m.nodes p (some x)
          link := Function.update (Function.update m.link (.next p) (cells l)[n]?) pp (some p)
          freeNodes := freeNodes }
      have huse₁ : ListMemory.inUse { m.setNode p x with freeNodes } pp = true := by
        cases pp with
        | root l' => exact huse
        | next q =>
            have hq : q ≠ p := fun heq => hne (heq ▸ rfl)
            simpa [ListMemory.inUse, ListMemory.setNode, hq] using huse
      have hnew : ListMemory.inUse { m.setNode p x with freeNodes } (.next p) = true := by
        simp [ListMemory.inUse, ListMemory.setNode]
      have hnext : m.link pp = (cells l)[n]? := by rw [← hpp, Chain.slotAt, hlink]
      have hheld₁ := hheld.insert m₁ (x := x) hnodup hn (hp l)
        (by rw [hpp]) rfl
      -- The body of the loop over the iterators.
      let adjust : ListIterator → Option ListIterator := fun it => do
        let it :=
          if it.prev = pp then { it with prev := .next p }
          else if it.pos = (cells l)[n]? then { it with pos := some p }
          else it
        m₁.assertIterator it
        return it
      have hmove : ∀ it c, HoldsCursor cells it l c → ∃ it', adjust it = some it' ∧
          HoldsCursor (Function.update cells l ((cells l).insertIdx n p)) it' l (c.insertAt n) := by
        intro it c hcursor
        have hcursor' := hcursor.insert hnodup hn (p := p)
        rw [hpp] at hcursor'
        have hassert := HoldsItems.assertIterator (m := m₁)
          (by simpa using hheld₁.toHoldsItems) (by simp [m₁]) hcursor'
        exact ⟨_, by simp [adjust, hassert], hcursor'⟩
      have hloop := hholds.forIterators_moved hlist (rfl : m₁.iterators = m.iterators) hmove
      refine ⟨p, { m₁ with
          iterators := fun i =>
            if i ∈ list.iNext then (m.iterators i).bind adjust else m.iterators i },
        ?_, hholds.change hlist rfl rfl ?_ ?_ ?_ rfl hmove ?_ ?_ ?_ rfl ?_ rfl rfl⟩
      · -- the code up to the loop over the iterators
        have hload : ListMemory.load { m.setNode p x with freeNodes } pp = some (m.link pp) :=
          ListMemory.load_of_inUse huse₁
        have hstore := ListMemory.store_of_inUse hnew (cells l)[n]?
        have hlists : (m.setNode p (some x)).lists l = some list := hlist
        have huse₂ : ListMemory.inUse { m.setNode p x with
            freeNodes
            link := Function.update (m.setNode p x).link (.next p) (cells l)[n]? } pp = true :=
          huse₁
        have hstore' := ListMemory.store_of_inUse huse₂ (some p)
        simp only [hload, hnext, Option.bind_eq_bind, Option.bind_some]
        rw [hstore, Option.bind_some]
        simp only [hlists, Option.bind_some]
        rw [hstore', Option.bind_some]
        change (m₁.forIterators adjust list.iNext).bind _ = _
        rw [hloop]
        rfl
      · intro contents' hcontents'
        obtain rfl : contents = contents' :=
          Option.some_inj.mp (hcontents.symm.trans hcontents')
        rw [← hitems]
        exact hheld₁.congr rfl (fun _ _ => rfl) fun _ _ => rfl
      · intro l' hl'
        have hroot : Slot.root l' ≠ pp := hpp ▸ root_ne_slotAt hl' hn
        simp [m₁, hroot]
      · intro l' hl' q hq
        have hqp : q ≠ p := fun heq => hp l' (heq ▸ hq)
        have hslot : Slot.next q ≠ pp :=
          hpp ▸ next_ne_slotAt (fun hmem => hl' (hholds.disjoint l' l q hq hmem)) hn
        simp [m₁, hslot, hqp]
      · rw [insertIdx_eq_append hn]
        have hsplit := hnodup
        rw [← List.take_append_drop n (cells l)] at hsplit
        rw [List.nodup_middle, List.nodup_cons, List.take_append_drop]
        exact ⟨hp l, hnodup⟩
      · intro l' hl' q hq hmem
        rw [List.mem_insertIdx hn] at hmem
        rcases hmem with rfl | hmem
        · exact hp l' hq
        · exact hl' (hholds.disjoint l' l q hq hmem)
      · intro q
        rw [List.mem_insertIdx hn]
        by_cases heq : q = p
        · simp [m₁, heq]
        · simp only [m₁, Function.update_of_ne heq, hholds.used q, heq, false_or]
          exact exists_mem_cells_iff l
      · refine hfree.congr fun q => ?_
        by_cases heq : q = p
        · simp [m₁, heq]
        · simp [m₁, heq]

/-- Destroying the node behind a slot removes its item, if there is one. -/
theorem nodeDestroy (hholds : Holds m s cells) (hlist : m.lists l = some list)
    (hn : n ≤ (cells l).length) :
    ((cells l)[n]? = none ∧
        m.listNodeDestroy l (Chain.slotAt (.root l) (cells l) n) = some (none, m)) ∨
      ∃ p x m', (cells l)[n]? = some p ∧ (s.items l)[n]? = some x ∧
        m.listNodeDestroy l (Chain.slotAt (.root l) (cells l) n) = some (some x, m') ∧
        Holds m' (s.removeAt l n) (Function.update cells l ((cells l).eraseIdx n)) := by
  have hlive : (m.lists l).isSome := by simp [hlist]
  obtain ⟨contents, hcontents, hheld⟩ := hholds.exists_contents hlist
  have hload := hheld.load_slotAt hlive hn
  have huse := hheld.inUse_slotAt hlive hn
  have hnodup := hholds.nodup l
  have hitems : contents.items = s.items l := by simp [Lists.items, hcontents]
  unfold ListMemory.listNodeDestroy
  cases hp : (cells l)[n]? with
  | none =>
      left
      refine ⟨rfl, ?_⟩
      simp only [hload, hp, Option.bind_eq_bind, Option.bind_some]
      rfl
  | some p =>
      right
      obtain ⟨x, hx, hnode⟩ := hheld.node hp
      have hlt := (List.getElem?_eq_some_iff.mp hp).1
      have hpmem : p ∈ cells l := List.mem_of_getElem? hp
      have hnext := hheld.load_next hlive hp
      have hgone := not_mem_eraseIdx hnodup hp
      generalize hpp : Chain.slotAt (.root l) (cells l) n = pp at huse hload
      -- The node is released last, when the iterators have left it.
      let m₁ : ListMemory α :=
        { m with
          lists := Function.update m.lists l
            (some { list with
              tail := if (cells l)[n + 1]? = none then pp else list.tail
              count := list.count - 1 })
          link := Function.update m.link pp (cells l)[n + 1]? }
      have hheld₁ := hheld.remove m₁ hnodup hp (by rw [hpp]) fun _ _ => rfl
      rw [hpp] at hheld₁
      let adjust : ListIterator → Option ListIterator := fun it => do
        let it :=
          if it.pos = some p then { it with pos := (cells l)[n + 1]?, prev := pp }
          else if it.prev = .next p then { it with prev := pp }
          else it
        m₁.assertIterator it
        return it
      have hmove : ∀ it c, HoldsCursor cells it l c → ∃ it', adjust it = some it' ∧
          HoldsCursor (Function.update cells l ((cells l).eraseIdx n)) it' l (c.removeAt n) := by
        intro it c hcursor
        have hcursor' := hcursor.remove hnodup hp
        rw [hpp] at hcursor'
        have hassert := HoldsItems.assertIterator (m := m₁)
          (by simpa using hheld₁.toHoldsItems) (by simp [m₁]) hcursor'
        exact ⟨_, by simp [adjust, hassert], hcursor'⟩
      have hloop := hholds.forIterators_moved hlist (rfl : m₁.iterators = m.iterators) hmove
      refine ⟨p, x, { m₁ with
          iterators := fun i =>
            if i ∈ list.iNext then (m.iterators i).bind adjust else m.iterators i
          nodes := Function.update m.nodes p none
          freeNodes := m.freeNodes.release p },
        rfl, hitems ▸ hx, ?_,
        hholds.change hlist rfl rfl ?_ ?_ ?_ rfl hmove ?_ ?_ ?_ rfl ?_ rfl rfl⟩
      · have hstore := ListMemory.store_of_inUse huse (cells l)[n + 1]?
        simp only [hload, hp, hnode, hnext, hlist, hstore, Option.bind_eq_bind, Option.bind_some]
        change (m₁.forIterators adjust list.iNext).bind _ = _
        rw [hloop]
        rfl
      · intro contents' hcontents'
        obtain rfl : contents = contents' :=
          Option.some_inj.mp (hcontents.symm.trans hcontents')
        rw [← hitems]
        refine hheld₁.congr rfl (fun _ _ => rfl) fun q hq => ?_
        have hqp : q ≠ p := by
          rintro rfl
          exact hgone hq
        simp [m₁, hqp]
      · intro l' hl'
        have hroot : Slot.root l' ≠ pp := hpp ▸ root_ne_slotAt hl' hn
        simp [m₁, hroot]
      · intro l' hl' q hq
        have hother : q ∉ cells l := fun hmem => hl' (hholds.disjoint l' l q hq hmem)
        have hslot : Slot.next q ≠ pp := hpp ▸ next_ne_slotAt hother hn
        have hqp : q ≠ p := fun heq => hother (heq ▸ hpmem)
        simp [m₁, hslot, hqp]
      · exact hnodup.sublist (List.eraseIdx_sublist _ _)
      · intro l' hl' q hq hmem
        exact hl' (hholds.disjoint l' l q hq (List.mem_of_mem_eraseIdx hmem))
      · intro q
        by_cases heq : q = p
        · subst heq
          simp only [Function.update_self, Option.isSome_none, Bool.false_eq_true, hgone,
            false_or, false_iff, not_exists, not_and]
          intro l' hl' hmem
          exact hl' (hholds.disjoint l' l q hmem hpmem)
        · simp only [Function.update_of_ne heq, hholds.used q]
          rw [exists_mem_cells_iff l, mem_eraseIdx_or hp, or_iff_right heq]
      · refine (hholds.freeNodes.release (by simp [hnode])).congr fun q => ?_
        by_cases heq : q = p
        · simp [heq]
        · simp [heq]

end Holds

end SlurmSpank.Lib
