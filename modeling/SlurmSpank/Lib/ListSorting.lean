import SlurmSpank.Lib.ListNodes

/-! # Sorting in memory

The sort moves nodes: it takes each node that compares below the one in front of it out of the
chain, and links it in front of the first node that it compares below. The items that result are
those of the insertion sort on lists.
-/

namespace SlurmSpank.Lib

open Foundation

variable {α : Type}

/-! ## Positions -/

/-- Where the sort inserts an item: in front of the first one that it compares below. -/
def sortIndex (cmp : α → α → Int) (x : α) (items : List α) : Nat :=
  items.findIdx fun pos => decide (cmp x pos < 0)

theorem sortIndex_cons (cmp : α → α → Int) (x pos : α) (rest : List α) :
    sortIndex cmp x (pos :: rest) = if cmp x pos < 0 then 0 else sortIndex cmp x rest + 1 := by
  simp only [sortIndex, List.findIdx_cons]
  by_cases hbelow : cmp x pos < 0 <;> simp [hbelow]

theorem sortIndex_le (cmp : α → α → Int) (x : α) (items : List α) :
    sortIndex cmp x items ≤ items.length :=
  List.findIdx_le_length

theorem listSortInsert_eq (cmp : α → α → Int) (x : α) (items : List α) :
    listSortInsert cmp x items = items.insertIdx (sortIndex cmp x items) x := by
  induction items with
  | nil => rfl
  | cons pos rest ih =>
      rw [listSortInsert, sortIndex_cons]
      by_cases hbelow : cmp x pos < 0
      · rw [if_neg (Int.not_le.mpr hbelow), if_pos hbelow, List.insertIdx_zero]
      · rw [if_pos (Int.not_lt.mp hbelow), if_neg hbelow, List.insertIdx_succ_cons, ih]

/-- The search of the sort ends at the last item of the sorted front at the latest. -/
theorem sortIndex_append {cmp : α → α → Int} {x last : α} (hbelow : cmp x last < 0)
    (front rest : List α) :
    sortIndex cmp x (front ++ last :: rest) = sortIndex cmp x front := by
  induction front with
  | nil =>
      rw [List.nil_append, sortIndex_cons, if_pos hbelow]
      rfl
  | cons pos front ih => simp [sortIndex_cons, ih]

namespace HoldsItems

variable {m : ListMemory α} {cells : List Nat} {items : List α} {l p : Nat}
  {cmp : α → α → Int} {x : α}

/-- The search of the sort for the position of an item. -/
theorem sortPosition_eq (hheld : HoldsItems m l cells items) (hlive : (m.lists l).isSome)
    {fuel n : Nat} (hfound : sortIndex cmp x (items.drop n) < (items.drop n).length)
    (hfuel : sortIndex cmp x (items.drop n) < fuel) :
    m.sortPosition cmp x fuel (Chain.slotAt (.root l) cells n) =
      some (Chain.slotAt (.root l) cells (n + sortIndex cmp x (items.drop n))) := by
  induction fuel generalizing n with
  | zero => exact absurd hfuel (Nat.not_lt_zero _)
  | succ fuel ih =>
      have hn : n < items.length := by
        by_contra hge
        simp [List.drop_of_length_le (Nat.le_of_not_lt hge)] at hfound
      have hlt : n < cells.length := hheld.length_cells ▸ hn
      have hcell : cells[n]? = some cells[n] :=
        List.getElem?_eq_getElem _
      obtain ⟨pos, hpos, hnode⟩ := hheld.node hcell
      have hload := hheld.load_slotAt hlive (hheld.length_cells ▸ hn.le)
      have hdrop : items.drop n = pos :: items.drop (n + 1) := by
        obtain ⟨_, rfl⟩ := List.getElem?_eq_some_iff.mp hpos
        exact List.drop_eq_getElem_cons hn
      rw [hdrop, sortIndex_cons] at hfound hfuel ⊢
      simp only [ListMemory.sortPosition, hload, hcell, hnode, Option.bind_eq_bind,
        Option.bind_some]
      by_cases hbelow : cmp x pos < 0
      · rw [if_neg (Int.not_le.mpr hbelow), if_pos hbelow]
        rfl
      · rw [if_neg hbelow] at hfound hfuel ⊢
        have hslot : Chain.slotAt (.root l) cells (n + 1) = .next _ := Chain.slotAt_succ hcell
        rw [if_pos (Int.not_lt.mp hbelow), ← hslot, ih (by simpa using hfound) (by omega)]
        congr 2
        omega

/-- Taking a node out of the chain and linking it again further in front moves its item. -/
theorem move (m' : ListMemory α) {n k : Nat} (hheld : HoldsItems m l cells items)
    (hnodup : cells.Nodup) (hp : cells[n]? = some p) (hx : m.nodes p = some x) (hk : k < n)
    (hlink : m'.link = Function.update
      (Function.update (Function.update m.link (.next p) cells[k]?)
        (Chain.slotAt (.root l) cells k) (some p))
      (Chain.slotAt (.root l) cells n) cells[n + 1]?)
    (hnodes : m'.nodes = m.nodes) :
    HoldsItems m' l ((cells.eraseIdx n).insertIdx k p) ((items.eraseIdx n).insertIdx k x) := by
  have hn := (List.getElem?_eq_some_iff.mp hp).1
  have hlength := List.length_eraseIdx_of_lt hn
  let removed : ListMemory α :=
    { m with link := Function.update m.link (Chain.slotAt (.root l) cells n) cells[n + 1]? }
  have hremoved : HoldsItems removed l (cells.eraseIdx n) (items.eraseIdx n) :=
    hheld.remove removed hnodup hp rfl fun _ _ => rfl
  have hnext : Slot.next p ≠ Chain.slotAt (.root l) cells n := by
    have hbehind : Chain.slotAt (.root l) cells (n + 1) = .next p := Chain.slotAt_succ hp
    rw [← hbehind]
    intro heq
    have := Chain.slotAt_inj hnodup hn hn.le heq
    omega
  have hslot : Chain.slotAt (.root l) cells k ≠ Chain.slotAt (.root l) cells n := by
    intro heq
    have := Chain.slotAt_inj hnodup (hk.le.trans hn.le) hn.le heq
    omega
  refine hremoved.insert m' (hnodup.sublist (List.eraseIdx_sublist _ _)) (by omega)
    (not_mem_eraseIdx hnodup hp) ?_ ?_
  · rw [hlink, slotAt_eraseIdx_of_le hk.le, List.getElem?_eraseIdx_of_lt hk,
      Function.update_comm hslot, Function.update_comm hnext]
  · rw [hnodes, ← hx, Function.update_eq_self]

end HoldsItems

/-! ## The loops -/

/-- Three variables are written in turn. -/
theorem ListMemory.store_three {β : Type} {m : ListMemory α} {a b c : NodeSlot}
    (ha : m.inUse a = true) (hb : m.inUse b = true) (hc : m.inUse c = true)
    (pa pb pc : Option Nat) (next : ListMemory α → Option β) :
    ((m.store a pa).bind fun m => (m.store b pb).bind fun m => (m.store c pc).bind next) =
      next { m with
        link := Function.update (Function.update (Function.update m.link a pa) b pb) c pc } := by
  have hb' : ListMemory.inUse { m with link := Function.update m.link a pa } b = true := by
    cases b <;> exact hb
  have hc' : ListMemory.inUse
      { m with link := Function.update (Function.update m.link a pa) b pb } c = true := by
    cases c <;> exact hc
  rw [ListMemory.store_of_inUse ha, Option.bind_some, ListMemory.store_of_inUse hb',
    Option.bind_some, ListMemory.store_of_inUse hc', Option.bind_some]

/-- The nodes of a list are ordered differently, and no other chain changes. -/
structure Reordered (m : ListMemory α) (l : Nat) (cells : List Nat) (m' : ListMemory α)
    (cells' : List Nat) : Prop where
  perm : cells'.Perm cells
  same : m' = { m with link := m'.link }
  others : ∀ slot, slot ≠ .root l → (∀ p ∈ cells, slot ≠ .next p) → m'.link slot = m.link slot

namespace Reordered

variable {m m' m'' : ListMemory α} {cells cells' cells'' : List Nat} {l : Nat}

theorem refl : Reordered m l cells m cells := ⟨.refl _, rfl, fun _ _ _ => rfl⟩

theorem trans (hfirst : Reordered m l cells m' cells') (hrest : Reordered m' l cells' m'' cells'') :
    Reordered m l cells m'' cells'' where
  perm := hrest.perm.trans hfirst.perm
  same := by rw [hrest.same, hfirst.same]
  others slot hroot hcells := by
    rw [hrest.others slot hroot fun p hp => hcells p (hfirst.perm.mem_iff.mp hp),
      hfirst.others slot hroot hcells]

end Reordered

theorem perm_insertIdx_eraseIdx {cells : List Nat} {n k p : Nat} (hp : cells[n]? = some p)
    (hk : k < n) : ((cells.eraseIdx n).insertIdx k p).Perm cells := by
  obtain ⟨hn, rfl⟩ := List.getElem?_eq_some_iff.mp hp
  have hlength := List.length_eraseIdx_of_lt hn
  exact (List.perm_insertIdx _ _ (by omega)).trans (List.getElem_cons_eraseIdx_perm hn)

/-- A node is linked again in front of where it was. -/
theorem Reordered.move {m : ListMemory α} {cells : List Nat} {l n k p : Nat}
    (hp : cells[n]? = some p) (hk : k < n) (next given behind : Option Nat) :
    Reordered m l cells { m with
      link := Function.update
        (Function.update (Function.update m.link (.next p) next)
          (Chain.slotAt (.root l) cells k) given)
        (Chain.slotAt (.root l) cells n) behind } ((cells.eraseIdx n).insertIdx k p) where
  perm := perm_insertIdx_eraseIdx hp hk
  same := rfl
  others slot hroot hcells := by
    have hn := (List.getElem?_eq_some_iff.mp hp).1
    have hslot : ∀ n, n ≤ cells.length → slot ≠ Chain.slotAt (.root l) cells n := by
      intro n hn
      cases n with
      | zero => simpa using hroot
      | succ n =>
          rw [Chain.slotAt_succ (List.getElem?_eq_getElem hn)]
          exact hcells _ (List.getElem_mem hn)
    dsimp only
    rw [Function.update_of_ne (hslot n hn.le), Function.update_of_ne (hslot k (by omega)),
      Function.update_of_ne (hcells p (List.mem_of_getElem? hp))]

/-- The loop sorts the items as the loop on lists does, and ends at the last slot. -/
theorem sortLoop_eq {m : ListMemory α} {cells : List Nat} {l : Nat} (cmp : α → α → Int)
    {front rest : List α} {last : α} {fuel : Nat}
    (hheld : HoldsItems m l cells (front ++ last :: rest)) (hlive : (m.lists l).isSome)
    (hnodup : cells.Nodup) (hbound : cells.length < m.bound) (hfuel : rest.length < fuel) :
    ∃ m' cells', ListMemory.sortLoop cmp l fuel (Chain.slotAt (.root l) cells front.length)
        (Chain.slotAt (.root l) cells (front.length + 1)) m =
          some (Chain.last (.root l) cells', m') ∧
      Reordered m l cells m' cells' ∧
      HoldsItems m' l cells' (listSortLoop cmp front last rest) := by
  induction rest generalizing m cells front last fuel with
  | nil =>
      obtain ⟨fuel, rfl⟩ := Nat.exists_eq_add_one_of_ne_zero (Nat.ne_zero_of_lt hfuel)
      have hlength : front.length + 1 = cells.length := by
        simpa using hheld.length_cells.symm
      have hload := hheld.load_slotAt hlive hlength.le
      refine ⟨m, cells, ?_, .refl, hheld⟩
      rw [ListMemory.sortLoop, hload, hlength, Chain.slotAt_length,
        List.getElem?_eq_none le_rfl]
      rfl
  | cons x rest ih =>
      obtain ⟨fuel, rfl⟩ := Nat.exists_eq_add_one_of_ne_zero (Nat.ne_zero_of_lt hfuel)
      have hlength : cells.length = front.length + 1 + (rest.length + 1) := by
        have heq := hheld.length_cells
        simp only [List.length_append, List.length_cons] at heq
        omega
      obtain ⟨prev, hprev⟩ : ∃ prev, cells[front.length]? = some prev :=
        ⟨_, List.getElem?_eq_getElem (by omega)⟩
      obtain ⟨p, hp⟩ : ∃ p, cells[front.length + 1]? = some p :=
        ⟨_, List.getElem?_eq_getElem (by omega)⟩
      obtain ⟨y, hy, hnodePrev⟩ := hheld.node hprev
      obtain rfl : last = y := by simpa using hy
      obtain ⟨y, hy, hnode⟩ := hheld.node hp
      obtain rfl : x = y := by simpa using hy
      have hloadPrev := hheld.load_slotAt hlive (n := front.length) (by omega)
      have hload := hheld.load_slotAt hlive (n := front.length + 1) (by omega)
      have hless : rest.length < fuel := by simpa using hfuel
      rw [listSortLoop]
      simp only [ListMemory.sortLoop, hload, hp, hnode, hloadPrev, hprev, hnodePrev,
        Option.bind_eq_bind, Option.bind_some]
      by_cases hbelow : cmp x last < 0
      · rw [if_pos hbelow, if_pos hbelow]
        -- the position where the node is linked again
        let k := sortIndex cmp x front
        have hk : k ≤ front.length := sortIndex_le cmp x front
        have hfound : sortIndex cmp x ((front ++ last :: x :: rest).drop 0) = k :=
          sortIndex_append hbelow front (x :: rest)
        have hposition : m.sortPosition cmp x m.bound (.root l) =
            some (Chain.slotAt (.root l) cells k) := by
          have heq : m.sortPosition cmp x m.bound (Chain.slotAt (.root l) cells 0) = some _ :=
            hheld.sortPosition_eq hlive (by rw [hfound]; simp; omega) (by rw [hfound]; omega)
          rwa [hfound, Nat.zero_add, Chain.slotAt_zero] at heq
        have hnextLoad := hheld.load_next hlive hp
        have hloadPos := hheld.load_slotAt hlive (n := k) (by omega)
        let m₁ : ListMemory α := { m with
          link := Function.update
            (Function.update (Function.update m.link (.next p) cells[k]?)
              (Chain.slotAt (.root l) cells k) (some p))
            (Chain.slotAt (.root l) cells (front.length + 1)) cells[front.length + 1 + 1]? }
        let moved := (cells.eraseIdx (front.length + 1)).insertIdx k p
        have hitems : ((front ++ last :: x :: rest).eraseIdx (front.length + 1)).insertIdx k x =
            listSortInsert cmp x front ++ last :: rest := by
          rw [List.eraseIdx_append_of_length_le (by omega), insertIdx_append hk, listSortInsert_eq]
          simp [k]
        have hmoved : HoldsItems m₁ l moved (listSortInsert cmp x front ++ last :: rest) :=
          hitems ▸ hheld.move m₁ hnodup hp hnode (by omega) rfl rfl
        have hperm : moved.Perm cells := perm_insertIdx_eraseIdx hp (by omega)
        have hreordered : Reordered m l cells m₁ moved := .move hp (by omega) _ _ _
        obtain ⟨m', cells', hloop, hrest, hresult⟩ := ih hmoved hlive
          (hperm.nodup_iff.mpr hnodup) (by rw [hperm.length_eq]; exact hbound) hless
        refine ⟨m', cells', ?_, hreordered.trans hrest, hresult⟩
        rw [(listSortInsert_perm cmp x front).length_eq, List.length_cons] at hloop
        -- the slots of the loop behind the move
        have herased : (cells.eraseIdx (front.length + 1)).length = cells.length - 1 :=
          List.length_eraseIdx_of_lt (by omega)
        have hslot : Chain.slotAt (.root l) moved (front.length + 1 + 1) =
            Chain.slotAt (.root l) cells (front.length + 1) := by
          rw [slotAt_insertIdx_of_lt (by omega) (by omega), slotAt_eraseIdx_of_le le_rfl]
        have huse := hheld.inUse_slotAt hlive (n := k) (by omega)
        have huse' := hheld.inUse_slotAt hlive (n := front.length + 1) (by omega)
        have huseNext := hheld.inUse_slotAt hlive (n := front.length + 1 + 1) (by omega)
        rw [Chain.slotAt_succ hp] at huseNext
        simp only [hposition, hnextLoad, hloadPos, Option.bind_some]
        rw [ListMemory.store_three huseNext huse huse']
        rw [hslot] at hloop
        by_cases heq : k = front.length
        · -- the node is linked in front of the last one of the sorted part, which stays behind it
          have hgiven : moved[k]? = some p := by
            simp only [moved]
            rw [List.getElem?_insertIdx_self, if_pos (by omega)]
          have hload₁ : m₁.load (Chain.slotAt (.root l) cells k) = some (some p) := by
            have heq₁ := hmoved.load_slotAt (n := k) hlive (by rw [hperm.length_eq]; omega)
            rw [hgiven] at heq₁
            rwa [slotAt_insertIdx_of_le le_rfl, slotAt_eraseIdx_of_le (by omega)] at heq₁
          rw [heq] at hload₁ hgiven
          rw [Chain.slotAt_succ hgiven] at hloop
          rw [if_pos (by rw [heq])]
          change (m₁.load _).bind _ = _
          rw [hload₁]
          exact hloop
        · have hne : Chain.slotAt (.root l) cells front.length ≠ Chain.slotAt (.root l) cells k :=
            fun hsame => heq (Chain.slotAt_inj hnodup (by omega) (by omega) hsame).symm
          have hlast : Chain.slotAt (.root l) moved (front.length + 1) =
              Chain.slotAt (.root l) cells front.length := by
            rw [slotAt_insertIdx_of_lt (by omega) (by omega), slotAt_eraseIdx_of_le (by omega)]
          rw [if_neg hne, ← hlast]
          exact hloop
      · have hslot : Chain.slotAt (.root l) cells (front.length + 1 + 1) = .next p :=
          Chain.slotAt_succ hp
        have hheld' : HoldsItems m l cells ((front ++ [last]) ++ x :: rest) := by
          simpa using hheld
        rw [if_neg hbelow, if_neg hbelow, ← hslot]
        have hnext := ih hheld' hlive hnodup hbound hless
        simpa using hnext

/-- The sort orders the items as the sort on lists does, and resets the iterators. -/
theorem Holds.sort {m : ListMemory α} {s : Lists α} {cells : Nat → List Nat} {l : Nat}
    {list : ListObject} (hholds : Holds m s cells) (hlist : m.lists l = some list)
    (cmp : α → α → Int) :
    ∃ m' cells', m.listSort l cmp = some m' ∧
      Holds m' (if (s.items l).length ≤ 1 then s
        else s.change l (listSort cmp (s.items l)) fun _ => .start) cells' := by
  obtain ⟨contents, hcontents, hheld⟩ := hholds.exists_contents hlist
  have hlive : (m.lists l).isSome := by simp [hlist]
  have hitems : s.items l = contents.items := by simp [Lists.items, hcontents]
  have hnodup := hholds.nodup l
  have hcount := hheld.count
  rw [ListMemory.listSort, hlist, hitems]
  simp only [Option.bind_eq_bind, Option.bind_some]
  by_cases hfew : contents.items.length ≤ 1
  · rw [if_neg (by omega), if_pos hfew]
    exact ⟨m, cells, rfl, hholds⟩
  rw [if_pos (by omega), if_neg hfew]
  obtain ⟨first, rest, hsplit⟩ := List.exists_cons_of_length_pos (l := contents.items) (by omega)
  obtain ⟨p, hp⟩ : ∃ p, (cells l)[0]? = some p :=
    ⟨_, List.getElem?_eq_getElem (by rw [hheld.length_cells]; omega)⟩
  have hload := hheld.load_slotAt hlive (n := 0) (by omega)
  rw [Chain.slotAt_zero, hp] at hload
  have hlength := hheld.length_cells
  have hbound := hholds.length_lt_bound l
  have hstart : HoldsItems m l (cells l) ([] ++ first :: rest) := by
    simpa [hsplit] using hheld.toHoldsItems
  have hless : rest.length < m.bound := by
    rw [hlength, hsplit, List.length_cons] at hbound
    omega
  obtain ⟨m₁, cells', hloop, hreordered, hsorted⟩ :=
    sortLoop_eq cmp hstart hlive hnodup hbound hless
  rw [List.length_nil, Chain.slotAt_zero, Chain.slotAt_succ hp] at hloop
  simp only [hload, hloop, Option.bind_some]
  obtain ⟨hperm, hsame, hothers⟩ := hreordered
  obtain ⟨link, rfl⟩ : ∃ link, m₁ = { m with link } := ⟨m₁.link, hsame⟩
  let m₂ : ListMemory α := ListMemory.setList { m with link } l
    (some { list with tail := Chain.last (.root l) cells' })
  let adjust : ListIterator → Option ListIterator := fun it => do
    let head ← m₂.load (.root it.list)
    return { it with pos := head, prev := .root it.list }
  have hheld₂ : HoldsList m₂ l cells' { list with tail := Chain.last (.root l) cells' }
      ⟨listSort cmp contents.items, contents.fDel⟩ := by
    refine ⟨⟨?_, ?_⟩, rfl, ?_, hheld.fDel⟩
    · exact hsorted.chain
    · rw [hsplit]
      exact hsorted.nodes
    · rw [(listSort_perm cmp contents.items).length_eq]
      exact hcount
  have hfirst : m₂.load (.root l) = some cells'[0]? := by
    have heq := hheld₂.load_slotAt (n := 0) (by simp [m₂, ListMemory.setList]) (by omega)
    rwa [Chain.slotAt_zero] at heq
  have hmove : ∀ it c, HoldsCursor cells it l c → ∃ it', adjust it = some it' ∧
      HoldsCursor (Function.update cells l cells') it' l .start := by
    intro it c hcursor
    refine ⟨{ it with pos := cells'[0]?, prev := .root it.list }, ?_, ?_⟩
    · simp [adjust, hcursor.list, hfirst]
    · exact HoldsCursor.update hcursor.list (Nat.zero_le _) (by simp) rfl
        (by simp [Cursor.slot, hcursor.list])
  have hiterators := hholds.forIterators_moved hlist (rfl : m₂.iterators = m.iterators) hmove
  refine ⟨_, Function.update cells l cells', hiterators, hholds.change hlist
    rfl rfl ?_ ?_ ?_ rfl hmove (hperm.nodup_iff.mpr hnodup) ?_ ?_ rfl hholds.freeNodes rfl rfl⟩
  · intro contents' hcontents'
    obtain rfl : contents = contents' := Option.some_inj.mp (hcontents.symm.trans hcontents')
    exact hheld₂.congr rfl (fun _ _ => rfl) fun _ _ => rfl
  · intro l' hl'
    exact hothers (.root l') (by simpa using hl') (by simp)
  · intro l' hl' q hq
    refine ⟨hothers (.next q) (by simp) ?_, rfl⟩
    intro q' hq' heq
    exact hl' (hholds.disjoint l' l q hq (Slot.next.inj heq ▸ hq'))
  · intro l' hl' q hq hmem
    exact hl' (hholds.disjoint l' l q hq (hperm.mem_iff.mp hmem))
  · intro q
    change (m.nodes q).isSome ↔ _
    rw [hholds.used q, hperm.mem_iff, exists_mem_cells_iff]

end SlurmSpank.Lib
