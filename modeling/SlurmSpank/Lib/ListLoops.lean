import SlurmSpank.Lib.ListIterators

/-! # Loops over a list in memory

A list is created empty, its items are searched, visited or deleted by walking along its nodes,
and its end gives all nodes and iterators back.
-/

namespace SlurmSpank.Lib

open Foundation

variable {α σ : Type}

theorem ListMemory.load_root {m : ListMemory α} {l : Nat} {list : ListObject}
    (hlist : m.lists l = some list) : m.load (.root l) = some (m.link (.root l)) :=
  ListMemory.load_of_inUse (by simp [ListMemory.inUse, hlist])

/-! ## Walks -/

section Walks

variable {m : ListMemory α} {slot : NodeSlot} {cells : List Nat} {items : List α} {fuel : Nat}

/-- The search finds the first item that is selected. -/
theorem findFrom_eq (f : α → Bool) (hchain : Chain.Complete m.link slot cells)
    (hnodes : cells.map m.nodes = items.map some) (hfuel : cells.length < fuel) :
    m.findFrom f fuel (m.link slot) = some (items.find? f) := by
  induction cells generalizing slot items fuel with
  | nil =>
      obtain ⟨fuel, rfl⟩ := Nat.exists_eq_add_one_of_ne_zero (Nat.ne_zero_of_lt hfuel)
      obtain rfl : items = [] := by simpa using hnodes.symm
      rw [Chain.complete_nil.mp hchain]
      rfl
  | cons p cells ih =>
      obtain ⟨fuel, rfl⟩ := Nat.exists_eq_add_one_of_ne_zero (Nat.ne_zero_of_lt hfuel)
      obtain ⟨hlink, hrest⟩ := Chain.complete_cons.mp hchain
      cases items with
      | nil => simp at hnodes
      | cons x items =>
          simp only [List.map_cons, List.cons.injEq] at hnodes
          obtain ⟨hnode, hnodes⟩ := hnodes
          have hload : m.load (.next p) = some (m.link (.next p)) :=
            ListMemory.load_of_inUse (by simp [ListMemory.inUse, hnode])
          rw [hlink, ListMemory.findFrom, hnode]
          by_cases hfound : f x = true
          · simp [hfound]
          · simpa [hfound, hload] using ih hrest hnodes (by simpa using hfuel)

/-- The visit replaces the data of the nodes up to the first failure. -/
theorem forEachFrom_eq (f : α → σ → α × σ × Int) (state : σ) (n : Int)
    (hchain : Chain.Complete m.link slot cells) (hnodup : cells.Nodup)
    (hnodes : cells.map m.nodes = items.map some) (hfuel : cells.length < fuel) :
    ∃ nodes, ListMemory.forEachFrom f fuel (m.link slot) state n m =
        some ((listForEach f items state n).2.2, (listForEach f items state n).2.1,
          { m with nodes }) ∧
      cells.map nodes = (listForEach f items state n).1.map some ∧
      ∀ p, p ∉ cells → nodes p = m.nodes p := by
  induction cells generalizing m slot items fuel state n with
  | nil =>
      obtain ⟨fuel, rfl⟩ := Nat.exists_eq_add_one_of_ne_zero (Nat.ne_zero_of_lt hfuel)
      obtain rfl : items = [] := by simpa using hnodes.symm
      rw [Chain.complete_nil.mp hchain]
      exact ⟨m.nodes, rfl, rfl, fun _ _ => rfl⟩
  | cons p cells ih =>
      obtain ⟨fuel, rfl⟩ := Nat.exists_eq_add_one_of_ne_zero (Nat.ne_zero_of_lt hfuel)
      obtain ⟨hlink, hrest⟩ := Chain.complete_cons.mp hchain
      obtain ⟨hp, hnodup⟩ := List.nodup_cons.mp hnodup
      cases items with
      | nil => simp at hnodes
      | cons x items =>
          simp only [List.map_cons, List.cons.injEq] at hnodes
          obtain ⟨hnode, hnodes⟩ := hnodes
          rw [hlink, ListMemory.forEachFrom, hnode, listForEach]
          simp only [Option.bind_eq_bind, Option.bind_some]
          obtain ⟨x', state', rc⟩ := f x state
          dsimp only
          have hold : ∀ q ∈ cells, (m.setNode p (some x')).nodes q = m.nodes q := by
            intro q hq
            apply Function.update_of_ne
            rintro rfl
            exact hp hq
          have hmap : cells.map (m.setNode p (some x')).nodes = cells.map m.nodes :=
            List.map_congr_left hold
          by_cases hfail : rc < 0
          · refine ⟨(m.setNode p (some x')).nodes, ?_, ?_, ?_⟩
            · rw [if_pos hfail, if_pos hfail]
              rfl
            · rw [if_pos hfail, List.map_cons, List.map_cons, hmap, hnodes]
              simp [ListMemory.setNode]
            · intro q hq
              apply Function.update_of_ne
              rintro rfl
              exact hq List.mem_cons_self
          · have hload : (m.setNode p (some x')).load (.next p) = some (m.link (.next p)) :=
              ListMemory.load_of_inUse (by simp [ListMemory.inUse, ListMemory.setNode])
            obtain ⟨nodes, hloop, hresult, hothers⟩ := ih (m := m.setNode p (some x'))
              state' (n + 1) hrest hnodup (hmap.trans hnodes)
              (by simpa using hfuel)
            refine ⟨nodes, ?_, ?_, ?_⟩
            · rw [if_neg hfail, if_neg hfail, hload, Option.bind_some]
              exact hloop
            · rw [if_neg hfail, List.map_cons, List.map_cons, hresult, hothers p hp]
              simp [ListMemory.setNode]
            · intro q hq
              rw [List.mem_cons, not_or] at hq
              rw [hothers q hq.2]
              exact Function.update_of_ne hq.1 _ _

/-- The end of a list gives back its nodes, and calls the deletion function on each item. -/
theorem destroyNodes_eq (fDel : Bool) (hchain : Chain.Complete m.link slot cells)
    (hnodup : cells.Nodup) (hnodes : cells.map m.nodes = items.map some)
    (hfuel : cells.length < fuel) :
    ListMemory.destroyNodes fDel fuel (m.link slot) m = some { m with
      nodes := fun p => if p ∈ cells then none else m.nodes p
      freeNodes := cells.foldl (fun pool p => pool.release p) m.freeNodes
      deleted := m.deleted ++ if fDel then items else [] } := by
  induction cells generalizing m slot items fuel with
  | nil =>
      obtain ⟨fuel, rfl⟩ := Nat.exists_eq_add_one_of_ne_zero (Nat.ne_zero_of_lt hfuel)
      obtain rfl : items = [] := by simpa using hnodes.symm
      rw [Chain.complete_nil.mp hchain]
      simp [ListMemory.destroyNodes]
  | cons p cells ih =>
      obtain ⟨fuel, rfl⟩ := Nat.exists_eq_add_one_of_ne_zero (Nat.ne_zero_of_lt hfuel)
      obtain ⟨hlink, hrest⟩ := Chain.complete_cons.mp hchain
      obtain ⟨hp, hnodup⟩ := List.nodup_cons.mp hnodup
      cases items with
      | nil => simp at hnodes
      | cons x items =>
          simp only [List.map_cons, List.cons.injEq] at hnodes
          obtain ⟨hnode, hnodes⟩ := hnodes
          have hload : m.load (.next p) = some (m.link (.next p)) :=
            ListMemory.load_of_inUse (by simp [ListMemory.inUse, hnode])
          rw [hlink, ListMemory.destroyNodes, hload, hnode]
          simp only [Option.bind_eq_bind, Option.bind_some]
          let m₁ : ListMemory α := { m with
            nodes := Function.update m.nodes p none
            freeNodes := m.freeNodes.release p
            deleted := m.deleted ++ if fDel then [x] else [] }
          have hstep : { (m.callDelete fDel x).setNode p none with
              freeNodes := (m.callDelete fDel x).freeNodes.release p } = m₁ := by
            cases fDel <;> simp [ListMemory.callDelete, ListMemory.setNode, m₁]
          have hmap : cells.map m₁.nodes = items.map some := by
            rw [← hnodes]
            apply List.map_congr_left
            intro q hq
            apply Function.update_of_ne
            rintro rfl
            exact hp hq
          rw [hstep]
          refine (ih (m := m₁) hrest hnodup hmap (by simpa using hfuel)).trans ?_
          have hnodes₁ : (fun q => if q ∈ cells then none else m₁.nodes q) =
              fun q => if q ∈ p :: cells then none else m.nodes q := by
            funext q
            by_cases heq : q = p
            · simp [heq, m₁]
            · simp [heq, m₁]
          rw [hnodes₁]
          cases fDel <;> simp [m₁]

end Walks

/-- The iterators of a list that ends are given back. -/
theorem destroyIterators_eq {m : ListMemory α} {chain : List Nat} (hnodup : chain.Nodup)
    (hlive : ∀ i ∈ chain, (m.iterators i).isSome) :
    ListMemory.destroyIterators chain m = some { m with
      iterators := fun i => if i ∈ chain then none else m.iterators i
      freeIterators := chain.foldl (fun pool i => pool.release i) m.freeIterators } := by
  induction chain generalizing m with
  | nil => simp [ListMemory.destroyIterators]
  | cons i chain ih =>
      obtain ⟨hi, hnodup⟩ := List.nodup_cons.mp hnodup
      obtain ⟨it, hit⟩ := Option.isSome_iff_exists.mp (hlive i (by simp))
      rw [ListMemory.destroyIterators, hit]
      simp only [Option.bind_eq_bind, Option.bind_some]
      have hrest : ∀ j ∈ chain, (Function.update m.iterators i none j).isSome := by
        intro j hj
        rw [Function.update_of_ne]
        · exact hlive j (by simp [hj])
        · rintro rfl
          exact hi hj
      refine (ih hnodup hrest).trans ?_
      have hiterators :
          (fun j => if j ∈ chain then none else Function.update m.iterators i none j) =
            fun j => if j ∈ i :: chain then none else m.iterators j := by
        funext j
        by_cases heq : j = i
        · simp [heq]
        · simp [heq]
      simp only [ListMemory.setIterator, hiterators, List.foldl_cons]

namespace Lists

variable (s : Lists α) (l : Nat) (gone : List α)

@[simp] theorem lists_delete : (s.delete l gone).lists = s.lists := by
  unfold delete
  split <;> rfl

@[simp] theorem cursors_delete : (s.delete l gone).cursors = s.cursors := by
  unfold delete
  split <;> rfl

theorem deleted_delete : (s.delete l gone).deleted =
    s.deleted ++ if (s.lists l).any Contents.fDel then gone else [] := by
  unfold delete
  split
  next hlist => simp [hlist]
  next hlist =>
    cases hfound : s.lists l with
    | none => simp
    | some contents =>
        obtain ⟨items, fDel⟩ := contents
        cases fDel with
        | false => simp
        | true => exact absurd hfound (hlist items)

end Lists

namespace Holds

variable {m : ListMemory α} {s : Lists α} {cells : Nat → List Nat} {l i : Nat} {c : Cursor}
  {list : ListObject} {it : ListIterator}

theorem lists_none (hholds : Holds m s cells) (hlist : m.lists l = none) : s.lists l = none := by
  have hrel := hholds.lists l
  rw [hlist] at hrel
  generalize s.lists l = found at hrel
  cases hrel
  rfl

/-- A new list is empty. -/
theorem listCreate (hholds : Holds m s cells) (fDel memory : Bool) :
    ∃ given m', m.listCreate fDel memory = some (given, m') ∧
      (∀ l, given = some l → s.lists l = none) ∧
      Holds m' (given.elim s fun l =>
        { s with lists := Function.update s.lists l (some ⟨[], fDel⟩) }) cells ∧
      (memory = true → given.isSome = true) := by
  unfold ListMemory.listCreate
  cases htake : m.freeLists.take listAllocChunk memory with
  | none =>
      refine ⟨none, m, rfl, by simp, hholds, ?_⟩
      rintro rfl
      obtain ⟨_, _, htake'⟩ := m.freeLists.exists_take (show 0 < listAllocChunk by decide)
      rw [htake] at htake'
      cases htake'
  | some taken =>
      obtain ⟨l, freeLists⟩ := taken
      obtain ⟨hdead, hfree⟩ := hholds.freeLists.take htake
      have hnone : m.lists l = none := by simpa using hdead
      have hempty := hholds.unused l hnone
      let list : ListObject := ⟨.root l, [], fDel, 0⟩
      refine ⟨some l, { m with
          lists := Function.update m.lists l (some list)
          link := Function.update m.link (.root l) none
          freeLists := freeLists }, ?_, ?_, ?_, by simp⟩
      · simp [ListMemory.setList, ListMemory.store, ListMemory.inUse, list]
      · rintro _ ⟨⟩
        exact hholds.lists_none hnone
      refine { hholds with
        lists := ?_, cursors := hholds.cursors, chains := ?_, owned := ?_, unused := ?_
        freeLists := ?_ }
      · intro l'
        by_cases heq : l' = l
        · subst heq
          simp only [Function.update_self, Option.elim_some, hempty]
          refine .some ⟨⟨?_, rfl⟩, rfl, rfl, rfl⟩
          simp
        · simp only [Function.update_of_ne heq, Option.elim_some]
          have hrel := hholds.lists l'
          generalize m.lists l' = found at hrel
          generalize s.lists l' = spec at hrel
          cases hrel with
          | none => exact .none
          | some hheld => exact .some (hheld.congr (by simp [heq]) (by simp) fun _ _ => rfl)
      · intro l' list' hlist'
        by_cases heq : l' = l
        · subst heq
          obtain rfl : list = list' := by simpa using hlist'
          refine ⟨List.nodup_nil, fun j => ?_⟩
          simp only [list, List.not_mem_nil, false_iff, not_exists, not_and]
          rintro it hit rfl
          simpa [hnone] using hholds.owned j it hit
        · have hother := hholds.chains l' list' (by simpa [heq] using hlist')
          exact ⟨hother.nodup, hother.mem_iff⟩
      · intro j it hit
        by_cases heq : it.list = l
        · simp [heq]
        · simpa [heq] using hholds.owned j it hit
      · intro l' hlist'
        by_cases heq : l' = l
        · simp [heq] at hlist'
        · exact hholds.unused l' (by simpa [heq] using hlist')
      · refine hfree.congr fun l' => ?_
        by_cases heq : l' = l
        · simp [heq]
        · simp [heq]

/-- The two loops of `list_destroy` release the iterators and the nodes of the list. -/
theorem listDestroy_eq (hholds : Holds m s cells) (hlist : m.lists l = some list)
    (hheld : HoldsList m l (cells l) list contents) :
    m.listDestroy l = some { m with
      lists := Function.update m.lists l none
      nodes := fun p => if p ∈ cells l then none else m.nodes p
      iterators := fun i => if i ∈ list.iNext then none else m.iterators i
      freeLists := m.freeLists.release l
      freeNodes := (cells l).foldl (fun pool p => pool.release p) m.freeNodes
      freeIterators := list.iNext.foldl (fun pool i => pool.release i) m.freeIterators
      deleted := m.deleted ++ if list.fDel then contents.items else [] } := by
  have hchain := hholds.chains l list hlist
  -- the memory between the two loops
  let m₁ : ListMemory α := { m with
    iterators := fun i => if i ∈ list.iNext then none else m.iterators i
    freeIterators := list.iNext.foldl (fun pool i => pool.release i) m.freeIterators }
  have hiterators : ListMemory.destroyIterators list.iNext m = some m₁ := by
    apply destroyIterators_eq hchain.nodup
    intro i hi
    obtain ⟨it, hit, -⟩ := (hchain.mem_iff i).mp hi
    simp [hit]
  have hload : m₁.load (.root l) = some (m.link (.root l)) :=
    ListMemory.load_of_inUse (by simp [ListMemory.inUse, m₁, hlist])
  have hnodes : ListMemory.destroyNodes list.fDel m₁.bound (m.link (.root l)) m₁ =
      some { m₁ with
        nodes := fun p => if p ∈ cells l then none else m.nodes p
        freeNodes := (cells l).foldl (fun pool p => pool.release p) m.freeNodes
        deleted := m.deleted ++ if list.fDel then contents.items else [] } :=
    destroyNodes_eq (m := m₁) list.fDel hheld.chain (hholds.nodup l) hheld.nodes
      (hholds.length_lt_bound l)
  unfold ListMemory.listDestroy
  simp only [hlist, Option.bind_eq_bind, Option.bind_some, hiterators, hload, hnodes]
  rfl

/-- The end of a list takes its items and its iterators with it. -/
theorem listDestroy (hholds : Holds m s cells) (hlist : m.lists l = some list) :
    ∃ m', m.listDestroy l = some m' ∧
      Holds m' { s.delete l (s.items l) with
        lists := Function.update s.lists l none
        cursors := fun i => (s.cursors i).filter (·.1 ≠ l) } (Function.update cells l []) := by
  obtain ⟨contents, hcontents, hheld⟩ := hholds.exists_contents hlist
  have hchain := hholds.chains l list hlist
  have hitems : s.items l = contents.items := by simp [Lists.items, hcontents]
  refine ⟨_, hholds.listDestroy_eq hlist hheld, ?_⟩
  have hgone : ∀ i it, m.iterators i = some it → (i ∈ list.iNext ↔ it.list = l) := by
    intro i it hit
    rw [hchain.mem_iff]
    constructor
    · rintro ⟨it', hit', hl⟩
      rw [hit, Option.some.injEq] at hit'
      rwa [hit']
    · intro hl
      exact ⟨it, hit, hl⟩
  -- What is left are the iterators of other lists.
  have hkept : ∀ i it, (if i ∈ list.iNext then none else m.iterators i) = some it →
      m.iterators i = some it ∧ it.list ≠ l := by
    intro i it hit
    split at hit
    next => cases hit
    next hi => exact ⟨hit, fun heq => hi ((hgone i it hit).mpr heq)⟩
  refine
    { lists := fun l' => ?_
      cursors := fun i => ?_
      chains := fun l' list' hlist' => ?_
      owned := fun i it hit => ?_
      nodup := fun l' => ?_
      disjoint := hholds.disjoint_update (by simp)
      used := fun p => ?_
      unused := fun l' hlist' => ?_
      freeLists := ?_
      freeNodes := ?_
      freeIterators := ?_
      deleted := by simp [Lists.deleted_delete, hcontents, hitems, hholds.deleted, hheld.fDel] }
  · by_cases heq : l' = l
    · subst heq
      simp
    · have hother := hholds.lists l'
      simp only [Function.update_of_ne heq]
      generalize m.lists l' = found at hother
      generalize s.lists l' = spec at hother
      cases hother with
      | none => exact .none
      | some hheld' =>
          refine .some (hheld'.congr rfl (fun _ _ => rfl) fun p hp => ?_)
          have hne : p ∉ cells l := fun hmem => heq (hholds.disjoint l' l p hp hmem)
          simp [hne]
  · cases hit : m.iterators i with
    | none =>
        have hrel := hholds.cursors i
        rw [hit] at hrel
        generalize hspec : s.cursors i = spec at hrel
        cases hrel
        simp [hspec, hit]
    | some it =>
        obtain ⟨c, hspec, hcursor⟩ := hholds.exists_cursor hit
        simp only [hspec]
        by_cases heq : it.list = l
        · simp [(hgone i it hit).mpr heq, heq, Option.filter_some]
        · simpa [(hgone i it hit).not.mpr heq, hit, heq, Option.filter_some] using
            Option.Rel.some (cursor_update hcursor heq)
  · have heq : l' ≠ l := by
      rintro rfl
      simp at hlist'
    have hother := hholds.chains l' list' (by simpa [heq] using hlist')
    refine ⟨hother.nodup, fun i => (hother.mem_iff i).trans ?_⟩
    constructor
    · rintro ⟨it, hit, hl'⟩
      refine ⟨it, ?_, hl'⟩
      have hne : i ∉ list.iNext := fun hi => heq (hl'.symm.trans ((hgone i it hit).mp hi))
      simp [hne, hit]
    · rintro ⟨it, hit, hl'⟩
      exact ⟨it, (hkept i it hit).1, hl'⟩
  · obtain ⟨hit, hne⟩ := hkept i it hit
    simpa [hne] using hholds.owned i it hit
  · by_cases heq : l' = l
    · simp [heq]
    · simpa [heq] using hholds.nodup l'
  · rw [exists_mem_update_iff]
    by_cases hp : p ∈ cells l
    · simp only [hp, if_true, Option.isSome_none, Bool.false_eq_true, List.not_mem_nil, false_or,
        false_iff, not_exists, not_and]
      exact fun l' heq hmem => heq (hholds.disjoint l' l p hmem hp)
    · simp only [hp, if_false, hholds.used p, List.not_mem_nil, false_or]
      refine exists_congr fun l' => (and_iff_right_of_imp ?_).symm
      rintro hmem rfl
      exact hp hmem
  · by_cases heq : l' = l
    · simp [heq]
    · simpa [heq] using hholds.unused l' (by simpa [heq] using hlist')
  · refine (hholds.freeLists.release (by simp [hlist])).congr fun l' => ?_
    by_cases heq : l' = l
    · simp [heq]
    · simp [heq]
  · refine (hholds.freeNodes.releaseAll (hholds.nodup l) ?_).congr fun p => ?_
    · intro p hp
      exact (hholds.used p).mpr ⟨l, hp⟩
    · by_cases hp : p ∈ cells l
      · simp [hp]
      · simp [hp]
  · refine (hholds.freeIterators.releaseAll hchain.nodup ?_).congr fun i => ?_
    · intro i hi
      obtain ⟨it, hit, -⟩ := (hchain.mem_iff i).mp hi
      simp [hit]
    · by_cases hi : i ∈ list.iNext
      · simp [hi]
      · simp [hi]

theorem findFirst (hholds : Holds m s cells) (hlist : m.lists l = some list) (f : α → Bool) :
    m.listFindFirst l f = some ((s.items l).find? f) := by
  obtain ⟨contents, hcontents, hheld⟩ := hholds.exists_contents hlist
  have hitems : s.items l = contents.items := by simp [Lists.items, hcontents]
  rw [ListMemory.listFindFirst, ListMemory.load_root hlist, hitems]
  exact findFrom_eq f hheld.chain hheld.nodes (hholds.length_lt_bound l)

theorem peek (hholds : Holds m s cells) (hlist : m.lists l = some list) :
    m.listPeek l = some (s.items l).head? := by
  obtain ⟨contents, hcontents, hheld⟩ := hholds.exists_contents hlist
  have hitems : s.items l = contents.items := by simp [Lists.items, hcontents]
  have hload := hheld.load_slotAt (by simp [hlist]) (Nat.zero_le _)
  rw [Chain.slotAt_zero] at hload
  rw [ListMemory.listPeek, hload, hitems, List.head?_eq_getElem?]
  simp only [Option.bind_eq_bind, Option.bind_some]
  cases hp : (cells l)[0]? with
  | none =>
      have hend := List.getElem?_eq_none_iff.mp hp
      rw [hheld.length_cells] at hend
      rw [List.getElem?_eq_none hend]
      rfl
  | some p =>
      obtain ⟨x, hx, hnode⟩ := hheld.node hp
      simp [hx, hnode]

/-- The visit of a list replaces its items and leaves the iterators in place. -/
theorem forEach (hholds : Holds m s cells) (hlist : m.lists l = some list)
    (f : α → σ → α × σ × Int) (state : σ) :
    ∃ m', m.listForEach l f state = some ((listForEach f (s.items l) state 0).2.2,
        (listForEach f (s.items l) state 0).2.1, m') ∧
      Holds m' (s.change l (listForEach f (s.items l) state 0).1 id) cells := by
  obtain ⟨contents, hcontents, hheld⟩ := hholds.exists_contents hlist
  have hitems : s.items l = contents.items := by simp [Lists.items, hcontents]
  obtain ⟨nodes, hloop, hresult, hothers⟩ := forEachFrom_eq f state 0 hheld.chain
    (hholds.nodup l) hheld.nodes (hholds.length_lt_bound l)
  refine ⟨{ m with nodes }, ?_, ?_⟩
  · rw [ListMemory.listForEach, ListMemory.load_root hlist, hitems]
    exact hloop
  have hlength : (listForEach f contents.items state 0).1.length = contents.items.length := by
    rw [← hheld.length_cells, ← List.length_map (f := nodes), hresult, List.length_map]
  have hsome : ∀ p, (nodes p).isSome = (m.nodes p).isSome := by
    intro p
    by_cases hp : p ∈ cells l
    · have hnode : nodes p ∈ (listForEach f contents.items state 0).1.map some :=
        hresult ▸ List.mem_map_of_mem hp
      obtain ⟨x, -, hx⟩ := List.mem_map.mp hnode
      rw [← hx, (hholds.used p).mpr ⟨l, hp⟩]
      rfl
    · rw [hothers p hp]
  have hsame : m.lists = Function.update m.lists l (some list) :=
    (Function.update_eq_self_iff.mpr hlist.symm).symm
  have hmove : ∀ it c, HoldsCursor cells it l c → ∃ it', some it = some it' ∧
      HoldsCursor (Function.update cells l (cells l)) it' l (id c) := by
    intro it c hcursor
    rw [Function.update_eq_self]
    exact ⟨it, rfl, hcursor⟩
  rw [← Function.update_eq_self l cells]
  refine hholds.change hlist hsame rfl ?_ (fun _ _ => rfl) ?_ ?_ hmove
    (hholds.nodup l) ?_ ?_ rfl ?_ rfl rfl
  · intro contents' hcontents'
    obtain rfl : contents = contents' := Option.some_inj.mp (hcontents.symm.trans hcontents')
    rw [hitems]
    exact ⟨⟨hheld.chain, hresult⟩, hheld.tail, by rw [hlength]; exact hheld.count, hheld.fDel⟩
  · intro l' hl' p hp
    exact ⟨rfl, hothers p fun hmem => hl' (hholds.disjoint l' l p hp hmem)⟩
  · funext i
    simp
  · intro l' hl' p hp hmem
    exact hl' (hholds.disjoint l' l p hp hmem)
  · intro p
    rw [hsome, hholds.used p, exists_mem_cells_iff]
  · exact hholds.freeNodes.congr fun p => by rw [hsome]

end Holds

end SlurmSpank.Lib
