import SlurmSpank.Foundation.Run
import SlurmSpank.Lib.ListDeletion
import SlurmSpank.Lib.ListSorting

/-! # Runs of calls

A program calls the library on lists and iterators that are in use. However the calls are
interleaved, no call reads or writes an object that is not in use, no assertion fails, and what
the calls return is what lists with cursors return.
-/

namespace SlurmSpank.Lib

open Foundation

variable {α σ : Type}

/-- A call of the library. -/
def ListMemory.call (m : ListMemory α) :
    Lists.Op α σ → Option (Lists.Result α σ × ListMemory α)
  | .create fDel memory => do
      let (l, m) ← m.listCreate fDel memory
      return (.object l, m)
  | .destroy l => do
      let m ← m.listDestroy l
      return (.done, m)
  | .isEmpty l => do
      let empty ← m.listIsEmpty l
      return (.flag empty, m)
  | .count l => do
      let n ← m.listCount l
      return (.number n, m)
  | .append l x memory => do
      let (x, m) ← m.listAppend l x memory
      return (.data x, m)
  | .prepend l x memory => do
      let (x, m) ← m.listPrepend l x memory
      return (.data x, m)
  | .pop l => do
      let (x, m) ← m.listPop l
      return (.data x, m)
  | .peek l => do
      let x ← m.listPeek l
      return (.data x, m)
  | .findFirst l f => do
      let x ← m.listFindFirst l f
      return (.data x, m)
  | .deleteAll l f => do
      let (n, m) ← m.listDeleteAll l f
      return (.number n, m)
  | .forEach l f state => do
      let (n, state, m) ← m.listForEach l f state
      return (.visited n state, m)
  | .sort l cmp => do
      let m ← m.listSort l cmp
      return (.done, m)
  | .iterate l memory => do
      let (i, m) ← m.listIteratorCreate l memory
      return (.object i, m)
  | .reset i => do
      let m ← m.listIteratorReset i
      return (.done, m)
  | .release i => do
      let m ← m.listIteratorDestroy i
      return (.done, m)
  | .next i => do
      let (x, m) ← m.listNext i
      return (.data x, m)
  | .insert i x memory => do
      let (x, m) ← m.listInsert i x memory
      return (.data x, m)
  | .find i f => do
      let (x, m) ← ListMemory.listFind i f m.bound m
      return (.data x, m)
  | .remove i => do
      let (x, m) ← m.listRemove i
      return (.data x, m)
  | .delete i => do
      let (n, m) ← m.listDelete i
      return (.number n, m)

/-- The list or the iterator that a call works on. -/
def Lists.Op.target : Lists.Op α σ → Option (Nat ⊕ Nat)
  | .create _ _ => none
  | .destroy l | .isEmpty l | .count l | .append l _ _ | .prepend l _ _ | .pop l | .peek l
  | .findFirst l _ | .deleteAll l _ | .forEach l _ _ | .sort l _ | .iterate l _ => some (.inl l)
  | .reset i | .release i | .next i | .insert i _ _ | .find i _ | .remove i | .delete i =>
      some (.inr i)

/-- Whether a call is on a list or an iterator that is in use. -/
def ListMemory.Live (m : ListMemory α) (op : Lists.Op α σ) : Prop :=
  match op.target with
  | none => True
  | some (.inl l) => (m.lists l).isSome
  | some (.inr i) => (m.iterators i).isSome

/-- Whether a call asks for memory, and gets it. -/
def Lists.Op.memory : Lists.Op α σ → Bool
  | .create _ memory | .append _ _ memory | .prepend _ _ memory | .iterate _ memory
  | .insert _ _ memory => memory
  | _ => false

/-- What a call can be given: something when there is memory, and never a list or an iterator
that is in use. -/
def Lists.Given (s : Lists α) (op : Lists.Op α σ) (given : Option Nat) : Prop :=
  (op.memory = true → given.isSome = true) ∧
    match op, given with
    | .create _ _, some l => s.lists l = none
    | .iterate _ _, some i => s.cursors i = none
    | _, _ => True

/-- A call as a step of the lists with cursors. -/
def Lists.Step (s : Lists α) (label : Lists.Op α σ × Lists.Result α σ) (s' : Lists α) : Prop :=
  ∃ given, s.Given label.1 given ∧ s.apply label.1 given = (label.2, s')

/-- A call as a step of the memory. -/
def ListMemory.Step (m : ListMemory α) (label : Lists.Op α σ × Lists.Result α σ)
    (m' : ListMemory α) : Prop :=
  m.Live label.1 ∧ m.call label.1 = some (label.2, m')

/-- A call that asks for no memory. -/
theorem Lists.step_of_apply {s s' : Lists α} {op : Lists.Op α σ} {result : Lists.Result α σ}
    (hmemory : op.memory = false) (happly : s.apply op none = (result, s')) :
    s.Step (op, result) s' := by
  refine ⟨none, ⟨by simp [hmemory], ?_⟩, happly⟩
  cases op <;> trivial

theorem Holds.count {m : ListMemory α} {s : Lists α} {cells : Nat → List Nat} {l : Nat}
    {list : ListObject} (hholds : Holds m s cells) (hlist : m.lists l = some list) :
    list.count = (s.items l).length := by
  obtain ⟨contents, hcontents, hheld⟩ := hholds.exists_contents hlist
  simpa [Lists.items, hcontents] using hheld.count

/-- The variable behind the last node of a list. -/
theorem Holds.tail {m : ListMemory α} {s : Lists α} {cells : Nat → List Nat} {l : Nat}
    {list : ListObject} (hholds : Holds m s cells) (hlist : m.lists l = some list) :
    list.tail = Chain.slotAt (.root l) (cells l) (s.items l).length := by
  obtain ⟨contents, hcontents, hheld⟩ := hholds.exists_contents hlist
  rw [hheld.tail, ← hholds.length_items hlist, Chain.slotAt_length]

theorem Lists.removeItem_cases (s : Lists α) (l n : Nat) :
    s.removeItem l n = (none, s) ∨
      ∃ x, (s.items l)[n]? = some x ∧ s.removeItem l n = (some x, s.removeAt l n) := by
  unfold removeItem
  cases hx : (s.items l)[n]? with
  | none => exact Or.inl rfl
  | some x => exact Or.inr ⟨x, rfl, rfl⟩

/-- An iterator without a current item removes nothing. -/
theorem Lists.removeCurrent_cases {s : Lists α} {i l : Nat} {c : Cursor}
    (hcursor : s.cursors i = some (l, c)) :
    s.removeCurrent i = (none, s) ∨ ∃ x, (s.items l)[c.slot]? = some x ∧
      s.removeCurrent i = (some x, s.removeAt l c.slot) := by
  simp only [removeCurrent, hcursor]
  split
  next => exact removeItem_cases s l c.slot
  next => exact Or.inl rfl

/-- A call on objects that are in use has an outcome, which is one of the lists with cursors. -/
theorem Holds.call {m : ListMemory α} {s : Lists α} {cells : Nat → List Nat}
    (hholds : Holds m s cells) (op : Lists.Op α σ) (hlive : m.Live op) :
    ∃ result m' s' cells', m.call op = some (result, m') ∧ s.Step (op, result) s' ∧
      Holds m' s' cells' := by
  have hfound : ∀ l, (m.lists l).isSome = true → ∃ list, m.lists l = some list := fun l =>
    Option.isSome_iff_exists.mp
  have hplace : ∀ i, (m.iterators i).isSome = true → ∃ it, m.iterators i = some it := fun i =>
    Option.isSome_iff_exists.mp
  -- Each call has its lemma about the memory, whose outcome is matched with that on the lists.
  cases op with
  | create fDel memory =>
      obtain ⟨given, m', hcall, hfresh, hholds', hgiven⟩ := hholds.listCreate fDel memory
      refine ⟨.object given, m', _, cells, by simp [ListMemory.call, hcall], ?_, hholds'⟩
      cases given with
      | none => exact ⟨none, ⟨hgiven, trivial⟩, rfl⟩
      | some l => exact ⟨some l, ⟨hgiven, hfresh l rfl⟩, rfl⟩
  | destroy l =>
      obtain ⟨list, hlist⟩ := hfound l hlive
      obtain ⟨m', hcall, hholds'⟩ := hholds.listDestroy hlist
      refine ⟨.done, m', _, _, by simp [ListMemory.call, hcall], Lists.step_of_apply rfl ?_,
        hholds'⟩
      simp [Lists.apply]
  | isEmpty l =>
      obtain ⟨list, hlist⟩ := hfound l hlive
      refine ⟨.flag (s.items l).isEmpty, m, s, cells, ?_, Lists.step_of_apply rfl rfl, hholds⟩
      have hcount := hholds.count hlist
      have hempty : decide (list.count = 0) = (s.items l).isEmpty := by
        rw [hcount]
        cases s.items l with
        | nil => rfl
        | cons x rest =>
            simp only [List.length_cons, List.isEmpty_cons, decide_eq_false_iff_not]
            omega
      simp [ListMemory.call, ListMemory.listIsEmpty, hlist, hempty]
  | count l =>
      obtain ⟨list, hlist⟩ := hfound l hlive
      refine ⟨.number (s.items l).length, m, s, cells, ?_, Lists.step_of_apply rfl rfl, hholds⟩
      simp [ListMemory.call, ListMemory.listCount, hlist, hholds.count hlist]
  | append l x memory =>
      obtain ⟨list, hlist⟩ := hfound l hlive
      obtain ⟨given, m', cells', result, hcreate, hresult, hholds', hgiven⟩ :=
        hholds.insertItem (σ := σ) hlist (n := (s.items l).length)
          (hholds.length_items hlist).ge x memory
      refine ⟨.data result, m', _, cells', ?_, ?_, hholds'⟩
      · simp [ListMemory.call, ListMemory.listAppend, hlist, hholds.tail hlist, hcreate]
      · refine ⟨if given then some 0 else none, ⟨?_, trivial⟩, ?_⟩
        · intro hmemory
          simp [hgiven hmemory]
        · rw [← hresult]
          cases given <;> rfl
  | prepend l x memory =>
      obtain ⟨list, hlist⟩ := hfound l hlive
      obtain ⟨given, m', cells', result, hcreate, hresult, hholds', hgiven⟩ :=
        hholds.insertItem (σ := σ) hlist (n := 0) (Nat.zero_le _) x memory
      rw [Chain.slotAt_zero] at hcreate
      refine ⟨.data result, m', _, cells', ?_, ?_, hholds'⟩
      · simp [ListMemory.call, ListMemory.listPrepend, hlist, hcreate]
      · refine ⟨if given then some 0 else none, ⟨?_, trivial⟩, ?_⟩
        · intro hmemory
          simp [hgiven hmemory]
        · rw [← hresult]
          cases given <;> rfl
  | pop l =>
      obtain ⟨list, hlist⟩ := hfound l hlive
      obtain ⟨m', cells', hdestroy, hholds'⟩ := hholds.removeItem hlist (n := 0) (Nat.zero_le _)
      rw [Chain.slotAt_zero] at hdestroy
      refine ⟨.data (s.removeItem l 0).1, m', _, cells', ?_, Lists.step_of_apply rfl rfl, hholds'⟩
      simp [ListMemory.call, ListMemory.listPop, hlist, hdestroy]
  | peek l =>
      obtain ⟨list, hlist⟩ := hfound l hlive
      refine ⟨.data (s.items l).head?, m, s, cells, ?_, Lists.step_of_apply rfl rfl, hholds⟩
      simp [ListMemory.call, hholds.peek hlist]
  | findFirst l f =>
      obtain ⟨list, hlist⟩ := hfound l hlive
      refine ⟨.data ((s.items l).find? f), m, s, cells, ?_, Lists.step_of_apply rfl rfl, hholds⟩
      simp [ListMemory.call, hholds.findFirst hlist]
  | deleteAll l f =>
      obtain ⟨list, hlist⟩ := hfound l hlive
      obtain ⟨m', cells', hcall, hholds'⟩ := hholds.deleteAll hlist f
      exact ⟨_, m', _, cells', by simp only [ListMemory.call, hcall]; rfl,
        Lists.step_of_apply rfl rfl, hholds'⟩
  | forEach l f state =>
      obtain ⟨list, hlist⟩ := hfound l hlive
      obtain ⟨m', hcall, hholds'⟩ := hholds.forEach hlist f state
      exact ⟨_, m', _, cells, by simp only [ListMemory.call, hcall]; rfl,
        Lists.step_of_apply rfl rfl, hholds'⟩
  | sort l cmp =>
      obtain ⟨list, hlist⟩ := hfound l hlive
      obtain ⟨m', cells', hcall, hholds'⟩ := hholds.sort hlist cmp
      exact ⟨_, m', _, cells', by simp only [ListMemory.call, hcall]; rfl,
        Lists.step_of_apply rfl rfl, hholds'⟩
  | iterate l memory =>
      obtain ⟨list, hlist⟩ := hfound l hlive
      obtain ⟨given, m', hcall, hfresh, hholds', hgiven⟩ := hholds.iteratorCreate hlist memory
      refine ⟨.object given, m', _, cells, by simp [ListMemory.call, hcall], ?_, hholds'⟩
      cases given with
      | none => exact ⟨none, ⟨hgiven, trivial⟩, rfl⟩
      | some i => exact ⟨some i, ⟨hgiven, hfresh i rfl⟩, rfl⟩
  | reset i =>
      obtain ⟨it, hit⟩ := hplace i hlive
      obtain ⟨m', hcall, hholds'⟩ := hholds.iteratorReset hit
      exact ⟨.done, m', _, cells, by simp [ListMemory.call, hcall],
        Lists.step_of_apply rfl rfl, hholds'⟩
  | release i =>
      obtain ⟨it, hit⟩ := hplace i hlive
      obtain ⟨m', hcall, hholds'⟩ := hholds.iteratorDestroy hit
      exact ⟨.done, m', _, cells, by simp [ListMemory.call, hcall],
        Lists.step_of_apply rfl rfl, hholds'⟩
  | next i =>
      obtain ⟨it, hit⟩ := hplace i hlive
      obtain ⟨m', hcall, hholds'⟩ := hholds.next hit
      exact ⟨_, m', _, cells, by simp only [ListMemory.call, hcall]; rfl,
        Lists.step_of_apply rfl rfl, hholds'⟩
  | insert i x memory =>
      obtain ⟨it, hit⟩ := hplace i hlive
      obtain ⟨c, hspec, hcursor⟩ := hholds.exists_cursor hit
      obtain ⟨list, hlist⟩ := hholds.exists_list hit
      obtain ⟨given, m', cells', result, hcreate, hresult, hholds', hgiven⟩ :=
        hholds.insertItem (σ := σ) hlist hcursor.slot_le x memory
      rw [← hcursor.prev] at hcreate
      refine ⟨.data result, m', _, cells', ?_, ?_, hholds'⟩
      · simp [ListMemory.call, ListMemory.listInsert, hit, hcreate]
      · refine ⟨if given then some 0 else none, ⟨?_, trivial⟩, ?_⟩
        · intro hmemory
          simp [hgiven hmemory]
        · rw [← hresult]
          cases given <;> simp [Lists.apply, hspec]
  | find i f =>
      obtain ⟨it, hit⟩ := hplace i hlive
      obtain ⟨c, hspec, hcursor⟩ := hholds.exists_cursor hit
      obtain ⟨list, hlist⟩ := hholds.exists_list hit
      have hlength := hholds.length_items hlist
      have hbound := hholds.length_lt_bound it.list
      have hfuel : (s.items it.list).length - c.pos < m.bound := by omega
      obtain ⟨m', hcall, hholds'⟩ := hholds.find hspec f hfuel
      exact ⟨_, m', _, cells, by simp only [ListMemory.call, hcall]; rfl,
        Lists.step_of_apply rfl rfl, hholds'⟩
  | remove i =>
      obtain ⟨it, hit⟩ := hplace i hlive
      obtain ⟨m', cells', hcall, hholds'⟩ := hholds.removeCurrent hit
      exact ⟨_, m', _, cells', by simp only [ListMemory.call, hcall]; rfl,
        Lists.step_of_apply rfl rfl, hholds'⟩
  | delete i =>
      obtain ⟨it, hit⟩ := hplace i hlive
      obtain ⟨c, hspec, hcursor⟩ := hholds.exists_cursor hit
      obtain ⟨list, hlist⟩ := hholds.exists_list hit
      obtain ⟨contents, hcontents, hheld⟩ := hholds.exists_contents hlist
      obtain ⟨m', cells', hcall, hholds'⟩ := hholds.removeCurrent hit
      have hremove : ListMemory.call m (.delete i : Lists.Op α σ) =
          (s.removeCurrent i).1.elim (some (.number 0, m'))
            fun x => some (.number 1, m'.callDelete contents.fDel x) := by
        simp only [ListMemory.call, ListMemory.listDelete, hit, hlist, hcall, hheld.fDel,
          Option.bind_eq_bind, Option.bind_some]
        cases (s.removeCurrent i).1 <;> rfl
      rcases Lists.removeCurrent_cases hspec with hnone | ⟨x, -, hsome⟩
      · rw [hnone] at hremove hholds'
        refine ⟨.number 0, m', s, cells', hremove, Lists.step_of_apply rfl ?_, hholds'⟩
        simp only [Lists.apply, hspec, hnone]
      · rw [hsome] at hremove hholds'
        have hcontents' : (s.removeAt it.list c.slot).lists it.list =
            some { contents with items := (s.items it.list).eraseIdx c.slot } := by
          simp [Lists.removeAt, Lists.lists_change, hcontents]
        have hdelete := hholds'.callDelete hcontents' x
        refine ⟨.number 1, _, _, cells', hremove, Lists.step_of_apply rfl ?_, hdelete⟩
        simp only [Lists.apply, hspec, hsome]

theorem Holds.lists_isSome {m : ListMemory α} {s : Lists α} {cells : Nat → List Nat}
    (hholds : Holds m s cells) (l : Nat) : (m.lists l).isSome = (s.lists l).isSome := by
  have hrel := hholds.lists l
  generalize m.lists l = found at hrel
  generalize s.lists l = spec at hrel
  cases hrel <;> rfl

theorem Holds.cursors_isSome {m : ListMemory α} {s : Lists α} {cells : Nat → List Nat}
    (hholds : Holds m s cells) (i : Nat) : (m.iterators i).isSome = (s.cursors i).isSome := by
  have hrel := hholds.cursors i
  generalize m.iterators i = found at hrel
  generalize s.cursors i = spec at hrel
  cases hrel <;> rfl

/-- The memory behind a run holds the lists and cursors behind a run with the same calls. -/
theorem ListMemory.run_holds {calls : List (Lists.Op α σ × Lists.Result α σ)}
    {m : ListMemory α} (run : Run ListMemory.Step .initial calls m) :
    ∃ s cells, Run Lists.Step .initial calls s ∧ Holds m s cells := by
  have hsimulate : ∃ s, Run Lists.Step .initial (calls.map id) s ∧ ∃ cells, Holds m s cells := by
    refine run.simulate (fun m s => ∃ cells, Holds m s cells) id ?_ ⟨_, holds_initial⟩
    rintro before ⟨op, result⟩ after s ⟨cells, hholds⟩ ⟨hlive, hcall⟩
    obtain ⟨result', m', s', cells', hcall', hstep, hholds'⟩ := hholds.call op hlive
    rw [hcall, Option.some.injEq, Prod.mk.injEq] at hcall'
    obtain ⟨rfl, rfl⟩ := hcall'
    exact ⟨s', hstep, cells', hholds'⟩
  rw [List.map_id] at hsimulate
  obtain ⟨s, hrun, cells, hholds⟩ := hsimulate
  exact ⟨s, cells, hrun, hholds⟩

/-- In a run of calls on objects that are in use every call has an outcome, and the calls return
what lists with cursors return. -/
theorem ListMemory.run_refines {calls : List (Lists.Op α σ × Lists.Result α σ)}
    {m : ListMemory α} (run : Run ListMemory.Step .initial calls m) :
    (∀ op : Lists.Op α σ, m.Live op → (m.call op).isSome) ∧
      ∃ s, Run Lists.Step .initial calls s ∧ m.deleted = s.deleted ∧
        (∀ l, (m.lists l).isSome = (s.lists l).isSome) ∧
        ∀ i, (m.iterators i).isSome = (s.cursors i).isSome := by
  obtain ⟨s, cells, hrun, hholds⟩ := ListMemory.run_holds run
  refine ⟨?_, s, hrun, hholds.deleted, hholds.lists_isSome, hholds.cursors_isSome⟩
  intro op hlive
  obtain ⟨result, m', -, -, hcall, -, -⟩ := hholds.call op hlive
  simp [hcall]

/-- A list with one item, which is popped. -/
theorem ListMemory.run_refines_pop : ∃ m : ListMemory Nat,
    (∀ op : Lists.Op Nat Unit, m.Live op → (m.call op).isSome) ∧
      ∃ s, Run Lists.Step .initial
          [(.create true true, .object (some 0)), (.append 0 7 true, .data (some 7)),
            ((.pop 0 : Lists.Op Nat Unit), .data (some 7))] s ∧
        m.deleted = s.deleted ∧ (∀ l, (m.lists l).isSome = (s.lists l).isSome) ∧
        ∀ i, (m.iterators i).isSome = (s.cursors i).isSome := by
  refine ⟨_, ListMemory.run_refines
    (.extend (.extend (.extend .start ⟨trivial, rfl⟩) ⟨?_, rfl⟩) ⟨?_, rfl⟩)⟩
  · rfl
  · rfl

end SlurmSpank.Lib
