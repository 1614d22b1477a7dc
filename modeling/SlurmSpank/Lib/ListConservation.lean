import Mathlib.Algebra.BigOperators.Fin
import Mathlib.Algebra.Order.Group.Multiset
import Mathlib.Tactic.Abel
import SlurmSpank.Lib.ListIteration

/-! # No item is lost

Items are told apart by a key, such as their address, that no callback changes. When every list
has a deletion function, each item that was inserted is still in a list, was returned to the
caller who took it out, or was given to a deletion function, and only one of these; and each node
is free or holds an item.
-/

namespace SlurmSpank.Lib

open Foundation

universe u

variable {α σ : Type} {κ : Type u} {key : α → κ}

namespace Lists

/-- The items that a call takes out of a list and returns. -/
def taken : Op α σ × Result α σ → List α
  | (.pop _, .data (some x)) | (.remove _, .data (some x)) => [x]
  | _ => []

/-- The calls that keep the keys of items, and give each new list a deletion function. -/
def Op.Conserves (key : α → κ) : Op α σ → Prop
  | .create fDel _ => fDel = true
  | .forEach _ f _ => ∀ x state, key (f x state).1 = key x
  | _ => True

/-- Items as a multiset of keys. -/
def keys (key : α → κ) (items : List α) : Multiset κ := (items.map key : List κ)

@[simp] theorem keys_nil : keys key [] = 0 := rfl

@[simp] theorem keys_append (front back : List α) :
    keys key (front ++ back) = keys key front + keys key back := by
  simp [keys]

@[simp] theorem keys_cons (x : α) (items : List α) :
    keys key (x :: items) = {key x} + keys key items := by
  simp [keys]

theorem keys_perm {items items' : List α} (hperm : items.Perm items') :
    keys key items = keys key items' :=
  Multiset.coe_eq_coe.mpr (hperm.map key)

theorem keys_filter (f : α → Bool) (items : List α) :
    keys key (items.filter (!f ·)) + keys key (items.filter f) = keys key items := by
  rw [← keys_append]
  exact keys_perm (List.perm_append_comm.trans (List.filter_append_perm f items))

/-- The items of the first lists. -/
def weight (key : α → κ) (s : Lists α) (N : Nat) : Multiset κ :=
  ∑ l ∈ Finset.range N, keys key (s.items l)

variable {s s' : Lists α} {l n N : Nat} {contents : Contents α}

theorem weight_congr (hitems : ∀ l, s'.items l = s.items l) : weight key s' N = weight key s N := by
  simp [weight, hitems]

variable (key) in
/-- The items of one list change. -/
theorem weight_update {items : List α} (hl : l < N) (hitems : s'.items l = items)
    (hothers : ∀ l', l' ≠ l → s'.items l' = s.items l') :
    weight key s' N + keys key (s.items l) = weight key s N + keys key items := by
  have hmem : l ∈ Finset.range N := Finset.mem_range.mpr hl
  have hrest : ∑ l' ∈ (Finset.range N).erase l, keys key (s'.items l') =
      ∑ l' ∈ (Finset.range N).erase l, keys key (s.items l') := by
    apply Finset.sum_congr rfl
    intro l' hl'
    rw [hothers l' (Finset.ne_of_mem_erase hl')]
  rw [weight, weight, ← Finset.add_sum_erase _ _ hmem,
    ← Finset.add_sum_erase (Finset.range N) (fun l => keys key (s.items l)) hmem, hrest, hitems]
  abel

variable (key) in
theorem weight_change (hcontents : s.lists l = some contents) (hl : l < N) (items : List α)
    (move : Cursor → Cursor) :
    weight key (s.change l items move) N + keys key (s.items l) =
      weight key s N + keys key items := by
  apply weight_update key hl (items_change hcontents items move)
  intro l' hne
  simp [Lists.items, lists_change, hne]

theorem weight_insertAt (hcontents : s.lists l = some contents) (hl : l < N)
    (hn : n ≤ (s.items l).length) (x : α) :
    weight key (s.insertAt l n x) N = {key x} + weight key s N := by
  have hchange := weight_change key hcontents hl ((s.items l).insertIdx n x)
    (Cursor.insertAt n)
  rw [keys_perm (List.perm_insertIdx x _ hn), keys_cons, ← add_assoc] at hchange
  exact (add_right_cancel hchange).trans (add_comm _ _)

theorem weight_removeAt {x : α} (hcontents : s.lists l = some contents) (hl : l < N)
    (hx : (s.items l)[n]? = some x) :
    weight key s N = {key x} + weight key (s.removeAt l n) N := by
  have hchange := weight_change key hcontents hl ((s.items l).eraseIdx n)
    (Cursor.removeAt n)
  obtain ⟨hn, rfl⟩ := List.getElem?_eq_some_iff.mp hx
  rw [← keys_perm (List.getElem_cons_eraseIdx_perm hn), keys_cons, ← add_assoc] at hchange
  exact (add_right_cancel hchange).symm.trans (add_comm _ _)

/-- The lists have deletion functions, and their iterators belong to lists that are in use. -/
structure Sound (s : Lists α) (N : Nat) : Prop where
  fDel : ∀ l contents, s.lists l = some contents → contents.fDel = true
  few : ∀ l, N ≤ l → s.lists l = none
  owned : ∀ i l c, s.cursors i = some (l, c) → (s.lists l).isSome
  bounded : s.Bounded

theorem Sound.lt (hsound : Sound s N) (hcontents : s.lists l = some contents) : l < N := by
  by_contra hge
  rw [hsound.few l (Nat.le_of_not_lt hge)] at hcontents
  cases hcontents

theorem Sound.deleted_delete (hsound : Sound s N) (hcontents : s.lists l = some contents)
    (gone : List α) : (s.delete l gone).deleted = s.deleted ++ gone := by
  simp [Lists.deleted_delete, hcontents, hsound.fDel l contents hcontents]

/-- The items of a list that `list_for_each` visits keep their keys. -/
theorem keys_listForEach (f : α → σ → α × σ × Int)
    (hkeep : ∀ x state, key (f x state).1 = key x) (items : List α) (state : σ) (n : Int) :
    keys key (listForEach f items state n).1 = keys key items := by
  induction items generalizing state n with
  | nil => rfl
  | cons x items ih =>
      have hx := hkeep x state
      unfold listForEach
      generalize f x state = visit at hx
      obtain ⟨x', state', rc⟩ := visit
      dsimp only at hx ⊢
      split
      · rw [keys_cons, keys_cons, hx]
      · rw [keys_cons, keys_cons, hx, ih]

/-- Whether a call is on a list or an iterator that is in use. -/
def Live (s : Lists α) (op : Op α σ) : Prop :=
  match op.target with
  | none => True
  | some (.inl l) => (s.lists l).isSome
  | some (.inr i) => (s.cursors i).isSome

/-- An insertion returns the item exactly if it inserts it. -/
theorem Sound.insertItem {x : α} {created : Bool} {result : Result α σ} (hsound : Sound s N)
    (hlive : (s.lists l).isSome = true) (hn : n ≤ (s.items l).length)
    (hresult : s.insertItem l n x created = (result, s')) :
    (result = .data none ∧ s' = s) ∨ (result = .data (some x) ∧ s'.deleted = s.deleted ∧
      weight key s' N = {key x} + weight key s N) := by
  obtain ⟨contents, hcontents⟩ := Option.isSome_iff_exists.mp hlive
  cases created with
  | false =>
      obtain ⟨rfl, rfl⟩ := Prod.mk.inj hresult
      exact Or.inl ⟨rfl, rfl⟩
  | true =>
      obtain ⟨rfl, rfl⟩ := Prod.mk.inj hresult
      exact Or.inr ⟨rfl, rfl, weight_insertAt hcontents (hsound.lt hcontents) hn x⟩

/-- Items that are deleted when they have been removed. -/
theorem Sound.deleted_change_delete (hsound : Sound s N) (hcontents : s.lists l = some contents)
    (items : List α) (move : Cursor → Cursor) (gone : List α) :
    ((s.change l items move).delete l gone).deleted = s.deleted ++ gone := by
  simp [Lists.deleted_delete, lists_change, hcontents, hsound.fDel l contents hcontents]

/-- What a call inserts, removes and deletes. -/
theorem Step.balance {label : Op α σ × Result α σ} (hstep : s.Step label s')
    (hlive : s.Live label.1) (hconserves : label.1.Conserves key) (hsound : Sound s N) :
    keys key (inserted label) + keys key s.deleted + weight key s N =
      keys key (taken label) + keys key s'.deleted + weight key s' N := by
  obtain ⟨op, result⟩ := label
  obtain ⟨given, ⟨-, hgiven⟩, happly⟩ := hstep
  have hlist : ∀ l, (s.lists l).isSome = true → ∃ contents, s.lists l = some contents := fun l =>
    Option.isSome_iff_exists.mp
  -- One term at most of the sum over the lists changes, that of the list that is worked on.
  cases op with
  | create fDel memory =>
      cases given with
      | none =>
          obtain ⟨rfl, rfl⟩ := Prod.mk.inj happly
          rfl
      | some l =>
          obtain ⟨rfl, rfl⟩ := Prod.mk.inj happly
          have hnone : s.lists l = none := hgiven
          have hweight : weight key
              { s with lists := Function.update s.lists l (some ⟨[], fDel⟩) } N =
                weight key s N := by
            apply weight_congr
            intro l'
            by_cases heq : l' = l
            · simp [Lists.items, heq, hnone]
            · simp [Lists.items, heq]
          rw [hweight]
          rfl
  | destroy l =>
      obtain ⟨rfl, hafter⟩ := Prod.mk.inj happly
      obtain ⟨contents, hcontents⟩ := hlist l hlive
      have hdeleted : s'.deleted = s.deleted ++ s.items l := by
        rw [← hafter]
        exact hsound.deleted_delete hcontents (s.items l)
      have hweight : weight key s' N + keys key (s.items l) = weight key s N + keys key [] :=
        weight_update key
        (hsound.lt hcontents) (by simp [← hafter, Lists.items]) (by
          intro l' hne
          simp [← hafter, Lists.items, hne])
      rw [keys_nil, add_zero] at hweight
      rw [← hweight, hdeleted]
      simp only [inserted, taken, keys_nil, keys_append]
      abel
  | isEmpty l | count l | peek l | findFirst l f =>
      obtain ⟨rfl, rfl⟩ := Prod.mk.inj happly
      rfl
  | append l x memory =>
      rcases hsound.insertItem hlive le_rfl happly with ⟨rfl, rfl⟩ | ⟨rfl, hdeleted, hweight⟩
      · rfl
      · rw [hweight, hdeleted]
        simp only [inserted, taken, keys_cons, keys_nil]
        abel
  | prepend l x memory =>
      rcases hsound.insertItem hlive (Nat.zero_le _) happly with
        ⟨rfl, rfl⟩ | ⟨rfl, hdeleted, hweight⟩
      · rfl
      · rw [hweight, hdeleted]
        simp only [inserted, taken, keys_cons, keys_nil]
        abel
  | pop l =>
      obtain ⟨contents, hcontents⟩ := hlist l hlive
      rcases removeItem_cases s l 0 with hnone | ⟨x, hx, hsome⟩
      · simp only [apply, hnone] at happly
        obtain ⟨rfl, rfl⟩ := Prod.mk.inj happly
        rfl
      · simp only [apply, hsome] at happly
        obtain ⟨rfl, rfl⟩ := Prod.mk.inj happly
        rw [weight_removeAt hcontents (hsound.lt hcontents) hx]
        simp only [inserted, taken, keys_cons, keys_nil, id_eq, removeAt, deleted_change]
        abel
  | deleteAll l f =>
      obtain ⟨rfl, rfl⟩ := Prod.mk.inj happly
      obtain ⟨contents, hcontents⟩ := hlist l hlive
      have hchange := weight_change key hcontents (hsound.lt hcontents)
        (listDeleteAll f (s.items l)) (Cursor.deleteFrom f (s.items l) 0)
      rw [listDeleteAll, ← keys_filter f (s.items l), add_comm (keys key _), ← add_assoc] at hchange
      have hweight := add_right_cancel hchange
      rw [← hweight, weight_congr (fun l' => items_delete _ l l' _),
        hsound.deleted_change_delete hcontents]
      simp only [inserted, taken, keys_nil, keys_append, listDeleteAll]
      abel
  | forEach l f state =>
      obtain ⟨rfl, rfl⟩ := Prod.mk.inj happly
      obtain ⟨contents, hcontents⟩ := hlist l hlive
      have hchange := weight_change key hcontents (hsound.lt hcontents)
        (listForEach f (s.items l) state 0).1 id
      rw [keys_listForEach f hconserves] at hchange
      rw [add_right_cancel hchange]
      rfl
  | sort l cmp =>
      obtain ⟨rfl, rfl⟩ := Prod.mk.inj happly
      obtain ⟨contents, hcontents⟩ := hlist l hlive
      have hchange := weight_change key hcontents (hsound.lt hcontents)
        (listSort cmp (s.items l)) fun _ => .start
      rw [keys_perm (listSort_perm cmp (s.items l))] at hchange
      split
      · rfl
      · rw [add_right_cancel hchange]
        rfl
  | iterate l memory =>
      cases given with
      | none =>
          obtain ⟨rfl, rfl⟩ := Prod.mk.inj happly
          rfl
      | some j =>
          obtain ⟨rfl, rfl⟩ := Prod.mk.inj happly
          rfl
  | reset j | release j =>
      obtain ⟨rfl, rfl⟩ := Prod.mk.inj happly
      rfl
  | next j =>
      obtain ⟨rfl, rfl⟩ := Prod.mk.inj happly
      change _ = _ + keys key (s.nextItem j).2.deleted + weight key (s.nextItem j).2 N
      unfold nextItem
      split
      next => rfl
      next => split <;> rfl
  | insert j x memory =>
      obtain ⟨⟨l, c⟩, hcursor⟩ := Option.isSome_iff_exists.mp hlive
      simp only [apply, hcursor] at happly
      rcases hsound.insertItem (hsound.owned j l c hcursor) (hsound.bounded.slot_le hcursor) happly
        with ⟨rfl, rfl⟩ | ⟨rfl, hdeleted, hweight⟩
      · rfl
      · rw [hweight, hdeleted]
        simp only [inserted, taken, keys_cons, keys_nil]
        abel
  | find j f =>
      obtain ⟨rfl, rfl⟩ := Prod.mk.inj happly
      change _ = _ + keys key (s.findItem j f).2.deleted + weight key (s.findItem j f).2 N
      unfold findItem
      split
      next => rfl
      next => split <;> rfl
  | remove j =>
      obtain ⟨⟨l, c⟩, hcursor⟩ := Option.isSome_iff_exists.mp hlive
      obtain ⟨contents, hcontents⟩ := hlist l (hsound.owned j l c hcursor)
      rcases removeCurrent_cases hcursor with hnone | ⟨x, hx, hsome⟩
      · simp only [apply, hnone] at happly
        obtain ⟨rfl, rfl⟩ := Prod.mk.inj happly
        rfl
      · simp only [apply, hsome] at happly
        obtain ⟨rfl, rfl⟩ := Prod.mk.inj happly
        rw [weight_removeAt hcontents (hsound.lt hcontents) hx]
        simp only [inserted, taken, keys_cons, keys_nil, id_eq, removeAt, deleted_change]
        abel
  | delete j =>
      obtain ⟨⟨l, c⟩, hcursor⟩ := Option.isSome_iff_exists.mp hlive
      obtain ⟨contents, hcontents⟩ := hlist l (hsound.owned j l c hcursor)
      rcases removeCurrent_cases hcursor with hnone | ⟨x, hx, hsome⟩
      · simp only [apply, hcursor, hnone] at happly
        obtain ⟨rfl, rfl⟩ := Prod.mk.inj happly
        rfl
      · simp only [apply, hcursor, hsome] at happly
        obtain ⟨rfl, rfl⟩ := Prod.mk.inj happly
        -- The deletion function gets the item after it has left the list.
        have hsame : weight key ((s.removeAt l c.slot).delete l [x]) N =
            weight key (s.removeAt l c.slot) N := weight_congr fun l' => items_delete _ l l' _
        rw [weight_removeAt hcontents (hsound.lt hcontents) hx, hsame, removeAt,
          hsound.deleted_change_delete hcontents]
        simp only [inserted, taken, keys_nil, keys_append, keys_cons]
        abel

/-- Every list has a deletion function. -/
def Deleting (s : Lists α) : Prop := ∀ l contents, s.lists l = some contents → contents.fDel = true

namespace Deleting

theorem change (hdel : s.Deleting) (l : Nat) (items : List α) (move : Cursor → Cursor) :
    (s.change l items move).Deleting := by
  intro l' contents hcontents
  rw [lists_change] at hcontents
  by_cases heq : l' = l
  · rw [heq, Function.update_self, Option.map_eq_some_iff] at hcontents
    obtain ⟨old, hold, rfl⟩ := hcontents
    exact hdel l old hold
  · rw [Function.update_of_ne heq] at hcontents
    exact hdel l' contents hcontents

theorem delete (hdel : s.Deleting) (l : Nat) (gone : List α) : (s.delete l gone).Deleting := by
  intro l' contents hcontents
  rw [lists_delete] at hcontents
  exact hdel l' contents hcontents

theorem insertItem (hdel : s.Deleting) (l n : Nat) (x : α) (created : Bool) :
    (s.insertItem l n x created : Result α σ × Lists α).2.Deleting := by
  cases created with
  | false => exact hdel
  | true => exact hdel.change l _ _

theorem removeItem (hdel : s.Deleting) (l n : Nat) : (s.removeItem l n).2.Deleting := by
  rcases removeItem_cases s l n with hnone | ⟨x, -, hsome⟩
  · rw [hnone]
    exact hdel
  · rw [hsome]
    exact hdel.change l _ _

theorem removeCurrent (hdel : s.Deleting) (j : Nat) : (s.removeCurrent j).2.Deleting := by
  unfold Lists.removeCurrent
  split
  next => exact hdel
  next =>
    split
    next => exact hdel.removeItem _ _
    next => exact hdel

end Deleting

/-- A list keeps its deletion function, and a new one has the one that it is created with. -/
theorem Step.fDel {label : Op α σ × Result α σ} (hstep : s.Step label s')
    (hconserves : label.1.Conserves key) (hdel : s.Deleting) : s'.Deleting := by
  obtain ⟨op, result⟩ := label
  obtain ⟨given, -, happly⟩ := hstep
  have hafter : s' = (s.apply op given).2 := by rw [happly]
  rw [hafter]
  cases op with
  | create fDel memory =>
      cases given with
      | none => exact hdel
      | some l =>
          intro l' contents hcontents
          by_cases heq : l' = l
          · obtain rfl : _ = contents := by simpa [apply, heq] using hcontents
            exact hconserves
          · exact hdel l' contents (by simpa [apply, heq] using hcontents)
  | destroy l =>
      intro l' contents hcontents
      by_cases heq : l' = l
      · simp [apply, heq] at hcontents
      · exact hdel l' contents (by simpa [apply, heq] using hcontents)
  | isEmpty l | count l | peek l | findFirst l f | reset j | release j => exact hdel
  | append l x memory | prepend l x memory => exact hdel.insertItem _ _ _ _
  | pop l => exact hdel.removeItem l 0
  | deleteAll l f => exact (hdel.change l _ _).delete l _
  | forEach l f state => exact hdel.change l _ _
  | sort l cmp =>
      simp only [apply]
      split
      · exact hdel
      · exact hdel.change l _ _
  | iterate l memory => cases given <;> exact hdel
  | next j =>
      change (s.nextItem j).2.Deleting
      unfold nextItem
      split
      next => exact hdel
      next => split <;> exact hdel
  | insert j x memory =>
      simp only [apply]
      split
      · exact hdel
      · exact hdel.insertItem _ _ _ _
  | find j f =>
      change (s.findItem j f).2.Deleting
      unfold findItem
      split
      next => exact hdel
      next => split <;> exact hdel
  | remove j => exact hdel.removeCurrent j
  | delete j =>
      simp only [apply]
      split
      next hfound =>
        have hafter := hdel.removeCurrent j
        rw [hfound] at hafter
        exact hafter.delete _ _
      next => exact hdel

theorem weight_extend {N' : Nat} (hfew : ∀ l, N ≤ l → s.lists l = none) (hle : N ≤ N') :
    weight key s N' = weight key s N := by
  symm
  apply Finset.sum_subset (Finset.range_mono hle)
  intro l _ hout
  have hnone := hfew l (Nat.le_of_not_lt fun hlt => hout (Finset.mem_range.mpr hlt))
  simp [Lists.items, hnone]

end Lists

/-! ## Memory -/

/-- The items in the nodes that are in use. -/
def ListMemory.held (m : ListMemory α) : List α :=
  (List.range m.freeNodes.made).filterMap m.nodes

theorem filterMap_filter_isSome (nodes : Nat → Option α) (cells : List Nat) :
    (cells.filter fun p => (nodes p).isSome).filterMap nodes = cells.filterMap nodes := by
  induction cells with
  | nil => rfl
  | cons p cells ih =>
      cases hp : nodes p with
      | none => simp [hp, ih]
      | some x => simp [hp, ih]

namespace Holds

variable {m : ListMemory α} {s : Lists α} {cells : Nat → List Nat}

theorem few (hholds : Holds m s cells) (l : Nat) (hl : m.freeLists.made ≤ l) :
    s.lists l = none := by
  apply hholds.lists_none
  by_contra hlive
  have hmade := (hholds.freeLists.made l).mpr (Or.inr (Option.isSome_iff_ne_none.mpr hlive))
  omega

theorem sound (hholds : Holds m s cells)
    (hdel : ∀ l contents, s.lists l = some contents → contents.fDel = true) {N : Nat}
    (hN : m.freeLists.made ≤ N) : s.Sound N where
  fDel := hdel
  few l hl := hholds.few l (hN.trans hl)
  owned i l c hcursor := by
    obtain ⟨it, hit, hheld⟩ := hholds.exists_iterator hcursor
    rw [← hholds.lists_isSome, ← hheld.list]
    exact hholds.owned i it hit
  bounded := hholds.bounded

theorem filterMap_cells (hholds : Holds m s cells) (l : Nat) :
    (cells l).filterMap m.nodes = s.items l := by
  cases hlist : m.lists l with
  | none => simp [hholds.unused l hlist, Lists.items, hholds.lists_none hlist]
  | some list =>
      obtain ⟨contents, hcontents, hheld⟩ := hholds.exists_contents hlist
      have hmap : (cells l).filterMap m.nodes = ((cells l).map m.nodes).filterMap id := by
        rw [List.filterMap_map]
        rfl
      rw [hmap, hheld.nodes, List.filterMap_map]
      simp [Lists.items, hcontents]

/-- The nodes in use are those of the lists. -/
theorem used_perm (hholds : Holds m s cells) :
    ((List.range m.freeNodes.made).filter fun p => (m.nodes p).isSome).Perm
      ((List.range m.freeLists.made).flatMap cells) := by
  have hnodup : ((List.range m.freeLists.made).flatMap cells).Nodup := by
    refine List.nodup_flatMap.mpr ⟨fun l _ => hholds.nodup l, ?_⟩
    refine List.nodup_range.imp fun hne => ?_
    intro p hp hp'
    exact hne (hholds.disjoint _ _ p hp hp')
  refine (List.perm_ext_iff_of_nodup (List.nodup_range.filter _) hnodup).mpr fun p => ?_
  rw [List.mem_filter, List.mem_range, List.mem_flatMap, hholds.used p, hholds.freeNodes.made,
    hholds.used p]
  constructor
  · rintro ⟨-, l, hp⟩
    refine ⟨l, List.mem_range.mpr ((hholds.freeLists.made l).mpr (Or.inr ?_)), hp⟩
    cases hlist : m.lists l with
    | none => simp [hholds.unused l hlist] at hp
    | some list => rfl
  · rintro ⟨l, -, hp⟩
    exact ⟨Or.inr ⟨l, hp⟩, l, hp⟩

/-- The nodes in use hold the items of the lists. -/
theorem keys_held (hholds : Holds m s cells) :
    Lists.keys key m.held = s.weight key m.freeLists.made := by
  have hperm := hholds.used_perm.filterMap m.nodes
  rw [filterMap_filter_isSome] at hperm
  rw [ListMemory.held, Lists.keys_perm hperm, Lists.weight]
  generalize m.freeLists.made = N
  induction N with
  | zero => rfl
  | succ N ih =>
      rw [List.range_succ, List.flatMap_append, List.filterMap_append, Lists.keys_append, ih,
        Finset.sum_range_succ, List.flatMap_singleton, hholds.filterMap_cells]

/-- Each node is free or holds an item. -/
theorem length_held (hholds : Holds m s cells) :
    m.freeNodes.free.length + m.held.length = m.freeNodes.made := by
  have hused : m.held.length =
      ((List.range m.freeNodes.made).filter fun p => (m.nodes p).isSome).length := by
    rw [ListMemory.held, List.length_filterMap_eq_countP, List.countP_eq_length_filter]
  have hnodup : (m.freeNodes.free ++
      (List.range m.freeNodes.made).filter fun p => (m.nodes p).isSome).Nodup := by
    refine List.nodup_append.mpr ⟨hholds.freeNodes.nodup, List.nodup_range.filter _, ?_⟩
    rintro p hfree _ hused rfl
    exact hholds.freeNodes.disjoint p hfree (List.mem_filter.mp hused).2
  have hperm := (List.perm_ext_iff_of_nodup hnodup
    (List.nodup_range (n := m.freeNodes.made))).mpr fun p => by
      rw [List.mem_append, List.mem_filter, List.mem_range, hholds.freeNodes.made]
      tauto
  rw [hused, ← List.length_append, hperm.length_eq, List.length_range]

end Holds

/-- A call that keeps keys and gives each new list a deletion function. -/
def ListMemory.ConservingStep (key : α → κ) (m : ListMemory α)
    (label : Lists.Op α σ × Lists.Result α σ) (m' : ListMemory α) : Prop :=
  label.1.Conserves key ∧ m.Step label m'

theorem Holds.live {m : ListMemory α} {s : Lists α} {cells : Nat → List Nat}
    (hholds : Holds m s cells) {op : Lists.Op α σ} (hlive : m.Live op) : s.Live op := by
  revert hlive
  unfold ListMemory.Live Lists.Live
  cases op.target with
  | none => exact id
  | some target =>
      cases target with
      | inl l => simp [hholds.lists_isSome]
      | inr i => simp [hholds.cursors_isSome]

/-- Every run keeps the balance of the items. -/
theorem ListMemory.run_balance {calls : List (Lists.Op α σ × Lists.Result α σ)}
    {m : ListMemory α} (run : Run (ListMemory.ConservingStep key) .initial calls m) :
    ∃ s cells, Holds m s cells ∧
      (∀ l contents, s.lists l = some contents → contents.fDel = true) ∧
      Lists.keys key (calls.flatMap Lists.inserted) =
        Lists.keys key (calls.flatMap Lists.taken) + Lists.keys key s.deleted +
          s.weight key m.freeLists.made := by
  induction run with
  | start => exact ⟨_, _, holds_initial, by simp [Lists.initial], rfl⟩
  | @extend calls label before after prior last ih =>
      obtain ⟨s, cells, hholds, hdel, hbalance⟩ := ih
      obtain ⟨hconserves, hlive, hcall⟩ := last
      obtain ⟨result, m', s', cells', hcall', hstep, hholds'⟩ := hholds.call label.1 hlive
      rw [hcall, Option.some.injEq, Prod.mk.injEq] at hcall'
      obtain ⟨rfl, rfl⟩ := hcall'
      -- the lists before and behind the call are both among the first ones
      let N := max before.freeLists.made after.freeLists.made
      have hstepBalance := hstep.balance (hholds.live hlive) hconserves
        (hholds.sound hdel (N := N) (Nat.le_max_left _ _))
      rw [Lists.weight_extend hholds.few (Nat.le_max_left _ _),
        Lists.weight_extend hholds'.few (Nat.le_max_right _ _)] at hstepBalance
      refine ⟨s', cells', hholds', hstep.fDel hconserves hdel, ?_⟩
      simp only [List.flatMap_append, List.flatMap_singleton, Lists.keys_append]
      rw [hbalance]
      calc Lists.keys key (calls.flatMap Lists.taken) + Lists.keys key s.deleted +
            s.weight key before.freeLists.made + Lists.keys key (Lists.inserted label)
          = Lists.keys key (calls.flatMap Lists.taken) +
              (Lists.keys key (Lists.inserted label) + Lists.keys key s.deleted +
                s.weight key before.freeLists.made) := by abel
        _ = Lists.keys key (calls.flatMap Lists.taken) +
              (Lists.keys key (Lists.taken label) + Lists.keys key s'.deleted +
                s'.weight key after.freeLists.made) := by rw [hstepBalance]
        _ = _ := by abel

/-- Each item that was inserted was taken out, deleted, or is still held, and only one of these;
each node is free or holds an item, and none holds one when no list is in use. -/
theorem ListMemory.run_conserves {calls : List (Lists.Op α σ × Lists.Result α σ)}
    {m : ListMemory α} (run : Run (ListMemory.ConservingStep key) .initial calls m) :
    ((calls.flatMap Lists.inserted).map key).Perm
        ((calls.flatMap Lists.taken ++ m.deleted ++ m.held).map key) ∧
      m.freeNodes.free.length + m.held.length = m.freeNodes.made ∧
      ((∀ l, m.lists l = none) → m.held = []) := by
  obtain ⟨s, cells, hholds, -, hbalance⟩ := ListMemory.run_balance run
  refine ⟨Multiset.coe_eq_coe.mp ?_, hholds.length_held, ?_⟩
  · change Lists.keys key _ = Lists.keys key _
    rw [Lists.keys_append, Lists.keys_append, hholds.keys_held, hholds.deleted, hbalance]
  · intro hnone
    have hperm := hholds.used_perm.filterMap m.nodes
    rw [filterMap_filter_isSome] at hperm
    have hcells : (List.range m.freeLists.made).flatMap cells = [] := by
      rw [List.flatMap_eq_nil_iff]
      intro l _
      exact hholds.unused l (hnone l)
    rw [hcells] at hperm
    exact List.perm_nil.mp hperm

/-- A list with two items, of which one is popped and the other deleted with the list. -/
theorem ListMemory.run_conserves_destroy : ∃ m : ListMemory Nat,
    (([1, 2] : List Nat).map id).Perm (([1] ++ m.deleted ++ m.held).map id) ∧
      m.freeNodes.free.length + m.held.length = m.freeNodes.made ∧
      ((∀ l, m.lists l = none) → m.held = []) := by
  let step := ListMemory.ConservingStep (α := Nat) (σ := Unit) id
  have hconserves := ListMemory.run_conserves
    (.extend (.extend (.extend (.extend (.extend .start
      (⟨?_, ?_, rfl⟩ : step _ (.create true true, .object (some 0)) _))
      (⟨?_, ?_, rfl⟩ : step _ (.append 0 1 true, .data (some 1)) _))
      (⟨?_, ?_, rfl⟩ : step _ (.append 0 2 true, .data (some 2)) _))
      (⟨?_, ?_, rfl⟩ : step _ (.pop 0, .data (some 1)) _))
      (⟨?_, ?_, rfl⟩ : step _ (.destroy 0, .done) _))
  · exact ⟨_, hconserves⟩
  all_goals first | rfl | trivial

end SlurmSpank.Lib
