import Mathlib.Data.List.Perm.Basic
import Mathlib.Order.Lattice

/-! # The list library

The operations of `lib/list.c` that the plugins use, on Lean lists whose head is
the head of the C list. Comparison functions return a C `int`, so that an order
is read off the sign of the result as the source does.
-/

namespace SlurmSpank.Lib

open scoped List

universe u v

variable {α : Type u} {σ : Type v}

/-- `list_find_first`. -/
def listFindFirst (f : α → Bool) (items : List α) : Option α := items.find? f

/-- `list_peek`. -/
def listPeek (items : List α) : Option α := items.head?

/-- `list_push`. -/
def listPush (items : List α) (item : α) : List α := item :: items

/-- `list_prepend`. -/
def listPrepend (items : List α) (item : α) : List α := item :: items

/-- `list_delete_all`, without the number of items deleted. -/
def listDeleteAll (f : α → Bool) (items : List α) : List α := items.filter (!f ·)

/-- `list_for_each`, whose callback may change the item it visits and a state that
all calls share. The traversal stops at the first negative return value, and the
result is the number of calls, negated in that case. -/
def listForEach (f : α → σ → α × σ × Int) : List α → σ → Int → List α × σ × Int
  | [], state, n => ([], state, n)
  | item :: rest, state, n =>
      let (item, state, rc) := f item state
      if rc < 0 then (item :: rest, state, -(n + 1))
      else
        let (rest, state, n) := listForEach f rest state (n + 1)
        (item :: rest, state, n)

/-- The inner loop of `list_sort`: walk from the head past every item that does not
compare above `item`, and insert there. -/
def listSortInsert (cmp : α → α → Int) (item : α) : List α → List α
  | [] => [item]
  | pos :: rest =>
      if cmp item pos ≥ 0 then pos :: listSortInsert cmp item rest else item :: pos :: rest

/-- The outer loop of `list_sort`. The items before the cursor are `front ++ [last]`;
the next item moves only when it compares below `last`. -/
def listSortLoop (cmp : α → α → Int) (front : List α) (last : α) : List α → List α
  | [] => front ++ [last]
  | item :: rest =>
      if cmp item last < 0 then
        listSortLoop cmp (listSortInsert cmp item front) last rest
      else listSortLoop cmp (front ++ [last]) item rest

/-- `list_sort`: a stable insertion sort. -/
def listSort (cmp : α → α → Int) : List α → List α
  | [] => []
  | first :: rest => listSortLoop cmp [] first rest

theorem listSortInsert_perm (cmp : α → α → Int) (item : α) (items : List α) :
    (listSortInsert cmp item items).Perm (item :: items) := by
  induction items with
  | nil => exact List.Perm.refl _
  | cons pos rest ih =>
      unfold listSortInsert
      split
      · exact (ih.cons pos).trans (List.Perm.swap item pos rest)
      · exact List.Perm.refl _

theorem listSortLoop_perm (cmp : α → α → Int) (front : List α) (last : α) (rest : List α) :
    (listSortLoop cmp front last rest).Perm (front ++ last :: rest) := by
  induction rest generalizing front last with
  | nil => exact List.Perm.refl _
  | cons item rest ih =>
      unfold listSortLoop
      split
      · calc
          listSortLoop cmp (listSortInsert cmp item front) last rest
          _ ~ listSortInsert cmp item front ++ last :: rest := ih _ _
          _ ~ (item :: front) ++ last :: rest :=
            (listSortInsert_perm cmp item front).append_right _
          _ ~ front ++ item :: last :: rest := List.perm_middle.symm
          _ ~ front ++ last :: item :: rest := (List.Perm.swap last item rest).append_left front
      · refine (ih _ _).trans ?_
        simp

/-- Sorting reorders the items and changes none. -/
theorem listSort_perm (cmp : α → α → Int) (items : List α) :
    (listSort cmp items).Perm items := by
  cases items with
  | nil => exact List.Perm.refl _
  | cons first rest => exact listSortLoop_perm cmp [] first rest

@[simp] theorem mem_listSort {cmp : α → α → Int} {items : List α} {item : α} :
    item ∈ listSort cmp items ↔ item ∈ items := (listSort_perm cmp items).mem_iff

section Sorted

variable {κ : Type*} [LinearOrder κ] {cmp : α → α → Int} {key : α → κ} {R : α → α → Prop}

/-- The order of a stable sort by keys: equal keys keep the order they had. -/
def StableBy (key : α → κ) (R : α → α → Prop) (left right : α) : Prop :=
  key left < key right ∨ key left = key right ∧ R left right

theorem StableBy.le {left right : α} (hstable : StableBy key R left right) :
    key left ≤ key right := by
  rcases hstable with hlt | ⟨heq, _⟩
  · exact hlt.le
  · exact heq.le

theorem stableBy_of_le {left right : α} (hle : key left ≤ key right) (hR : R left right) :
    StableBy key R left right :=
  hle.lt_or_eq.imp_right fun heq => ⟨heq, hR⟩

/-- The item that is inserted was behind all others. -/
theorem listSortInsert_stable (hcmp : ∀ left right, cmp left right < 0 ↔ key left < key right)
    (item : α) {items : List α} (hsorted : items.Pairwise (StableBy key R))
    (hitem : ∀ other ∈ items, R other item) :
    (listSortInsert cmp item items).Pairwise (StableBy key R) := by
  induction items with
  | nil => exact List.pairwise_singleton _ _
  | cons pos rest ih =>
      obtain ⟨hpos, hrest⟩ := List.pairwise_cons.mp hsorted
      unfold listSortInsert
      split
      next habove =>
        have hle : key pos ≤ key item := not_lt.mp ((hcmp item pos).not.mp (Int.not_lt.mpr habove))
        refine List.pairwise_cons.mpr
          ⟨?_, ih hrest fun other hother => hitem other (List.mem_cons_of_mem _ hother)⟩
        intro other hother
        rcases List.mem_cons.mp ((listSortInsert_perm cmp item rest).mem_iff.mp hother) with
          rfl | hmem
        · exact stableBy_of_le hle (hitem pos List.mem_cons_self)
        · exact hpos other hmem
      next hbelow =>
        have hlt : key item < key pos := (hcmp item pos).mp (Int.not_le.mp hbelow)
        refine List.pairwise_cons.mpr ⟨?_, hsorted⟩
        intro other hother
        rcases List.mem_cons.mp hother with rfl | hmem
        · exact Or.inl hlt
        · exact Or.inl (hlt.trans_le (hpos other hmem).le)

theorem listSortLoop_stable (hcmp : ∀ left right, cmp left right < 0 ↔ key left < key right)
    {front : List α} {last : α} (rest : List α)
    (hsorted : (front ++ [last]).Pairwise (StableBy key R)) (hrest : rest.Pairwise R)
    (hbefore : ∀ left ∈ front ++ [last], ∀ right ∈ rest, R left right) :
    (listSortLoop cmp front last rest).Pairwise (StableBy key R) := by
  induction rest generalizing front last with
  | nil => exact hsorted
  | cons item rest ih =>
      obtain ⟨hfront, -, hlast⟩ := List.pairwise_append.mp hsorted
      obtain ⟨hitem, hrest⟩ := List.pairwise_cons.mp hrest
      have hlastItem : R last item :=
        hbefore last (List.mem_append_right _ (List.mem_singleton_self last)) item
          List.mem_cons_self
      -- what was taken from the rest is still in front of what remains of it
      have hbefore' : ∀ left ∈ item :: (front ++ [last]), ∀ right ∈ rest, R left right := by
        intro left hleft right hright
        rcases List.mem_cons.mp hleft with rfl | hmem
        · exact hitem right hright
        · exact hbefore left hmem right (List.mem_cons_of_mem _ hright)
      unfold listSortLoop
      split
      next hbelow =>
        have hlt : key item < key last := (hcmp item last).mp hbelow
        have hperm := listSortInsert_perm cmp item front
        apply ih _ hrest
        · intro left hleft
          refine hbefore' left ?_
          exact ((hperm.append_right [last]).mem_iff).mp hleft
        · refine List.pairwise_append.mpr ⟨listSortInsert_stable hcmp item hfront ?_,
            List.pairwise_singleton _ _, ?_⟩
          · intro other hother
            exact hbefore other (List.mem_append_left _ hother) item List.mem_cons_self
          · intro left hleft right hright
            rw [List.mem_singleton] at hright
            subst right
            rcases List.mem_cons.mp (hperm.mem_iff.mp hleft) with rfl | hmem
            · exact Or.inl hlt
            · exact hlast left hmem last (List.mem_singleton_self last)
      next habove =>
        have hle : key last ≤ key item := not_lt.mp ((hcmp item last).not.mp habove)
        apply ih _ hrest
        · intro left hleft
          refine hbefore' left ?_
          exact List.mem_cons.mpr ((List.mem_append.mp hleft).symm.imp_left List.mem_singleton.mp)
        · refine List.pairwise_append.mpr ⟨hsorted, List.pairwise_singleton _ _, ?_⟩
          intro left hleft right hright
          rw [List.mem_singleton] at hright
          subst hright
          rcases List.mem_append.mp hleft with hmem | hmem
          · have hleftLast := (hlast left hmem last (List.mem_singleton_self last)).le
            exact stableBy_of_le (hleftLast.trans hle) (hbefore left hleft _ List.mem_cons_self)
          · rw [List.mem_singleton] at hmem
            subst left
            exact stableBy_of_le hle hlastItem

/-- A comparison function that compares keys sorts by the keys, and keeps the order of the items
with equal keys. -/
theorem listSort_stable (hcmp : ∀ left right, cmp left right < 0 ↔ key left < key right)
    {items : List α} (hitems : items.Pairwise R) :
    (listSort cmp items).Pairwise (StableBy key R) := by
  cases items with
  | nil => exact List.Pairwise.nil
  | cons first rest =>
      obtain ⟨hfirst, hrest⟩ := List.pairwise_cons.mp hitems
      refine listSortLoop_stable hcmp rest (List.pairwise_singleton _ _) hrest ?_
      intro left hleft
      rw [List.nil_append, List.mem_singleton] at hleft
      subst left
      exact hfirst

theorem listSort_sorted (hcmp : ∀ left right, cmp left right < 0 ↔ key left < key right)
    (items : List α) : (listSort cmp items).Pairwise (key · ≤ key ·) := by
  have hitems : items.Pairwise fun _ _ => True := List.pairwise_of_forall fun _ _ => trivial
  exact (listSort_stable hcmp hitems).imp StableBy.le

end Sorted

end SlurmSpank.Lib
