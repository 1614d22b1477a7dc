import SlurmSpank.Foundation.Hierarchy

/-! # What the directories of a hierarchy hold

A predicate says which directories of a hierarchy count. The items that each path holds, none
where there is no directory that counts, are one function of the path, and an operation is
described by what it does to this function. Two directories are unrelated if neither lies below
the other; unrelated directories that share no items own theirs.
-/

namespace SlurmSpank.Foundation.Hierarchy

universe u v

variable {Name : Type u} {Item : Type v} [DecidableEq Name]

/-- The items that a path holds. -/
def held (counts : List Name → Prop) [DecidablePred counts] (h : Hierarchy Name Item)
    (dir : List Name) : Finset Item :=
  if counts dir ∧ dir ∈ h.dirs then h.items dir else ∅

/-- Neither of two paths lies below the other. -/
def Unrelated (left right : List Name) : Prop := ¬ left <:+ right ∧ ¬ right <:+ left

/-- Directories that count share no items unless one lies below the other. -/
def Owned (counts : List Name → Prop) [DecidablePred counts] (h : Hierarchy Name Item) : Prop :=
  ∀ left right, Unrelated left right → Disjoint (h.held counts left) (h.held counts right)

variable {counts : List Name → Prop} [DecidablePred counts] {h h' : Hierarchy Name Item}
  {dir other path : List Name} {name old new : Name} {item : Item} {set : Finset Item}

omit [DecidableEq Name] in
theorem Unrelated.symm (hunrelated : Unrelated dir other) : Unrelated other dir :=
  And.symm hunrelated

theorem mem_held : item ∈ h.held counts dir ↔
    counts dir ∧ dir ∈ h.dirs ∧ item ∈ h.items dir := by
  unfold held
  split
  next hboth => rw [← and_assoc, and_iff_right hboth]
  next hnot =>
    rw [← and_assoc]
    exact iff_of_false (Finset.notMem_empty item) fun hall => hnot hall.1

theorem held_eq (hcounts : counts dir) (hdir : dir ∈ h.dirs) : h.held counts dir = h.items dir :=
  if_pos ⟨hcounts, hdir⟩

/-- A path that holds something is a directory that counts. -/
theorem of_held_nonempty (hnonempty : (h.held counts dir).Nonempty) :
    counts dir ∧ dir ∈ h.dirs ∧ h.held counts dir = h.items dir := by
  obtain ⟨item, hitem⟩ := hnonempty
  obtain ⟨hcounts, hdir, -⟩ := mem_held.mp hitem
  exact ⟨hcounts, hdir, held_eq hcounts hdir⟩

/-- What lies below a directory that counts holds a part of its items. -/
theorem held_subset_of_suffix (hcounts : counts dir) (hbelow : dir <:+ other) :
    h.held counts other ⊆ h.held counts dir := by
  intro item hitem
  obtain ⟨-, hother, hmem⟩ := mem_held.mp hitem
  exact mem_held.mpr
    ⟨hcounts, h.mem_of_suffix hother hbelow, h.items_subset_of_suffix hother hbelow hmem⟩

/-- Holding less keeps what is owned. -/
theorem Owned.mono (howned : Owned counts h)
    (hless : ∀ dir, h'.held counts dir ⊆ h.held counts dir) : Owned counts h' :=
  fun left right hunrelated => (howned left right hunrelated).mono (hless left) (hless right)

theorem Owned.of_eq (howned : Owned counts h) (heq : h'.held counts = h.held counts) :
    Owned counts h' :=
  howned.mono fun dir => by rw [heq]

/-! ## The operations -/

/-- Setting the items of a directory that does not count changes nothing. -/
theorem Modified.held_eq (hmodified : Modified h h' name path set)
    (hnot : ¬ counts (name :: path)) : h'.held counts = h.held counts := by
  funext dir
  ext item
  rw [mem_held, mem_held, hmodified.dirs_eq]
  refine and_congr_right fun hcounts => and_congr_right fun _ => ?_
  rw [hmodified.items_of_ne dir fun heq => hnot (heq ▸ hcounts)]

/-- A directory that is removed holds nothing any more. -/
theorem Removed.held_eq (hremoved : Removed h h' path) :
    h'.held counts = Function.update (h.held counts) path ∅ := by
  funext dir
  ext item
  rw [mem_held, hremoved.mem_dirs, hremoved.items_eq]
  by_cases hself : dir = path
  · subst hself
    rw [Function.update_self]
    exact iff_of_false (fun hall => hall.2.1.2 rfl) (Finset.notMem_empty item)
  · rw [Function.update_of_ne hself, mem_held, and_iff_left hself]

/-- A directory that is created holds the items that it was created with. -/
theorem Created.held_eq (hcreated : Created h h' name path set) (hcounts : counts (name :: path)) :
    h'.held counts = Function.update (h.held counts) (name :: path) set := by
  funext dir
  by_cases hself : dir = name :: path
  · subst hself
    rw [Function.update_self, Hierarchy.held_eq hcounts ((hcreated.mem_dirs _).mpr (Or.inr rfl)),
      hcreated.items_self]
  · rw [Function.update_of_ne hself]
    ext item
    rw [mem_held, mem_held, hcreated.mem_dirs, or_iff_left hself, hcreated.items_of_ne dir hself]

/-- Creating a directory that does not count changes nothing. -/
theorem Created.held_eq_of_not (hcreated : Created h h' name path set)
    (hnot : ¬ counts (name :: path)) : h'.held counts = h.held counts := by
  funext dir
  ext item
  rw [mem_held, mem_held]
  refine and_congr_right fun hcounts => ?_
  have hne : dir ≠ name :: path := fun heq => hnot (heq ▸ hcounts)
  rw [hcreated.mem_dirs, or_iff_left hne, hcreated.items_of_ne dir hne]

/-- A new directory owns its items if it gets none that an unrelated directory holds. -/
theorem Created.owned (hcreated : Created h h' name path set) (hcounts : counts (name :: path))
    (howned : Owned counts h)
    (hfree : ∀ dir, Unrelated (name :: path) dir → Disjoint set (h.held counts dir)) :
    Owned counts h' := by
  intro left right hunrelated
  rw [hcreated.held_eq hcounts]
  by_cases hleft : left = name :: path
  · subst hleft
    have hright : right ≠ name :: path := fun heq => hunrelated.1 (heq ▸ List.suffix_rfl)
    rw [Function.update_self, Function.update_of_ne hright]
    exact hfree right hunrelated
  · rw [Function.update_of_ne hleft]
    by_cases hright : right = name :: path
    · subst hright
      rw [Function.update_self]
      exact (hfree left hunrelated.symm).symm
    · rw [Function.update_of_ne hright]
      exact howned left right hunrelated

/-- A renaming changes nothing if no directory that it moves, and that counts before or
afterwards, has items. -/
theorem Renamed.held_eq (hrenamed : Renamed h h' path old new)
    (hempty : ∀ dir ∈ h.dirs, old :: path <:+ dir →
      counts dir ∨ counts (moved path old new dir) → h.items dir = ∅) :
    h'.held counts = h.held counts := by
  funext dir
  by_cases hold : old :: path <:+ dir
  · -- the path leads nowhere afterwards, and held nothing before
    ext item
    rw [mem_held, mem_held]
    refine iff_of_false (fun hall => ((hrenamed.mem_iff dir).mp hall.2.1).1 hold) ?_
    rintro ⟨hcounts, hdir, hitem⟩
    rw [hempty dir hdir hold (Or.inl hcounts)] at hitem
    exact Finset.notMem_empty item hitem
  by_cases hnew : new :: path <:+ dir
  · ext item
    rw [mem_held, mem_held]
    refine iff_of_false ?_ fun hall => h.not_suffix_of_notMem hrenamed.fresh hall.2.1 hnew
    rintro ⟨hcounts, hdir, hitem⟩
    obtain ⟨hnot, hbefore⟩ := (hrenamed.mem_iff dir).mp hdir
    rw [hrenamed.items_eq hdir, hempty _ hbefore (new_suffix_moved hnew)
      (Or.inr (by rwa [moved_moved hnot]))] at hitem
    exact Finset.notMem_empty item hitem
  · ext item
    rw [mem_held, mem_held, hrenamed.mem_iff_of_not_suffix hold hnew]
    refine and_congr_right fun _ => and_congr_right fun hdir => ?_
    rw [hrenamed.items_of_not_suffix ((hrenamed.mem_iff_of_not_suffix hold hnew).mpr hdir) hnew]

end SlurmSpank.Foundation.Hierarchy
