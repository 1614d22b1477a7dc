import SlurmSpank.Foundation.Hierarchy

/-! # Separated siblings

A hierarchy hands out its items without overlap if siblings have disjoint sets. Some
directories may stand outside the accounting: the predicate says which ones count. Each
operation keeps the counted siblings apart, under a condition on the set it brings in.
-/

namespace SlurmSpank.Foundation.Hierarchy

universe u v

variable {Name : Type u} {Item : Type v}

/-- Siblings that count have disjoint sets. -/
def Separated (counts : List Name → Prop) (h : Hierarchy Name Item) : Prop :=
  ∀ left right path, left :: path ∈ h.dirs → right :: path ∈ h.dirs → left ≠ right →
    counts (left :: path) → counts (right :: path) →
    Disjoint (h.items (left :: path)) (h.items (right :: path))

section Operations

variable {counts counts' : List Name → Prop} {h h' : Hierarchy Name Item} {name old new : Name}
  {path : List Name} {set : Finset Item}

theorem Separated.mono (hsep : Separated counts h)
    (hcounts : ∀ dir ∈ h.dirs, counts' dir → counts dir) : Separated counts' h :=
  fun left right path hleft hright hne hl hr =>
    hsep left right path hleft hright hne (hcounts _ hleft hl) (hcounts _ hright hr)

/-- Directories below two separate siblings are disjoint. -/
theorem Separated.disjoint_of_suffix (hsep : Separated counts h) {left right : Name}
    {below other : List Name} (hleft : left :: path <:+ below) (hright : right :: path <:+ other)
    (hbelow : below ∈ h.dirs) (hother : other ∈ h.dirs) (hne : left ≠ right)
    (hl : counts (left :: path)) (hr : counts (right :: path)) :
    Disjoint (h.items below) (h.items other) :=
  (hsep left right path (h.mem_of_suffix hbelow hleft) (h.mem_of_suffix hother hright) hne hl
    hr).mono
    (h.items_subset_of_suffix hbelow hleft) (h.items_subset_of_suffix hother hright)

theorem Removed.separated (hremoved : Removed h h' path) (hsep : Separated counts h) :
    Separated counts h' := by
  intro left right parent hleft hright hne hl hr
  rw [hremoved.items_eq]
  exact hsep left right parent ((hremoved.mem_dirs _).mp hleft).1
    ((hremoved.mem_dirs _).mp hright).1 hne hl hr

/-- A new directory, or a new set, keeps siblings apart if its set is disjoint from those of
its own siblings. -/
theorem separated_of_update (hmem : ∀ dir ∈ h'.dirs, dir ∈ h.dirs ∨ dir = name :: path)
    (hself : h'.items (name :: path) = set)
    (hother : ∀ dir, dir ≠ name :: path → h'.items dir = h.items dir)
    (hsep : Separated (fun dir => counts dir ∧ dir ≠ name :: path) h)
    (hset : counts (name :: path) → ∀ sibling, sibling ≠ name → sibling :: path ∈ h.dirs →
      counts (sibling :: path) → Disjoint set (h.items (sibling :: path))) :
    Separated counts h' := by
  have hset' : ∀ sibling parent, sibling :: parent ∈ h'.dirs → sibling :: parent ≠ name :: path →
      parent = path → counts (name :: path) → counts (sibling :: parent) →
      Disjoint set (h'.items (sibling :: parent)) := by
    rintro sibling parent hsibling hne rfl hname hcounts
    rw [hother _ hne]
    exact hset hname sibling (fun heq => hne (by rw [heq])) ((hmem _ hsibling).resolve_right hne)
      hcounts
  intro left right parent hleft hright hne hl hr
  by_cases hleftSelf : left :: parent = name :: path
  · obtain ⟨rfl, rfl⟩ := List.cons.inj hleftSelf
    rw [hself]
    exact hset' right _ hright (fun heq => hne (List.cons.inj heq).1.symm) rfl hl hr
  · by_cases hrightSelf : right :: parent = name :: path
    · obtain ⟨rfl, rfl⟩ := List.cons.inj hrightSelf
      rw [hself]
      exact (hset' left _ hleft hleftSelf rfl hr hl).symm
    · rw [hother _ hleftSelf, hother _ hrightSelf]
      exact hsep left right parent ((hmem _ hleft).resolve_right hleftSelf)
        ((hmem _ hright).resolve_right hrightSelf) hne ⟨hl, hleftSelf⟩ ⟨hr, hrightSelf⟩

theorem Modified.separated (hmodified : Modified h h' name path set)
    (hsep : Separated (fun dir => counts dir ∧ dir ≠ name :: path) h)
    (hset : counts (name :: path) → ∀ sibling, sibling ≠ name → sibling :: path ∈ h.dirs →
      counts (sibling :: path) → Disjoint set (h.items (sibling :: path))) :
    Separated counts h' :=
  separated_of_update (fun _ hdir => Or.inl (hmodified.dirs_eq ▸ hdir)) hmodified.items_self
    hmodified.items_of_ne hsep hset

theorem Created.separated (hcreated : Created h h' name path set) (hsep : Separated counts h)
    (hset : counts (name :: path) → ∀ sibling, sibling ≠ name → sibling :: path ∈ h.dirs →
      counts (sibling :: path) → Disjoint set (h.items (sibling :: path))) :
    Separated counts h' :=
  separated_of_update (fun dir => (hcreated.mem_dirs dir).mp) hcreated.items_self
    hcreated.items_of_ne (hsep.mono fun _ _ hboth => hboth.1) hset

variable [DecidableEq Name]

/-- A renaming keeps siblings apart, except for those that begin to count by it. -/
theorem Renamed.separated (hrenamed : Renamed h h' path old new)
    (hsep : Separated counts h)
    (hcounts : ∀ before ∈ h.dirs, counts' (moved path old new before) → counts before) :
    Separated counts' h' := by
  intro left right parent hleft hright hne hl hr
  -- both siblings come from children of one directory
  have hback : ∀ name, name :: parent ∈ h'.dirs → ∃ name' before, name' :: before ∈ h.dirs ∧
      moved path old new (name' :: before) = name :: parent ∧
      before = moved path new old parent := by
    intro name hname
    obtain ⟨hnot, hmem⟩ := (hrenamed.mem_iff _).mp hname
    by_cases hself : name :: parent = new :: path
    · obtain ⟨rfl, rfl⟩ := List.cons.inj hself
      exact ⟨old, parent, hrenamed.mem, moved_self _ _ _, (moved_parent _ _ _).symm⟩
    · refine ⟨name, moved path new old parent, ?_, ?_, rfl⟩
      · rwa [moved_cons hself] at hmem
      · rw [← moved_cons hself]
        exact moved_moved hnot
  obtain ⟨left', before, hleft', hmovedLeft, rfl⟩ := hback left hleft
  obtain ⟨right', _, hright', hmovedRight, rfl⟩ := hback right hright
  have hne' : left' ≠ right' := by
    rintro rfl
    rw [hmovedLeft] at hmovedRight
    exact hne (List.cons.inj hmovedRight).1
  rw [← hmovedLeft, ← hmovedRight, hrenamed.items_moved _ hleft', hrenamed.items_moved _ hright']
  rw [← hmovedLeft] at hl
  rw [← hmovedRight] at hr
  exact hsep left' right' _ hleft' hright' hne' (hcounts _ hleft' hl) (hcounts _ hright' hr)

end Operations

end SlurmSpank.Foundation.Hierarchy
