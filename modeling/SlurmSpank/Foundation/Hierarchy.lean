import Mathlib.Data.Finset.Basic
import Mathlib.Data.List.Nodup
import Mathlib.Logic.Function.Basic

/-! # Hierarchies of nested resource sets

A tree of named directories, each with a set of items that is part of its parent's set, as
the cpuset file system of the kernel keeps it. The invariants are fields, so that every
operation either fails or yields a hierarchy again. A path lists its names from the
directory up to the root, so that `name :: path` is the child `name` of `path`.
-/

namespace SlurmSpank.Foundation

universe u v

/-- A directory tree whose sets are nested. -/
structure Hierarchy (Name : Type u) (Item : Type v) where
  dirs : List (List Name)
  items : List Name → Finset Item
  nodup : dirs.Nodup
  root_mem : [] ∈ dirs
  parent_mem : ∀ name path, name :: path ∈ dirs → path ∈ dirs
  items_subset : ∀ name path, name :: path ∈ dirs → items (name :: path) ⊆ items path

namespace Hierarchy

variable {Name : Type u} {Item : Type v} [DecidableEq Name] [DecidableEq Item]

/-- Whether a directory exists is decided by looking for it. -/
instance (h : Hierarchy Name Item) (path : List Name) : Decidable (path ∈ h.dirs) :=
  List.instDecidableMemOfLawfulBEq path h.dirs

/-- The hierarchy with nothing but a root. -/
def bare (all : Finset Item) : Hierarchy Name Item where
  dirs := [[]]
  items _ := all
  nodup := List.nodup_singleton _
  root_mem := List.mem_singleton_self _
  parent_mem name path hmem := by simp at hmem
  items_subset name path hmem := by simp at hmem

/-- The names of the children of a directory. -/
def children (h : Hierarchy Name Item) (path : List Name) : List Name :=
  h.dirs.filterMap fun
    | [] => none
    | name :: parent => if parent = path then some name else none

omit [DecidableEq Item] in
@[simp] theorem mem_children {h : Hierarchy Name Item} {path : List Name} {name : Name} :
    name ∈ h.children path ↔ name :: path ∈ h.dirs := by
  rw [children, List.mem_filterMap]
  constructor
  · rintro ⟨dir, hdir, hname⟩
    cases dir with
    | nil => cases hname
    | cons other parent =>
        simp only [Option.ite_none_right_eq_some, Option.some.injEq] at hname
        obtain ⟨rfl, rfl⟩ := hname
        exact hdir
  · exact fun hmem => ⟨_, hmem, by simp⟩

omit [DecidableEq Name] [DecidableEq Item] in
/-- A hierarchy contains the directories above each of its directories. -/
theorem mem_of_suffix (h : Hierarchy Name Item) {path below : List Name} (hbelow : below ∈ h.dirs)
    (hsuffix : path <:+ below) : path ∈ h.dirs := by
  induction below with
  | nil => rwa [List.suffix_nil.mp hsuffix]
  | cons name parent ih =>
      rcases List.suffix_cons_iff.mp hsuffix with rfl | habove
      · exact hbelow
      · exact ih (h.parent_mem name parent hbelow) habove

omit [DecidableEq Name] [DecidableEq Item] in
/-- The set of a directory is part of the set of every directory above it. -/
theorem items_subset_of_suffix (h : Hierarchy Name Item) {path below : List Name}
    (hbelow : below ∈ h.dirs) (hsuffix : path <:+ below) : h.items below ⊆ h.items path := by
  induction below with
  | nil => rw [List.suffix_nil.mp hsuffix]
  | cons name parent ih =>
      rcases List.suffix_cons_iff.mp hsuffix with rfl | habove
      · exact Finset.Subset.refl _
      · exact (h.items_subset name parent hbelow).trans
          (ih (h.parent_mem name parent hbelow) habove)

/-! ## Creating and removing directories -/

/-- Create a directory with the given set. It fails if the directory exists, if its parent
does not, and if the set is not part of the parent's. -/
def create (h : Hierarchy Name Item) (name : Name) (path : List Name) (set : Finset Item) :
    Option (Hierarchy Name Item) :=
  if hnew : path ∈ h.dirs ∧ name :: path ∉ h.dirs ∧ set ⊆ h.items path then
    some
      { dirs := h.dirs ++ [name :: path]
        items := Function.update h.items (name :: path) set
        nodup := by
          refine List.nodup_append.mpr ⟨h.nodup, List.nodup_singleton _, ?_⟩
          rintro dir hdir other hother rfl
          exact hnew.2.1 (List.mem_singleton.mp hother ▸ hdir)
        root_mem := List.mem_append_left _ h.root_mem
        parent_mem := by
          intro other parent hmem
          rcases List.mem_append.mp hmem with hold | hself
          · exact List.mem_append_left _ (h.parent_mem other parent hold)
          · obtain ⟨-, rfl⟩ := List.cons.inj (List.mem_singleton.mp hself)
            exact List.mem_append_left _ hnew.1
        items_subset := by
          intro other parent hmem
          have hparent : parent ≠ name :: path := by
            rintro rfl
            rcases List.mem_append.mp hmem with hold | hself
            · exact hnew.2.1 (h.parent_mem _ _ hold)
            · have hlen := congrArg List.length (List.mem_singleton.mp hself)
              simp at hlen
          rw [Function.update_of_ne hparent]
          rcases List.mem_append.mp hmem with hold | hself
          · have hne : other :: parent ≠ name :: path := fun heq => hnew.2.1 (heq ▸ hold)
            rw [Function.update_of_ne hne]
            exact h.items_subset other parent hold
          · rw [List.mem_singleton] at hself
            obtain ⟨rfl, rfl⟩ := List.cons.inj hself
            rw [Function.update_self]
            exact hnew.2.2 }
  else none

/-- Make a directory with an empty set. -/
def mkdir (h : Hierarchy Name Item) (name : Name) (path : List Name) :
    Option (Hierarchy Name Item) := h.create name path ∅

/-- Remove a directory that has no children and that nothing occupies. -/
def rmdir (h : Hierarchy Name Item) (occupied : Bool) (path : List Name) :
    Option (Hierarchy Name Item) :=
  if hleaf : path ∈ h.dirs ∧ path ≠ [] ∧ h.children path = [] ∧ occupied = false then
    some
      { dirs := h.dirs.erase path
        items := h.items
        nodup := h.nodup.erase path
        root_mem := (List.mem_erase_of_ne hleaf.2.1.symm).mpr h.root_mem
        parent_mem := by
          intro name parent hmem
          have hold := List.mem_of_mem_erase hmem
          refine (List.mem_erase_of_ne ?_).mpr (h.parent_mem name parent hold)
          rintro rfl
          have hchild := mem_children.mpr hold
          rw [hleaf.2.2.1] at hchild
          exact absurd hchild List.not_mem_nil
        items_subset := fun name parent hmem =>
          h.items_subset name parent (List.mem_of_mem_erase hmem) }
  else none

/-- Replace the set of a directory. It fails if the directory does not exist, and if the
sets would no longer be nested. -/
def modify (h : Hierarchy Name Item) (name : Name) (path : List Name) (set : Finset Item) :
    Option (Hierarchy Name Item) :=
  if hset : name :: path ∈ h.dirs ∧ set ⊆ h.items path ∧
      ∀ child ∈ h.children (name :: path), h.items (child :: name :: path) ⊆ set then
    some
      { h with
        items := Function.update h.items (name :: path) set
        items_subset := by
          intro other parent hmem
          by_cases hparent : parent = name :: path
          · subst hparent
            rw [Function.update_self, Function.update_of_ne (by simp)]
            exact hset.2.2 other (mem_children.mpr hmem)
          · rw [Function.update_of_ne hparent]
            by_cases hself : other :: parent = name :: path
            · rw [hself, Function.update_self]
              obtain ⟨rfl, rfl⟩ := List.cons.inj hself
              exact hset.2.1
            · rw [Function.update_of_ne hself]
              exact h.items_subset other parent hmem }
  else none

/-! ## Renaming directories -/

/-- Where a path leads after the child `old` of a directory was renamed to `new`. -/
def moved (parent : List Name) (old new : Name) : List Name → List Name
  | [] => []
  | name :: rest =>
      if name = old ∧ rest = parent then new :: parent else name :: moved parent old new rest

omit [DecidableEq Name] [DecidableEq Item] in
theorem not_cons_suffix_self (name : Name) (path : List Name) : ¬ name :: path <:+ path := by
  intro hsuffix
  have hlen := hsuffix.length_le
  rw [List.length_cons] at hlen
  omega

omit [DecidableEq Item] in
theorem moved_self (parent : List Name) (old new : Name) :
    moved parent old new (old :: parent) = new :: parent := by
  simp [moved]

omit [DecidableEq Item] in
theorem moved_of_not_suffix {parent : List Name} {old new : Name} {path : List Name}
    (hnot : ¬ old :: parent <:+ path) : moved parent old new path = path := by
  induction path with
  | nil => rfl
  | cons name rest ih =>
      rw [List.suffix_cons_iff, not_or] at hnot
      rw [moved, if_neg (fun heq => hnot.1 (by rw [heq.1, heq.2])), ih hnot.2]

omit [DecidableEq Item] in
theorem moved_parent (parent : List Name) (old new : Name) :
    moved parent old new parent = parent :=
  moved_of_not_suffix (not_cons_suffix_self old parent)

omit [DecidableEq Item] in
/-- The path of a child moves with its directory. -/
theorem moved_cons {parent : List Name} {old new name : Name} {path : List Name}
    (hne : name :: path ≠ old :: parent) :
    moved parent old new (name :: path) = name :: moved parent old new path := by
  rw [moved, if_neg (fun heq => hne (by rw [heq.1, heq.2]))]

omit [DecidableEq Item] in
/-- Renaming back undoes a renaming, as long as nothing has the new name. -/
theorem moved_moved {parent : List Name} {old new : Name} {path : List Name}
    (hnot : ¬ new :: parent <:+ path) :
    moved parent new old (moved parent old new path) = path := by
  induction path with
  | nil => rfl
  | cons name rest ih =>
      rw [List.suffix_cons_iff, not_or] at hnot
      by_cases hself : name :: rest = old :: parent
      · rw [hself, moved_self, moved_self]
      · rw [moved_cons hself, moved_cons, ih hnot.2]
        intro heq
        obtain ⟨rfl, hrest⟩ := List.cons.inj heq
        have hback := ih hnot.2
        rw [hrest, moved_parent] at hback
        exact hnot.1 (by rw [hback])

omit [DecidableEq Item] in
theorem length_moved (parent : List Name) (old new : Name) (path : List Name) :
    (moved parent old new path).length = path.length := by
  induction path with
  | nil => rfl
  | cons name rest ih =>
      rw [moved]
      split
      next heq => simp [heq.2]
      next => simp [ih]

omit [DecidableEq Item] in
/-- After a renaming nothing lies below the old name. -/
theorem not_suffix_moved {parent : List Name} {old new : Name} (hne : old ≠ new)
    (path : List Name) : ¬ old :: parent <:+ moved parent old new path := by
  induction path with
  | nil => simp [moved]
  | cons name rest ih =>
      by_cases hself : name :: rest = old :: parent
      · rw [hself, moved_self, List.suffix_cons_iff, not_or]
        exact ⟨fun heq => hne (List.cons.inj heq).1, not_cons_suffix_self old parent⟩
      · rw [moved_cons hself, List.suffix_cons_iff, not_or]
        refine ⟨fun heq => ?_, ih⟩
        obtain ⟨rfl, hrest⟩ := List.cons.inj heq
        have hnot : ¬ old :: parent <:+ rest := by
          intro hsuffix
          have hlen := hsuffix.length_le
          rw [← length_moved parent old new rest, ← hrest, List.length_cons] at hlen
          omega
        rw [moved_of_not_suffix hnot] at hrest
        exact hself (by rw [hrest])

omit [DecidableEq Item] in
/-- A renaming keeps what lies below the common parent there. -/
theorem suffix_moved {parent : List Name} {old new : Name} {path : List Name}
    (hsuffix : parent <:+ path) : parent <:+ moved parent old new path := by
  induction path with
  | nil => exact hsuffix
  | cons name rest ih =>
      by_cases hself : name :: rest = old :: parent
      · rw [hself, moved_self]
        exact List.suffix_cons _ _
      · rw [moved_cons hself]
        rcases List.suffix_cons_iff.mp hsuffix with rfl | hrest
        · rw [moved_of_not_suffix fun hbelow =>
            not_cons_suffix_self name rest ((List.suffix_cons old _).trans hbelow)]
        · exact (ih hrest).trans (List.suffix_cons _ _)

omit [DecidableEq Item] in
/-- What lies below the renamed directory moves below its new name. -/
theorem new_suffix_moved {parent : List Name} {old new : Name} {path : List Name}
    (hsuffix : old :: parent <:+ path) : new :: parent <:+ moved parent old new path := by
  induction path with
  | nil => simp at hsuffix
  | cons name rest ih =>
      by_cases hself : name :: rest = old :: parent
      · rw [hself, moved_self]
      · rw [moved_cons hself]
        exact (ih ((List.suffix_cons_iff.mp hsuffix).resolve_left (Ne.symm hself))).trans
          (List.suffix_cons _ _)

omit [DecidableEq Item] in
theorem suffix_of_suffix_moved {parent : List Name} {old new : Name} {path : List Name}
    (hsuffix : parent <:+ moved parent old new path) : parent <:+ path := by
  by_cases hbelow : old :: parent <:+ path
  · exact (List.suffix_cons _ _).trans hbelow
  · rwa [moved_of_not_suffix hbelow] at hsuffix

omit [DecidableEq Name] [DecidableEq Item] in
/-- A directory lies below one child of a directory only. -/
theorem not_suffix_of_sibling {parent : List Name} {name other : Name} {path : List Name}
    (hne : other ≠ name) (hsuffix : name :: parent <:+ path) : ¬ other :: parent <:+ path := by
  intro hother
  have heq := (List.suffix_of_suffix_length_le hother hsuffix le_rfl).eq_of_length rfl
  exact hne (List.cons.inj heq).1

omit [DecidableEq Name] [DecidableEq Item] in
theorem not_suffix_of_notMem (h : Hierarchy Name Item) {path below : List Name}
    (hnot : path ∉ h.dirs) (hbelow : below ∈ h.dirs) : ¬ path <:+ below :=
  fun hsuffix => hnot (h.mem_of_suffix hbelow hsuffix)

/-- Rename a child of a directory, with everything below it. It fails if the child does not
exist and if the new name is taken. -/
def rename (h : Hierarchy Name Item) (parent : List Name) (old new : Name) :
    Option (Hierarchy Name Item) :=
  if hname : old :: parent ∈ h.dirs ∧ new :: parent ∉ h.dirs then
    some
      { dirs := h.dirs.map (moved parent old new)
        items := fun path => h.items (moved parent new old path)
        nodup := by
          refine (List.nodup_map_iff_inj_on h.nodup).mpr fun left hleft right hright heq => ?_
          have hback := congrArg (moved parent new old) heq
          rwa [moved_moved (h.not_suffix_of_notMem hname.2 hleft),
            moved_moved (h.not_suffix_of_notMem hname.2 hright)] at hback
        root_mem := List.mem_map.mpr ⟨[], h.root_mem, rfl⟩
        parent_mem := by
          intro name path hmem
          obtain ⟨dir, hdir, heq⟩ := List.mem_map.mp hmem
          cases dir with
          | nil => cases heq
          | cons other rest =>
              by_cases hself : other :: rest = old :: parent
              · rw [hself, moved_self] at heq
                obtain ⟨-, rfl⟩ := List.cons.inj heq
                obtain ⟨-, rfl⟩ := List.cons.inj hself
                exact List.mem_map.mpr ⟨_, h.parent_mem _ _ hdir, moved_parent _ _ _⟩
              · rw [moved_cons hself] at heq
                obtain ⟨-, rfl⟩ := List.cons.inj heq
                exact List.mem_map.mpr ⟨rest, h.parent_mem other rest hdir, rfl⟩
        items_subset := by
          intro name path hmem
          obtain ⟨dir, hdir, heq⟩ := List.mem_map.mp hmem
          have hback := @moved_moved _ _ parent old new dir (h.not_suffix_of_notMem hname.2 hdir)
          rw [heq] at hback
          cases dir with
          | nil => cases heq
          | cons other rest =>
              rw [hback]
              have hrest := h.parent_mem other rest hdir
              by_cases hself : other :: rest = old :: parent
              · rw [hself, moved_self] at heq
                obtain ⟨-, rfl⟩ := List.cons.inj heq
                obtain ⟨-, rfl⟩ := List.cons.inj hself
                rw [moved_parent]
                exact h.items_subset _ _ hdir
              · rw [moved_cons hself] at heq
                obtain ⟨-, rfl⟩ := List.cons.inj heq
                rw [moved_moved (h.not_suffix_of_notMem hname.2 hrest)]
                exact h.items_subset other rest hdir }
  else none

/-! ## What the operations do -/

section Specs

variable {h h' : Hierarchy Name Item} {name old new : Name} {path : List Name}
  {set : Finset Item}

/-- The effect of creating a directory. -/
structure Created (h h' : Hierarchy Name Item) (name : Name) (path : List Name)
    (set : Finset Item) : Prop where
  parent_mem : path ∈ h.dirs
  fresh : name :: path ∉ h.dirs
  subset : set ⊆ h.items path
  mem_dirs : ∀ dir, dir ∈ h'.dirs ↔ dir ∈ h.dirs ∨ dir = name :: path
  items_self : h'.items (name :: path) = set
  items_of_ne : ∀ dir, dir ≠ name :: path → h'.items dir = h.items dir

theorem create_eq_some (hcreate : h.create name path set = some h') :
    Created h h' name path set := by
  unfold create at hcreate
  split at hcreate
  next hnew =>
    obtain rfl := Option.some.inj hcreate
    exact ⟨hnew.1, hnew.2.1, hnew.2.2, fun dir => by simp, Function.update_self _ _ _,
      fun dir hne => Function.update_of_ne hne _ _⟩
  next => cases hcreate

theorem create_isSome (hparent : path ∈ h.dirs) (hfresh : name :: path ∉ h.dirs)
    (hsubset : set ⊆ h.items path) : ∃ h', h.create name path set = some h' :=
  ⟨_, dif_pos ⟨hparent, hfresh, hsubset⟩⟩

/-- The effect of modifying a directory. -/
structure Modified (h h' : Hierarchy Name Item) (name : Name) (path : List Name)
    (set : Finset Item) : Prop where
  mem : name :: path ∈ h.dirs
  subset : set ⊆ h.items path
  dirs_eq : h'.dirs = h.dirs
  items_self : h'.items (name :: path) = set
  items_of_ne : ∀ dir, dir ≠ name :: path → h'.items dir = h.items dir

theorem modify_eq_some (hmodify : h.modify name path set = some h') :
    Modified h h' name path set := by
  unfold modify at hmodify
  split at hmodify
  next hset =>
    obtain rfl := Option.some.inj hmodify
    exact ⟨hset.1, hset.2.1, rfl, Function.update_self _ _ _,
      fun dir hne => Function.update_of_ne hne _ _⟩
  next => cases hmodify

theorem modify_isSome (hmem : name :: path ∈ h.dirs) (hsubset : set ⊆ h.items path)
    (hchildren : ∀ child, child :: name :: path ∈ h.dirs → h.items (child :: name :: path) ⊆ set) :
    ∃ h', h.modify name path set = some h' :=
  ⟨_, dif_pos ⟨hmem, hsubset, fun child hchild => hchildren child (mem_children.mp hchild)⟩⟩

/-- The effect of removing a directory. -/
structure Removed (h h' : Hierarchy Name Item) (path : List Name) : Prop where
  ne_root : path ≠ []
  mem_dirs : ∀ dir, dir ∈ h'.dirs ↔ dir ∈ h.dirs ∧ dir ≠ path
  items_eq : h'.items = h.items

omit [DecidableEq Item] in
theorem rmdir_eq_some {occupied : Bool} (hrmdir : h.rmdir occupied path = some h') :
    Removed h h' path ∧ occupied = false := by
  unfold rmdir at hrmdir
  split at hrmdir
  next hleaf =>
    obtain rfl := Option.some.inj hrmdir
    refine ⟨⟨hleaf.2.1, fun dir => ?_, rfl⟩, hleaf.2.2.2⟩
    rw [h.nodup.mem_erase_iff]
    exact and_comm
  next => cases hrmdir

/-- The effect of renaming the child `old` of `path` to `new`. -/
structure Renamed (h h' : Hierarchy Name Item) (path : List Name) (old new : Name) : Prop where
  mem : old :: path ∈ h.dirs
  fresh : new :: path ∉ h.dirs
  mem_dirs : ∀ dir, dir ∈ h'.dirs ↔ ∃ before ∈ h.dirs, moved path old new before = dir
  items_moved : ∀ before ∈ h.dirs, h'.items (moved path old new before) = h.items before

omit [DecidableEq Item] in
theorem rename_eq_some (hrename : h.rename path old new = some h') :
    Renamed h h' path old new := by
  unfold rename at hrename
  split at hrename
  next hname =>
    obtain rfl := Option.some.inj hrename
    refine ⟨hname.1, hname.2, fun dir => List.mem_map, fun before hbefore => ?_⟩
    exact congrArg h.items (moved_moved (h.not_suffix_of_notMem hname.2 hbefore))
  next => cases hrename

namespace Renamed

variable (hrenamed : Renamed h h' path old new)

include hrenamed

omit [DecidableEq Item]

theorem ne : old ≠ new := by
  rintro rfl
  exact hrenamed.fresh hrenamed.mem

theorem new_mem : new :: path ∈ h'.dirs :=
  (hrenamed.mem_dirs _).mpr ⟨_, hrenamed.mem, moved_self _ _ _⟩

/-- The directories after a renaming, and their sets, read off those before. -/
theorem mem_iff (dir : List Name) : dir ∈ h'.dirs ↔
    ¬ old :: path <:+ dir ∧ moved path new old dir ∈ h.dirs := by
  rw [hrenamed.mem_dirs]
  constructor
  · rintro ⟨before, hbefore, rfl⟩
    refine ⟨not_suffix_moved hrenamed.ne before, ?_⟩
    rwa [moved_moved (h.not_suffix_of_notMem hrenamed.fresh hbefore)]
  · rintro ⟨hnot, hmem⟩
    exact ⟨_, hmem, moved_moved hnot⟩

theorem items_eq {dir : List Name} (hdir : dir ∈ h'.dirs) :
    h'.items dir = h.items (moved path new old dir) := by
  obtain ⟨hnot, hmem⟩ := (hrenamed.mem_iff dir).mp hdir
  rw [← hrenamed.items_moved _ hmem, moved_moved hnot]

theorem old_notMem : old :: path ∉ h'.dirs := fun hmem =>
  ((hrenamed.mem_iff _).mp hmem).1 List.suffix_rfl

/-- Directories away from the old and the new name stay. -/
theorem mem_iff_of_not_suffix {dir : List Name} (hold : ¬ old :: path <:+ dir)
    (hnew : ¬ new :: path <:+ dir) : dir ∈ h'.dirs ↔ dir ∈ h.dirs := by
  rw [hrenamed.mem_iff, moved_of_not_suffix hnew, and_iff_right hold]

theorem items_of_not_suffix {dir : List Name} (hdir : dir ∈ h'.dirs)
    (hnew : ¬ new :: path <:+ dir) : h'.items dir = h.items dir := by
  rw [hrenamed.items_eq hdir, moved_of_not_suffix hnew]

/-- Directories below another child of the same directory stay, with their sets. -/
theorem mem_iff_of_sibling {dir : List Name} (hold : name ≠ old) (hnew : name ≠ new)
    (hsuffix : name :: path <:+ dir) : dir ∈ h'.dirs ↔ dir ∈ h.dirs :=
  hrenamed.mem_iff_of_not_suffix (not_suffix_of_sibling hold.symm hsuffix)
    (not_suffix_of_sibling hnew.symm hsuffix)

theorem items_of_sibling {dir : List Name} (hdir : dir ∈ h'.dirs) (hnew : name ≠ new)
    (hsuffix : name :: path <:+ dir) : h'.items dir = h.items dir :=
  hrenamed.items_of_not_suffix hdir (not_suffix_of_sibling hnew.symm hsuffix)

/-- The children of the renamed directory are those it had. -/
theorem child_mem_iff (child : Name) :
    child :: new :: path ∈ h'.dirs ↔ child :: old :: path ∈ h.dirs := by
  have hmoved : moved path new old (child :: new :: path) = child :: old :: path := by
    rw [moved_cons (by simp), moved_self]
  rw [hrenamed.mem_iff, hmoved]
  exact and_iff_right (not_suffix_of_sibling hrenamed.ne (List.suffix_cons _ _))

theorem child_items {child : Name} (hchild : child :: new :: path ∈ h'.dirs) :
    h'.items (child :: new :: path) = h.items (child :: old :: path) := by
  rw [hrenamed.items_eq hchild, moved_cons (by simp), moved_self]

end Renamed

omit [DecidableEq Item] in
theorem rename_isSome (hmem : old :: path ∈ h.dirs) (hfresh : new :: path ∉ h.dirs) :
    ∃ h', h.rename path old new = some h' :=
  ⟨_, dif_pos ⟨hmem, hfresh⟩⟩

end Specs

end Hierarchy

end SlurmSpank.Foundation
