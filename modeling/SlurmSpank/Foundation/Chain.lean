import Mathlib.Data.List.Nodup
import Mathlib.Logic.Function.Basic

/-! # Chains of linked cells

A link is stored in a slot: in a root that names a whole chain, or in the cell in front of the
one it leads to. A chain is the list of cells met from a slot on until a link leads nowhere.
Inserting a cell behind a slot, and removing the cell behind it, each rewrite the links of a
known number of slots.
-/

namespace SlurmSpank.Foundation

universe u v

/-- Where a link is stored. -/
inductive Slot (ρ : Type u) (α : Type v)
  | root (name : ρ)
  | next (cell : α)
  deriving DecidableEq

namespace Chain

variable {ρ : Type u} {α : Type v}

/-- What the slots store. -/
abbrev Links (ρ : Type u) (α : Type v) := Slot ρ α → Option α

/-- The slot behind the cells, read from a slot on. -/
def last (slot : Slot ρ α) : List α → Slot ρ α
  | [] => slot
  | cell :: cells => last (.next cell) cells

/-- The links from the slot on lead to the cells, and then on to somewhere. -/
def Path (links : Links ρ α) : Slot ρ α → List α → Prop
  | _, [] => True
  | slot, cell :: cells => links slot = some cell ∧ Path links (.next cell) cells

/-- The links from the slot on lead to the cells, and then nowhere. -/
def Complete (links : Links ρ α) (slot : Slot ρ α) (cells : List α) : Prop :=
  Path links slot cells ∧ links (last slot cells) = none

variable {links links' : Links ρ α} {slot : Slot ρ α} {cell : α} {cells front back : List α}

@[simp] theorem last_nil (slot : Slot ρ α) : last slot [] = slot := rfl

@[simp] theorem last_cons (slot : Slot ρ α) (cell : α) (cells : List α) :
    last slot (cell :: cells) = last (.next cell) cells := rfl

@[simp] theorem last_append (slot : Slot ρ α) (front back : List α) :
    last slot (front ++ back) = last (last slot front) back := by
  induction front generalizing slot with
  | nil => rfl
  | cons cell front ih => exact ih _

@[simp] theorem last_concat (slot : Slot ρ α) (front : List α) (cell : α) :
    last slot (front ++ [cell]) = .next cell := by
  simp

/-- The slot behind some cells is the one in front of them, or that of one of them. -/
theorem last_eq_or (slot : Slot ρ α) (cells : List α) :
    (cells = [] ∧ last slot cells = slot) ∨
      ∃ cell ∈ cells, last slot cells = .next cell := by
  induction cells generalizing slot with
  | nil => simp
  | cons cell cells ih =>
      right
      rcases ih (.next cell) with ⟨rfl, heq⟩ | ⟨other, hother, heq⟩
      · exact ⟨cell, by simp, heq⟩
      · exact ⟨other, by simp [hother], heq⟩

@[simp] theorem path_nil : Path links slot [] := trivial

@[simp] theorem path_cons :
    Path links slot (cell :: cells) ↔ links slot = some cell ∧ Path links (.next cell) cells :=
  Iff.rfl

theorem path_append :
    Path links slot (front ++ back) ↔
      Path links slot front ∧ Path links (last slot front) back := by
  induction front generalizing slot with
  | nil => simp
  | cons cell front ih => simp [ih, and_assoc]

@[simp] theorem complete_nil : Complete links slot [] ↔ links slot = none := by
  simp [Complete]

@[simp] theorem complete_cons :
    Complete links slot (cell :: cells) ↔
      links slot = some cell ∧ Complete links (.next cell) cells := by
  simp [Complete, and_assoc]

theorem complete_append :
    Complete links slot (front ++ back) ↔
      Path links slot front ∧ Complete links (last slot front) back := by
  simp [Complete, path_append, and_assoc]

/-- The slot behind the first cells of a chain leads to the next cell, and that of the last cell
nowhere. -/
theorem Complete.link (hchain : Complete links slot cells) (n : Nat) (hn : n ≤ cells.length) :
    links (last slot (cells.take n)) = cells[n]? := by
  induction cells generalizing slot n with
  | nil => simpa using hchain
  | cons cell cells ih =>
      obtain ⟨hlink, hchain⟩ := complete_cons.mp hchain
      cases n with
      | zero => simpa using hlink
      | succ n => simpa using ih hchain n (by simpa using hn)

/-- What the links of other slots are does not matter for a path. -/
theorem Path.congr (hpath : Path links slot cells)
    (hslot : cells ≠ [] → links' slot = links slot)
    (hcells : ∀ cell ∈ cells, links' (.next cell) = links (.next cell)) :
    Path links' slot cells := by
  induction cells generalizing slot with
  | nil => trivial
  | cons cell cells ih =>
      obtain ⟨hlink, hpath⟩ := hpath
      refine ⟨(hslot (by simp)).trans hlink, ih hpath ?_ ?_⟩
      · intro _
        exact hcells cell (by simp)
      · intro other hother
        exact hcells other (by simp [hother])

/-- What the links of other slots are does not matter for a chain. -/
theorem Complete.congr (hchain : Complete links slot cells)
    (hslot : links' slot = links slot)
    (hcells : ∀ cell ∈ cells, links' (.next cell) = links (.next cell)) :
    Complete links' slot cells := by
  refine ⟨hchain.1.congr (fun _ => hslot) hcells, ?_⟩
  rcases last_eq_or slot cells with ⟨_, heq⟩ | ⟨cell, hcell, heq⟩
  · rw [heq, hslot, ← heq]
    exact hchain.2
  · rw [heq, hcells cell hcell, ← heq]
    exact hchain.2

/-- A path does not use the slot behind its last cell, if that is none of the slots in front of
its cells. -/
theorem Path.congr_last (hpath : Path links slot cells) (hnodup : cells.Nodup)
    (hroot : ∀ cell ∈ cells, slot ≠ .next cell)
    (hlinks : ∀ other, other ≠ last slot cells →
      other = slot ∨ (∃ cell ∈ cells, other = .next cell) → links' other = links other) :
    Path links' slot cells := by
  induction cells generalizing slot with
  | nil => trivial
  | cons cell cells ih =>
      obtain ⟨hlink, hpath⟩ := hpath
      obtain ⟨hcell, hnodup⟩ := List.nodup_cons.mp hnodup
      have hne : slot ≠ last (.next cell) cells := by
        rcases last_eq_or (Slot.next (ρ := ρ) cell) cells with ⟨_, heq⟩ | ⟨other, hother, heq⟩
        · rw [heq]
          exact hroot cell (by simp)
        · rw [heq]
          exact hroot other (by simp [hother])
      refine ⟨(hlinks slot hne (Or.inl rfl)).trans hlink, ih hpath hnodup ?_ ?_⟩
      · intro other hother heq
        exact hcell ((Slot.next.inj heq) ▸ hother)
      · intro other hother hmem
        refine hlinks other hother (Or.inr ?_)
        rcases hmem with rfl | ⟨inner, hinner, rfl⟩
        · exact ⟨cell, by simp, rfl⟩
        · exact ⟨inner, by simp [hinner], rfl⟩

section Update

variable [DecidableEq ρ] [DecidableEq α] {name : ρ}

/-- Inserting a cell behind the first cells of a chain: it leads to where the slot led, and the
slot leads to it. -/
theorem Complete.insert (hchain : Complete links (.root name) (front ++ back))
    (hnodup : (front ++ back).Nodup) (hcell : cell ∉ front ++ back) :
    Complete
      (Function.update
        (Function.update links (.next cell) (links (last (.root name) front)))
        (last (.root name) front) (some cell))
      (.root name) (front ++ cell :: back) := by
  obtain ⟨hfront, hback⟩ := complete_append.mp hchain
  obtain ⟨hfrontNodup, -, hdisjoint⟩ := List.nodup_append.mp hnodup
  have hcellFront : cell ∉ front := fun hmem => hcell (by simp [hmem])
  have hcellBack : cell ∉ back := fun hmem => hcell (by simp [hmem])
  have hlast : last (.root name) front ≠ .next cell := by
    rcases last_eq_or (Slot.root (α := α) name) front with ⟨_, heq⟩ | ⟨other, hother, heq⟩
    · simp [heq]
    · rw [heq]
      rintro ⟨⟩
      exact hcellFront hother
  refine complete_append.mpr ⟨?_, complete_cons.mpr ⟨by simp, ?_⟩⟩
  · apply hfront.congr_last hfrontNodup (by simp)
    intro other hother hmem
    rw [Function.update_of_ne hother, Function.update_of_ne]
    rintro rfl
    rcases hmem with hmem | ⟨inner, hinner, heq⟩
    · cases hmem
    · exact hcellFront (Slot.next.inj heq ▸ hinner)
  · -- the links behind the new cell are the old ones, read from another slot
    have hrest : Complete links (last (.root name) front) back := hback
    have hnext : ∀ inner ∈ back, Slot.next inner ≠ last (.root name) front := by
      intro inner hinner heq
      rcases last_eq_or (Slot.root (α := α) name) front with ⟨_, hroot⟩ | ⟨other, hother, hlink⟩
      · simp [hroot] at heq
      · rw [hlink] at heq
        exact hdisjoint other hother inner hinner (Slot.next.inj heq).symm
    have hcells : ∀ inner ∈ back,
        Function.update (Function.update links (.next cell) (links (last (.root name) front)))
          (last (.root name) front) (some cell) (.next inner) = links (.next inner) := by
      intro inner hinner
      rw [Function.update_of_ne (hnext inner hinner), Function.update_of_ne]
      rintro ⟨⟩
      exact hcellBack hinner
    cases back with
    | nil =>
        rw [complete_nil, Function.update_of_ne hlast.symm, Function.update_self]
        exact complete_nil.mp hrest
    | cons next back =>
        obtain ⟨hlink, hrest⟩ := complete_cons.mp hrest
        refine complete_cons.mpr ⟨?_, hrest.congr (hcells next (by simp)) ?_⟩
        · rw [Function.update_of_ne hlast.symm, Function.update_self]
          exact hlink
        · intro inner hinner
          exact hcells inner (by simp [hinner])

/-- Removing the cell behind the first cells of a chain: the slot leads to where the cell led. -/
theorem Complete.remove (hchain : Complete links (.root name) (front ++ cell :: back))
    (hnodup : (front ++ cell :: back).Nodup) :
    Complete (Function.update links (last (.root name) front) (links (.next cell)))
      (.root name) (front ++ back) := by
  obtain ⟨hfront, hback⟩ := complete_append.mp hchain
  obtain ⟨-, hback⟩ := complete_cons.mp hback
  obtain ⟨hfrontNodup, hbackNodup, hdisjoint⟩ := List.nodup_append.mp hnodup
  have hcells : ∀ inner ∈ back,
      Function.update links (last (.root name) front) (links (.next cell)) (.next inner) =
        links (.next inner) := by
    intro inner hinner
    apply Function.update_of_ne
    intro heq
    rcases last_eq_or (Slot.root (α := α) name) front with ⟨_, hroot⟩ | ⟨other, hother, hlink⟩
    · simp [hroot] at heq
    · rw [hlink] at heq
      exact hdisjoint other hother inner (by simp [hinner]) (Slot.next.inj heq).symm
  refine complete_append.mpr ⟨?_, ?_⟩
  · apply hfront.congr_last hfrontNodup (by simp)
    intro other hother _
    exact Function.update_of_ne hother _ _
  · cases back with
    | nil => simpa using hback
    | cons next back =>
        obtain ⟨hlink, hrest⟩ := complete_cons.mp hback
        refine complete_cons.mpr ⟨by simpa using hlink, hrest.congr (hcells next (by simp)) ?_⟩
        intro inner hinner
        exact hcells inner (by simp [hinner])

end Update

/-- The slot in front of the cell with the given number. -/
def slotAt (slot : Slot ρ α) (cells : List α) (n : Nat) : Slot ρ α := last slot (cells.take n)

@[simp] theorem slotAt_zero (slot : Slot ρ α) (cells : List α) : slotAt slot cells 0 = slot := by
  simp [slotAt]

theorem slotAt_succ {n : Nat} (hcell : cells[n]? = some cell) :
    slotAt slot cells (n + 1) = .next cell := by
  simp [slotAt, List.take_add_one, hcell]

theorem slotAt_length (slot : Slot ρ α) (cells : List α) :
    slotAt slot cells cells.length = last slot cells := by
  simp [slotAt]

/-- In a chain without repetitions the slots differ. -/
theorem slotAt_inj {name : ρ} (hnodup : cells.Nodup) {m n : Nat} (hm : m ≤ cells.length)
    (hn : n ≤ cells.length)
    (heq : slotAt (.root name) cells m = slotAt (.root name) cells n) : m = n := by
  have hslot : ∀ {k : Nat} (hk : k < cells.length),
      slotAt (.root name) cells (k + 1) = .next cells[k] := fun hk =>
    slotAt_succ (List.getElem?_eq_getElem hk)
  cases m with
  | zero =>
      cases n with
      | zero => rfl
      | succ n => simp [hslot hn] at heq
  | succ m =>
      cases n with
      | zero => simp [hslot hm] at heq
      | succ n =>
          rw [hslot hm, hslot hn, Slot.next.injEq] at heq
          exact congrArg (· + 1) ((List.Nodup.getElem_inj_iff hnodup).mp heq)

end Chain

end SlurmSpank.Foundation
