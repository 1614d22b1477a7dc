import Mathlib.Data.List.Nodup
import Mathlib.Data.List.Range

/-! # Free lists

Objects are handed out from a list of free ones. When that list is empty a chunk of new objects
is made, if there is memory for it. An object that was made is either free or in use, and never
both.
-/

namespace SlurmSpank.Foundation

/-- The objects that are free, and how many were ever made. -/
@[ext] structure FreeList where
  free : List Nat
  made : Nat
  deriving DecidableEq

namespace FreeList

/-- No object was made yet. -/
def empty : FreeList := ⟨[], 0⟩

/-- Hand out the first free object, of a new chunk if there is none. -/
def take (chunk : Nat) (memory : Bool) (pool : FreeList) : Option (Nat × FreeList) :=
  match pool.free with
  | object :: free => some (object, { pool with free })
  | [] =>
      if memory then
        match List.range' pool.made chunk with
        | [] => none
        | object :: free => some (object, ⟨free, pool.made + chunk⟩)
      else none

/-- Take an object back, in front of the others. -/
def release (object : Nat) (pool : FreeList) : FreeList :=
  { pool with free := object :: pool.free }

/-- Each object that was made is free or in use. -/
structure Owns (pool : FreeList) (live : Nat → Prop) : Prop where
  nodup : pool.free.Nodup
  made : ∀ object, object < pool.made ↔ object ∈ pool.free ∨ live object
  disjoint : ∀ object ∈ pool.free, ¬ live object

theorem owns_empty : Owns empty fun _ => False := by
  constructor <;> simp [empty]

variable {pool pool' : FreeList} {live : Nat → Prop} {chunk object : Nat} {memory : Bool}

theorem Owns.congr {other : Nat → Prop} (howns : Owns pool live)
    (hlive : ∀ object, other object ↔ live object) : Owns pool other := by
  have heq : other = live := by
    funext object
    exact propext (hlive object)
  exact heq ▸ howns

/-- An object that is handed out was not in use. -/
theorem Owns.take (howns : Owns pool live)
    (htake : pool.take chunk memory = some (object, pool')) :
    ¬ live object ∧ Owns pool' fun other => live other ∨ other = object := by
  unfold FreeList.take at htake
  split at htake
  next first free hfree =>
    simp only [Option.some.injEq, Prod.mk.injEq] at htake
    obtain ⟨rfl, rfl⟩ := htake
    have hnodup := howns.nodup
    rw [hfree] at hnodup
    obtain ⟨hfirst, hnodup⟩ := List.nodup_cons.mp hnodup
    have hlive : ¬ live first := howns.disjoint first (by simp [hfree])
    refine ⟨hlive, hnodup, ?_, ?_⟩
    · intro other
      rw [howns.made, hfree, List.mem_cons]
      tauto
    · intro other hother
      rintro (hold | rfl)
      · exact howns.disjoint other (by simp [hfree, hother]) hold
      · exact hfirst hother
  next hfree =>
    split at htake
    next =>
      split at htake
      next => cases htake
      next first free hrange =>
        simp only [Option.some.injEq, Prod.mk.injEq] at htake
        obtain ⟨rfl, rfl⟩ := htake
        have hmem : ∀ other, other = first ∨ other ∈ free ↔
            pool.made ≤ other ∧ other < pool.made + chunk := by
          intro other
          rw [← List.mem_cons, ← hrange, List.mem_range'_1]
        have hnodup : (first :: free).Nodup := hrange ▸ List.nodup_range'
        obtain ⟨hfirst, hnodup⟩ := List.nodup_cons.mp hnodup
        have hold : ∀ other, live other → other < pool.made := fun other hother =>
          (howns.made other).mpr (Or.inr hother)
        have hmade : ∀ other, other < pool.made → live other := fun other hlt => by
          simpa [hfree] using (howns.made other).mp hlt
        refine ⟨?_, hnodup, ?_, ?_⟩
        · intro hlive
          have hge := ((hmem first).mp (Or.inl rfl)).1
          exact absurd (hold first hlive) (by omega)
        · intro other
          constructor
          · intro hlt
            rcases Nat.lt_or_ge other pool.made with hlt' | hge
            · exact Or.inr (Or.inl (hmade other hlt'))
            · rcases (hmem other).mpr ⟨hge, hlt⟩ with rfl | hfree'
              · exact Or.inr (Or.inr rfl)
              · exact Or.inl hfree'
          · rintro (hfree' | hlive | rfl)
            · exact ((hmem other).mp (Or.inr hfree')).2
            · have hlt := hold other hlive
              dsimp only
              omega
            · exact ((hmem other).mp (Or.inl rfl)).2
        · intro other hother
          rintro (hlive | rfl)
          · have hge := ((hmem other).mp (Or.inr hother)).1
            exact absurd (hold other hlive) (by omega)
          · exact hfirst hother
    next => cases htake

/-- With memory for another chunk an object is handed out. -/
theorem exists_take (pool : FreeList) (hchunk : 0 < chunk) :
    ∃ object pool', pool.take chunk true = some (object, pool') := by
  unfold FreeList.take
  split
  next => exact ⟨_, _, rfl⟩
  next =>
    obtain ⟨n, rfl⟩ := Nat.exists_eq_succ_of_ne_zero hchunk.ne'
    exact ⟨_, _, rfl⟩

/-- An object that was in use is free behind its release. -/
theorem Owns.release (howns : Owns pool live) (hlive : live object) :
    Owns (pool.release object) fun other => live other ∧ other ≠ object := by
  refine ⟨List.nodup_cons.mpr ⟨fun hmem => howns.disjoint object hmem hlive, howns.nodup⟩, ?_, ?_⟩
  · intro other
    simp only [FreeList.release, List.mem_cons, howns.made other]
    constructor
    · rintro (hfree | hother)
      · exact Or.inl (Or.inr hfree)
      · by_cases heq : other = object
        · exact Or.inl (Or.inl heq)
        · exact Or.inr ⟨hother, heq⟩
    · rintro ((rfl | hfree) | ⟨hother, _⟩)
      · exact Or.inr hlive
      · exact Or.inl hfree
      · exact Or.inr hother
  · intro other hother
    rcases List.mem_cons.mp hother with rfl | hfree
    · simp
    · exact fun hlive' => howns.disjoint other hfree hlive'.1

/-- Objects that were in use are all free behind their release. -/
theorem Owns.releaseAll {objects : List Nat} (howns : Owns pool live) (hnodup : objects.Nodup)
    (hlive : ∀ object ∈ objects, live object) :
    Owns (objects.foldl (fun pool object => pool.release object) pool)
      fun other => live other ∧ other ∉ objects := by
  induction objects generalizing pool live with
  | nil => simpa using howns
  | cons object objects ih =>
      obtain ⟨hobject, hnodup⟩ := List.nodup_cons.mp hnodup
      refine (ih (howns.release (hlive object (by simp))) hnodup ?_).congr ?_
      · intro other hother
        refine ⟨hlive other (by simp [hother]), ?_⟩
        rintro rfl
        exact hobject hother
      · intro other
        simp [and_assoc]

@[simp] theorem release_made (object : Nat) (pool : FreeList) :
    (pool.release object).made = pool.made := rfl

end FreeList

end SlurmSpank.Foundation
