import Mathlib.Data.List.InsertIdx
import Mathlib.Logic.Function.Basic
import SlurmSpank.Lib.List

/-! # Lists with cursors

What the list library is for, without its memory: a list is a sequence of items, and an iterator
is a place between two of them, which knows whether the item in front of it is the one that it
returned last and may remove. All iterators of a list keep their places when the list changes.
-/

namespace SlurmSpank.Lib

/-- The place of an iterator: how many items are in front of the one it returns next, and whether
the last of these is the one it returned last. -/
@[ext] structure Cursor where
  pos : Nat
  current : Bool
  deriving DecidableEq

namespace Cursor

/-- In front of the first item. -/
def start : Cursor := ⟨0, false⟩

/-- How many items are in front of what the iterator inserts or removes. -/
def slot (c : Cursor) : Nat := if c.current then c.pos - 1 else c.pos

/-- The place behind the insertion of an item that has `n` items in front of it. -/
def insertAt (n : Nat) (c : Cursor) : Cursor :=
  if c.pos < n ∨ c.pos = n ∧ c.current = true then c else { c with pos := c.pos + 1 }

/-- The place behind the removal of the item that has `n` items in front of it. -/
def removeAt (n : Nat) (c : Cursor) : Cursor :=
  if c.pos < n then c else if c.pos ≤ n + 1 then ⟨n, false⟩ else { c with pos := c.pos - 1 }

/-- The place behind the removal of the items from the `n`th on that `f` selects. What was returned
last stays current if neither it nor the item behind it is removed. -/
def deleteFrom {α : Type} (f : α → Bool) (items : List α) (n : Nat) (c : Cursor) : Cursor :=
  ⟨c.pos - ((items.take c.pos).drop n).countP f,
    c.current && !((items.take (c.pos + 1)).drop (max n (c.pos - 1))).any f⟩

end Cursor

/-- The items of a list, and whether it has a deletion function. -/
structure Contents (α : Type) where
  items : List α
  fDel : Bool

/-- The lists, their iterators, and the items that deletion functions were called on. -/
@[ext] structure Lists (α : Type) where
  lists : Nat → Option (Contents α)
  cursors : Nat → Option (Nat × Cursor)
  deleted : List α

namespace Lists

variable {α σ : Type}

def initial : Lists α := ⟨fun _ => none, fun _ => none, []⟩

/-- The items of a list. -/
def items (s : Lists α) (l : Nat) : List α := (s.lists l).elim [] Contents.items

/-- Replace the items of a list, and move its iterators. -/
def change (s : Lists α) (l : Nat) (items : List α) (move : Cursor → Cursor) : Lists α where
  lists := Function.update s.lists l ((s.lists l).map fun list => { list with items })
  cursors i := (s.cursors i).map fun (l', c) => if l' = l then (l', move c) else (l', c)
  deleted := s.deleted

theorem lists_change (s : Lists α) (l : Nat) (items : List α) (move : Cursor → Cursor) :
    (s.change l items move).lists =
      Function.update s.lists l ((s.lists l).map fun list => { list with items }) := rfl

theorem cursors_change (s : Lists α) (l : Nat) (items : List α) (move : Cursor → Cursor)
    (i : Nat) : (s.change l items move).cursors i =
      (s.cursors i).map fun (l', c) => if l' = l then (l', move c) else (l', c) := rfl

@[simp] theorem deleted_change (s : Lists α) (l : Nat) (items : List α)
    (move : Cursor → Cursor) : (s.change l items move).deleted = s.deleted := rfl

def insertAt (s : Lists α) (l n : Nat) (x : α) : Lists α :=
  s.change l ((s.items l).insertIdx n x) (Cursor.insertAt n)

def removeAt (s : Lists α) (l n : Nat) : Lists α :=
  s.change l ((s.items l).eraseIdx n) (Cursor.removeAt n)

/-- Call the deletion function of a list, if it has one. -/
def delete (s : Lists α) (l : Nat) (gone : List α) : Lists α :=
  match s.lists l with
  | some ⟨_, true⟩ => { s with deleted := s.deleted ++ gone }
  | _ => s

def setCursor (s : Lists α) (i : Nat) (cursor : Option (Nat × Cursor)) : Lists α :=
  { s with cursors := Function.update s.cursors i cursor }

/-! ## Operations -/

/-- The calls of the library. Where a call may ask for memory, it says whether it gets some. -/
inductive Op (α σ : Type)
  | create (fDel memory : Bool)
  | destroy (l : Nat)
  | isEmpty (l : Nat)
  | count (l : Nat)
  | append (l : Nat) (x : α) (memory : Bool)
  | prepend (l : Nat) (x : α) (memory : Bool)
  | pop (l : Nat)
  | peek (l : Nat)
  | findFirst (l : Nat) (f : α → Bool)
  | deleteAll (l : Nat) (f : α → Bool)
  | forEach (l : Nat) (f : α → σ → α × σ × Int) (state : σ)
  | sort (l : Nat) (cmp : α → α → Int)
  | iterate (l : Nat) (memory : Bool)
  | reset (i : Nat)
  | release (i : Nat)
  | next (i : Nat)
  | insert (i : Nat) (x : α) (memory : Bool)
  | find (i : Nat) (f : α → Bool)
  | remove (i : Nat)
  | delete (i : Nat)

/-- What a call returns. -/
inductive Result (α σ : Type)
  | done
  | object (id : Option Nat)
  | data (x : Option α)
  | flag (holds : Bool)
  | number (n : Int)
  | visited (n : Int) (state : σ)

/-- Insert an item in front of `n` others, if there is memory for it. -/
def insertItem (s : Lists α) (l n : Nat) (x : α) : Bool → Result α σ × Lists α
  | true => (.data x, s.insertAt l n x)
  | false => (.data none, s)

/-- Remove the item that has `n` items in front of it. -/
def removeItem (s : Lists α) (l n : Nat) : Option α × Lists α :=
  match (s.items l)[n]? with
  | none => (none, s)
  | some x => (some x, s.removeAt l n)

/-- The next item of an iterator, which is then its current one. -/
def nextItem (s : Lists α) (i : Nat) : Option α × Lists α :=
  match s.cursors i with
  | none => (none, s)
  | some (l, c) =>
      match (s.items l)[c.pos]? with
      | none => (none, s.setCursor i (some (l, ⟨c.pos, false⟩)))
      | some x => (some x, s.setCursor i (some (l, ⟨c.pos + 1, true⟩)))

/-- The next item of an iterator that `f` selects, which is then its current one. -/
def findItem (s : Lists α) (i : Nat) (f : α → Bool) : Option α × Lists α :=
  match s.cursors i with
  | none => (none, s)
  | some (l, c) =>
      match ((s.items l).drop c.pos).findIdx? f with
      | none => (none, s.setCursor i (some (l, ⟨(s.items l).length, false⟩)))
      | some n => ((s.items l)[c.pos + n]?, s.setCursor i (some (l, ⟨c.pos + n + 1, true⟩)))

/-- Remove the current item of an iterator. -/
def removeCurrent (s : Lists α) (i : Nat) : Option α × Lists α :=
  match s.cursors i with
  | none => (none, s)
  | some (l, c) => if c.current then s.removeItem l c.slot else (none, s)

/-- A call, with the list, iterator or node that it was given when it asked for one. -/
def apply (s : Lists α) : Op α σ → Option Nat → Result α σ × Lists α
  | .create _ _, none => (.object none, s)
  | .create fDel _, some l =>
      (.object l, { s with lists := Function.update s.lists l (some ⟨[], fDel⟩) })
  | .destroy l, _ =>
      let s := s.delete l (s.items l)
      (.done,
        { s with
          lists := Function.update s.lists l none
          cursors := fun i => (s.cursors i).filter (·.1 ≠ l) })
  | .isEmpty l, _ => (.flag (s.items l).isEmpty, s)
  | .count l, _ => (.number (s.items l).length, s)
  | .append l x _, given => s.insertItem l (s.items l).length x given.isSome
  | .prepend l x _, given => s.insertItem l 0 x given.isSome
  | .pop l, _ => (s.removeItem l 0).map .data id
  | .peek l, _ => (.data (s.items l).head?, s)
  | .findFirst l f, _ => (.data ((s.items l).find? f), s)
  | .deleteAll l f, _ =>
      let gone := (s.items l).filter f
      let kept := listDeleteAll f (s.items l)
      (.number gone.length,
        (s.change l kept (Cursor.deleteFrom f (s.items l) 0)).delete l gone)
  | .forEach l f state, _ =>
      let (items, state, n) := listForEach f (s.items l) state 0
      (.visited n state, s.change l items id)
  | .sort l cmp, _ =>
      (.done,
        if (s.items l).length ≤ 1 then s
        else s.change l (listSort cmp (s.items l)) fun _ => .start)
  | .iterate _ _, none => (.object none, s)
  | .iterate l _, some i => (.object i, s.setCursor i (some (l, .start)))
  | .reset i, _ => (.done, s.setCursor i ((s.cursors i).map fun (l, _) => (l, .start)))
  | .release i, _ => (.done, s.setCursor i none)
  | .next i, _ => (s.nextItem i).map .data id
  | .insert i x _, given =>
      match s.cursors i with
      | none => (.data none, s)
      | some (l, c) => s.insertItem l c.slot x given.isSome
  | .find i f, _ => (s.findItem i f).map .data id
  | .remove i, _ => (s.removeCurrent i).map .data id
  | .delete i, _ =>
      match s.cursors i, s.removeCurrent i with
      | some (l, _), (some x, s) => (.number 1, s.delete l [x])
      | _, _ => (.number 0, s)

end Lists

end SlurmSpank.Lib
