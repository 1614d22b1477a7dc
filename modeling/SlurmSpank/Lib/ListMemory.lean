import SlurmSpank.Foundation.Chain
import SlurmSpank.Foundation.FreeList

/-! # The list library in memory

`lib/list.c` as it works on its linked nodes: variables that point to nodes are written through
their addresses, lists, nodes and iterators come from free lists, and every change of a list
adjusts the iterators in its chain. An access to an object that is not in use, and an assertion
that fails, have no outcome.
-/

namespace SlurmSpank.Lib

open Foundation

/-- `ListNode *`: the address of a variable that points to a node, which is the head of a list or
the `next` of a node. -/
abbrev NodeSlot := Slot Nat Nat

/-- `struct listIterator`, without its place in the chain of its list. -/
structure ListIterator where
  list : Nat
  pos : Option Nat
  prev : NodeSlot
  deriving DecidableEq

/-- `struct list`, without its head. The chain of its iterators is a list, the latest in front,
and of the deletion function only its presence matters. -/
structure ListObject where
  tail : NodeSlot
  iNext : List Nat
  fDel : Bool
  count : Int
  deriving DecidableEq

/-- The objects of the library that are in use, what the variables that point to nodes hold, the
free lists, and the data that deletion functions were called on. -/
structure ListMemory (α : Type) where
  lists : Nat → Option ListObject
  nodes : Nat → Option α
  iterators : Nat → Option ListIterator
  link : NodeSlot → Option Nat
  freeLists : FreeList
  freeNodes : FreeList
  freeIterators : FreeList
  deleted : List α

/-- `LIST_ALLOC`. -/
def listAllocChunk : Nat := 32

namespace ListMemory

variable {α σ : Type}

/-- Before any call. -/
def initial : ListMemory α :=
  ⟨fun _ => none, fun _ => none, fun _ => none, fun _ => none, .empty, .empty, .empty, []⟩

/-! ## Memory -/

/-- Whether the object that holds a variable is in use. -/
def inUse (m : ListMemory α) : NodeSlot → Bool
  | .root l => (m.lists l).isSome
  | .next p => (m.nodes p).isSome

/-- Read a variable that points to a node. -/
def load (m : ListMemory α) (pp : NodeSlot) : Option (Option Nat) :=
  if m.inUse pp then some (m.link pp) else none

/-- Write a variable that points to a node. -/
def store (m : ListMemory α) (pp : NodeSlot) (p : Option Nat) : Option (ListMemory α) :=
  if m.inUse pp then some { m with link := Function.update m.link pp p } else none

def setList (m : ListMemory α) (l : Nat) (list : Option ListObject) : ListMemory α :=
  { m with lists := Function.update m.lists l list }

def setNode (m : ListMemory α) (p : Nat) (data : Option α) : ListMemory α :=
  { m with nodes := Function.update m.nodes p data }

def setIterator (m : ListMemory α) (i : Nat) (iterator : Option ListIterator) : ListMemory α :=
  { m with iterators := Function.update m.iterators i iterator }

/-- A loop over nodes meets each node at most once, and one end. -/
def bound (m : ListMemory α) : Nat := m.freeNodes.made + 1

/-- The assertion about an iterator that ends each change of a node. -/
def assertIterator (m : ListMemory α) (it : ListIterator) : Option Unit := do
  let prev ← m.load it.prev
  if it.pos = prev then return ()
  else do
    let p ← prev
    let next ← m.load (.next p)
    if it.pos = next then return () else none

/-- A loop over the iterators of a chain. -/
def forIterators (change : ListIterator → Option ListIterator) :
    List Nat → ListMemory α → Option (ListMemory α)
  | [], m => some m
  | i :: chain, m => do
      let it ← m.iterators i
      let it ← change it
      forIterators change chain (m.setIterator i it)

/-! ## Nodes -/

/-- `list_node_create`. -/
def listNodeCreate (m : ListMemory α) (l : Nat) (pp : NodeSlot) (x : α) (memory : Bool) :
    Option (Option α × ListMemory α) :=
  match m.freeNodes.take listAllocChunk memory with
  | none => some (none, m)
  | some (p, freeNodes) => do
      let m := { m.setNode p x with freeNodes }
      let next ← m.load pp
      let m ← m.store (.next p) next
      let list ← m.lists l
      let m ← m.store pp p
      let m := m.setList l
        (some { list with
          tail := if next = none then .next p else list.tail
          count := list.count + 1 })
      let m ← m.forIterators
        (fun it => do
          let it :=
            if it.prev = pp then { it with prev := .next p }
            else if it.pos = next then { it with pos := p }
            else it
          m.assertIterator it
          return it)
        list.iNext
      return (some x, m)

/-- `list_node_destroy`. -/
def listNodeDestroy (m : ListMemory α) (l : Nat) (pp : NodeSlot) :
    Option (Option α × ListMemory α) := do
  match ← m.load pp with
  | none => return (none, m)
  | some p =>
      let v ← m.nodes p
      let next ← m.load (.next p)
      let list ← m.lists l
      let m ← m.store pp next
      let m := m.setList l
        (some { list with
          tail := if next = none then pp else list.tail
          count := list.count - 1 })
      let m ← m.forIterators
        (fun it => do
          let it :=
            if it.pos = some p then { it with pos := next, prev := pp }
            else if it.prev = .next p then { it with prev := pp }
            else it
          m.assertIterator it
          return it)
        list.iNext
      return (some v, { m.setNode p none with freeNodes := m.freeNodes.release p })

/-- The call of the deletion function of a list, if it has one. -/
def callDelete (m : ListMemory α) (fDel : Bool) (v : α) : ListMemory α :=
  if fDel then { m with deleted := m.deleted ++ [v] } else m

/-! ## Lists -/

/-- `list_create`. -/
def listCreate (m : ListMemory α) (fDel memory : Bool) : Option (Option Nat × ListMemory α) :=
  match m.freeLists.take listAllocChunk memory with
  | none => some (none, m)
  | some (l, freeLists) => do
      let m := { m.setList l (some ⟨.root l, [], fDel, 0⟩) with freeLists }
      let m ← m.store (.root l) none
      return (some l, m)

/-- The loop of `list_destroy` over the iterators. -/
def destroyIterators : List Nat → ListMemory α → Option (ListMemory α)
  | [], m => some m
  | i :: chain, m => do
      let _ ← m.iterators i
      destroyIterators chain
        { m.setIterator i none with freeIterators := m.freeIterators.release i }

/-- The loop of `list_destroy` over the nodes. -/
def destroyNodes (fDel : Bool) : Nat → Option Nat → ListMemory α → Option (ListMemory α)
  | 0, _, _ => none
  | _ + 1, none, m => some m
  | fuel + 1, some p, m => do
      let next ← m.load (.next p)
      let v ← m.nodes p
      let m := m.callDelete fDel v
      destroyNodes fDel fuel next
        { m.setNode p none with freeNodes := m.freeNodes.release p }

/-- `list_destroy`. -/
def listDestroy (m : ListMemory α) (l : Nat) : Option (ListMemory α) := do
  let list ← m.lists l
  let m ← destroyIterators list.iNext m
  let head ← m.load (.root l)
  let m ← destroyNodes list.fDel m.bound head m
  return { m.setList l none with freeLists := m.freeLists.release l }

/-- `list_is_empty`. -/
def listIsEmpty (m : ListMemory α) (l : Nat) : Option Bool := do
  let list ← m.lists l
  return list.count = 0

/-- `list_count`. -/
def listCount (m : ListMemory α) (l : Nat) : Option Int := do
  let list ← m.lists l
  return list.count

/-- `list_append`, and `list_enqueue`. -/
def listAppend (m : ListMemory α) (l : Nat) (x : α) (memory : Bool) :
    Option (Option α × ListMemory α) := do
  let list ← m.lists l
  m.listNodeCreate l list.tail x memory

/-- `list_prepend`, and `list_push`. -/
def listPrepend (m : ListMemory α) (l : Nat) (x : α) (memory : Bool) :
    Option (Option α × ListMemory α) := do
  let _ ← m.lists l
  m.listNodeCreate l (.root l) x memory

/-- `list_pop`, and `list_dequeue`. -/
def listPop (m : ListMemory α) (l : Nat) : Option (Option α × ListMemory α) := do
  let _ ← m.lists l
  m.listNodeDestroy l (.root l)

/-- `list_peek`. -/
def listPeek (m : ListMemory α) (l : Nat) : Option (Option α) := do
  match ← m.load (.root l) with
  | none => return none
  | some p => do
      let v ← m.nodes p
      return some v

/-- The loop of `list_find_first`. -/
def findFrom (m : ListMemory α) (f : α → Bool) : Nat → Option Nat → Option (Option α)
  | 0, _ => none
  | _ + 1, none => some none
  | fuel + 1, some p => do
      let v ← m.nodes p
      if f v then return some v
      else do
        let next ← m.load (.next p)
        findFrom m f fuel next

/-- `list_find_first`. -/
def listFindFirst (m : ListMemory α) (l : Nat) (f : α → Bool) : Option (Option α) := do
  let head ← m.load (.root l)
  m.findFrom f m.bound head

/-- The loop of `list_delete_all`. -/
def deleteFrom (f : α → Bool) (l : Nat) (fDel : Bool) :
    Nat → NodeSlot → Int → ListMemory α → Option (Int × ListMemory α)
  | 0, _, _, _ => none
  | fuel + 1, pp, n, m => do
      match ← m.load pp with
      | none => return (n, m)
      | some p => do
          let v ← m.nodes p
          if f v then
            match ← m.listNodeDestroy l pp with
            | (none, m) => deleteFrom f l fDel fuel pp n m
            | (some v, m) => deleteFrom f l fDel fuel pp (n + 1) (m.callDelete fDel v)
          else deleteFrom f l fDel fuel (.next p) n m

/-- `list_delete_all`. -/
def listDeleteAll (m : ListMemory α) (l : Nat) (f : α → Bool) :
    Option (Int × ListMemory α) := do
  let list ← m.lists l
  deleteFrom f l list.fDel m.bound (.root l) 0 m

/-- The loop of `list_for_each`, whose callback may change the data and a state that all calls
share. -/
def forEachFrom (f : α → σ → α × σ × Int) :
    Nat → Option Nat → σ → Int → ListMemory α → Option (Int × σ × ListMemory α)
  | 0, _, _, _, _ => none
  | _ + 1, none, state, n, m => some (n, state, m)
  | fuel + 1, some p, state, n, m => do
      let v ← m.nodes p
      let (v, state, rc) := f v state
      let m := m.setNode p v
      if rc < 0 then return (-(n + 1), state, m)
      else do
        let next ← m.load (.next p)
        forEachFrom f fuel next state (n + 1) m

/-- `list_for_each`. -/
def listForEach (m : ListMemory α) (l : Nat) (f : α → σ → α × σ × Int) (state : σ) :
    Option (Int × σ × ListMemory α) := do
  let head ← m.load (.root l)
  forEachFrom f m.bound head state 0 m

/-- The inner loop of `list_sort`: the first slot whose node does not compare below or equal. -/
def sortPosition (m : ListMemory α) (cmp : α → α → Int) (x : α) :
    Nat → NodeSlot → Option NodeSlot
  | 0, _ => none
  | fuel + 1, ppPos => do
      let p ← ← m.load ppPos
      let pos ← m.nodes p
      if cmp x pos ≥ 0 then sortPosition m cmp x fuel (.next p) else return ppPos

/-- The outer loop of `list_sort`, which ends with the slot behind the last node. -/
def sortLoop (cmp : α → α → Int) (l : Nat) :
    Nat → NodeSlot → NodeSlot → ListMemory α → Option (NodeSlot × ListMemory α)
  | 0, _, _, _ => none
  | fuel + 1, ppPrev, pp, m => do
      match ← m.load pp with
      | none => return (pp, m)
      | some p => do
          let x ← m.nodes p
          let prev ← ← m.load ppPrev
          let y ← m.nodes prev
          if cmp x y < 0 then
            let ppPos ← m.sortPosition cmp x m.bound (.root l)
            let pTmp ← m.load (.next p)
            let pos ← m.load ppPos
            let m ← m.store (.next p) pos
            let m ← m.store ppPos p
            let m ← m.store pp pTmp
            if ppPrev = ppPos then
              let first ← ← m.load ppPrev
              sortLoop cmp l fuel (.next first) pp m
            else sortLoop cmp l fuel ppPrev pp m
          else sortLoop cmp l fuel pp (.next p) m

/-- `list_sort`. -/
def listSort (m : ListMemory α) (l : Nat) (cmp : α → α → Int) : Option (ListMemory α) := do
  let list ← m.lists l
  if list.count > 1 then
    let first ← ← m.load (.root l)
    let (pp, m) ← sortLoop cmp l m.bound (.root l) (.next first) m
    let m := m.setList l (some { list with tail := pp })
    m.forIterators
      (fun it => do
        let head ← m.load (.root it.list)
        return { it with pos := head, prev := .root it.list })
      list.iNext
  else return m

/-! ## Iterators -/

/-- `list_iterator_create`. -/
def listIteratorCreate (m : ListMemory α) (l : Nat) (memory : Bool) :
    Option (Option Nat × ListMemory α) :=
  match m.freeIterators.take listAllocChunk memory with
  | none => some (none, m)
  | some (i, freeIterators) => do
      let list ← m.lists l
      let head ← m.load (.root l)
      let m := { m.setIterator i (some ⟨l, head, .root l⟩) with freeIterators }
      return (some i, m.setList l (some { list with iNext := i :: list.iNext }))

/-- `list_iterator_reset`. -/
def listIteratorReset (m : ListMemory α) (i : Nat) : Option (ListMemory α) := do
  let it ← m.iterators i
  let head ← m.load (.root it.list)
  return m.setIterator i (some { it with pos := head, prev := .root it.list })

/-- `list_iterator_destroy`. -/
def listIteratorDestroy (m : ListMemory α) (i : Nat) : Option (ListMemory α) := do
  let it ← m.iterators i
  let list ← m.lists it.list
  let m := m.setList it.list (some { list with iNext := list.iNext.erase i })
  return { m.setIterator i none with freeIterators := m.freeIterators.release i }

/-- `list_next`. -/
def listNext (m : ListMemory α) (i : Nat) : Option (Option α × ListMemory α) := do
  let it ← m.iterators i
  let pos ←
    (match it.pos with
    | none => some none
    | some p => m.load (.next p))
  let prev ← m.load it.prev
  let slot ← (if prev = it.pos then some it.prev else prev.map Slot.next)
  let m := m.setIterator i (some { it with pos, prev := slot })
  match it.pos with
  | none => return (none, m)
  | some p => do
      let v ← m.nodes p
      return (some v, m)

/-- `list_insert`. -/
def listInsert (m : ListMemory α) (i : Nat) (x : α) (memory : Bool) :
    Option (Option α × ListMemory α) := do
  let it ← m.iterators i
  m.listNodeCreate it.list it.prev x memory

/-- `list_find`. -/
def listFind (i : Nat) (f : α → Bool) : Nat → ListMemory α → Option (Option α × ListMemory α)
  | 0, _ => none
  | fuel + 1, m => do
      match ← m.listNext i with
      | (none, m) => return (none, m)
      | (some v, m) => if f v then return (some v, m) else listFind i f fuel m

/-- `list_remove`. -/
def listRemove (m : ListMemory α) (i : Nat) : Option (Option α × ListMemory α) := do
  let it ← m.iterators i
  let prev ← m.load it.prev
  if prev = it.pos then return (none, m) else m.listNodeDestroy it.list it.prev

/-- `list_delete`. -/
def listDelete (m : ListMemory α) (i : Nat) : Option (Int × ListMemory α) := do
  let it ← m.iterators i
  let list ← m.lists it.list
  match ← m.listRemove i with
  | (none, m) => return (0, m)
  | (some v, m) => return (1, m.callDelete list.fDel v)

end ListMemory

end SlurmSpank.Lib
