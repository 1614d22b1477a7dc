import SlurmSpank.UseEnv.Condition
import SlurmSpank.UseEnv.Symbol

/-! # Items and tests on them

The items that the lexer hands to the parser, and the functions of the grammar that test
them. An item holds the symbol as the lexer found it; nothing changes a symbol before the
statement that names it is finished.
-/

namespace SlurmSpank.UseEnv

open Foundation Lib

/-! ## Items -/

/-- The type of a `struct lex_item` with its value: a number, a string, or a symbol, which may
have no value. -/
inductive ItemVal where
  | int (num : Int)
  | str
  | sym (s : Option Sym)

/-- `struct lex_item`. -/
structure Item where
  name : Text
  val : ItemVal

namespace Item

/-- `lex_item_create` with `TYPE_INT`. -/
def ofInt (name : Text) : Item := ⟨name, .int (toInt (strtol name).1)⟩

/-- `lex_item_create` with `TYPE_STR`. -/
def ofStr (name : Text) : Item := ⟨name, .str⟩

/-- `item_str`. -/
def str (i : Item) : Text :=
  match i.val with
  | .int _ | .str => i.name
  | .sym (some s) => s.string
  | .sym none => []

/-- `item_type_int`, with what `item_val` returns for such an item. -/
def typeInt (i : Item) : Option Int :=
  match i.val with
  | .int num => some num
  | .sym (some s) => if s.type = .int then some s.val else none
  | .str | .sym none => none

end Item

/-! ## Tests -/

/-- The comparison operators. -/
inductive Cmp where
  | eq
  | lt
  | gt
  | le
  | ge
  | ne
  deriving DecidableEq, Repr

/-- What the parser takes from its surroundings: whether it runs in the task, `fnmatch`, and
the numbers that the values of two items have where these hold the addresses of symbols. Two
items may hold different symbols that are equal but for their addresses. -/
structure Setting where
  inTask : Bool
  fnmatch : Text → Text → Bool
  address : Item → Item → Int × Int

variable (setting : Setting)

/-- The member `num` of an item's value, which may hold an address. -/
def Item.num (i : Item) (address : Int) : Int :=
  match i.val with
  | .int num => num
  | .sym (some _) => address
  | .str | .sym none => 0

/-- `item_cmp`, where -1 is `none`. Only `!=` on numbers reads the value as such. -/
def itemCmp (cmp : Cmp) (x y : Item) : Option Bool :=
  match cmp, x.typeInt, y.typeInt with
  | .lt, some u, some v => some (u < v)
  | .gt, some u, some v => some (u > v)
  | .le, some u, some v => some (u ≤ v)
  | .ge, some u, some v => some (u ≥ v)
  | .eq, some u, some v => some (u = v)
  | .ne, some _, some _ =>
      some (x.num (setting.address x y).1 ≠ y.num (setting.address x y).2)
  | .eq, _, _ => some (x.str = y.str)
  | .ne, _, _ => some (x.str ≠ y.str)
  | _, _, _ => none

/-- The value of a test on items, or the abort of the parser. -/
abbrev TestResult := Option Bool

/-- `cmp_items`. -/
def cmpItems (conds : CondStack) (cmp : Cmp) (x y : Item) : Option TestResult := do
  let executing ← condition conds
  some (if executing then itemCmp setting cmp x y else some false)

/-- `item_defined`. -/
def itemDefined (conds : CondStack) (i : Item) : Option TestResult :=
  match i.val with
  | .int _ | .str => some none
  | .sym s => do
      let executing ← condition conds
      some (some (executing && s.isSome))

/-- `test_item`. -/
def testItem (conds : CondStack) (i : Item) : Option Bool := do
  let executing ← condition conds
  some (executing && match i.typeInt with
    | some num => num ≠ 0
    | none => i.str ≠ [])

/-- `do_fnmatch`. -/
def doFnmatch (conds : CondStack) (x y : Item) : Option Bool := do
  let executing ← condition conds
  some (executing && setting.fnmatch x.str y.str)

end SlurmSpank.UseEnv
