import SlurmSpank.Foundation.Decimal
import SlurmSpank.Lib.CpuSet

/-! # CPU sets as text

The conversions of `cpuset-str.c` between a CPU set and its list and hexadecimal forms. A
pointer into a string is the rest of the string from there on, so that of two pointers into
one string the earlier one has the longer rest. A function has no result where the source
does not return.
-/

namespace SlurmSpank.LuaSchedutils

open Foundation Lib

/-- A C string. -/
abbrev Text := List Char

/-! ## Writing a list -/

/-- The inner loop of `cpuset_to_cstr`: how many CPUs go on from CPU `i` without a gap. -/
def runAfter (mask : CpuSet) (i : Nat) : Nat :=
  ((List.range' (i + 1) (cpuSetSize - (i + 1))).takeWhile (mask.isset ·)).length

/-- The outer loop of `cpuset_to_cstr`, with the text and `entry_made` so far. -/
def cpusetToCstrLoop (mask : CpuSet) (i : Nat) (str : Text) (entryMade : Bool) : Text × Bool :=
  if i < cpuSetSize then
    if mask.isset i then
      let run := runAfter mask i
      if run = 0 then cpusetToCstrLoop mask (i + 1) (str ++ decimal i ++ [',']) true
      else if run = 1 then
        cpusetToCstrLoop mask (i + 1 + 1)
          (str ++ decimal i ++ [','] ++ decimal (i + 1) ++ [',']) true
      else
        cpusetToCstrLoop mask (i + run + 1)
          (str ++ decimal i ++ ['-'] ++ decimal (i + run) ++ [',']) true
    else cpusetToCstrLoop mask (i + 1) str entryMade
  else (str, entryMade)
termination_by cpuSetSize - i

/-- `cpuset_to_cstr`. -/
def cpusetToCstr (mask : CpuSet) : Text :=
  let (str, entryMade) := cpusetToCstrLoop mask 0 [] false
  if entryMade then str.dropLast else str

/-! ## Tokens -/

/-- `nexttoken`. -/
def nexttoken (p : Option Text) (sep : Char) : Option Text :=
  p.bind fun p =>
    match p.dropWhile (· ≠ sep) with
    | [] => none
    | _ :: rest => some rest

theorem nexttoken_length_lt {p q : Text} {sep : Char} (hnext : nexttoken (some p) sep = some q) :
    q.length < p.length := by
  unfold nexttoken at hnext
  rw [Option.bind_some] at hnext
  split at hnext
  next => exact absurd hnext (by simp)
  next c rest hdrop =>
    have hsuffix := (List.dropWhile_suffix (p := (· ≠ sep)) (l := p)).length_le
    rw [hdrop, List.length_cons, Option.some_inj.mp hnext] at hsuffix
    exact hsuffix

/-- Whether the place `c1` is there and comes before the place `c2`, if that is there. -/
def comesBefore (c1 : Option Text) (c2 : Option Text) : Bool :=
  match c1, c2 with
  | none, _ => false
  | some _, none => true
  | some c1, some c2 => c2.length < c1.length

/-! ## Reading a list -/

/-- The numbers `a`, `b` and `s` that `cstr_to_cpuset` reads for the token at `p`, with
`endptr`, or nothing where it returns 1. -/
def readRange (p : Text) : Option (Nat × Nat × Nat × Text) :=
  let (a, endptr) := strtoul p
  if endptr.length = p.length ∨ cpuSetSize ≤ a then none
  else if (a ≠ 0 ∧ p.head? = some '0') ∨ (a = 0 ∧ p.take 2 = ['0', '0']) then none
  else
    let c1 := nexttoken (some p) '-'
    let c2 := nexttoken (some p) ','
    let range : Option (Nat × Nat × Text) :=
      if comesBefore c1 c2 then do
        let c1 ← c1
        if endptr.length ≠ c1.length + 1 then none
        else
          let (b, endptr) := strtoul c1
          if endptr.length = c1.length ∨ cpuSetSize ≤ b then none
          else
            let c := nexttoken (some c1) ':'
            if comesBefore c c2 then do
              let c ← c
              let (s, endptr) := strtoul c
              if endptr.length = c.length ∨ cpuSetSize ≤ b then none else some (b, s, endptr)
            else some (b, 1, endptr)
      else some (a, 1, endptr)
    match range with
    | none => none
    | some (b, s, endptr) => if a ≤ b then some (a, b, s, endptr) else none

/-- The loop that sets every `s`-th CPU from `a` to `b`. As long as it goes on with `s` above
zero it comes to another CPU in each turn, so it has no result only if it never ends. -/
def setRange (b s : Nat) : Nat → Nat → CpuSet → Option CpuSet
  | 0, _, _ => none
  | turns + 1, a, mask =>
      if a ≤ b then setRange b s turns ((a + s) % 2 ^ 64) (mask.set a) else some mask

/-- The loop of `cstr_to_cpuset` from the token at `p` on. -/
def cstrToCpusetLoop (p : Text) (mask : CpuSet) : Option (Int × CpuSet) :=
  match readRange p with
  | none => some (1, mask)
  | some (a, b, s, endptr) => do
      let mask ← setRange b s (cpuSetSize + 1) a mask
      match _hnext : nexttoken (some p) ',' with
      | none => some (if endptr ≠ [] then 1 else 0, mask)
      | some q => cstrToCpusetLoop q mask
termination_by p.length
decreasing_by exact nexttoken_length_lt _hnext

/-- `cstr_to_cpuset`. -/
def cstrToCpuset (str : Text) : Option (Int × CpuSet) :=
  if str.length = 0 then some (0, .zero) else cstrToCpusetLoop str .zero

/-! ## Reading a hexadecimal mask -/

/-- `HEXCHARSIZE` and `HEXCHUNKSZ`. -/
def hexCharSize : Nat := 8

@[inherit_doc hexCharSize]
def hexChunkSz : Nat := 32

/-- `char_to_val`, where -1 is `none`. -/
def charToVal (c : Char) : Option Nat :=
  if c.isDigit then some (c.toNat - '0'.toNat)
  else if 'a' ≤ c.toLower ∧ c.toLower ≤ 'f' then some (c.toLower.toNat + 10 - 'a'.toNat)
  else none

/-- The bits from `base` on that a value of so many bits sets. -/
def setBits (value base : Nat) : Nat → CpuSet → CpuSet
  | 0, mask => mask
  | width + 1, mask =>
      let mask := setBits value base width mask
      if value.testBit width then mask.set (base + width) else mask

/-- The loop of `s_to_cpuset` over the characters from the last one to the first. -/
def sToCpusetLoop : Text → Nat → CpuSet → Int × CpuSet
  | [], _, mask => (0, mask)
  | c :: rest, base, mask =>
      match charToVal c with
      | none => (-1, mask)
      | some val => sToCpusetLoop rest (base + 4) (setBits val base 4 mask)

/-- `s_to_cpuset`, for the first `len` characters. -/
def sToCpuset (mask : CpuSet) (str : Text) (len : Nat) : Int × CpuSet :=
  sToCpusetLoop (str.take len).reverse 0 mask

/-- `strtoul` in base 16. -/
def strtoulHex (input : Text) : Nat × Text :=
  let (negative, rest) := scanSign (input.dropWhile isSpace)
  let rest :=
    match rest with
    | '0' :: x :: c :: more =>
        if x.toLower = 'x' ∧ (charToVal c).isSome then c :: more else rest
    | _ => rest
  let digits := (rest.takeWhile fun c => (charToVal c).isSome).filterMap charToVal
  if digits = [] then (0, input)
  else
    let value := digits.foldl (fun value digit => 16 * value + digit) 0
    (if 2 ^ 64 ≤ value then 2 ^ 64 - 1 else if negative then (2 ^ 64 - value) % 2 ^ 64 else value,
      rest.dropWhile fun c => (charToVal c).isSome)

/-- The loop of `hex_to_cpuset` that counts the chunks from `p` on. -/
def countChunks (p : Text) : Nat :=
  match _hnext : nexttoken (some p) ',' with
  | none => 1
  | some q => countChunks q + 1
termination_by p.length
decreasing_by exact nexttoken_length_lt _hnext

/-- The loop over the bits of a chunk, from the highest to the lowest. -/
def setChunk (chunk val : Nat) : Nat → CpuSet → Option CpuSet
  | 0, mask => some mask
  | bit + 1, mask =>
      let n := chunk * hexChunkSz + bit
      if cpuSetSize ≤ n then none
      else setChunk chunk val bit (if val.testBit bit then mask.set n else mask)

/-- One turn of the loop of `hex_to_cpuset`, with the next chunk at `q`; `none` is the jump
to `err`. -/
def readChunk (chunk : Nat) (p : Text) (q : Option Text) (mask : CpuSet) : Option CpuSet :=
  let (value, endptr) := strtoulHex p
  let ncharsRead := p.length - endptr.length
  if ncharsRead > hexCharSize then
    let (rc, mask) := sToCpuset mask p ncharsRead
    if rc < 0 then none else some mask
  else
    let leftOver : Bool :=
      match q with
      | some q => endptr.length ≠ q.length + 1
      | none => endptr ≠ []
    if leftOver then none else setChunk chunk (value % 2 ^ 32) hexChunkSz mask

/-- The loop of `hex_to_cpuset` over the chunks from `p` on. -/
def hexToCpusetLoop (chunk : Nat) (p : Text) (mask : CpuSet) : Option CpuSet := do
  let mask ← readChunk chunk p (nexttoken (some p) ',') mask
  match _hnext : nexttoken (some p) ',' with
  | none => some mask
  | some q => hexToCpusetLoop (chunk - 1) q mask
termination_by p.length
decreasing_by exact nexttoken_length_lt _hnext

/-- `hex_to_cpuset`. -/
def hexToCpuset (str : Text) : Int × CpuSet :=
  if str.length = 0 then (0, .zero)
  else
    let str := if str.take 2 = ['0', 'x'] then str.drop 2 else str
    let nchunks := countChunks str
    if nchunks = 1 then sToCpuset .zero str str.length
    else
      match hexToCpusetLoop (nchunks - 1) str .zero with
      | none => (-1, .zero)
      | some mask => (0, mask)

end SlurmSpank.LuaSchedutils
