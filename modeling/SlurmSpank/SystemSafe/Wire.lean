import SlurmSpank.Foundation.Reader

/-! # The requests of `system-safe-preload.c`

What the preloaded `system` writes to the server, and how the server reads it. An `int` travels
as its four bytes, a string as its length and its bytes, and the environment as its size and
its entries. Memory from `malloc` has no value until it is written; a string is read from it up
to the terminating NUL, if it gets there.
-/

namespace SlurmSpank.SystemSafe

open SlurmSpank.Foundation

/-- A string in C: its bytes, without the NUL behind them. -/
abbrev CString := { bytes : List UInt8 // (0 : UInt8) ∉ bytes }

/-- A command, and the working directory and environment it is to run in. -/
structure Request where
  cmd : CString
  path : CString
  env : List CString
  deriving DecidableEq

/-! ## Integers -/

/-- What an `int` keeps of a value. -/
@[irreducible] def asInt (i : Int) : Int :=
  if i % 0x100000000 < 0x80000000 then i % 0x100000000 else i % 0x100000000 - 0x100000000

/-- The bytes of an `int` in memory, the lowest first. -/
@[irreducible] def intBytes (i : Int) : List UInt8 :=
  let u := (i % 0x100000000).toNat
  [.ofNat u, .ofNat (u / 0x100), .ofNat (u / 0x10000), .ofNat (u / 0x1000000)]

/-- The `int` that was zero before its first bytes were read. -/
@[irreducible] def intOfBytes (bytes : List UInt8) : Int :=
  asInt (bytes.foldr (fun byte high => byte.toNat + 0x100 * high) 0 : Nat)

@[simp] theorem intBytes_length (i : Int) : (intBytes i).length = 4 := by
  simp only [intBytes, List.length_cons, List.length_nil]

theorem asInt_of_lt {i : Int} (hlow : -0x80000000 ≤ i) (hhigh : i < 0x80000000) : asInt i = i := by
  unfold asInt
  split <;> omega

theorem asInt_lt (i : Int) : asInt i < 0x80000000 := by
  unfold asInt
  split <;> omega

theorem asInt_le {i : Int} (hnonneg : 0 ≤ i) : asInt i ≤ i := by
  unfold asInt
  split <;> omega

theorem intOfBytes_intBytes {i : Int} (hlow : -0x80000000 ≤ i) (hhigh : i < 0x80000000) :
    intOfBytes (intBytes i) = i := by
  have hsum : ((intBytes i).foldr (fun byte high => byte.toNat + 0x100 * high) 0 : Nat) =
      (i % 0x100000000).toNat := by
    simp only [intBytes, List.foldr_cons, List.foldr_nil, UInt8.toNat_ofNat']
    omega
  rw [intOfBytes, hsum, Int.toNat_of_nonneg (by omega)]
  unfold asInt
  split <;> omega

/-! ## Writing a request -/

/-- One transfer of the client: by `write_n`, which goes on until everything is written, or by
a plain `write`, whose result nobody looks at. -/
inductive Sending where
  | writeN (bytes : List UInt8)
  | write (bytes : List UInt8)
  deriving DecidableEq

def Sending.bytes : Sending → List UInt8
  | .writeN bytes => bytes
  | .write bytes => bytes

@[simp] theorem Sending.bytes_writeN (bytes : List UInt8) :
    (Sending.writeN bytes).bytes = bytes := by rw [Sending.bytes]

@[simp] theorem Sending.bytes_write (bytes : List UInt8) :
    (Sending.write bytes).bytes = bytes := by rw [Sending.bytes]

/-- `write_string`. The kernel refuses a count that was negative as an `int`. -/
def writeString (str : CString) : List Sending :=
  let len := asInt str.1.length
  [.writeN (intBytes len), .writeN (if len < 0 then [] else str.1.take len.toNat)]

/-- The bytes of a string on the wire. -/
def wire (str : CString) : List UInt8 := (writeString str).flatMap Sending.bytes

/-- `write_env`. -/
def writeEnv (environ : List CString) : List Sending :=
  .write (intBytes (asInt environ.length)) :: environ.flatMap writeString

/-- What a call of `system` does until it waits for the status. -/
inductive Call where
  | returns (rc : Int)
  | crashes
  | sends (messages : List Sending)
  deriving DecidableEq

/-- `system`. Without a directory that fits its buffer, `getcwd` has `write_string` look at a
null pointer; the count of the entries must not overflow. -/
def system (cmd : Option CString) (cwd : CString) (environ : List CString) : Call :=
  match cmd with
  | none => .returns (-1)
  | some cmd =>
      if cwd.1.length + 1 ≤ 4096 ∧ environ.length < 0x80000000 then
        .sends (writeString cmd ++ writeString cwd ++ writeEnv environ)
      else .crashes

/-! ## Reading a request -/

/-- Allocated memory; a byte that was never written has no value. -/
abbrev Block := List (Option UInt8)

/-- `malloc` of an `int` size, which is no size when it is negative. -/
def malloc (size : Int) : Option Block :=
  if size < 0 then none else some (List.replicate size.toNat none)

/-- What `read` stores at the start of a block. -/
def Block.store (block : Block) (bytes : List UInt8) : Block :=
  bytes.map some ++ block.drop bytes.length

/-- `read_string` behind the length: its return value, and the pointer it leaves, null or to a
block. -/
def readBody (len : Int) : Reader UInt8 (Int × Option Block) := do
  match malloc (asInt (len + 1)) with
  | none => return (-1, none)
  | some buf =>
      -- a negative count is refused, and `read_n` fails
      match ← (if len < 0 then pure none else Reader.readBlock len.toNat) with
      | none => return (-1, some buf)
      | some got =>
          if got.length = 0 then return (0, some buf)
          return (len, some ((buf.store got).set len.toNat (some 0)))

/-- `read_string`. -/
def readString : Reader UInt8 (Int × Option Block) := do
  match ← Reader.readBlock 4 with
  | none => return (-1, none)
  | some bytes => if bytes.length = 0 then return (0, none) else readBody (intOfBytes bytes)

/-- The string in a block, when a NUL ends it. -/
def Block.cString : Block → Option CString
  | [] => none
  | none :: _ => none
  | some byte :: rest =>
      if hzero : byte = 0 then some ⟨[], List.not_mem_nil⟩
      else (cString rest).map fun str =>
        ⟨byte :: str.1, fun hmem => (List.mem_cons.mp hmem).elim
          (fun heq => hzero heq.symm) str.2⟩

/-- `strncmp` of a block with a name of that many characters says equal. -/
def Block.hasPrefix : List UInt8 → Block → Option Bool
  | [], _ => some true
  | _ :: _, [] => none
  | _ :: _, none :: _ => none
  | c :: name, some byte :: rest => if c = byte then hasPrefix name rest else some false

/-- The name in front of an entry that is emptied. -/
def ldPreload : List UInt8 := "LD_PRELOAD=".toList.map fun c => .ofNat c.toNat

/-- `entry [11] = '\0'` for an entry that begins with the first ten characters of the name;
undefined when the comparison is, and beyond the end of the block. -/
def emptyPreload (entry : Block) : Option Block :=
  match entry.hasPrefix (ldPreload.take 10) with
  | none => none
  | some false => some entry
  | some true => if 11 < entry.length then some (entry.set 11 (some 0)) else none

/-- What the server comes to with a request: it exits, does something undefined, or serves it. -/
inductive Fate where
  | exits
  | undefined
  | serves (request : Request)
  deriving DecidableEq

/-- The loop of `read_env`, with the entries it has. -/
def readEntries : Nat → List Block → Reader UInt8 (Except Fate (List Block))
  | 0, entries => return .ok entries
  | count + 1, entries => do
      let (rc, entry) ← readString
      if rc < 0 then return .error .exits
      match entry.bind emptyPreload with
      | none => return .error .undefined
      | some entry => readEntries count (entries ++ [entry])

/-- `read_env` behind the count. With a negative count, the null pointer behind the entries is
stored outside of the array. -/
def readCounted (envc : Int) : Reader UInt8 (Except Fate (List Block)) :=
  match malloc (asInt (envc + 1)) with
  | none => return .error .exits
  | some _ => if envc < 0 then return .error .undefined else readEntries envc.toNat []

/-- `read_env`. -/
def readEnv : Reader UInt8 (Except Fate (List Block)) := do
  match ← Reader.readBlock 4 with
  | none => return .error .exits
  | some bytes => readCounted (intOfBytes bytes)

/-- The command runs with the strings that the blocks hold. -/
def serve (cmd path : Option Block) (env : List Block) : Fate :=
  match cmd.bind Block.cString, path.bind Block.cString, env.mapM Block.cString with
  | some cmd, some path, some env => .serves ⟨cmd, path, env⟩
  | _, _, _ => .undefined

/-- `handle_system_request`, up to the call of the real `system`. -/
def handleSystemRequest : Reader UInt8 Fate := do
  let (rc, cmd) ← readString
  if rc < 0 then return .exits
  if rc = 0 then return .exits
  let (rc, path) ← readString
  if rc < 0 then return .exits
  match ← readEnv with
  | .error fate => return fate
  | .ok env => return serve cmd path env

/-- The bytes of a request on the wire, when nothing is lost. -/
def Request.bytes (request : Request) : List UInt8 :=
  (writeString request.cmd ++ writeString request.path ++ writeEnv request.env).flatMap
    Sending.bytes

/-- A server at the end of its stream exits. -/
example : handleSystemRequest.runClosed [] = .exits := rfl

end SlurmSpank.SystemSafe
