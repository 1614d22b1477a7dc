import Mathlib.Data.List.TakeWhile

/-! # Character buffers

An array of characters that holds a string up to its terminator, with a pointer at which the
next character is written. An access outside of the array has no result.
-/

namespace SlurmSpank.Foundation

/-- The terminator of a string. -/
def nul : Char := Char.ofNat 0

/-- A `char` array with the offset of a pointer into it. -/
structure CharBuffer (size : Nat) where
  bytes : List Char
  pos : Nat
  length_bytes : bytes.length = size

namespace CharBuffer

variable {size : Nat}

/-- `memset (s = buf, 0, sizeof (buf))`. -/
def clear : CharBuffer size := ⟨List.replicate size nul, 0, List.length_replicate⟩

/-- `*s++ = c`. -/
def put (b : CharBuffer size) (c : Char) : Option (CharBuffer size) :=
  if b.pos < size then
    some ⟨b.bytes.set b.pos c, b.pos + 1, by rw [List.length_set, b.length_bytes]⟩
  else none

/-- `*s = '\0'`. -/
def terminate (b : CharBuffer size) : Option (CharBuffer size) :=
  if b.pos < size then
    some ⟨b.bytes.set b.pos nul, b.pos, by rw [List.length_set, b.length_bytes]⟩
  else none

/-- The string in the array, as the functions of the C library read it. -/
def string (b : CharBuffer size) : Option (List Char) :=
  if nul ∈ b.bytes then some (b.bytes.takeWhile (· ≠ nul)) else none

/-- `strncat (buf, text, n)`. -/
def strncat (b : CharBuffer size) (text : List Char) (n : Nat) : Option (CharBuffer size) :=
  b.string.bind fun old =>
    let written := old ++ text.take n
    if hroom : written.length < size then
      some ⟨written ++ nul :: b.bytes.drop (written.length + 1), b.pos, by
        rw [List.length_append, List.length_cons, List.length_drop, b.length_bytes]
        omega⟩
    else none

/-- `s += n`. -/
def advance (b : CharBuffer size) (n : Nat) : CharBuffer size := { b with pos := b.pos + n }

/-- The buffer holds a text, its pointer is behind the text, and the rest is zero. -/
structure Holds (b : CharBuffer size) (text : List Char) : Prop where
  bytes : b.bytes = text ++ List.replicate (size - text.length) nul
  pos : b.pos = text.length
  room : text.length < size
  clean : nul ∉ text

theorem clear_holds (hsize : 0 < size) : (clear : CharBuffer size).Holds [] :=
  ⟨rfl, rfl, hsize, List.not_mem_nil⟩

namespace Holds

variable {b : CharBuffer size} {text : List Char}

/-- What is behind the text starts with a terminator. -/
theorem bytes_eq (hholds : b.Holds text) :
    b.bytes = text ++ nul :: List.replicate (size - (text.length + 1)) nul := by
  have hroom := hholds.room
  have hrest : size - text.length = size - (text.length + 1) + 1 := by omega
  rw [hholds.bytes, hrest, List.replicate_succ]

theorem string_eq (hholds : b.Holds text) : b.string = some text := by
  have hmem : nul ∈ b.bytes := by
    rw [hholds.bytes_eq]
    exact List.mem_append_right text List.mem_cons_self
  have hall : ∀ c ∈ text, decide (c ≠ nul) = true := fun c hc =>
    decide_eq_true fun heq => hholds.clean (heq ▸ hc)
  rw [string, if_pos hmem, hholds.bytes_eq, List.takeWhile_append_of_pos hall,
    List.takeWhile_cons_of_neg (by simp), List.append_nil]

theorem put (hholds : b.Holds text) {c : Char} (hc : c ≠ nul) (hroom : text.length + 1 < size) :
    ∃ b', b.put c = some b' ∧ b'.Holds (text ++ [c]) := by
  have hpos : b.pos < size := hholds.pos ▸ hholds.room
  refine ⟨_, if_pos hpos, ?_, ?_, ?_, ?_⟩
  · change b.bytes.set b.pos c = _
    rw [hholds.pos, hholds.bytes_eq, List.set_append_right _ _ (Nat.le_refl _), Nat.sub_self,
      List.set_cons_zero, List.length_append, List.length_singleton, List.append_assoc]
    rfl
  · change b.pos + 1 = _
    rw [List.length_append, List.length_singleton, hholds.pos]
  · rw [List.length_append, List.length_singleton]
    exact hroom
  · intro hmem
    rcases List.mem_append.mp hmem with htext | hlast
    · exact hholds.clean htext
    · exact hc (List.mem_singleton.mp hlast).symm

theorem terminate (hholds : b.Holds text) :
    ∃ b', b.terminate = some b' ∧ b'.Holds text := by
  have hpos : b.pos < size := hholds.pos ▸ hholds.room
  refine ⟨_, if_pos hpos, ?_, hholds.pos, hholds.room, hholds.clean⟩
  change b.bytes.set b.pos nul = _
  rw [hholds.pos, hholds.bytes, List.set_append_right _ _ (Nat.le_refl _), Nat.sub_self,
    List.set_replicate_self]

/-- A string that has room is written behind the text, and the pointer goes behind it. -/
theorem strncat (hholds : b.Holds text) {more : List Char} (hmore : nul ∉ more)
    (hroom : text.length + more.length < size) :
    ∃ b', b.strncat more size = some b' ∧ (b'.advance more.length).Holds (text ++ more) := by
  have htake : more.take size = more := List.take_of_length_le (by omega)
  have hlength : (text ++ more).length < size := by
    rw [List.length_append]
    exact hroom
  refine ⟨⟨text ++ more ++ nul :: b.bytes.drop ((text ++ more).length + 1), b.pos, ?_⟩, ?_, ?_⟩
  · rw [List.length_append, List.length_cons, List.length_drop, b.length_bytes]
    omega
  · rw [CharBuffer.strncat, hholds.string_eq, Option.bind_some]
    simp only [htake, hlength, dite_true]
  · refine ⟨?_, ?_, hlength, ?_⟩
    · change text ++ more ++ nul :: b.bytes.drop _ = _
      have hdrop : b.bytes.drop ((text ++ more).length + 1) =
          List.replicate (size - ((text ++ more).length + 1)) nul := by
        rw [hholds.bytes, List.drop_append, List.drop_of_length_le (by
          rw [List.length_append]; omega), List.nil_append, List.drop_replicate]
        congr 1
        rw [List.length_append]
        omega
      have hrest : size - (text ++ more).length = size - ((text ++ more).length + 1) + 1 := by omega
      rw [hdrop, hrest, List.replicate_succ]
    · change b.pos + more.length = _
      rw [List.length_append, hholds.pos]
    · intro hmem
      rcases List.mem_append.mp hmem with htext | hlast
      · exact hholds.clean htext
      · exact hmore hlast

/-- A string that has no room is written over the end. -/
theorem strncat_none (hholds : b.Holds text) {more : List Char}
    (hfull : size ≤ text.length + more.length) : b.strncat more size = none := by
  rw [CharBuffer.strncat, hholds.string_eq, Option.bind_some]
  refine dif_neg ?_
  rw [List.length_append, List.length_take]
  omega

end Holds

end CharBuffer

end SlurmSpank.Foundation
