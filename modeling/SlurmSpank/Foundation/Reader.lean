/-! # Programs that read a stream by whole blocks

A reader asks for blocks of known sizes and goes on with what it gets. The stream may arrive
in pieces: what a block has collected so far is kept beside the reader, and a piece moves from
the stream to it. Collecting pieces does not change what the reader makes of the stream.
-/

namespace SlurmSpank.Foundation

universe u v w

/-- A program that reads blocks. It goes on with the block, which is shorter than asked for
at the end of the stream, or with `none` after an error. -/
inductive Reader (β : Type u) (α : Type v)
  | done (result : α)
  | block (n : Nat) (next : Option (List β) → Reader β α)

namespace Reader

variable {β : Type u} {α γ : Type v}

/-- One reader after another. -/
def bind : Reader β α → (α → Reader β γ) → Reader β γ
  | done a, f => f a
  | block n next, f => block n fun got => (next got).bind f

instance : Monad (Reader β) where
  pure := done
  bind := bind

/-- Read one block. -/
def readBlock (n : Nat) : Reader β (Option (List β)) := block n done

/-- What a reader makes of a stream that stays open, and the rest of the stream. It waits for
ever for a block that does not arrive. -/
def run : Reader β α → List β → Option (α × List β)
  | done a, stream => some (a, stream)
  | block n next, stream =>
      if n ≤ stream.length then (next (some (stream.take n))).run (stream.drop n) else none

/-- What a reader makes of a stream that ends. -/
def runClosed : Reader β α → List β → α
  | done a, _ => a
  | block n next, stream => (next (some (stream.take n))).runClosed (stream.drop n)

/-- A reader goes on as soon as its block is complete. -/
def settle : List β → Reader β α → List β × Reader β α
  | got, done a => (got, done a)
  | got, block n next =>
      if got.length = n then settle [] (next (some got)) else (got, block n next)

@[simp] theorem run_pure (a : α) (stream : List β) :
    (pure a : Reader β α).run stream = some (a, stream) := rfl

theorem run_bind (reader : Reader β α) (f : α → Reader β γ) (stream : List β) :
    (reader >>= f).run stream = (reader.run stream).bind fun (a, rest) => (f a).run rest := by
  change (reader.bind f).run stream = _
  induction reader generalizing stream with
  | done a => rfl
  | block n next ih =>
      simp only [bind, run]
      split
      · exact ih _ _
      · rfl

theorem run_bind_of_run {reader : Reader β α} {stream rest : List β} {a : α}
    (hrun : reader.run stream = some (a, rest)) (f : α → Reader β γ) :
    (reader >>= f).run stream = (f a).run rest := by
  rw [run_bind, hrun, Option.bind_some]

/-- A block that has arrived is read whole. -/
theorem run_readBlock {n : Nat} {front : List β} (hlength : front.length = n) (rest : List β) :
    (readBlock n : Reader β (Option (List β))).run (front ++ rest) =
      some (some front, rest) := by
  simp [readBlock, run, ← hlength]

/-- Going on with a complete block is what reading it comes to. -/
theorem run_settle (reader : Reader β α) (got stream : List β) :
    (settle got reader).2.run ((settle got reader).1 ++ stream) = reader.run (got ++ stream) := by
  induction reader generalizing got with
  | done a => rfl
  | block n next ih =>
      simp only [settle]
      split
      next heq =>
        rw [ih]
        simp [run, ← heq]
      next => rfl

/-- A settled reader has finished or waits for the rest of a block. -/
theorem settle_cases (reader : Reader β α) (got : List β)
    (hgot : match reader with | done _ => got = [] | block n _ => got.length ≤ n) :
    (∃ a, settle got reader = ([], done a)) ∨
      ∃ part n next, settle got reader = (part, block n next) ∧ part.length < n := by
  induction reader generalizing got with
  | done a => exact Or.inl ⟨a, by rw [settle, hgot]⟩
  | block n next ih =>
      simp only [settle]
      split
      next heq =>
        apply ih
        split
        · rfl
        · exact Nat.zero_le _
      next hne => exact Or.inr ⟨got, n, next, rfl, Nat.lt_of_le_of_ne hgot hne⟩

/-- A reader waits when the stream ends before its block does. -/
theorem run_waits {n : Nat} (next : Option (List β) → Reader β α) {stream : List β}
    (hlt : stream.length < n) : (block n next).run stream = none := by
  rw [run, if_neg (Nat.not_le_of_gt hlt)]

end Reader

end SlurmSpank.Foundation
