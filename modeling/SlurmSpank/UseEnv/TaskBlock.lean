import SlurmSpank.UseEnv.Conditional

/-! # Task blocks inside and around conditionals

Which statements the two readings of a file perform, in terms of what encloses a statement.
The job reads what no `in task` block encloses and every chain selects. The task ignores
everything outside the blocks, the chains around a block included, so that only the chains
between a statement and its innermost block count.
-/

namespace SlurmSpank.UseEnv

/-- What encloses a statement: an `in task` block, or a branch of a chain, which the truth
values of the chain's tests select or not. -/
inductive Enclosing where
  | task
  | branch (chosen : Bool)
  deriving DecidableEq

/-- Whether it is a branch that is not selected. -/
def Enclosing.dropped : Enclosing → Bool
  | .task => false
  | .branch chosen => !chosen

mutual

/-- The statements of a file in order, each with what encloses it, innermost first. -/
def Stmts.occurrences (context : List Enclosing) : Stmts → List (Nat × List Enclosing)
  | .nil => []
  | .cons stmt rest => stmt.occurrences context ++ rest.occurrences context

def Stmt.occurrences (context : List Enclosing) : Stmt → List (Nat × List Enclosing)
  | .expr id => [(id, context)]
  | .ifStmt tests body tail =>
      body.occurrences (.branch tests.value :: context) ++ tail.occurrences context tests.value
  | .inTask body => body.occurrences (.task :: context)
  | .includeFile file => file.occurrences context

/-- In the rest of a chain it matters whether an earlier test was true. -/
def IfTail.occurrences (context : List Enclosing) (earlier : Bool) :
    IfTail → List (Nat × List Enclosing)
  | .endif => []
  | .else body => body.occurrences (.branch (!earlier) :: context)
  | .elseIf tests body tail =>
      body.occurrences (.branch (!earlier && tests.value) :: context) ++
        tail.occurrences context (earlier || tests.value)

end

mutual

/-- Nothing is included. -/
def Stmts.NoInclude : Stmts → Prop
  | .nil => True
  | .cons stmt rest => stmt.NoInclude ∧ rest.NoInclude

def Stmt.NoInclude : Stmt → Prop
  | .expr _ => True
  | .ifStmt _ body tail => body.NoInclude ∧ tail.NoInclude
  | .inTask body => body.NoInclude
  | .includeFile _ => False

def IfTail.NoInclude : IfTail → Prop
  | .endif => True
  | .else body => body.NoInclude
  | .elseIf _ body tail => body.NoInclude ∧ tail.NoInclude

end

/-- The reading that takes all chains into account: a statement belongs to the task if a task
block encloses it, and every branch around it has to be selected. -/
def Selects (task : Bool) (context : List Enclosing) : Prop :=
  (Enclosing.task ∈ context ↔ task = true) ∧ ∀ enclosing ∈ context, enclosing.dropped = false

/-- The reading of the parser. In the task, only what lies inside the innermost task block is
looked at. -/
def Reads : Bool → List Enclosing → Prop
  | false, context => Enclosing.task ∉ context ∧ ∀ enclosing ∈ context, enclosing.dropped = false
  | true, context => ∃ inner outer, context = inner ++ .task :: outer ∧
      ∀ enclosing ∈ inner, enclosing ≠ .task ∧ enclosing.dropped = false

/-- Whether a point with the given enclosing constructs is live. -/
def live (task : Bool) : List Enclosing → Bool
  | [] => !task
  | .task :: _ => task
  | .branch chosen :: context => live task context && chosen

theorem live_iff_reads (task : Bool) (context : List Enclosing) :
    live task context = true ↔ Reads task context := by
  induction context with
  | nil => cases task <;> simp [live, Reads]
  | cons enclosing context ih =>
      cases enclosing with
      | task =>
          cases task with
          | false => simp [live, Reads]
          | true => exact iff_of_true rfl ⟨[], context, rfl, by simp⟩
      | branch chosen =>
          rw [live, Bool.and_eq_true, ih]
          cases task with
          | false =>
              rw [Reads, Reads, List.forall_mem_cons, List.mem_cons, Enclosing.dropped]
              cases chosen <;> simp
          | true =>
              constructor
              · rintro ⟨⟨inner, outer, rfl, hinner⟩, rfl⟩
                exact ⟨.branch true :: inner, outer, rfl,
                  List.forall_mem_cons.mpr ⟨⟨by simp, rfl⟩, hinner⟩⟩
              · rintro ⟨inner, outer, hcontext, hinner⟩
                cases inner with
                | nil => cases hcontext
                | cons first inner =>
                    obtain ⟨rfl, rfl⟩ := List.cons.inj hcontext
                    obtain ⟨hfirst, hrest⟩ := List.forall_mem_cons.mp hinner
                    exact ⟨⟨inner, outer, rfl, hrest⟩, by simpa [Enclosing.dropped] using hfirst.2⟩

instance (task : Bool) (context : List Enclosing) : Decidable (Reads task context) :=
  decidable_of_iff _ (live_iff_reads task context)

instance (task : Bool) (context : List Enclosing) : Decidable (Selects task context) :=
  instDecidableAnd

/-- The statements of a list of occurrences whose points are live. -/
def livePart (task : Bool) (occurrences : List (Nat × List Enclosing)) : List Nat :=
  (occurrences.filter fun occurrence => live task occurrence.2).map Prod.fst

@[simp] theorem livePart_append (task : Bool) (first second : List (Nat × List Enclosing)) :
    livePart task (first ++ second) = livePart task first ++ livePart task second := by
  simp [livePart]

mutual

/-- From a point in the file, what is performed is the live part of what follows. -/
theorem Stmts.performed_eq (task : Bool) (context : List Enclosing) : ∀ stmts : Stmts,
    stmts.NoInclude →
      stmts.performed task (live task context) = livePart task (stmts.occurrences context)
  | .nil, _ => rfl
  | .cons stmt more, hinline => by
      rw [Stmts.performed, Stmt.performed_eq task context stmt hinline.1,
        Stmts.performed_eq task context more hinline.2, Stmts.occurrences, livePart_append]

theorem Stmt.performed_eq (task : Bool) (context : List Enclosing) : ∀ stmt : Stmt,
    stmt.NoInclude →
      stmt.performed task (live task context) = livePart task (stmt.occurrences context)
  | .expr id, _ => by cases hlive : live task context <;>
      simp [Stmt.performed, Stmt.occurrences, livePart, hlive]
  | .ifStmt tests body tail, hinline => by
      have hbody := Stmts.performed_eq task (.branch tests.value :: context) body hinline.1
      rw [Stmt.performed, IfTail.performed_eq task context tests.value tail hinline.2,
        Stmt.occurrences, livePart_append, ← hbody, live]
  | .inTask body, hinline => Stmts.performed_eq task (.task :: context) body hinline

theorem IfTail.performed_eq (task : Bool) (context : List Enclosing) (earlier : Bool) :
    ∀ tail : IfTail, tail.NoInclude →
      tail.performed task (live task context && !earlier) =
        livePart task (tail.occurrences context earlier)
  | .endif, _ => rfl
  | .else body, hinline => Stmts.performed_eq task (.branch (!earlier) :: context) body hinline
  | .elseIf tests body tail, hinline => by
      have hbody := Stmts.performed_eq task (.branch (!earlier && tests.value) :: context) body
        hinline.1
      have htail := IfTail.performed_eq task context (earlier || tests.value) tail hinline.2
      rw [IfTail.performed, IfTail.occurrences, livePart_append, ← hbody, ← htail, live,
        Bool.and_assoc, Bool.and_assoc, Bool.not_or]

end

/-- A run in the given context performs, in order, the statements that a reading picks. -/
def Follows (reading : List Enclosing → Prop) [DecidablePred reading] (task : Bool)
    (file : Stmts) : Prop :=
  ∃ events, useEnvParse task file = some (conditionInit task, events) ∧
    executed events = ((file.occurrences []).filter fun occurrence => reading occurrence.2).map
      Prod.fst

/-- Each of the two readings of a file performs what it reads: on the job side what no task
block encloses and every chain selects, and in the task what lies in a task block and is
selected by every chain inside the innermost one. -/
theorem useEnvParse_follows (file : Stmts) (hinline : file.NoInclude) :
    Follows (Reads false) false file ∧ Follows (Reads true) true file := by
  have hfollows : ∀ task, Follows (Reads task) task file := by
    intro task
    obtain ⟨events, hresult, hexec, -⟩ := useEnvParse_runs task file
    have hpart := Stmts.performed_eq task [] file hinline
    rw [live] at hpart
    refine ⟨events, hresult, ?_⟩
    rw [hexec, if_pos rfl, hpart, livePart]
    simp only [← live_iff_reads, Bool.decide_eq_true]
  exact ⟨hfollows false, hfollows true⟩

/-- A statement in a task block inside a branch whose test is false. -/
def blockInBranch : Stmts :=
  .cons (.ifStmt (.one (.item false)) (.cons (.inTask (.cons (.expr 1) .nil)) .nil) .endif) .nil

theorem useEnvParse_follows_blockInBranch :
    Follows (Reads false) false blockInBranch ∧ Follows (Reads true) true blockInBranch :=
  useEnvParse_follows blockInBranch (by simp [blockInBranch, Stmts.NoInclude, Stmt.NoInclude,
    IfTail.NoInclude])

/-- The task performs that statement, which no reading that counts all chains selects. -/
theorem task_ignores_outer_chain :
    (useEnvParse true blockInBranch).map (executed ∘ Prod.snd) = some [1] ∧
      ¬ Follows (Selects true) true blockInBranch := by
  have hrun : useEnvParse true blockInBranch = some (conditionInit true,
      [.execute 1, .endif (conditionInit true) (conditionInit true)]) := rfl
  refine ⟨by rw [hrun]; rfl, ?_⟩
  rintro ⟨events, hevents, hexec⟩
  rw [hrun] at hevents
  obtain ⟨-, rfl⟩ := Prod.mk.inj (Option.some.inj hevents)
  revert hexec
  decide

end SlurmSpank.UseEnv
