import SlurmSpank.SystemSafe.World

/-! # What an allowed step changes

When the plain transfers move whole integers and the calls take their turns, a step is one of
a few changes. What a thread still has to write is counted over all its messages, so that the
kind of transfer does not matter any more.
-/

namespace SlurmSpank.SystemSafe

open SlurmSpank.Foundation

/-- What a thread still has to write. -/
def Stage.bytes : Stage → List UInt8
  | .writing _ messages => messages.flatMap Sending.bytes
  | _ => []

/-- The call a thread is in. -/
def Stage.ticket : Stage → Option Nat
  | .idle => none
  | .writing ticket _ => some ticket
  | .waiting ticket => some ticket

/-- Plain writes have the bytes of an `int`. -/
def IntWrites (messages : List Sending) : Prop :=
  ∀ bytes, .write bytes ∈ messages → bytes.length = 4

/-- A thread that writes has something to write next. -/
def Stage.Proper : Stage → Prop
  | .writing _ messages => IntWrites messages ∧
      ∃ message rest, messages = message :: rest ∧ message.bytes ≠ []
  | _ => True

namespace Stage

@[simp] theorem next_bytes (ticket : Nat) (messages : List Sending) :
    (Stage.next ticket messages).bytes = messages.flatMap Sending.bytes := by
  fun_induction Stage.next ticket messages with
  | case1 => rfl
  | case2 rest ih => rw [ih, List.flatMap_cons, Sending.bytes_writeN, List.nil_append]
  | case3 message rest hmessage => rfl

@[simp] theorem next_ticket (ticket : Nat) (messages : List Sending) :
    (Stage.next ticket messages).ticket = some ticket := by
  fun_induction Stage.next ticket messages with
  | case1 => rfl
  | case2 rest ih => exact ih
  | case3 message rest hmessage => rfl

theorem next_proper (ticket : Nat) {messages : List Sending} (hints : IntWrites messages) :
    (Stage.next ticket messages).Proper := by
  fun_induction Stage.next ticket messages with
  | case1 => trivial
  | case2 rest ih => exact ih fun bytes hmem => hints bytes (List.mem_cons_of_mem _ hmem)
  | case3 message rest hmessage =>
      refine ⟨hints, message, rest, rfl, fun hempty => ?_⟩
      cases message with
      | writeN bytes =>
          rw [Sending.bytes_writeN] at hempty
          exact hmessage (by rw [hempty])
      | write bytes =>
          rw [Sending.bytes_write] at hempty
          have hlength := hints bytes List.mem_cons_self
          rw [hempty] at hlength
          cases hlength

theorem bytes_of_not_writing {stage : Stage} (hstage : stage.isWriting = false) :
    stage.bytes = [] := by
  cases stage with
  | writing ticket messages => cases hstage
  | idle => rfl
  | waiting ticket => rfl

end Stage

theorem writeString_intWrites (str : CString) : IntWrites (writeString str) := by
  intro bytes hmem
  simp [writeString] at hmem

/-- The only plain write of a request is the one of the count. -/
theorem system_intWrites {cmd : Option CString} {cwd : CString} {environ : List CString}
    {messages : List Sending} (hsystem : system cmd cwd environ = .sends messages) :
    IntWrites messages := by
  unfold system at hsystem
  split at hsystem
  next => cases hsystem
  next =>
    split at hsystem
    next =>
      cases hsystem
      intro bytes hmem
      simp only [List.mem_append, writeEnv, List.mem_cons, List.mem_flatMap,
        Sending.write.injEq] at hmem
      rcases hmem with (hmem | hmem) | hmem | ⟨entry, _, hmem⟩
      · exact writeString_intWrites _ bytes hmem
      · exact writeString_intWrites _ bytes hmem
      · rw [hmem, intBytes_length]
      · exact writeString_intWrites _ bytes hmem
    next => cases hsystem

/-- The changes of allowed steps that are not interrupted. -/
inductive Change (w : World) : World → Prop
  | called {p : Nat} {request : Request} {calls : List Request} {messages : List Sending}
      (hthread : w.threads[p]? = some ⟨request :: calls, .idle⟩)
      (hsystem : system (some request.cmd) request.path request.env = .sends messages)
      (hquiet : ∀ thread ∈ w.threads, thread.stage.isWriting = false) :
      Change w { w.setThread p calls (.next w.issued.length messages) with
        issued := w.issued ++ [(p, request)] }
  | crashed {p : Nat} {request : Request} {calls : List Request}
      (hthread : w.threads[p]? = some ⟨request :: calls, .idle⟩)
      (hsystem : system (some request.cmd) request.path request.env = .crashes) :
      Change w { w with crashed := true }
  | wrote {p : Nat} {calls : List Request} {ticket : Nat} {messages rest : List Sending}
      {front : List UInt8} (hthread : w.threads[p]? = some ⟨calls, .writing ticket messages⟩)
      (hfront : front ≠ [])
      (hsplit : messages.flatMap Sending.bytes = front ++ rest.flatMap Sending.bytes)
      (hints : IntWrites messages → IntWrites rest) :
      Change w { w.setThread p calls (.next ticket rest) with
        toServer := w.toServer ++ front }
  | returned {p : Nat} {calls : List Request}
      (hthread : w.threads[p]? = some ⟨calls, .waiting w.returned.length⟩)
      (hfour : 4 ≤ w.toClient.length) :
      Change w { w.setThread p calls .idle with
        toClient := w.toClient.drop 4,
        returned := w.returned ++
          [⟨p, w.returned.length, some (intOfBytes (w.toClient.take 4))⟩] }
  | read {got : List UInt8} {n count : Nat} {next : Option (List UInt8) → Reader UInt8 Fate}
      (hserver : w.server = .reading got (.block n next))
      (hpos : 0 < count) (hroom : count ≤ n - got.length) (hcount : count ≤ w.toServer.length) :
      Change w { w with
        server := .reading (Reader.settle (got ++ w.toServer.take count) (.block n next)).1
          (Reader.settle (got ++ w.toServer.take count) (.block n next)).2,
        toServer := w.toServer.drop count,
        consumed := w.consumed ++ w.toServer.take count }
  | executed {got : List UInt8} {request : Request} {status : Int}
      (hserver : w.server = .reading got (.done (.serves request)))
      (hlow : -0x80000000 ≤ status) (hhigh : status < 0x80000000) :
      Change w { w with
        server := .replying (intBytes status),
        consumed := [],
        served := w.served ++ [⟨request, w.consumed, status⟩] }
  | replied {bytes : List UInt8} {count : Nat} (hserver : w.server = .replying bytes)
      (hpos : 0 < count) (hcount : count ≤ bytes.length) :
      Change w { w with
        server := if count = bytes.length then .ready else .replying (bytes.drop count),
        toClient := w.toClient ++ bytes.take count }

namespace World

variable {w w' : World} {p : Nat} {outcome : Outcome}

theorem change_of_call (hstep : w.call p = some w')
    (hquiet : ∀ thread ∈ w.threads, thread.stage.isWriting = false) : Change w w' := by
  unfold call at hstep
  split at hstep
  next request calls hthread =>
    split at hstep
    next hsystem =>
      unfold system at hsystem
      simp only at hsystem
      split at hsystem <;> cases hsystem
    next hsystem =>
      cases hstep
      exact .crashed hthread hsystem
    next messages hsystem =>
      cases hstep
      exact .called hthread hsystem hquiet
  next => cases hstep

theorem take_ne_nil {bytes : List UInt8} {count : Nat} (hpos : 0 < count)
    (hcount : count ≤ bytes.length) : bytes.take count ≠ [] :=
  List.ne_nil_of_length_pos (by rw [List.length_take]; omega)

theorem change_of_transfer (hstep : w.transfer p outcome = some w')
    (hints : w.wholeInts (.client p outcome) = true)
    (hturn : w.inTurn (.client p outcome) = true) :
    (outcome = .interrupted ∧ w' = w) ∨ (outcome ≠ .interrupted ∧ Change w w') := by
  unfold transfer at hstep
  simp only [wholeInts, inTurn] at hints hturn
  split at hstep
  next calls ticket bytes rest hthread =>
    split at hstep
    next =>
      cases hstep
      exact Or.inl ⟨rfl, rfl⟩
    next count =>
      split at hstep
      next hcount =>
        cases hstep
        refine Or.inr ⟨fun heq => (by cases heq), .wrote hthread
          (take_ne_nil hcount.1 hcount.2) ?_ fun hwrites other hmem => ?_⟩
        · simp only [List.flatMap_cons, Sending.bytes_writeN]
          rw [← List.append_assoc, List.take_append_drop]
        · rcases List.mem_cons.mp hmem with heq | hmem
          · cases heq
          · exact hwrites other (List.mem_cons_of_mem _ hmem)
      next => cases hstep
  next calls ticket bytes rest hthread =>
    rw [hthread] at hints
    simp only [decide_eq_true_eq] at hints
    cases hints
    simp only at hstep
    split at hstep
    next hcount =>
      cases hstep
      refine Or.inr ⟨fun heq => (by cases heq), .wrote hthread
        (take_ne_nil hcount.1 hcount.2) ?_ fun hwrites other hmem =>
          hwrites other (List.mem_cons_of_mem _ hmem)⟩
      rw [List.flatMap_cons, Sending.bytes_write, List.take_length]
    next => cases hstep
  next calls ticket hthread =>
    rw [hthread] at hints hturn
    simp only [decide_eq_true_eq] at hints hturn
    cases hints
    subst hturn
    simp only [if_true] at hstep
    split at hstep
    next hcount =>
      cases hstep
      exact Or.inr ⟨fun heq => (by cases heq), .returned hthread hcount.2.2⟩
    next => cases hstep
  next => cases hstep

theorem change_of_serverTransfer (hstep : w.serverTransfer outcome = some w') :
    (outcome = .interrupted ∧ w' = w) ∨ (outcome ≠ .interrupted ∧ Change w w') := by
  unfold serverTransfer at hstep
  split at hstep
  next => cases hstep
  next =>
    cases hstep
    exact Or.inl ⟨rfl, rfl⟩
  next got n next count hserver =>
    split at hstep
    next hcount =>
      cases hstep
      exact Or.inr ⟨fun heq => (by cases heq),
        .read hserver hcount.1 hcount.2.1 hcount.2.2⟩
    next => cases hstep
  next bytes count hserver =>
    split at hstep
    next hcount =>
      cases hstep
      exact Or.inr ⟨fun heq => (by cases heq), .replied hserver hcount.1 hcount.2⟩
    next => cases hstep

theorem change_of_execute {status : Int} (hstep : w.execute status = some w') : Change w w' := by
  unfold execute at hstep
  split at hstep
  next got request hserver =>
    split at hstep
    next hstatus =>
      cases hstep
      exact .executed hserver hstatus.1 hstatus.2
    next => cases hstep
  next => cases hstep

/-- An allowed step is an interrupted transfer, which changes nothing, or one of the changes. -/
theorem change_of_step {move : Move} (hstep : w.step move = some w')
    (hints : w.wholeInts move = true) (hturn : w.inTurn move = true) :
    (move.interrupted = true ∧ w' = w) ∨ (move.interrupted = false ∧ Change w w') := by
  have hlift : ∀ {outcome : Outcome} {move : Move},
      move.interrupted = decide (outcome = .interrupted) →
      (outcome = .interrupted ∧ w' = w) ∨ (outcome ≠ .interrupted ∧ Change w w') →
      (move.interrupted = true ∧ w' = w) ∨ (move.interrupted = false ∧ Change w w') := by
    intro outcome move hmove hcases
    rw [hmove, decide_eq_true_eq, decide_eq_false_iff_not]
    exact hcases
  cases move with
  | call p =>
      simp only [step] at hstep
      split at hstep
      next => cases hstep
      next =>
        refine Or.inr ⟨rfl, change_of_call hstep fun thread hmem => ?_⟩
        simp only [inTurn, List.all_eq_true, Bool.not_eq_true'] at hturn
        exact hturn thread hmem
  | client p outcome =>
      simp only [step] at hstep
      split at hstep
      next => cases hstep
      next => exact hlift rfl (change_of_transfer hstep hints hturn)
  | server outcome => exact hlift rfl (change_of_serverTransfer hstep)
  | execute status => exact Or.inr ⟨rfl, change_of_execute hstep⟩

end World

end SlurmSpank.SystemSafe
