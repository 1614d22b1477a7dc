import Mathlib.Algebra.BigOperators.Group.List.Basic
import Mathlib.Algebra.GroupWithZero.Nat
import SlurmSpank.SystemSafe.Replies

/-! # Sessions come to an end

The three invariants hold in every run in which the plain transfers are whole and the calls take
their turns. Every step of such a run that is not interrupted leaves less to do, and there is
one until every call has returned.
-/

namespace SlurmSpank.SystemSafe

open SlurmSpank.Foundation

/-- A step with whole plain transfers, in its turn. -/
def World.InTurn (w : World) (move : Move) (w' : World) : Prop :=
  w.step move = some w' ∧ w.wholeInts move = true ∧ w.inTurn move = true

/-- There is such a step that is not interrupted. -/
def World.Progresses (w : World) : Prop :=
  ∃ move w', w.InTurn move w' ∧ move.interrupted = false

/-- The invariant of a session. -/
structure Sound (programs : List (List Request)) (w : World) : Prop where
  callers : Callers programs w
  synced : Synced w
  replies : Replies w

/-- Every call of every program was served and has returned. -/
structure Finished (programs : List (List Request)) (w : World) : Prop where
  issued : ∀ (p : Nat) (calls : List Request), programs[p]? = some calls →
    issuedBy p w.issued = calls
  served : w.served.length = w.issued.length
  returned : w.returned.length = w.issued.length

/-! ## What is left to do -/

def Stage.work : Stage → Nat
  | .idle => 0
  | .writing _ messages => 2 * (messages.flatMap Sending.bytes).length + 1
  | .waiting _ => 1

@[simp] theorem Stage.idle_work : Stage.idle.work = 0 := rfl

@[simp] theorem Stage.writing_work (ticket : Nat) (messages : List Sending) :
    (Stage.writing ticket messages).work = 2 * (messages.flatMap Sending.bytes).length + 1 := rfl

@[simp] theorem Stage.waiting_work (ticket : Nat) : (Stage.waiting ticket).work = 1 := rfl

def Thread.work (thread : Thread) : Nat :=
  (thread.calls.map fun request => 2 * request.bytes.length + 8).sum + thread.stage.work

/-- Every byte is written and read, and every call begins, is served and returns. -/
def World.work (w : World) : Nat :=
  (w.threads.map Thread.work).sum + w.toServer.length +
    6 * (w.issued.length - w.served.length) + w.server.reply.length

theorem Stage.next_work (ticket : Nat) (messages : List Sending) :
    (Stage.next ticket messages).work ≤ 2 * (messages.flatMap Sending.bytes).length + 1 := by
  fun_induction Stage.next ticket messages with
  | case1 => exact Nat.le_refl 1
  | case2 rest ih =>
      rw [List.flatMap_cons, Sending.bytes_writeN, List.nil_append]
      exact ih
  | case3 message rest hmessage => exact Nat.le_refl _

theorem sum_map_set {threads : List Thread} {p : Nat} {old : Thread} (f : Thread → Nat)
    (hold : threads[p]? = some old) (changed : Thread) :
    ((threads.set p changed).map f).sum + f old = (threads.map f).sum + f changed := by
  induction threads generalizing p with
  | nil => simp at hold
  | cons first threads ih =>
      cases p with
      | zero =>
          rw [List.getElem?_cons_zero, Option.some_inj] at hold
          rw [List.set_cons_zero, List.map_cons, List.map_cons, List.sum_cons, List.sum_cons, hold]
          omega
      | succ p =>
          rw [List.set_cons_succ, List.map_cons, List.map_cons, List.sum_cons, List.sum_cons]
          have hrest := ih hold
          omega

namespace Sound

variable {programs : List (List Request)} {w w' : World} {move : Move}

theorem start (programs : List (List Request)) : Sound programs (World.start programs) :=
  ⟨.start programs, .start programs, .start programs⟩

theorem change (hsound : Sound programs w) (hchange : Change w w')
    (hfits : ∀ calls ∈ programs, ∀ request ∈ calls, request.Fits) : Sound programs w' :=
  ⟨hsound.callers.change hchange hfits, hsound.synced.change hsound.callers hchange hfits,
    hsound.replies.change hsound.callers hchange⟩

/-- The requests of the calls to come fit. -/
theorem fits_of_thread (hsound : Sound programs w)
    (hfits : ∀ calls ∈ programs, ∀ request ∈ calls, request.Fits) {p : Nat} {thread : Thread}
    (hthread : w.threads[p]? = some thread) {request : Request} (hmem : request ∈ thread.calls) :
    request.Fits :=
  hfits _ (List.mem_of_getElem? (hsound.callers.program p thread hthread)) request
    (List.mem_append_right _ hmem)

/-- Every change leaves less to do. -/
theorem work_lt (hsound : Sound programs w) (hchange : Change w w')
    (hfits : ∀ calls ∈ programs, ∀ request ∈ calls, request.Fits) : w'.work < w.work := by
  cases hchange with
  | @called p request calls messages hthread hsystem hquiet =>
      obtain ⟨messages', hsends, hbytes⟩ :=
        (hsound.fits_of_thread hfits hthread List.mem_cons_self).sends
      rw [hsystem] at hsends
      cases hsends
      have hnext := Stage.next_work w.issued.length messages
      rw [hbytes] at hnext
      have hsum := sum_map_set Thread.work hthread ⟨calls, .next w.issued.length messages⟩
      have hserved := hsound.synced.served_le
      simp only [Thread.work, List.map_cons, List.sum_cons, Stage.idle_work] at hsum
      simp only [World.work, World.setThread, List.length_append, List.length_singleton]
      omega
  | crashed hthread hsystem =>
      obtain ⟨messages, hsends, _⟩ :=
        (hsound.fits_of_thread hfits hthread List.mem_cons_self).sends
      rw [hsystem] at hsends
      cases hsends
  | @wrote p calls ticket messages rest front hthread hfront hsplit hints =>
      have hnext := Stage.next_work ticket rest
      have hsum := sum_map_set Thread.work hthread ⟨calls, .next ticket rest⟩
      have hpos := List.length_pos_iff.mpr hfront
      simp only [Thread.work, Stage.writing_work, hsplit, List.length_append] at hsum
      simp only [World.work, World.setThread, List.length_append]
      omega
  | @returned p calls hthread hfour =>
      have hsum := sum_map_set Thread.work hthread ⟨calls, .idle⟩
      simp only [Thread.work, Stage.waiting_work, Stage.idle_work] at hsum
      simp only [World.work, World.setThread]
      omega
  | read hserver hpos hroom hcount =>
      simp only [World.work, Server.reply, hserver, List.length_drop]
      omega
  | executed hserver hlow hhigh =>
      obtain ⟨call, hcall, _⟩ := hsound.synced.done hserver
      have hlt := (List.getElem?_eq_some_iff.mp hcall).1
      simp only [World.work, Server.reply, hserver, List.length_append, List.length_singleton,
        intBytes_length, List.length_nil]
      omega
  | @replied bytes count hserver hpos hcount =>
      have hreply := congrArg List.length (Server.take_append_reply bytes count)
      rw [List.length_append, List.length_take] at hreply
      simp only [World.work, hserver]
      simp only [Server.reply] at hreply ⊢
      omega

/-- A step keeps the invariant; unless it is interrupted, it leaves less to do. -/
theorem step (hsound : Sound programs w) (hstep : w.InTurn move w')
    (hfits : ∀ calls ∈ programs, ∀ request ∈ calls, request.Fits) :
    Sound programs w' ∧ (!move.interrupted).toNat + w'.work ≤ w.work := by
  rcases World.change_of_step hstep.1 hstep.2.1 hstep.2.2 with
    ⟨hinterrupted, rfl⟩ | ⟨hmove, hchange⟩
  · rw [hinterrupted]
    exact ⟨hsound, Nat.le_of_eq (Nat.zero_add _)⟩
  · have hlt := hsound.work_lt hchange hfits
    rw [hmove, Bool.not_false, Bool.toNat_true]
    exact ⟨hsound.change hchange hfits, by omega⟩

/-! ## There is always a step -/

theorem progresses_of_isSome (move : Move) (hstep : (w.step move).isSome = true)
    (hints : w.wholeInts move = true) (hturn : w.inTurn move = true)
    (hmove : move.interrupted = false) : w.Progresses := by
  obtain ⟨w', hstep⟩ := Option.isSome_iff_exists.mp hstep
  exact ⟨move, w', ⟨hstep, hints, hturn⟩, hmove⟩

/-- A server that is not waiting for bytes has a step. -/
theorem server_step (hsound : Sound programs w)
    (hserver : (∃ got n next, w.server = .reading got (.block n next)) → w.toServer ≠ []) :
    w.Progresses := by
  cases hstate : w.server with
  | replying bytes =>
      have hne := (hsound.synced.replying bytes hstate).2.2
      have hpos := List.length_pos_iff.mpr hne
      refine progresses_of_isSome (.server (.moved bytes.length)) ?_ rfl rfl rfl
      simp [World.step, World.serverTransfer, hstate, hpos]
  | reading got reader =>
      cases reader with
      | done fate =>
          obtain ⟨call, _, rfl, _⟩ := hsound.synced.done hstate
          refine progresses_of_isSome (.execute 0) ?_ rfl rfl rfl
          simp [World.step, World.execute, hstate]
      | block n next =>
          have hpos := List.length_pos_iff.mpr (hserver ⟨got, n, next, hstate⟩)
          obtain ⟨_, hdone, _⟩ | ⟨_, _, hblock, hlt⟩ := (hsound.synced.reading got _ hstate).settled
          · cases hdone
          · cases hblock
            refine progresses_of_isSome (.server (.moved 1)) ?_ rfl rfl rfl
            simp [World.step, World.serverTransfer, hstate]
            exact ⟨by omega, hpos⟩

/-- A thread in the middle of a request has a step. -/
theorem write_step (hsound : Sound programs w) {p : Nat} {thread : Thread}
    (hthread : w.threads[p]? = some thread) (hwriting : thread.stage.isWriting = true) :
    w.Progresses := by
  have hproper := hsound.callers.proper p thread hthread
  obtain ⟨calls, stage⟩ := thread
  cases stage with
  | idle => cases hwriting
  | waiting ticket => cases hwriting
  | writing ticket messages =>
      obtain ⟨_, message, rest, rfl, hne⟩ := hproper
      have hpos := List.length_pos_iff.mpr hne
      refine progresses_of_isSome (.client p (.moved message.bytes.length)) ?_ ?_ ?_ rfl
      · cases message with
        | writeN bytes =>
            rw [Sending.bytes_writeN] at hpos ⊢
            simp [World.step, hsound.callers.alive, World.transfer, hthread, hpos]
        | write bytes =>
            rw [Sending.bytes_write] at hpos ⊢
            simp [World.step, hsound.callers.alive, World.transfer, hthread, hpos]
      · cases message with
        | writeN bytes => simp [World.wholeInts, hthread]
        | write bytes => simp [World.wholeInts, hthread]
      · simp [World.inTurn, hthread]

/-- When nothing is left to read or to write, every request that began was served. -/
theorem all_served (hsound : Sound programs w) {got : List UInt8} {n : Nat}
    {next : Option (List UInt8) → Reader UInt8 Fate}
    (hserver : w.server = .reading got (.block n next)) (hpending : w.pending = []) :
    w.served.length = w.issued.length := by
  have hreading := hsound.synced.reading got _ hserver
  obtain ⟨_, hdone, _⟩ | ⟨_, _, hblock, hlt⟩ := hreading.settled
  · cases hdone
  · cases hblock
    have hrun := hreading.run []
    rw [hpending, List.append_nil, List.append_nil, Reader.run_waits next hlt] at hrun
    refine Nat.le_antisymm hsound.synced.served_le (Nat.le_of_not_lt fun hmore => ?_)
    cases hdrop : w.issued.drop w.served.length with
    | nil =>
        rw [List.drop_eq_nil_iff] at hdrop
        omega
    | cons call calls =>
        have hmem : call ∈ w.issued := List.mem_of_mem_drop (hdrop ▸ List.mem_cons_self)
        rw [World.unserved, hdrop, List.flatMap_cons, List.append_nil,
          (hsound.synced.fits call hmem).run] at hrun
        cases hrun

/-- The oldest call that was served and did not return has a step. -/
theorem return_step (hsound : Sound programs w)
    (hquiet : ∀ thread ∈ w.threads, thread.stage.isWriting = false)
    (hreply : w.server.reply = []) (hserved : w.served.length = w.issued.length)
    (hopen : w.returned.length < w.issued.length) :
    w.Progresses := by
  obtain ⟨p, ⟨calls, stage⟩, hthread, hticket⟩ :=
    hsound.callers.pending w.returned.length (Nat.le_refl _) hopen
  cases stage with
  | idle => cases hticket
  | writing ticket messages =>
      have hnot := hquiet _ (List.mem_of_getElem? hthread)
      cases hnot
  | waiting ticket =>
      cases hticket
      have hfour : 4 ≤ w.toClient.length := by
        have hpending := congrArg List.length hsound.replies.pending
        rw [hreply, List.append_nil] at hpending
        rw [hpending]
        cases hdrop : w.served.drop w.returned.length with
        | nil =>
            rw [List.drop_eq_nil_iff] at hdrop
            omega
        | cons record rest =>
            rw [List.flatMap_cons, List.length_append, intBytes_length]
            omega
      refine progresses_of_isSome (.client p (.moved 4)) ?_ ?_ ?_ rfl
      · simp [World.step, hsound.callers.alive, World.transfer, hthread, hfour]
      · simp [World.wholeInts, hthread]
      · simp [World.inTurn, hthread]

/-- A thread with a call to make has a step when every call has returned. -/
theorem call_step (hsound : Sound programs w)
    (hfits : ∀ calls ∈ programs, ∀ request ∈ calls, request.Fits)
    (hreturned : w.returned.length = w.issued.length) {p : Nat} {thread : Thread}
    (hthread : w.threads[p]? = some thread) (hcalls : thread.calls ≠ []) :
    w.Progresses := by
  have hidle : ∀ (q : Nat) (other : Thread), w.threads[q]? = some other →
      other.stage = .idle := by
    intro q other hother
    have hticket : other.stage.ticket = none := by
      cases hticket : other.stage.ticket with
      | none => rfl
      | some k =>
          obtain ⟨hle, request, hissued⟩ := hsound.callers.ticket q other k hother hticket
          have hlt := (List.getElem?_eq_some_iff.mp hissued).1
          omega
    cases hstage : other.stage with
    | idle => rfl
    | writing ticket messages =>
        rw [hstage] at hticket
        cases hticket
    | waiting ticket =>
        rw [hstage] at hticket
        cases hticket
  have hstage := hidle p thread hthread
  obtain ⟨calls, stage⟩ := thread
  cases hstage
  cases calls with
  | nil => exact absurd rfl hcalls
  | cons request calls =>
      obtain ⟨messages, hsends, _⟩ :=
        (hsound.fits_of_thread hfits hthread List.mem_cons_self).sends
      refine progresses_of_isSome (.call p) ?_ rfl ?_ rfl
      · simp [World.step, hsound.callers.alive, World.call, hthread, hsends]
      · simp only [World.inTurn, List.all_eq_true, Bool.not_eq_true']
        intro other hmem
        obtain ⟨q, hq⟩ := List.mem_iff_getElem?.mp hmem
        rw [hidle q other hq]
        rfl

/-- Until the session is finished, there is a step that leaves less to do. -/
theorem exists_step (hsound : Sound programs w)
    (hfits : ∀ calls ∈ programs, ∀ request ∈ calls, request.Fits) :
    Finished programs w ∨ w.Progresses := by
  by_cases hserver : (∃ got n next, w.server = .reading got (.block n next)) → w.toServer ≠ []
  · exact Or.inr (hsound.server_step hserver)
  · obtain ⟨⟨got, n, next, hstate⟩, hempty⟩ := Classical.not_imp.mp hserver
    have hempty : w.toServer = [] := by simpa using hempty
    by_cases hwriting : ∃ (p : Nat) (thread : Thread), w.threads[p]? = some thread ∧
        thread.stage.isWriting = true
    · obtain ⟨p, thread, hthread, hwriting⟩ := hwriting
      exact Or.inr (hsound.write_step hthread hwriting)
    · have hquiet : ∀ thread ∈ w.threads, thread.stage.isWriting = false := by
        intro thread hmem
        obtain ⟨p, hp⟩ := List.mem_iff_getElem?.mp hmem
        exact Bool.eq_false_iff.mpr fun heq => hwriting ⟨p, thread, hp, heq⟩
      have hpending : w.pending = [] := by
        rw [World.pending, hempty, World.unwritten_of_quiet hquiet]
        rfl
      have hserved := hsound.all_served hstate hpending
      by_cases hopen : w.returned.length < w.issued.length
      · exact Or.inr (hsound.return_step hquiet (by rw [hstate]; rfl) hserved hopen)
      · have hreturned : w.returned.length = w.issued.length :=
          Nat.le_antisymm hsound.callers.returned_le (Nat.le_of_not_lt hopen)
        by_cases hcalls : ∃ (p : Nat) (thread : Thread), w.threads[p]? = some thread ∧
            thread.calls ≠ []
        · obtain ⟨p, thread, hthread, hcalls⟩ := hcalls
          exact Or.inr (hsound.call_step hfits hreturned hthread hcalls)
        · refine Or.inl ⟨fun p calls hp => ?_, hserved, hreturned⟩
          have hlt : p < w.threads.length := by
            rw [hsound.callers.size]
            exact (List.getElem?_eq_some_iff.mp hp).1
          have hthread := List.getElem?_eq_getElem hlt
          have hnone : w.threads[p].calls = [] :=
            Classical.byContradiction fun hne => hcalls ⟨p, _, hthread, hne⟩
          have hprogram := hsound.callers.program p _ hthread
          rw [hnone, List.append_nil, hp, Option.some_inj] at hprogram
          exact hprogram.symm

/-- A session can always be brought to its end. -/
theorem finishes (hsound : Sound programs w)
    (hfits : ∀ calls ∈ programs, ∀ request ∈ calls, request.Fits) :
    ∃ moves w', Run World.InTurn w moves w' ∧ Finished programs w' := by
  induction hwork : w.work using Nat.strongRecOn generalizing w with
  | _ n ih =>
      rcases hsound.exists_step hfits with hfinished | ⟨move, w', hstep, hmove⟩
      · exact ⟨[], w, .start, hfinished⟩
      · obtain ⟨hsound', hless⟩ := hsound.step hstep hfits
        rw [hmove, Bool.not_false, Bool.toNat_true] at hless
        obtain ⟨moves, w'', hrun, hfinished⟩ := ih w'.work (by omega) hsound' rfl
        exact ⟨move :: moves, w'', hrun.cons hstep, hfinished⟩

/-- The invariant holds in every run, which has no more steps that are not interrupted than
there was to do. -/
theorem run {moves : List Move} (hrun : Run World.InTurn (World.start programs) moves w)
    (hfits : ∀ calls ∈ programs, ∀ request ∈ calls, request.Fits) :
    Sound programs w ∧
      moves.countP (!·.interrupted) + w.work ≤ (World.start programs).work := by
  induction hrun with
  | start => exact ⟨.start programs, Nat.le_of_eq (Nat.zero_add _)⟩
  | @extend moves move before after prior last ih =>
      obtain ⟨hsound, hless⟩ := ih.1.step last hfits
      refine ⟨hsound, ?_⟩
      have hcount : [move].countP (!·.interrupted) = (!move.interrupted).toNat := by
        cases hmove : move.interrupted with
        | true => simp [hmove]
        | false => simp [hmove]
      rw [List.countP_append, hcount]
      have hprior := ih.2
      omega

end Sound

end SlurmSpank.SystemSafe
