import SlurmSpank.SystemSafe.Session

/-! # Callers that take turns get their own results

Nothing in the code serialises the calls of several threads. When the threads happen to take
turns, the server runs exactly the commands that were asked for, and each call returns the
status of its own. Otherwise the parts of two requests can make up a third.
-/

namespace SlurmSpank.SystemSafe

open SlurmSpank.Foundation

/-- The threads ask for the commands of their programs in order, the server runs these commands
with their directories and environments, once each, and every call returns the status of its
own command. -/
structure OwnResults (programs : List (List Request)) (w : World) : Prop where
  issued : ∀ (p : Nat) (calls : List Request), programs[p]? = some calls →
    issuedBy p w.issued <+: calls
  executed : ∀ (i : Nat) (record : Served), w.served[i]? = some record →
    ∃ call : Nat × Request, w.issued[i]? = some call ∧ record.request = call.2.expected
  returned : ∀ ret ∈ w.returned, ∃ (request : Request) (record : Served),
    w.issued[ret.ticket]? = some (ret.thread, request) ∧
      w.served[ret.ticket]? = some record ∧ record.request = request.expected ∧
        ret.status = some record.status

theorem Sound.ownResults {programs : List (List Request)} {w : World}
    (hsound : Sound programs w) : OwnResults programs w := by
  refine ⟨fun p calls hp => ?_, fun i record hrecord => ?_, fun ret hmem => ?_⟩
  · have hlt : p < w.threads.length := by
      rw [hsound.callers.size]
      exact (List.getElem?_eq_some_iff.mp hp).1
    have hprogram := hsound.callers.program p _ (List.getElem?_eq_getElem hlt)
    rw [hp, Option.some_inj] at hprogram
    exact ⟨_, hprogram.symm⟩
  · obtain ⟨call, hcall, hrequest, _⟩ := hsound.synced.served i record hrecord
    exact ⟨call, hcall, hrequest⟩
  · obtain ⟨i, hi⟩ := List.mem_iff_getElem?.mp hmem
    obtain ⟨rfl, ⟨request, hissued⟩, record, hrecord, hstatus⟩ :=
      hsound.replies.returned i ret hi
    obtain ⟨call, hcall, hrequest, _⟩ := hsound.synced.served _ record hrecord
    rw [hissued, Option.some_inj] at hcall
    subst hcall
    exact ⟨request, record, hissued, hrecord, hrequest, hstatus⟩

/-- In a run in which the calls take turns, everybody has the own results so far. Only so many
of its steps are not interrupted, and it can be brought to an end where every command was run
and every call has returned. -/
theorem own_results (programs : List (List Request))
    (hfits : ∀ calls ∈ programs, ∀ request ∈ calls, request.Fits) {moves : List Move} {w : World}
    (hrun : Run World.InTurn (World.start programs) moves w) :
    OwnResults programs w ∧
      moves.countP (!·.interrupted) ≤ (World.start programs).work ∧
      ∃ more w', Run World.InTurn w more w' ∧ OwnResults programs w' ∧ Finished programs w' := by
  obtain ⟨hsound, hwork⟩ := Sound.run hrun hfits
  obtain ⟨more, w', hmore, hfinished⟩ := hsound.finishes hfits
  have hsound' : Sound programs w' := hmore.invariant (Sound programs)
    (fun _ _ _ hbefore hstep => (hbefore.step hstep hfits).1) hsound
  exact ⟨hsound.ownResults, Nat.le_of_add_right_le hwork, more, w', hmore, hsound'.ownResults,
    hfinished⟩

/-- Two threads that ask for the commands `a` and `b`, in the root directory and without an
environment. -/
def twoCallers : List (List Request) :=
  [[⟨⟨[97], by decide⟩, ⟨[47], by decide⟩, []⟩], [⟨⟨[98], by decide⟩, ⟨[47], by decide⟩, []⟩]]

theorem twoCallers_fit : ∀ calls ∈ twoCallers, ∀ request ∈ calls, request.Fits := by
  have hfits : ∀ request : Request, request.cmd.1.length = 1 → request.path.1.length = 1 →
      request.env = [] → request.Fits := fun request hcmd hpath henv =>
    ⟨by omega, by omega, by rw [henv]; decide, by simp [henv]⟩
  intro calls hcalls request hrequest
  simp only [twoCallers, List.mem_cons, List.not_mem_nil, or_false] at hcalls
  rcases hcalls with rfl | rfl
  · rw [List.mem_singleton.mp hrequest]
    exact hfits _ rfl rfl rfl
  · rw [List.mem_singleton.mp hrequest]
    exact hfits _ rfl rfl rfl

/-- A thread writes its request, with partial and interrupted transfers. -/
def writeMoves (p : Nat) : List Move :=
  [.call p, .client p (.moved 3), .client p .interrupted, .client p (.moved 1),
    .client p (.moved 1), .client p (.moved 4), .client p (.moved 1), .client p (.moved 4)]

/-- The server reads such a request and writes the status. -/
def serveMoves (status : Int) : List Move :=
  [.server (.moved 4), .server .interrupted, .server (.moved 1), .server (.moved 2),
    .server (.moved 2), .server (.moved 1), .server (.moved 4), .execute status,
    .server (.moved 3), .server (.moved 1)]

/-- Two threads write one after the other, and read their statuses in that order. -/
theorem own_results_two : ∃ moves w,
    Run World.InTurn (World.start twoCallers) moves w ∧
      w.returned = [⟨0, 0, some 256⟩, ⟨1, 1, some 0⟩] ∧ OwnResults twoCallers w := by
  have hexec : ∃ w ∈ World.exec (fun w move => w.wholeInts move && w.inTurn move)
      (writeMoves 0 ++ writeMoves 1 ++ serveMoves 256 ++ serveMoves 0 ++
        [.client 0 (.moved 4), .client 1 (.moved 4)]) (World.start twoCallers),
      w.returned = [⟨0, 0, some 256⟩, ⟨1, 1, some 0⟩] := by decide +kernel
  obtain ⟨w, hexec, hreturned⟩ := hexec
  have hrun := (World.run_exec hexec).mono fun w move w' hstep =>
    (⟨hstep.1, (Bool.and_eq_true _ _).mp hstep.2⟩ : w.InTurn move w')
  exact ⟨_, w, hrun, hreturned, (own_results twoCallers twoCallers_fit hrun).1⟩

/-- When a second thread writes between the parts of a request, the server can run a command
that nobody asked for: here the first command in a directory that is the second one. -/
theorem mixed_requests : ¬ ∀ programs : List (List Request),
    (∀ calls ∈ programs, ∀ request ∈ calls, request.Fits) → ∀ moves w,
      Run (fun w move w' => w.step move = some w' ∧ w.wholeInts move = true)
        (World.start programs) moves w → OwnResults programs w := by
  intro hall
  have hexec : ∃ w ∈ World.exec World.wholeInts
      ([.call 0, .client 0 (.moved 4), .client 0 (.moved 1), .call 1, .client 1 (.moved 4),
        .client 1 (.moved 1), .client 1 (.moved 4), .client 0 (.moved 4), .client 1 (.moved 1),
        .server (.moved 4), .server (.moved 1), .server (.moved 4), .server (.moved 1),
        .server (.moved 4), .server (.moved 4), .server (.moved 1), .execute 0])
      (World.start twoCallers),
      w.served.map Served.request = [⟨⟨[97], by decide⟩, ⟨[98], by decide⟩, [⟨[47], by decide⟩]⟩] ∧
      (w.issued.all fun call => call.2.expected.env = []) = true := by decide +kernel
  obtain ⟨w, hexec, hserved, hissued⟩ := hexec
  have hown := hall twoCallers twoCallers_fit _ w (World.run_exec hexec)
  obtain ⟨record, hrecord, hrequest⟩ := List.map_eq_singleton_iff.mp hserved
  obtain ⟨call, hcall, hexpected⟩ := hown.executed 0 record (by rw [hrecord]; rfl)
  have henv := of_decide_eq_true (List.all_eq_true.mp hissued call (List.mem_of_getElem? hcall))
  rw [← hexpected, hrequest] at henv
  cases henv

end SlurmSpank.SystemSafe
