import SlurmSpank.SystemSafe.Concurrency

/-! # A single caller keeps in step with the server

With one thread the calls take turns by themselves. Whatever the transfers of `write_n` and
`read_n` move, the server reads the requests one after the other, each from its own bytes, and
the calls return the statuses in order, as long as the two plain transfers move whole integers.
-/

namespace SlurmSpank.SystemSafe

open SlurmSpank.Foundation

/-- The strings of a request are not empty, and no entry begins with `LD_PRELOAD`. -/
structure Request.Plain (request : Request) : Prop where
  cmd : request.cmd.1 ≠ []
  path : request.path.1 ≠ []
  entries : ∀ entry ∈ request.env, entry.1 ≠ [] ∧ ¬ ldPreload.take 10 <+: entry.1

/-- The lengths of a request fit an `int`, and its directory fits the buffer of the call. -/
structure Request.Short (request : Request) : Prop where
  cmd : request.cmd.1.length + 1 < 0x80000000
  path : request.path.1.length + 1 ≤ 4096
  count : request.env.length + 1 < 0x80000000
  entries : ∀ entry ∈ request.env, entry.1.length + 1 < 0x80000000

theorem Request.Plain.fits {request : Request} (hplain : request.Plain)
    (hshort : request.Short) : request.Fits := by
  refine ⟨⟨List.length_pos_iff.mpr hplain.cmd, hshort.cmd⟩,
    ⟨List.length_pos_iff.mpr hplain.path, hshort.path⟩, hshort.count, fun entry hmem => ?_⟩
  obtain ⟨hne, hname⟩ := hplain.entries entry hmem
  rw [EntryFits, if_neg fun hbegins => hname ((List.take_prefix 10 _).trans hbegins)]
  exact ⟨List.length_pos_iff.mpr hne, hshort.entries entry hmem,
    fun hbegins => absurd hbegins hname⟩

/-- A request without `LD_PRELOAD` is meant to arrive as it is. -/
theorem Request.Plain.expected {request : Request} (hplain : request.Plain) :
    request.expected = request := by
  have henv : request.env.map emptied = request.env := by
    conv => rhs; rw [← List.map_id request.env]
    refine List.map_congr_left fun entry hmem => ?_
    exact if_neg fun hbegins =>
      (hplain.entries entry hmem).2 ((List.take_prefix 10 _).trans hbegins)
  rw [Request.expected, henv]

/-- The server has read the requests in order, each from the bytes of that request, and the
calls that returned have the statuses in order. -/
structure InStep (requests : List Request) (w : World) : Prop where
  served : w.served.map (fun record => (record.request, record.bytes)) =
    (requests.take w.served.length).map fun request => (request, request.bytes)
  returned : ∀ (i : Nat) (ret : Returned), w.returned[i]? = some ret →
    ∃ record : Served, w.served[i]? = some record ∧ ret.status = some record.status

/-- A step with whole plain transfers. -/
def World.Whole (w : World) (move : Move) (w' : World) : Prop :=
  w.step move = some w' ∧ w.wholeInts move = true

/-- A single thread takes turns with itself. -/
theorem Callers.inTurn {requests : List Request} {w w' : World} {move : Move}
    (hcallers : Callers [requests] w) (hstep : w.step move = some w') : w.inTurn move = true := by
  have honly : ∀ {p : Nat} {thread : Thread}, w.threads[p]? = some thread → p = 0 := by
    intro p thread hthread
    have hlt := (List.getElem?_eq_some_iff.mp hthread).1
    rw [hcallers.size, List.length_singleton] at hlt
    omega
  cases move with
  | call p =>
      simp only [World.inTurn, List.all_eq_true, Bool.not_eq_true']
      intro thread hmem
      obtain ⟨q, hq⟩ := List.mem_iff_getElem?.mp hmem
      simp only [World.step, hcallers.alive, Bool.false_eq_true, if_false, World.call] at hstep
      split at hstep
      next request calls hthread =>
        rw [honly hq, ← honly hthread, hthread, Option.some_inj] at hq
        rw [← hq]
        rfl
      next => cases hstep
  | client p outcome =>
      simp only [World.inTurn]
      split
      next calls ticket hthread =>
        obtain ⟨hle, request, hissued⟩ := hcallers.ticket p _ ticket hthread rfl
        have hlt := (List.getElem?_eq_some_iff.mp hissued).1
        -- the oldest open call is the one of the only thread
        obtain ⟨q, other, hother, hticket⟩ :=
          hcallers.pending w.returned.length (Nat.le_refl _) (Nat.lt_of_le_of_lt hle hlt)
        rw [honly hother, ← honly hthread, hthread, Option.some_inj] at hother
        rw [← hother] at hticket
        exact decide_eq_true (Option.some_inj.mp hticket)
      next => rfl
  | server outcome => rfl
  | execute status => rfl

/-- The calls of a single thread are its requests in order. -/
theorem Callers.issued_single {requests : List Request} {w : World}
    (hcallers : Callers [requests] w) : w.issued.map Prod.snd <+: requests := by
  have hall : w.issued.filter (fun call => call.1 = 0) = w.issued := by
    rw [List.filter_eq_self]
    intro call hmem
    have hlt := hcallers.known call hmem
    rw [List.length_singleton] at hlt
    exact decide_eq_true (by omega)
  have hlt : 0 < w.threads.length := by
    rw [hcallers.size]
    exact Nat.zero_lt_one
  have hprogram := hcallers.program 0 _ (List.getElem?_eq_getElem hlt)
  rw [issuedBy, hall, List.getElem?_cons_zero, Option.some_inj] at hprogram
  exact ⟨_, hprogram.symm⟩

theorem Sound.inStep {requests : List Request} {w : World} (hsound : Sound [requests] w)
    (hplain : ∀ request ∈ requests, request.Plain) : InStep requests w := by
  refine ⟨List.ext_getElem? fun i => ?_, fun i ret hret => ?_⟩
  · rw [List.getElem?_map, List.getElem?_map]
    cases hrecord : w.served[i]? with
    | none =>
        have hge := List.getElem?_eq_none_iff.mp hrecord
        rw [List.getElem?_take_eq_none hge]
        rfl
    | some record =>
        have hlt := (List.getElem?_eq_some_iff.mp hrecord).1
        obtain ⟨call, hcall, hrequest, hbytes⟩ := hsound.synced.served i record hrecord
        obtain ⟨rest, hrest⟩ := hsound.callers.issued_single
        have hithead : requests[i]? = some call.2 := by
          have hmapped : (w.issued.map Prod.snd)[i]? = some call.2 := by
            rw [List.getElem?_map, hcall]
            rfl
          rw [← hrest, List.getElem?_append_left (List.getElem?_eq_some_iff.mp hmapped).1, hmapped]
        rw [List.getElem?_take_of_lt hlt, hithead, Option.map_some, Option.map_some, hrequest,
          hbytes, (hplain _ (List.mem_of_getElem? hithead)).expected]
  · exact (hsound.replies.returned i ret hret).2.2

/-- In the run of a single thread, the calls take turns. -/
theorem run_inTurn {requests : List Request}
    (hfits : ∀ calls ∈ [requests], ∀ request ∈ calls, request.Fits) {moves : List Move} {w : World}
    (hrun : Run World.Whole (World.start [requests]) moves w) :
    Run World.InTurn (World.start [requests]) moves w := by
  induction hrun with
  | start => exact .start
  | extend prior last ih =>
      have hsound := (Sound.run ih hfits).1
      exact .extend ih ⟨last.1, last.2, hsound.callers.inTurn last.1⟩

/-- A single caller keeps in step with the server in every run with whole plain transfers. Only
so many of its steps are not interrupted, and it can be brought to an end where every request
was served and every call has returned. -/
theorem in_step (requests : List Request) (hplain : ∀ request ∈ requests, request.Plain)
    (hshort : ∀ request ∈ requests, request.Short) {moves : List Move} {w : World}
    (hrun : Run World.Whole (World.start [requests]) moves w) :
    InStep requests w ∧ moves.countP (!·.interrupted) ≤ (World.start [requests]).work ∧
      ∃ more w', Run World.Whole w more w' ∧ InStep requests w' ∧
        w'.served.length = requests.length ∧ w'.returned.length = requests.length := by
  have hfits : ∀ calls ∈ [requests], ∀ request ∈ calls, request.Fits := by
    intro calls hcalls request hrequest
    rw [List.mem_singleton.mp hcalls] at hrequest
    exact (hplain request hrequest).fits (hshort request hrequest)
  have hturns := run_inTurn hfits hrun
  obtain ⟨hsound, hwork⟩ := Sound.run hturns hfits
  obtain ⟨more, w', hmore, hfinished⟩ := hsound.finishes hfits
  have hsound' : Sound [requests] w' := hmore.invariant (Sound [requests])
    (fun _ _ _ hbefore hstep => (hbefore.step hstep hfits).1) hsound
  have hissued : w'.issued.length = requests.length := by
    have hcalls := hfinished.issued 0 requests rfl
    have hbegins := hsound'.callers.issued_single.length_le
    have hfilter := List.length_filter_le (fun call : Nat × Request => call.1 = 0) w'.issued
    rw [List.length_map] at hbegins
    rw [← hcalls, issuedBy, List.length_map] at hbegins ⊢
    omega
  exact ⟨hsound.inStep hplain, Nat.le_of_add_right_le hwork, more, w',
    hmore.mono fun w move w' hstep => ⟨hstep.1, hstep.2.1⟩, hsound'.inStep hplain,
    hfinished.served.trans hissued, hfinished.returned.trans hissued⟩

/-- The two requests, made by one thread. -/
def twoRequests : List Request := twoCallers.flatten

theorem twoRequests_plain : ∀ request ∈ twoRequests, request.Plain ∧ request.Short := by
  have hboth : ∀ request : Request, request.cmd.1.length = 1 → request.path.1.length = 1 →
      request.env = [] → request.Plain ∧ request.Short := fun request hcmd hpath henv =>
    ⟨⟨List.ne_nil_of_length_pos (by omega), List.ne_nil_of_length_pos (by omega),
      by simp [henv]⟩, ⟨by omega, by omega, by rw [henv]; decide, by simp [henv]⟩⟩
  intro request hrequest
  simp only [twoRequests, twoCallers, List.flatten_cons, List.flatten_nil, List.append_nil,
    List.cons_append, List.nil_append, List.mem_cons, List.not_mem_nil, or_false] at hrequest
  rcases hrequest with rfl | rfl
  · exact hboth _ rfl rfl rfl
  · exact hboth _ rfl rfl rfl

/-- Two calls, with transfers of single bytes and interruptions in between. -/
theorem in_step_two : ∃ moves w, Run World.Whole (World.start [twoRequests]) moves w ∧
    w.returned = [⟨0, 0, some 256⟩, ⟨0, 1, some 0⟩] ∧ InStep twoRequests w := by
  have hexec : ∃ w ∈ World.exec World.wholeInts
      (writeMoves 0 ++ serveMoves 256 ++ [.client 0 (.moved 4)] ++
        writeMoves 0 ++ serveMoves 0 ++ [.client 0 (.moved 4)]) (World.start [twoRequests]),
      w.returned = [⟨0, 0, some 256⟩, ⟨0, 1, some 0⟩] := by decide +kernel
  obtain ⟨w, hexec, hreturned⟩ := hexec
  have hrun : Run World.Whole (World.start [twoRequests]) _ w := World.run_exec hexec
  exact ⟨_, w, hrun, hreturned, (in_step twoRequests
    (fun request hmem => (twoRequests_plain request hmem).1)
    (fun request hmem => (twoRequests_plain request hmem).2) hrun).1⟩

/-- When the read of the status is interrupted, the first call returns `-1`, and the second one
returns the status of the first command. -/
theorem out_of_step : ¬ ∀ requests : List Request,
    (∀ request ∈ requests, request.Plain ∧ request.Short) → ∀ moves w,
      Run (fun w move w' => w.step move = some w') (World.start [requests]) moves w →
        InStep requests w := by
  intro hall
  have hexec : ∃ w ∈ World.exec (fun _ _ => true)
      (writeMoves 0 ++ [.client 0 .interrupted] ++ serveMoves 256 ++ writeMoves 0 ++
        [.client 0 (.moved 4)] ++ serveMoves 0) (World.start [twoRequests]),
      w.returned = [⟨0, 0, some (-1)⟩, ⟨0, 1, some 256⟩] ∧
      w.served.map Served.status = [256, 0] := by decide +kernel
  obtain ⟨w, hexec, hreturned, hstatus⟩ := hexec
  have hstep := hall twoRequests twoRequests_plain _ w
    ((World.run_exec hexec).mono fun _ _ _ hstep => hstep.1)
  obtain ⟨record, hrecord, hsame⟩ := hstep.returned 0 ⟨0, 0, some (-1)⟩ (by rw [hreturned]; rfl)
  have hfirst : (w.served.map Served.status)[0]? = some record.status := by
    rw [List.getElem?_map, hrecord]
    rfl
  rw [hstatus, ← hsame] at hfirst
  cases hfirst

end SlurmSpank.SystemSafe
