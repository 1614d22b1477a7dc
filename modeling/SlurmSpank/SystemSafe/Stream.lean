import SlurmSpank.SystemSafe.Callers

/-! # The stream of requests

What the server has consumed of a request, what is on its way and what the caller still has to
write are together the bytes of the requests that were not served. The server, wherever it is
in its reading, makes of the bytes to come what it would make of the requests from the start.
-/

namespace SlurmSpank.SystemSafe

open SlurmSpank.Foundation

namespace World

/-- What the threads still have to write. -/
def unwritten (w : World) : List UInt8 := w.threads.flatMap fun thread => thread.stage.bytes

/-- What the server still has to read. -/
def pending (w : World) : List UInt8 := w.toServer ++ w.unwritten

/-- The bytes of the requests that were not served. -/
def unserved (w : World) : List UInt8 :=
  (w.issued.drop w.served.length).flatMap fun call => call.2.bytes

end World

/-- What holds of the stream while the server reads. -/
structure Reading (w : World) (got : List UInt8) (reader : Reader UInt8 Fate) : Prop where
  total : w.consumed ++ w.pending = w.unserved
  run : ∀ tail, reader.run (got ++ (w.pending ++ tail)) =
    handleSystemRequest.run (w.unserved ++ tail)
  settled : (∃ fate, reader = .done fate ∧ got = []) ∨
    ∃ n next, reader = .block n next ∧ got.length < n

/-- What holds of the stream. -/
structure Synced (w : World) : Prop where
  fits : ∀ call ∈ w.issued, call.2.Fits
  served_le : w.served.length ≤ w.issued.length
  served : ∀ (i : Nat) (record : Served), w.served[i]? = some record →
    ∃ call : Nat × Request, w.issued[i]? = some call ∧ record.request = call.2.expected ∧
      record.bytes = call.2.bytes
  reading : ∀ got reader, w.server = .reading got reader → Reading w got reader
  replying : ∀ bytes, w.server = .replying bytes →
    w.consumed = [] ∧ w.pending = w.unserved ∧ bytes ≠ []

/-! ## What the threads still have to write -/

/-- Where one thread alone may have something to write, that is all there is. -/
theorem flatMap_of_alone {f : Thread → List UInt8} {threads : List Thread} {p : Nat}
    {thread : Thread} (hthread : threads[p]? = some thread)
    (hothers : ∀ (q : Nat) (other : Thread), q ≠ p → threads[q]? = some other → f other = []) :
    threads.flatMap f = f thread := by
  induction threads generalizing p with
  | nil => simp at hthread
  | cons first threads ih =>
      rw [List.flatMap_cons]
      cases p with
      | zero =>
          have hrest : threads.flatMap f = [] := by
            rw [List.flatMap_eq_nil_iff]
            intro other hmem
            obtain ⟨q, hq⟩ := List.mem_iff_getElem?.mp hmem
            exact hothers (q + 1) other (Nat.succ_ne_zero q) hq
          rw [List.getElem?_cons_zero, Option.some_inj] at hthread
          rw [hrest, List.append_nil, hthread]
      | succ p =>
          rw [hothers 0 first (Nat.succ_ne_zero p).symm rfl, List.nil_append]
          exact ih hthread fun q other hne hq =>
            hothers (q + 1) other (fun heq => hne (Nat.succ.inj heq)) hq

theorem flatMap_set_of_eq {f : Thread → List UInt8} {threads : List Thread} {p : Nat}
    {old changed : Thread} (hold : threads[p]? = some old) (heq : f changed = f old) :
    (threads.set p changed).flatMap f = threads.flatMap f := by
  induction threads generalizing p with
  | nil => rfl
  | cons first threads ih =>
      cases p with
      | zero =>
          rw [List.getElem?_cons_zero, Option.some_inj] at hold
          rw [List.set_cons_zero, List.flatMap_cons, List.flatMap_cons, heq, hold]
      | succ p => rw [List.set_cons_succ, List.flatMap_cons, List.flatMap_cons, ih hold]

namespace World

variable {w : World} {p : Nat} {thread : Thread}

theorem unwritten_of_quiet (hquiet : ∀ thread ∈ w.threads, thread.stage.isWriting = false) :
    w.unwritten = [] := by
  rw [unwritten, List.flatMap_eq_nil_iff]
  exact fun thread hmem => Stage.bytes_of_not_writing (hquiet thread hmem)

/-- When no other thread writes, the thread that makes a step has all there is to write. -/
theorem unwritten_setThread (hthread : w.threads[p]? = some thread)
    (hothers : ∀ (q : Nat) (other : Thread), q ≠ p → w.threads[q]? = some other →
      other.stage.isWriting = false) (calls : List Request) (stage : Stage) :
    (w.setThread p calls stage).unwritten = stage.bytes := by
  have hself : (w.setThread p calls stage).threads[p]? = some ⟨calls, stage⟩ :=
    thread_set_self hthread
  refine flatMap_of_alone hself ?_
  intro q other hne hq
  rw [setThread, thread_set_ne hne] at hq
  exact Stage.bytes_of_not_writing (hothers q other hne hq)

end World

theorem Callers.others_quiet {programs : List (List Request)} {w : World}
    (hcallers : Callers programs w) {p : Nat} {thread : Thread}
    (hthread : w.threads[p]? = some thread) (hwriting : thread.stage.isWriting = true)
    (q : Nat) (other : Thread) (hne : q ≠ p) (hother : w.threads[q]? = some other) :
    other.stage.isWriting = false := by
  cases hstage : other.stage.isWriting with
  | false => rfl
  | true => exact absurd (hcallers.alone q p other thread hother hthread hstage hwriting) hne

/-! ## Changes of the stream -/

namespace Synced

variable {w w' : World}

/-- The server starts by reading a length. -/
theorem ready_settled : ∃ n next, handleSystemRequest = .block n next ∧ 0 < n :=
  ⟨4, _, rfl, by decide⟩

theorem start (programs : List (List Request)) : Synced (World.start programs) := by
  have hquiet : (World.start programs).unwritten = [] := by
    refine World.unwritten_of_quiet fun thread hmem => ?_
    obtain ⟨calls, _, rfl⟩ := List.mem_map.mp hmem
    rfl
  have hpending : (World.start programs).pending = [] := by
    rw [World.pending, hquiet]
    rfl
  refine ⟨fun _ hmem => absurd hmem List.not_mem_nil, Nat.le_refl 0, fun i record hrecord => ?_,
    fun got reader hserver => ?_, fun bytes hserver => (by cases hserver)⟩
  · cases hrecord
  · cases hserver
    refine ⟨?_, fun tail => ?_, Or.inr ready_settled⟩
    · rw [hpending]
      rfl
    · rw [hpending]
      rfl

/-- A call adds its request to what was not served and to what is to be read. -/
theorem of_call (hsynced : Synced w) {call : Nat × Request} (hfits : call.2.Fits)
    (hserver : w'.server = w.server) (hconsumed : w'.consumed = w.consumed)
    (hissued : w'.issued = w.issued ++ [call]) (hserved : w'.served = w.served)
    (hpending : w'.pending = w.pending ++ call.2.bytes) : Synced w' := by
  have hunserved : w'.unserved = w.unserved ++ call.2.bytes := by
    rw [World.unserved, hissued, hserved, List.drop_append_of_le_length hsynced.served_le,
      List.flatMap_append, List.flatMap_singleton, World.unserved]
  refine ⟨fun other hmem => ?_, ?_, fun i record hrecord => ?_, fun got reader hreader => ?_,
    fun bytes hreply => ?_⟩
  · rw [hissued] at hmem
    rcases List.mem_append.mp hmem with hmem | hmem
    · exact hsynced.fits other hmem
    · rw [List.mem_singleton.mp hmem]
      exact hfits
  · rw [hissued, hserved, List.length_append]
    exact Nat.le_add_right_of_le hsynced.served_le
  · rw [hserved] at hrecord
    obtain ⟨other, hother, hrecord⟩ := hsynced.served i record hrecord
    have hlt := (List.getElem?_eq_some_iff.mp hother).1
    exact ⟨other, hissued ▸ (List.getElem?_append_left hlt).trans hother, hrecord⟩
  · have hreading := hsynced.reading got reader (hserver ▸ hreader)
    refine ⟨?_, fun tail => ?_, hreading.settled⟩
    · rw [hconsumed, hpending, hunserved, ← List.append_assoc, hreading.total]
    · rw [hpending, hunserved, List.append_assoc, List.append_assoc]
      exact hreading.run (call.2.bytes ++ tail)
  · obtain ⟨hnone, htotal, hne⟩ := hsynced.replying bytes (hserver ▸ hreply)
    exact ⟨hconsumed.trans hnone, by rw [hpending, hunserved, htotal], hne⟩

/-- Bytes on their way are as good as bytes to be written. -/
theorem of_same (hsynced : Synced w) (hserver : w'.server = w.server)
    (hconsumed : w'.consumed = w.consumed) (hissued : w'.issued = w.issued)
    (hserved : w'.served = w.served) (hpending : w'.pending = w.pending) : Synced w' := by
  have hunserved : w'.unserved = w.unserved := by rw [World.unserved, hissued, hserved]; rfl
  refine ⟨fun call hmem => hsynced.fits call (hissued ▸ hmem), ?_, ?_,
    fun got reader hreader => ?_, fun bytes hreply => ?_⟩
  · rw [hissued, hserved]
    exact hsynced.served_le
  · rw [hissued, hserved]
    exact hsynced.served
  · have hreading := hsynced.reading got reader (hserver ▸ hreader)
    refine ⟨?_, fun tail => ?_, hreading.settled⟩
    · rw [hconsumed, hpending, hunserved, hreading.total]
    · rw [hpending, hunserved, hreading.run]
  · obtain ⟨hnone, htotal, hne⟩ := hsynced.replying bytes (hserver ▸ hreply)
    exact ⟨hconsumed.trans hnone, by rw [hpending, hunserved, htotal], hne⟩

/-- The server collects bytes of a block. -/
theorem read (hsynced : Synced w) {got : List UInt8} {n count : Nat}
    {next : Option (List UInt8) → Reader UInt8 Fate}
    (hserver : w.server = .reading got (.block n next)) (hroom : count ≤ n - got.length)
    (hcount : count ≤ w.toServer.length) :
    Synced { w with
      server := .reading (Reader.settle (got ++ w.toServer.take count) (.block n next)).1
        (Reader.settle (got ++ w.toServer.take count) (.block n next)).2,
      toServer := w.toServer.drop count,
      consumed := w.consumed ++ w.toServer.take count } := by
  have hreading := hsynced.reading got _ hserver
  have hpending : w.pending = w.toServer.take count ++ (w.toServer.drop count ++ w.unwritten) := by
    rw [World.pending, ← List.append_assoc, List.take_append_drop]
  refine ⟨hsynced.fits, hsynced.served_le, hsynced.served, fun got' reader' hreader => ?_,
    fun bytes hreply => (by cases hreply)⟩
  cases hreader
  refine ⟨?_, fun tail => ?_, ?_⟩
  · have htotal := hreading.total
    rw [hpending, ← List.append_assoc] at htotal
    exact htotal
  · have hrun := hreading.run tail
    rw [hpending, List.append_assoc, ← List.append_assoc] at hrun
    exact (Reader.run_settle _ _ _).trans hrun
  · have hlength : (got ++ w.toServer.take count).length ≤ n := by
      rw [List.length_append, List.length_take]
      obtain ⟨fate, hdone, _⟩ | ⟨m, next', hblock, hlt⟩ := hreading.settled
      · cases hdone
      · cases hblock
        omega
    rcases Reader.settle_cases (.block n next) _ hlength with
      ⟨fate, hsettle⟩ | ⟨part, m, next', hsettle, hlt⟩
    · rw [hsettle]
      exact Or.inl ⟨fate, rfl, rfl⟩
    · rw [hsettle]
      exact Or.inr ⟨m, next', rfl, hlt⟩

/-- A server that has read a request has read the oldest one that was not served, and the bytes
of that request. -/
theorem done (hsynced : Synced w) {got : List UInt8} {fate : Fate}
    (hserver : w.server = .reading got (.done fate)) :
    ∃ call, w.issued[w.served.length]? = some call ∧ fate = .serves call.2.expected ∧
      w.consumed = call.2.bytes ∧
      w.pending = (w.issued.drop (w.served.length + 1)).flatMap fun call => call.2.bytes := by
  have hreading := hsynced.reading got _ hserver
  obtain ⟨_, _, rfl⟩ | ⟨_, _, hblock, _⟩ := hreading.settled
  · cases hdrop : w.issued.drop w.served.length with
    | nil =>
        have hrun := hreading.run []
        rw [World.unserved, hdrop] at hrun
        cases hrun
    | cons call calls =>
        have hcall : w.issued[w.served.length]? = some call := by
          rw [← List.head?_drop, hdrop]
          rfl
        have hrest : w.issued.drop (w.served.length + 1) = calls := by
          rw [← List.drop_drop, hdrop]
          rfl
        have hunserved : w.unserved = call.2.bytes ++ calls.flatMap fun call => call.2.bytes := by
          rw [World.unserved, hdrop, List.flatMap_cons]
        have hrun := hreading.run []
        rw [hunserved, List.append_assoc,
          (hsynced.fits call (List.mem_of_getElem? hcall)).run, List.append_nil, List.append_nil,
          List.nil_append, Reader.run, Option.some.injEq, Prod.mk.injEq] at hrun
        have htotal := hreading.total
        rw [hunserved, hrun.2] at htotal
        exact ⟨call, hcall, hrun.1, List.append_cancel_right htotal, hrest ▸ hrun.2⟩
  · cases hblock

/-- The server runs the command of the oldest request that was not served. -/
theorem executed (hsynced : Synced w) {got : List UInt8} {request : Request} {status : Int}
    (hserver : w.server = .reading got (.done (.serves request))) :
    Synced { w with
      server := .replying (intBytes status),
      consumed := [],
      served := w.served ++ [⟨request, w.consumed, status⟩] } := by
  obtain ⟨call, hcall, hfate, hconsumed, hpending⟩ := hsynced.done hserver
  have hlt := (List.getElem?_eq_some_iff.mp hcall).1
  refine ⟨hsynced.fits, ?_, fun i record hrecord => ?_,
    fun got reader hreader => (by cases hreader), fun bytes hreply => ⟨rfl, ?_, ?_⟩⟩
  · rw [List.length_append]
    exact hlt
  · simp only [List.getElem?_append] at hrecord
    split at hrecord
    next => exact hsynced.served i record hrecord
    next hge =>
      rw [List.getElem?_singleton] at hrecord
      split at hrecord
      next hzero =>
        have hi : i = w.served.length := by omega
        cases hrecord
        cases hfate
        exact ⟨call, hi ▸ hcall, rfl, hconsumed⟩
      next => cases hrecord
  · rw [World.unserved, List.length_append]
    exact hpending
  · cases hreply
    exact List.ne_nil_of_length_pos (by rw [intBytes_length]; decide)

/-- The server writes a status, and starts again behind it. -/
theorem replied (hsynced : Synced w) {bytes : List UInt8} {count : Nat}
    (hserver : w.server = .replying bytes) (hcount : count ≤ bytes.length) :
    Synced { w with
      server := if count = bytes.length then .ready else .replying (bytes.drop count),
      toClient := w.toClient ++ bytes.take count } := by
  obtain ⟨hnone, htotal, _⟩ := hsynced.replying bytes hserver
  refine ⟨hsynced.fits, hsynced.served_le, hsynced.served, fun got reader hreader => ?_,
    fun left hreply => ⟨hnone, htotal, ?_⟩⟩
  · simp only at hreader
    split at hreader
    next =>
      cases hreader
      refine ⟨?_, fun tail => ?_, Or.inr ready_settled⟩
      · rw [hnone]
        exact htotal
      · exact congrArg (fun front => handleSystemRequest.run (front ++ tail)) htotal
    next => cases hreader
  · simp only at hreply
    split at hreply
    next => cases hreply
    next hne =>
      cases hreply
      exact List.ne_nil_of_length_pos (by rw [List.length_drop]; omega)

/-- Every change keeps the stream in step. -/
theorem change {programs : List (List Request)} (hsynced : Synced w)
    (hcallers : Callers programs w) (hchange : Change w w')
    (hfits : ∀ calls ∈ programs, ∀ request ∈ calls, request.Fits) : Synced w' := by
  cases hchange with
  | @called p request calls messages hthread hsystem hquiet =>
      have hprogram := hcallers.program _ _ hthread
      have hrequest := hfits _ (List.mem_of_getElem? hprogram) _
        (List.mem_append_right _ List.mem_cons_self)
      obtain ⟨messages', hsends, hbytes⟩ := hrequest.sends
      rw [hsystem] at hsends
      cases hsends
      have hwritten : (w.setThread p calls (.next w.issued.length messages)).unwritten =
          request.bytes := by
        rw [World.unwritten_setThread hthread
          (fun q other _ hother => hquiet other (List.mem_of_getElem? hother)) calls,
          Stage.next_bytes, hbytes]
      refine hsynced.of_call hrequest rfl rfl rfl rfl ?_
      rw [World.pending, World.pending, World.unwritten_of_quiet hquiet, List.append_nil]
      exact congrArg (w.toServer ++ ·) hwritten
  | crashed hthread hsystem => exact hsynced.of_same rfl rfl rfl rfl rfl
  | @wrote p calls ticket messages rest front hthread hfront hsplit hints =>
      have hquiet := hcallers.others_quiet hthread rfl
      have hbefore : w.unwritten = front ++ rest.flatMap Sending.bytes := by
        refine (flatMap_of_alone hthread fun q other hne hother => ?_).trans hsplit
        exact Stage.bytes_of_not_writing (hquiet q other hne hother)
      have hafter : (w.setThread p calls (.next ticket rest)).unwritten =
          rest.flatMap Sending.bytes := by
        rw [World.unwritten_setThread hthread hquiet calls, Stage.next_bytes]
      refine hsynced.of_same rfl rfl rfl rfl ?_
      rw [World.pending, World.pending, hbefore, ← List.append_assoc]
      exact congrArg (w.toServer ++ front ++ ·) hafter
  | returned hthread hfour =>
      refine hsynced.of_same rfl rfl rfl rfl ?_
      exact congrArg (w.toServer ++ ·) (flatMap_set_of_eq hthread rfl)
  | read hserver hpos hroom hcount => exact hsynced.read hserver hroom hcount
  | executed hserver hlow hhigh => exact hsynced.executed hserver
  | replied hserver hpos hcount => exact hsynced.replied hserver hcount

end Synced

end SlurmSpank.SystemSafe
