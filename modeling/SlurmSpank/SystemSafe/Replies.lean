import SlurmSpank.SystemSafe.Stream

/-! # The statuses on their way back

The statuses of the commands that were run and whose calls have not returned are on their way
in order. A call that reads in its turn gets the status of its own command.
-/

namespace SlurmSpank.SystemSafe

open SlurmSpank.Foundation

/-- What the server still has to write of a status. -/
def Server.reply : Server → List UInt8
  | .replying bytes => bytes
  | .reading _ _ => []

/-- What was written of a status and what is left of it are the status. -/
theorem Server.take_append_reply (bytes : List UInt8) (count : Nat) :
    bytes.take count ++ (if count = bytes.length then Server.ready
      else .replying (bytes.drop count)).reply = bytes := by
  by_cases heq : count = bytes.length
  · rw [if_pos heq, heq, List.take_length]
    exact List.append_nil bytes
  · rw [if_neg heq]
    exact List.take_append_drop count bytes

/-- What holds of the statuses. -/
structure Replies (w : World) : Prop where
  returned_le : w.returned.length ≤ w.served.length
  range : ∀ record ∈ w.served, -0x80000000 ≤ record.status ∧ record.status < 0x80000000
  pending : w.toClient ++ w.server.reply =
    (w.served.drop w.returned.length).flatMap fun record => intBytes record.status
  returned : ∀ (i : Nat) (ret : Returned), w.returned[i]? = some ret → ret.ticket = i ∧
    (∃ request, w.issued[i]? = some (ret.thread, request)) ∧
      ∃ record : Served, w.served[i]? = some record ∧ ret.status = some record.status

namespace Replies

variable {w w' : World}

theorem start (programs : List (List Request)) : Replies (World.start programs) where
  returned_le := Nat.le_refl 0
  range _ hmem := absurd hmem List.not_mem_nil
  pending := rfl
  returned i ret hret := by cases hret

/-- A change that leaves the statuses and the records of the server and adds calls. -/
theorem of_same (hreplies : Replies w) (hreturned : w'.returned = w.returned)
    (hserved : w'.served = w.served)
    (hpending : w'.toClient ++ w'.server.reply = w.toClient ++ w.server.reply)
    (hissued : ∃ more, w'.issued = w.issued ++ more) : Replies w' where
  returned_le := by
    rw [hreturned, hserved]
    exact hreplies.returned_le
  range := by
    rw [hserved]
    exact hreplies.range
  pending := by
    rw [hpending, hreturned, hserved]
    exact hreplies.pending
  returned i ret hret := by
    rw [hreturned] at hret
    obtain ⟨hticket, ⟨request, hrequest⟩, hrecord⟩ := hreplies.returned i ret hret
    obtain ⟨more, hmore⟩ := hissued
    have hlt := (List.getElem?_eq_some_iff.mp hrequest).1
    exact ⟨hticket, ⟨request, hmore ▸ (List.getElem?_append_left hlt).trans hrequest⟩,
      hserved ▸ hrecord⟩

/-- With a status to read, the oldest call that did not return has been served, and the first
four bytes are its status. -/
theorem first (hreplies : Replies w) (hfour : 4 ≤ w.toClient.length) :
    ∃ record : Served, w.served[w.returned.length]? = some record ∧
      w.toClient.take 4 = intBytes record.status ∧
      w.toClient.drop 4 ++ w.server.reply =
        (w.served.drop (w.returned.length + 1)).flatMap fun record => intBytes record.status := by
  have hpending := hreplies.pending
  cases hdrop : w.served.drop w.returned.length with
  | nil =>
      rw [hdrop, List.flatMap_nil, List.append_eq_nil_iff] at hpending
      rw [hpending.1] at hfour
      exact absurd hfour (by decide)
  | cons record rest =>
      have hrecord : w.served[w.returned.length]? = some record := by
        rw [← List.head?_drop, hdrop]
        rfl
      have hrest : w.served.drop (w.returned.length + 1) = rest := by
        rw [← List.drop_drop, hdrop]
        rfl
      rw [hdrop, List.flatMap_cons, ← List.take_append_drop 4 w.toClient,
        List.append_assoc] at hpending
      have hlength : (w.toClient.take 4).length = (intBytes record.status).length := by
        rw [List.length_take, intBytes_length]
        omega
      obtain ⟨htake, hdropped⟩ := List.append_inj hpending hlength
      exact ⟨record, hrecord, htake, hrest ▸ hdropped⟩

theorem returns {programs : List (List Request)} (hreplies : Replies w)
    (hcallers : Callers programs w) {p : Nat} {calls : List Request}
    (hthread : w.threads[p]? = some ⟨calls, .waiting w.returned.length⟩)
    (hfour : 4 ≤ w.toClient.length) :
    Replies { w.setThread p calls .idle with
      toClient := w.toClient.drop 4,
      returned := w.returned ++
        [⟨p, w.returned.length, some (intOfBytes (w.toClient.take 4))⟩] } := by
  obtain ⟨record, hrecord, htake, hdropped⟩ := hreplies.first hfour
  obtain ⟨_, request, hissued⟩ := hcallers.ticket p _ _ hthread rfl
  refine ⟨?_, hreplies.range, ?_, fun i ret hret => ?_⟩
  · rw [List.length_append]
    exact (List.getElem?_eq_some_iff.mp hrecord).1
  · rw [List.length_append]
    exact hdropped
  · simp only [List.getElem?_append] at hret
    split at hret
    next => exact hreplies.returned i ret hret
    next hge =>
      rw [List.getElem?_singleton] at hret
      split at hret
      next hzero =>
        have hi : i = w.returned.length := by omega
        cases hret
        obtain ⟨hlow, hhigh⟩ := hreplies.range record (List.mem_of_getElem? hrecord)
        refine ⟨hi.symm, ⟨request, hi ▸ hissued⟩, record, hi ▸ hrecord, ?_⟩
        rw [htake, intOfBytes_intBytes hlow hhigh]
      next => cases hret

theorem executed (hreplies : Replies w) {got : List UInt8} {request : Request} {status : Int}
    (hserver : w.server = .reading got (.done (.serves request)))
    (hlow : -0x80000000 ≤ status) (hhigh : status < 0x80000000) :
    Replies { w with
      server := .replying (intBytes status),
      consumed := [],
      served := w.served ++ [⟨request, w.consumed, status⟩] } := by
  refine ⟨?_, fun record hmem => ?_, ?_, fun i ret hret => ?_⟩
  · rw [List.length_append]
    exact Nat.le_add_right_of_le hreplies.returned_le
  · rcases List.mem_append.mp hmem with hmem | hmem
    · exact hreplies.range record hmem
    · rw [List.mem_singleton.mp hmem]
      exact ⟨hlow, hhigh⟩
  · have hpending := hreplies.pending
    rw [hserver, Server.reply, List.append_nil] at hpending
    rw [List.drop_append_of_le_length hreplies.returned_le, List.flatMap_append,
      List.flatMap_singleton, hpending]
    rfl
  · obtain ⟨hticket, hissued, record, hrecord, hstatus⟩ := hreplies.returned i ret hret
    have hlt := (List.getElem?_eq_some_iff.mp hrecord).1
    exact ⟨hticket, hissued, record, (List.getElem?_append_left hlt).trans hrecord, hstatus⟩

/-- Every change keeps the statuses in order. -/
theorem change {programs : List (List Request)} (hreplies : Replies w)
    (hcallers : Callers programs w) (hchange : Change w w') : Replies w' := by
  cases hchange with
  | called hthread hsystem hquiet => exact hreplies.of_same rfl rfl rfl ⟨_, rfl⟩
  | crashed hthread hsystem =>
      exact hreplies.of_same rfl rfl rfl ⟨[], (List.append_nil _).symm⟩
  | wrote hthread hfront hsplit hints =>
      exact hreplies.of_same rfl rfl rfl ⟨[], (List.append_nil _).symm⟩
  | returned hthread hfour => exact hreplies.returns hcallers hthread hfour
  | read hserver hpos hroom hcount =>
      refine hreplies.of_same rfl rfl ?_ ⟨[], (List.append_nil _).symm⟩
      rw [hserver]
      rfl
  | executed hserver hlow hhigh => exact hreplies.executed hserver hlow hhigh
  | @replied bytes count hserver hpos hcount =>
      refine hreplies.of_same rfl rfl ?_ ⟨[], (List.append_nil _).symm⟩
      rw [hserver, List.append_assoc, Server.take_append_reply]
      rfl

end Replies

end SlurmSpank.SystemSafe
