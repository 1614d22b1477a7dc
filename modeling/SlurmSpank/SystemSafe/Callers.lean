import SlurmSpank.SystemSafe.Change
import SlurmSpank.SystemSafe.Delivery

/-! # The callers keep their turns

Each thread makes the calls of its program in order, at most one thread is in the middle of a
request, and every call that has begun and not returned is the call of one thread.
-/

namespace SlurmSpank.SystemSafe

open SlurmSpank.Foundation

/-- The requests that thread `p` began. -/
def issuedBy (p : Nat) (issued : List (Nat × Request)) : List Request :=
  (issued.filter fun call => call.1 = p).map Prod.snd

/-- What holds of the threads and the records of their calls. -/
structure Callers (programs : List (List Request)) (w : World) : Prop where
  alive : w.crashed = false
  size : w.threads.length = programs.length
  program : ∀ (p : Nat) (thread : Thread), w.threads[p]? = some thread →
    programs[p]? = some (issuedBy p w.issued ++ thread.calls)
  alone : ∀ (p q : Nat) (thread other : Thread), w.threads[p]? = some thread →
    w.threads[q]? = some other → thread.stage.isWriting = true →
    other.stage.isWriting = true → p = q
  proper : ∀ (p : Nat) (thread : Thread), w.threads[p]? = some thread → thread.stage.Proper
  ticket : ∀ (p : Nat) (thread : Thread) (k : Nat), w.threads[p]? = some thread →
    thread.stage.ticket = some k →
    w.returned.length ≤ k ∧ ∃ request, w.issued[k]? = some (p, request)
  pending : ∀ k, w.returned.length ≤ k → k < w.issued.length →
    ∃ (p : Nat) (thread : Thread), w.threads[p]? = some thread ∧ thread.stage.ticket = some k
  returned_le : w.returned.length ≤ w.issued.length
  known : ∀ call ∈ w.issued, call.1 < programs.length

theorem issuedBy_append (p q : Nat) (issued : List (Nat × Request)) (request : Request) :
    issuedBy p (issued ++ [(q, request)]) =
      issuedBy p issued ++ (if q = p then [request] else []) := by
  rw [issuedBy, List.filter_append, List.map_append, ← issuedBy]
  split
  next heq => simp [heq]
  next hne => simp [hne]

theorem thread_of_set {threads : List Thread} {p q : Nat} {changed thread : Thread}
    (hthread : (threads.set p changed)[q]? = some thread) :
    (q = p ∧ thread = changed) ∨ (q ≠ p ∧ threads[q]? = some thread) := by
  rw [List.getElem?_set] at hthread
  split at hthread
  next heq =>
    split at hthread
    next => exact Or.inl ⟨heq.symm, (Option.some_inj.mp hthread).symm⟩
    next => cases hthread
  next hne => exact Or.inr ⟨fun heq => hne heq.symm, hthread⟩

theorem thread_set_self {threads : List Thread} {p : Nat} {old changed : Thread}
    (hold : threads[p]? = some old) : (threads.set p changed)[p]? = some changed := by
  rw [List.getElem?_set_self (List.getElem?_eq_some_iff.mp hold).1]

theorem thread_set_ne {threads : List Thread} {p q : Nat} (hne : q ≠ p) (changed : Thread) :
    (threads.set p changed)[q]? = threads[q]? :=
  List.getElem?_set_ne (Ne.symm hne)

namespace Callers

variable {programs : List (List Request)} {w : World}

theorem start (programs : List (List Request)) : Callers programs (World.start programs) := by
  have hidle : ∀ (p : Nat) (thread : Thread),
      (World.start programs).threads[p]? = some thread →
      programs[p]? = some thread.calls ∧ thread.stage = .idle := by
    intro p thread hthread
    rw [World.start, List.getElem?_map, Option.map_eq_some_iff] at hthread
    obtain ⟨calls, hcalls, rfl⟩ := hthread
    exact ⟨hcalls, rfl⟩
  refine ⟨rfl, List.length_map _, fun p thread hthread => (hidle p thread hthread).1, ?_, ?_, ?_,
    fun k _ hlt => absurd hlt (Nat.not_lt_zero k), Nat.le_refl 0,
    fun call hmem => absurd hmem List.not_mem_nil⟩
  · intro p q thread other hthread _ hwriting _
    rw [(hidle p thread hthread).2] at hwriting
    cases hwriting
  · intro p thread hthread
    rw [(hidle p thread hthread).2]
    trivial
  · intro p thread k hthread hticket
    rw [(hidle p thread hthread).2] at hticket
    cases hticket

/-- A step of the server leaves the threads and the records of the calls. -/
theorem of_server {w' : World} (hcallers : Callers programs w) (hthreads : w'.threads = w.threads)
    (hcrashed : w'.crashed = w.crashed) (hissued : w'.issued = w.issued)
    (hreturned : w'.returned = w.returned) : Callers programs w' where
  alive := hcrashed.trans hcallers.alive
  size := hthreads ▸ hcallers.size
  program p thread hthread := by
    rw [hissued]
    exact hcallers.program p thread (hthreads ▸ hthread)
  alone p q thread other hthread hother :=
    hcallers.alone p q thread other (hthreads ▸ hthread) (hthreads ▸ hother)
  proper p thread hthread := hcallers.proper p thread (hthreads ▸ hthread)
  ticket p thread k hthread := by
    rw [hissued, hreturned]
    exact hcallers.ticket p thread k (hthreads ▸ hthread)
  pending k := by
    rw [hissued, hreturned, hthreads]
    exact hcallers.pending k
  returned_le := by
    rw [hissued, hreturned]
    exact hcallers.returned_le
  known := by
    rw [hissued]
    exact hcallers.known

theorem called (hcallers : Callers programs w) {p : Nat} {request : Request}
    {calls : List Request} {messages : List Sending}
    (hthread : w.threads[p]? = some ⟨request :: calls, .idle⟩) (hints : IntWrites messages)
    (hquiet : ∀ thread ∈ w.threads, thread.stage.isWriting = false) :
    Callers programs { w.setThread p calls (.next w.issued.length messages) with
      issued := w.issued ++ [(p, request)] } := by
  constructor
  case alive => exact hcallers.alive
  case size => exact (List.length_set ..).trans hcallers.size
  case program =>
    intro q thread hq
    simp only [issuedBy_append]
    rcases thread_of_set hq with ⟨rfl, rfl⟩ | ⟨hne, hq⟩
    · rw [if_pos rfl, List.append_assoc, List.singleton_append]
      exact hcallers.program q _ hthread
    · rw [if_neg (Ne.symm hne), List.append_nil]
      exact hcallers.program q thread hq
  -- No other thread is writing when a call begins.
  case alone =>
    intro q r thread other hq hr hthread hother
    rcases thread_of_set hq with ⟨rfl, rfl⟩ | ⟨hqp, hq⟩
    · rcases thread_of_set hr with ⟨rfl, rfl⟩ | ⟨hrp, hr⟩
      · rfl
      · rw [hquiet other (List.mem_of_getElem? hr)] at hother
        cases hother
    · rw [hquiet thread (List.mem_of_getElem? hq)] at hthread
      cases hthread
  case proper =>
    intro q thread hq
    rcases thread_of_set hq with ⟨rfl, rfl⟩ | ⟨hqp, hq⟩
    · exact Stage.next_proper _ hints
    · exact hcallers.proper q thread hq
  case ticket =>
    intro q thread k hq hticket
    rcases thread_of_set hq with ⟨rfl, rfl⟩ | ⟨hqp, hq⟩
    · rw [Stage.next_ticket, Option.some_inj] at hticket
      subst hticket
      exact ⟨hcallers.returned_le, request, List.getElem?_concat_length⟩
    · obtain ⟨hle, issued, hissued⟩ := hcallers.ticket q thread k hq hticket
      have hlt : k < w.issued.length := (List.getElem?_eq_some_iff.mp hissued).1
      exact ⟨hle, issued, (List.getElem?_append_left hlt).trans hissued⟩
  case pending =>
    intro k hle hlt
    simp only [List.length_append, List.length_singleton] at hlt
    rcases Nat.lt_succ_iff_lt_or_eq.mp hlt with hlt | rfl
    · obtain ⟨q, thread, hq, hticket⟩ := hcallers.pending k hle hlt
      have hne : q ≠ p := by
        rintro rfl
        rw [hthread, Option.some_inj] at hq
        subst hq
        cases hticket
      exact ⟨q, thread, (thread_set_ne hne _).trans hq, hticket⟩
    · exact ⟨p, _, thread_set_self hthread, Stage.next_ticket _ _⟩
  case returned_le =>
    simp only [List.length_append]
    exact Nat.le_add_right_of_le hcallers.returned_le
  case known =>
    intro call hmem
    rcases List.mem_append.mp hmem with hmem | hmem
    · exact hcallers.known call hmem
    · rw [List.mem_singleton.mp hmem, ← hcallers.size]
      exact (List.getElem?_eq_some_iff.mp hthread).1

theorem wrote (hcallers : Callers programs w) {p : Nat} {calls : List Request} {ticket : Nat}
    {messages rest : List Sending} (toServer : List UInt8)
    (hthread : w.threads[p]? = some ⟨calls, .writing ticket messages⟩)
    (hints : IntWrites messages → IntWrites rest) :
    Callers programs { w.setThread p calls (.next ticket rest) with toServer := toServer } := by
  constructor
  case alive => exact hcallers.alive
  case size => exact (List.length_set ..).trans hcallers.size
  case program =>
    intro q thread hq
    rcases thread_of_set hq with ⟨rfl, rfl⟩ | ⟨hne, hq⟩
    · exact hcallers.program q ⟨calls, .writing ticket messages⟩ hthread
    · exact hcallers.program q thread hq
  case alone =>
    intro q r thread other hq hr hthread' hother
    rcases thread_of_set hq with ⟨rfl, rfl⟩ | ⟨hqp, hq'⟩
    · rcases thread_of_set hr with ⟨rfl, rfl⟩ | ⟨hrp, hr'⟩
      · rfl
      · exact hcallers.alone q r _ other hthread hr' rfl hother
    · rcases thread_of_set hr with ⟨rfl, rfl⟩ | ⟨hrp, hr'⟩
      · exact hcallers.alone q r thread _ hq' hthread hthread' rfl
      · exact hcallers.alone q r thread other hq' hr' hthread' hother
  case proper =>
    intro q thread hq
    rcases thread_of_set hq with ⟨rfl, rfl⟩ | ⟨hqp, hq⟩
    · exact Stage.next_proper _ (hints (hcallers.proper q _ hthread).1)
    · exact hcallers.proper q thread hq
  case ticket =>
    intro q thread k hq hticket
    rcases thread_of_set hq with ⟨rfl, rfl⟩ | ⟨hqp, hq⟩
    · rw [Stage.next_ticket] at hticket
      exact hcallers.ticket q _ k hthread hticket
    · exact hcallers.ticket q thread k hq hticket
  case pending =>
    intro k hle hlt
    obtain ⟨q, thread, hq, hticket⟩ := hcallers.pending k hle hlt
    by_cases hqp : q = p
    · subst hqp
      rw [hthread, Option.some_inj] at hq
      subst hq
      exact ⟨q, _, thread_set_self hthread, (Stage.next_ticket _ _).trans hticket⟩
    · exact ⟨q, thread, (thread_set_ne hqp _).trans hq, hticket⟩
  case returned_le => exact hcallers.returned_le
  case known => exact hcallers.known

theorem returned (hcallers : Callers programs w) {p : Nat} {calls : List Request}
    (toClient : List UInt8) (status : Option Int)
    (hthread : w.threads[p]? = some ⟨calls, .waiting w.returned.length⟩) :
    Callers programs { w.setThread p calls .idle with
      toClient := toClient,
      returned := w.returned ++ [⟨p, w.returned.length, status⟩] } := by
  constructor
  case alive => exact hcallers.alive
  case size => exact (List.length_set ..).trans hcallers.size
  case program =>
    intro q thread hq
    rcases thread_of_set hq with ⟨rfl, rfl⟩ | ⟨hne, hq⟩
    · exact hcallers.program q ⟨calls, .waiting w.returned.length⟩ hthread
    · exact hcallers.program q thread hq
  case alone =>
    intro q r thread other hq hr hthread' hother
    rcases thread_of_set hq with ⟨rfl, rfl⟩ | ⟨hqp, hq⟩
    · cases hthread'
    · rcases thread_of_set hr with ⟨rfl, rfl⟩ | ⟨hrp, hr⟩
      · cases hother
      · exact hcallers.alone q r thread other hq hr hthread' hother
  case proper =>
    intro q thread hq
    rcases thread_of_set hq with ⟨rfl, rfl⟩ | ⟨hqp, hq⟩
    · trivial
    · exact hcallers.proper q thread hq
  case ticket =>
    intro q thread k hq hticket
    rcases thread_of_set hq with ⟨rfl, rfl⟩ | ⟨hqp, hq⟩
    · cases hticket
    · obtain ⟨hle, request, hissued⟩ := hcallers.ticket q thread k hq hticket
      -- the ticket of the call that returns is the one of its thread alone
      have hne : k ≠ w.returned.length := by
        rintro rfl
        obtain ⟨_, other, hother⟩ := hcallers.ticket p _ _ hthread rfl
        rw [hissued, Option.some_inj, Prod.mk.injEq] at hother
        exact hqp hother.1
      refine ⟨?_, request, hissued⟩
      simp only [List.length_append, List.length_singleton]
      omega
  case pending =>
    intro k hle hlt
    simp only [List.length_append, List.length_singleton] at hle
    obtain ⟨q, thread, hq, hticket⟩ := hcallers.pending k (by omega) hlt
    have hne : q ≠ p := by
      rintro rfl
      rw [hthread, Option.some_inj] at hq
      subst hq
      cases hticket
      omega
    exact ⟨q, thread, (thread_set_ne hne _).trans hq, hticket⟩
  case returned_le =>
    obtain ⟨_, request, hissued⟩ := hcallers.ticket p _ _ hthread rfl
    have hlt := (List.getElem?_eq_some_iff.mp hissued).1
    rw [List.length_append]
    exact hlt
  case known => exact hcallers.known

/-- The requests of the programs fit, so that no call of theirs crashes the process. -/
theorem change {w' : World} (hcallers : Callers programs w) (hchange : Change w w')
    (hfits : ∀ calls ∈ programs, ∀ request ∈ calls, request.Fits) : Callers programs w' := by
  cases hchange with
  | called hthread hsystem hquiet =>
      exact hcallers.called hthread (system_intWrites hsystem) hquiet
  | crashed hthread hsystem =>
      have hprogram := hcallers.program _ _ hthread
      have hrequest := hfits _ (List.mem_of_getElem? hprogram) _
        (List.mem_append_right _ List.mem_cons_self)
      obtain ⟨messages, hsends, _⟩ := hrequest.sends
      rw [hsystem] at hsends
      cases hsends
  | wrote hthread hfront hsplit hints => exact hcallers.wrote _ hthread hints
  | returned hthread hfour => exact hcallers.returned _ _ hthread
  | read hserver hpos hroom hcount => exact hcallers.of_server rfl rfl rfl rfl
  | executed hserver hlow hhigh => exact hcallers.of_server rfl rfl rfl rfl
  | replied hserver hpos hcount => exact hcallers.of_server rfl rfl rfl rfl

end Callers

end SlurmSpank.SystemSafe
