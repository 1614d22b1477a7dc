import SlurmSpank.Foundation.Run
import SlurmSpank.SystemSafe.Wire

/-! # Callers and the server on one socket

The threads of a process call `system`; the server reads their requests from the other end of
the socket, runs the commands and writes the statuses. A transfer moves any positive number of
bytes that can be moved, or is interrupted; the steps of the threads and of the server come in
any order. What was asked for, served and returned is recorded; a call is known by its place in
the order in which the calls began.
-/

namespace SlurmSpank.SystemSafe

open SlurmSpank.Foundation

/-- Where a thread is: outside, with transfers to make, or waiting for the status. -/
inductive Stage where
  | idle
  | writing (ticket : Nat) (messages : List Sending)
  | waiting (ticket : Nat)
  deriving DecidableEq

/-- A thread, with the calls it is going to make. -/
structure Thread where
  calls : List Request
  stage : Stage
  deriving DecidableEq

/-- Where the server is: in a block it reads, or in the status it writes. -/
inductive Server where
  | reading (got : List UInt8) (reader : Reader UInt8 Fate)
  | replying (bytes : List UInt8)

/-- A command that was run, the bytes it was read from, and its status. -/
structure Served where
  request : Request
  bytes : List UInt8
  status : Int
  deriving DecidableEq

/-- What a call returned; a status that was not read whole has no value. -/
structure Returned where
  thread : Nat
  ticket : Nat
  status : Option Int
  deriving DecidableEq

/-- The process, the server, and the bytes on their way in both directions. -/
structure World where
  threads : List Thread
  crashed : Bool
  server : Server
  toServer : List UInt8
  toClient : List UInt8
  consumed : List UInt8
  issued : List (Nat × Request)
  served : List Served
  returned : List Returned

/-- What the kernel makes of one `read` or `write`. -/
inductive Outcome where
  | interrupted
  | moved (count : Nat)
  deriving DecidableEq

inductive Move where
  | call (p : Nat)
  | client (p : Nat) (outcome : Outcome)
  | server (outcome : Outcome)
  | execute (status : Int)
  deriving DecidableEq

/-- The kernel interrupted the transfer. -/
def Move.interrupted : Move → Bool
  | .client _ outcome => outcome = .interrupted
  | .server outcome => outcome = .interrupted
  | _ => false

/-- `write_n` is done with a message when nothing is left of it. -/
def Stage.next (ticket : Nat) : List Sending → Stage
  | [] => .waiting ticket
  | .writeN [] :: rest => next ticket rest
  | message :: rest => .writing ticket (message :: rest)

def Stage.isWriting : Stage → Bool
  | .writing _ _ => true
  | _ => false

/-- The server at the start of a request. -/
def Server.ready : Server := .reading [] handleSystemRequest

namespace World

variable (w : World)

/-- Thread `p` goes on with `stage`. -/
def setThread (p : Nat) (calls : List Request) (stage : Stage) : World :=
  { w with threads := w.threads.set p ⟨calls, stage⟩ }

/-- A thread enters `system`. -/
def call (p : Nat) : Option World :=
  match w.threads[p]? with
  | some ⟨request :: calls, .idle⟩ =>
      match system (some request.cmd) request.path request.env with
      | .returns _ => some (w.setThread p calls .idle)
      | .crashes => some { w with crashed := true }
      | .sends messages =>
          some { w.setThread p calls (.next w.issued.length messages) with
            issued := w.issued ++ [(p, request)] }
  | _ => none

/-- A thread makes one `read` or `write`. -/
def transfer (p : Nat) (outcome : Outcome) : Option World :=
  match w.threads[p]? with
  | some ⟨calls, .writing ticket (.writeN bytes :: rest)⟩ =>
      match outcome with
      | .interrupted => some w
      | .moved count =>
          if 0 < count ∧ count ≤ bytes.length then
            some { w.setThread p calls (.next ticket (.writeN (bytes.drop count) :: rest)) with
              toServer := w.toServer ++ bytes.take count }
          else none
  | some ⟨calls, .writing ticket (.write bytes :: rest)⟩ =>
      match outcome with
      | .interrupted => some (w.setThread p calls (.next ticket rest))
      | .moved count =>
          if 0 < count ∧ count ≤ bytes.length then
            some { w.setThread p calls (.next ticket rest) with
              toServer := w.toServer ++ bytes.take count }
          else none
  | some ⟨calls, .waiting ticket⟩ =>
      match outcome with
      | .interrupted =>
          some { w.setThread p calls .idle with
            returned := w.returned ++ [⟨p, ticket, some (-1)⟩] }
      | .moved count =>
          if 0 < count ∧ count ≤ 4 ∧ count ≤ w.toClient.length then
            let status := if count = 4 then some (intOfBytes (w.toClient.take 4)) else none
            some { w.setThread p calls .idle with
              toClient := w.toClient.drop count,
              returned := w.returned ++ [⟨p, ticket, status⟩] }
          else none
  | _ => none

/-- The server makes one `read` or `write`. It starts again behind a status. -/
def serverTransfer (outcome : Outcome) : Option World :=
  match w.server, outcome with
  | .reading _ (.done _), _ => none
  | _, .interrupted => some w
  | .reading got (.block n next), .moved count =>
      if 0 < count ∧ count ≤ n - got.length ∧ count ≤ w.toServer.length then
        let settled := Reader.settle (got ++ w.toServer.take count) (.block n next)
        some { w with
          server := .reading settled.1 settled.2,
          toServer := w.toServer.drop count,
          consumed := w.consumed ++ w.toServer.take count }
      else none
  | .replying bytes, .moved count =>
      if 0 < count ∧ count ≤ bytes.length then
        some { w with
          server := if count = bytes.length then .ready else .replying (bytes.drop count),
          toClient := w.toClient ++ bytes.take count }
      else none

/-- The server runs the command it has read, which has some status. -/
def execute (status : Int) : Option World :=
  match w.server with
  | .reading _ (.done (.serves request)) =>
      if -0x80000000 ≤ status ∧ status < 0x80000000 then
        some { w with
          server := .replying (intBytes status),
          consumed := [],
          served := w.served ++ [⟨request, w.consumed, status⟩] }
      else none
  | _ => none

/-- One step. A process that crashed makes none. -/
def step : Move → Option World
  | .call p => if w.crashed then none else w.call p
  | .client p outcome => if w.crashed then none else w.transfer p outcome
  | .server outcome => w.serverTransfer outcome
  | .execute status => w.execute status

/-- Threads that are going to make their calls, and a server that waits for them. -/
def start (programs : List (List Request)) : World :=
  ⟨programs.map (⟨·, .idle⟩), false, .ready, [], [], [], [], [], []⟩

/-- The plain `write` of the count and the plain `read` of the status move all four bytes. -/
def wholeInts : Move → Bool
  | .client p outcome =>
      match w.threads[p]? with
      | some ⟨_, .writing _ (.write bytes :: _)⟩ => outcome = .moved bytes.length
      | some ⟨_, .waiting _⟩ => outcome = .moved 4
      | _ => true
  | _ => true

/-- A call begins when no request is being written, and a status is read when every call that
began before has returned. -/
def inTurn : Move → Bool
  | .call _ => w.threads.all fun thread => !thread.stage.isWriting
  | .client p _ =>
      match w.threads[p]? with
      | some ⟨_, .waiting ticket⟩ => ticket = w.returned.length
      | _ => true
  | _ => true

/-- The steps of a run of moves that are all allowed. -/
def exec (allowed : World → Move → Bool) : List Move → World → Option World
  | [], w => some w
  | move :: moves, w => if allowed w move then (w.step move).bind (exec allowed moves) else none

/-- What is computed is a run. -/
theorem run_exec {allowed : World → Move → Bool} {moves : List Move} {w w' : World}
    (hexec : exec allowed moves w = some w') :
    Run (fun w move w' => w.step move = some w' ∧ allowed w move = true) w moves w' := by
  induction moves generalizing w with
  | nil =>
      cases hexec
      exact .start
  | cons move moves ih =>
      unfold exec at hexec
      split at hexec
      next hallowed =>
        obtain ⟨next, hstep, hrest⟩ := Option.bind_eq_some_iff.mp hexec
        exact (ih hrest).cons ⟨hstep, hallowed⟩
      next => cases hexec

end World

end SlurmSpank.SystemSafe
