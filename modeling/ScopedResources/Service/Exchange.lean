import ScopedResources.Service.Line

/-!
# Exchanges

An exchange is a line with a server at its end. Once started, the server handles one request after
the other, each with the targets that are there at that moment; a request counts as being handled
until the server is done with it and so keeps its target for as long.
-/

namespace ScopedResources

/-- How a server answers a request; without an answer it gives up and goes away. -/
abbrev Server (σ : Type) := Liveness → Request → σ → Option Answer × σ

structure Exchange (σ : Type) where
  line : Line
  server : σ
  /-- The server has been started and has not given up. -/
  isServing : Bool
deriving Repr

namespace Exchange

variable {σ : Type}

def idle (capacity : Nat) (server : σ) : Exchange σ := ⟨.empty capacity, server, false⟩

def start (x : Exchange σ) : Exchange σ :=
  { x with isServing := true, line := x.line.wake .server }

def abandon (x : Exchange σ) : Exchange σ :=
  if x.isServing then x else { x with line := x.line.hangUp }

/-- The server has nothing more to do: nobody is left who could send, and its mailbox is empty. -/
def hasEnded (x : Exchange σ) : Bool :=
  x.isServing && !x.line.hasSenders && x.line.mailbox.queue.isEmpty

/-! ## Turns -/

/-- The server handles the first request in its mailbox. `held` tells what is kept by others than
the line. -/
def serve (respond : Server σ) (held : Liveness) (x : Exchange σ) : Exchange σ :=
  match x.line.head? with
  | none => x
  | some ticket =>
    match respond (x.line.alive held) ticket.request x.server with
    | (some a, server) => { x with line := x.line.dropHead.answer ticket.call a, server }
    | (none, server) =>
      ⟨(x.line.dropHead.answer ticket.call (.error .dropped)).hangUp, server, false⟩

/-- A party goes as far as it can: a server handles all that is in its mailbox. -/
def turn (respond : Server σ) (held : Liveness) (x : Exchange σ) : Party → Exchange σ
  | .caller call => { x with line := x.line.callerTurn call }
  | .server =>
    if x.isServing then x.line.mailbox.queue.length.repeat (serve respond held) x else x

end Exchange

end ScopedResources
