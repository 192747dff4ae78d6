import ScopedResources.Service.Mailbox
import ScopedResources.Service.Request

/-!
# Lines

A line connects any number of clients with one server. It knows the open clients, every call with
its progress, and the mailbox of requests. A caller takes one turn after another: in the first it
posts its request, in others it enters the mailbox when it has been called, and in the last it takes
note of its answer, unless it has given up before. Until then the call keeps its client and what it
borrows. Whoever has something to do is noted in the order in which that came about.
-/

namespace ScopedResources

/-- A request on its way, and the call that it belongs to. -/
structure Ticket where
  call : Nat
  request : Request
deriving Repr

def Ticket.holds (ticket : Ticket) (t : Target) : Bool := ticket.request.target?.any (· == t)

/-! ## Calls -/

inductive Progress where
  /-- Nothing has been sent yet. This is the request that will be, or why none will be. -/
  | issued (request : Except RegistryError Request)
  | sent
  | answered (a : Answer)
  | finished (a : Answer)
  /-- The caller has gone away and will take note of no answer. -/
  | abandoned
deriving Repr

def Progress.request? : Progress → Option Request
  | issued (.ok request) => some request
  | _ => none

structure CallState where
  client : Nat
  keeps : Option Target
  progress : Progress
deriving Repr

namespace CallState

/-- The caller waits for nothing any more. -/
def isOver (c : CallState) : Bool :=
  match c.progress with
  | .finished _ | .abandoned => true
  | _ => false

/-- The call itself keeps the target, or the request that it has yet to send does. -/
def holds (c : CallState) (t : Target) : Bool :=
  !c.isOver && (c.keeps.any (· == t) ||
    (c.progress.request?.bind Request.target?).any (· == t))

end CallState

/-! ## Lines -/

inductive Party where
  | caller (call : Nat)
  | server
deriving DecidableEq, Repr

structure Line where
  /-- The clients that are open, by number, and how many there have been. -/
  clients : List Nat
  clientCount : Nat
  /-- All calls in the order in which they were issued, which numbers them. -/
  calls : List CallState
  mailbox : Mailbox Ticket
  /-- Who has something to do, in the order in which it came about. -/
  woken : List Party
deriving Repr

namespace Line

/-- A line with room for this many requests and with one client, number zero. -/
def empty (capacity : Nat) : Line := ⟨[0], 1, [], .empty capacity, []⟩

def wake (l : Line) (p : Party) : Line :=
  if p ∈ l.woken then l else { l with woken := l.woken ++ [p] }

/-! ## Clients -/

def openClient (l : Line) : Nat × Line :=
  (l.clientCount,
    { l with clients := l.clients ++ [l.clientCount], clientCount := l.clientCount + 1 })

def dropClient (l : Line) (client : Nat) : Line :=
  { l with clients := l.clients.filter (· != client) }

/-- Someone may still send: a client is open, or a call that is not over holds one. -/
def hasSenders (l : Line) : Bool := !l.clients.isEmpty || l.calls.any fun c => !c.isOver

/-! ## Who keeps a target -/

/-- Some request on its way or some call that is not over keeps the target. -/
def holds (l : Line) (t : Target) : Bool :=
  l.mailbox.contents.any (Ticket.holds · t) || l.calls.any (·.holds t)

/-- What is still there, given what others keep. -/
def alive (held : Liveness) (l : Line) : Liveness := fun t => held t || l.holds t

/-! ## The callers' end -/

def issue (l : Line) (client : Nat) (c : Call) : Nat × Line :=
  let number := l.calls.length
  let call : CallState := ⟨client, c.keeps, .issued c.request⟩
  (number, { l with calls := l.calls ++ [call] }.wake (.caller number))

def setProgress (l : Line) (call : Nat) (p : Progress) : Line :=
  { l with calls := l.calls.modify call fun c => { c with progress := p } }

def progress? (l : Line) (call : Nat) : Option Progress := l.calls[call]?.map (·.progress)

def result? (l : Line) (call : Nat) : Option Answer :=
  match l.progress? call with
  | some (.finished a) => some a
  | _ => none

/-- Sends a request. Only if there is room for it has the server something to do. -/
def post (l : Line) (ticket : Ticket) : Line :=
  let posted := { l with mailbox := l.mailbox.post ticket }
  if l.mailbox.hasRoom then posted.wake .server else posted

/-- Enters the mailbox if the call's request has been called, and leaves it if it has closed. -/
def proceed (l : Line) (call : Nat) : Line :=
  let isMine (ticket : Ticket) := ticket.call == call
  if l.mailbox.called.any isMine then
    { l with mailbox := l.mailbox.enter isMine }.wake .server
  else if !l.mailbox.isOpen && l.mailbox.waiting.any isMine then
    { l with mailbox := l.mailbox.leave isMine }.setProgress call (.finished (.error .closed))
  else l

/-- The caller goes as far as it can without anyone else. A call that sends nothing finishes at
once, and so does one that finds the mailbox closed. -/
def callerTurn (l : Line) (call : Nat) : Line :=
  match l.progress? call with
  | some (.issued (.error e)) => l.setProgress call (.finished (.error (.registry e)))
  | some (.issued (.ok request)) =>
    if l.mailbox.isOpen then (l.setProgress call .sent).post ⟨call, request⟩
    else l.setProgress call (.finished (.error .closed))
  | some .sent => l.proceed call
  | some (.answered a) => l.setProgress call (.finished a)
  | some (.finished _) | some .abandoned | none => l

/-- The caller goes away. A request that still waits for room is taken back; one that the mailbox has
taken in stays there, and its answer is lost. -/
def giveUp (l : Line) (call : Nat) : Line :=
  let isMine (ticket : Ticket) := ticket.call == call
  match l.progress? call with
  | none | some (.finished _) | some .abandoned => l
  | some _ =>
    let rest := { l with mailbox := l.mailbox.withdraw isMine }.setProgress call .abandoned
    match l.mailbox.called.any isMine, l.mailbox.waiting with
    | true, next :: _ => rest.wake (.caller next.call)
    | _, _ => rest

/-! ## The server's end -/

/-- The call's request is out and has no answer. -/
def isUnanswered (l : Line) (call : Nat) : Bool :=
  match l.progress? call with
  | some .sent => true
  | _ => false

def answer (l : Line) (call : Nat) (a : Answer) : Line :=
  if l.isUnanswered call then (l.setProgress call (.answered a)).wake (.caller call) else l

def head? (l : Line) : Option Ticket := l.mailbox.queue.head?

/-- Removes the first request from the mailbox, which calls the first one that waits. -/
def dropHead (l : Line) : Line :=
  let rest := { l with mailbox := l.mailbox.dropFirst }
  match l.mailbox.queue, l.mailbox.waiting with
  | _ :: _, next :: _ => rest.wake (.caller next.call)
  | _, _ => rest

/-- The server goes away: those who wait for room learn that they come too late, and the requests
that had been taken in are given up. -/
def hangUp (l : Line) : Line :=
  let closed := { l with mailbox := l.mailbox.close }
  let warned := closed.mailbox.waiting.foldl (fun l ticket => l.wake (.caller ticket.call)) closed
  l.mailbox.queue.foldl (fun l ticket => l.answer ticket.call (.error .dropped)) warned

end Line

end ScopedResources
