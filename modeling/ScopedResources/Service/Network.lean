import ScopedResources.Service.Exchange

/-!
# Networks

A network is any number of exchanges whose parties take turns. Whoever has something to do is put on
one agenda, in the order in which that came about, and stays there until its turn.
-/

namespace ScopedResources

structure Network (σ : Type) where
  exchanges : List (Exchange σ)
  /-- Who has something to do, with the number of the exchange, in the order of their turns. -/
  agenda : List (Nat × Party)
deriving Repr

namespace Network

variable {σ : Type}

def empty : Network σ := ⟨[], []⟩

/-- Some request on its way or some call that is not over keeps the target. -/
def holds (n : Network σ) (t : Target) : Bool := n.exchanges.any (·.line.holds t)

def holdsBeside (n : Network σ) (exchange : Nat) (t : Target) : Bool :=
  (n.exchanges.eraseIdx exchange).any (·.line.holds t)

/-- Puts on the agenda who has something to do in the exchange. -/
def collect (n : Network σ) (exchange : Nat) (woken : List Party) : Network σ :=
  { n with agenda := n.agenda ++ (woken.map (exchange, ·)).filter (· ∉ n.agenda) }

def put (n : Network σ) (exchange : Nat) (x : Exchange σ) : Network σ :=
  { n with exchanges := n.exchanges.set exchange { x with line.woken := [] } }.collect exchange
    x.line.woken

def add (n : Network σ) (x : Exchange σ) : Nat × Network σ :=
  let number := n.exchanges.length
  (number, { n with exchanges := n.exchanges ++ [x] }.put number x)

/-! ## Turns -/

/-- The first on the agenda takes its turn. `held` tells what is kept by others than the lines. -/
def step (respond : Server σ) (held : Liveness) (n : Network σ) : Network σ :=
  match n.agenda with
  | [] => n
  | (exchange, party) :: agenda =>
    match n.exchanges[exchange]? with
    | none => { n with agenda }
    | some x =>
      let held t := held t || n.holdsBeside exchange t
      { n with agenda }.put exchange (x.turn respond held party)

def requests (n : Network σ) : Nat :=
  n.exchanges.foldl (fun count x =>
    count + (x.line.calls.filterMap (·.progress.request?)).length +
      x.line.mailbox.contents.length) 0

/-- Goes on until the agenda is empty. A request puts at most three parties on it: the caller when
it is called, the server when it enters the mailbox, and the caller when it is answered. -/
def settle (respond : Server σ) (held : Liveness) (n : Network σ) : Network σ :=
  (n.agenda.length + 3 * n.requests).repeat (step respond held) n

end Network

end ScopedResources
