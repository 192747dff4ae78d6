/-!
# Feeds

A feed keeps the last events that were published. Each subscriber reads on from where it is; one
that has been overtaken goes on with the oldest event that is still kept.
-/

namespace ScopedResources

structure Feed (α : Type) where
  capacity : Nat
  kept : List α
  /-- How many events before those are no longer kept. -/
  forgotten : Nat
  /-- Subscribers by number, with how many events lie before the one they read next. -/
  positions : List (Nat × Nat)
  subscriberCount : Nat
deriving Repr

namespace Feed

variable {α : Type}

/-- Room comes in powers of two; this is the least that is enough. -/
def roomFor (capacity : Nat) : Nat :=
  if capacity ≤ 1 then 1 else Nat.pow 2 ((capacity - 1).log2 + 1)

theorem le_roomFor (capacity : Nat) : capacity ≤ roomFor capacity := by
  unfold roomFor
  split
  · assumption
  · have : capacity - 1 < Nat.pow 2 ((capacity - 1).log2 + 1) := Nat.lt_log2_self
    omega

theorem isPowerOfTwo_roomFor (capacity : Nat) : (roomFor capacity).isPowerOfTwo := by
  unfold roomFor
  split
  · exact Nat.isPowerOfTwo_one
  · exact ⟨_, rfl⟩

theorem roomFor_le {capacity room : Nat} (hpower : room.isPowerOfTwo) (hle : capacity ≤ room) :
    roomFor capacity ≤ room := by
  unfold roomFor
  split
  · exact Nat.pos_of_isPowerOfTwo hpower
  · obtain ⟨e, rfl⟩ := hpower
    have hlog : (capacity - 1).log2 < e := (Nat.log2_lt (by omega)).mpr (by omega)
    exact Nat.pow_le_pow_right (by decide) hlog

/-- A feed that keeps at least this many events. -/
def empty (capacity : Nat) : Feed α := ⟨roomFor capacity, [], 0, [], 0⟩

def published (f : Feed α) : Nat := f.forgotten + f.kept.length

def publish (f : Feed α) (event : α) : Feed α :=
  let kept := f.kept ++ [event]
  let surplus := kept.length - f.capacity
  { f with kept := kept.drop surplus, forgotten := f.forgotten + surplus }

@[simp]
theorem published_publish (f : Feed α) (event : α) :
    (f.publish event).published = f.published + 1 := by
  simp only [publish, published, List.length_drop, List.length_append, List.length_singleton]
  omega

/-- What is kept ends with the event, and only the oldest events make room for it. -/
theorem kept_publish (f : Feed α) (event : α) :
    (f.publish event).kept = (f.kept ++ [event]).drop (f.kept.length + 1 - f.capacity) := by
  simp [publish]

theorem length_kept_publish_le (f : Feed α) (event : α) :
    (f.publish event).kept.length ≤ f.capacity := by
  simp only [publish, List.length_drop, List.length_append, List.length_singleton]
  omega

/-- Subscribes to the events that are yet to come, and gives the subscriber's number. -/
def subscribe (f : Feed α) : Nat × Feed α :=
  (f.subscriberCount,
    { f with
      positions := (f.subscriberCount, f.published) :: f.positions
      subscriberCount := f.subscriberCount + 1 })

def unsubscribe (f : Feed α) (subscriber : Nat) : Feed α :=
  { f with positions := f.positions.filter fun entry => entry.1 != subscriber }

def moveTo (f : Feed α) (subscriber position : Nat) : Feed α :=
  { f with positions := f.positions.map fun entry =>
    if entry.1 = subscriber then (subscriber, position) else entry }

inductive Reading (α : Type) where
  | event (a : α)
  /-- Events were missed; the subscriber has been moved to the oldest one kept. -/
  | lagged
  | nothing

def attempt (f : Feed α) (subscriber : Nat) : Reading α × Feed α :=
  match f.positions.lookup subscriber with
  | none => (.nothing, f)
  | some position =>
    if position < f.forgotten then (.lagged, f.moveTo subscriber f.forgotten)
    else
      match f.kept[position - f.forgotten]? with
      | some a => (.event a, f.moveTo subscriber (position + 1))
      | none => (.nothing, f)

/-- Reads the next event, if there is one. An attempt right after a lag finds the oldest event, so
two attempts are enough. -/
def read (f : Feed α) (subscriber : Nat) : Option α × Feed α :=
  match f.attempt subscriber with
  | (.event a, f) => (some a, f)
  | (.nothing, f) => (none, f)
  | (.lagged, f) =>
    match f.attempt subscriber with
    | (.event a, f) => (some a, f)
    | (_, f) => (none, f)

def readMany (f : Feed α) (subscriber : Nat) : Nat → List α × Feed α
  | 0 => ([], f)
  | limit + 1 =>
    match f.read subscriber with
    | (none, f) => ([], f)
    | (some a, f) =>
      let (rest, f) := f.readMany subscriber limit
      (a :: rest, f)

def drain (f : Feed α) (subscriber : Nat) : List α × Feed α :=
  f.readMany subscriber (f.kept.length + 1)

end Feed

end ScopedResources
