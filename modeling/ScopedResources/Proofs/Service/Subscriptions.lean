import Mathlib.Order.Bounds.Basic
import ScopedResources.Proofs.Service.Reading
import ScopedResources.Service.Keeper

/-! # Subscriptions

Subscribers come, read and go while events are published. Whatever others do, each is given events
in the order in which they were published after it had come, and none twice. It misses an event only
if so many came after it that it is no longer kept, and it finds nothing only if it has caught up. -/

namespace ScopedResources

namespace Feed

variable {α : Type} {k : Nat}

/-! ## Runs -/

/-- What can happen to a feed next. -/
inductive Step (α : Type) where
  | publish (event : α)
  | subscribe
  | unsubscribe (subscriber : Nat)
  | read (subscriber : Nat)

/-- The step is not one that another subscriber takes for itself. -/
def Step.concerns (k : Nat) : Step α → Bool
  | .publish _ | .subscribe => true
  | .unsubscribe subscriber | .read subscriber => subscriber == k

/-- A feed, with what its subscribers have read. -/
structure Broadcast (α : Type) where
  feed : Feed α
  /-- Who has read, and what came of it, oldest first. -/
  readings : List (Nat × Option α)

namespace Broadcast

def step (b : Broadcast α) : Step α → Broadcast α
  | .publish event => { b with feed := b.feed.publish event }
  | .subscribe => { b with feed := b.feed.subscribe.2 }
  | .unsubscribe subscriber => { b with feed := b.feed.unsubscribe subscriber }
  | .read subscriber =>
    ⟨(b.feed.read subscriber).2, b.readings ++ [(subscriber, (b.feed.read subscriber).1)]⟩

def run (b : Broadcast α) (steps : List (Step α)) : Broadcast α := steps.foldl step b

def readingsOf (b : Broadcast α) (k : Nat) : List (Option α) :=
  (b.readings.filter fun reading => reading.1 == k).map (·.2)

/-- The events that a subscriber has got. -/
def received (b : Broadcast α) (k : Nat) : List α := (b.readingsOf k).filterMap id

theorem readingsOf_concat (f : Feed α) (readings : List (Nat × Option α)) (j k : Nat) (x : Option α) :
    (⟨f, readings ++ [(j, x)]⟩ : Broadcast α).readingsOf k =
      (⟨f, readings⟩ : Broadcast α).readingsOf k ++ if j = k then [x] else [] := by
  simp only [readingsOf, List.filter_append, List.map_append, List.filter_cons, List.filter_nil]
  by_cases hj : j = k <;> simp [hj]

theorem capacity_step (b : Broadcast α) (x : Step α) : (b.step x).feed.capacity = b.feed.capacity := by
  cases x with
  | publish _ | subscribe | unsubscribe _ => rfl
  | read j => exact (AlikeFor.read_of_ne b.feed (Nat.succ_ne_self j)).capacity

theorem capacity_run (b : Broadcast α) (steps : List (Step α)) :
    (b.run steps).feed.capacity = b.feed.capacity := by
  induction steps generalizing b with
  | nil => rfl
  | cons x steps ih => exact (ih (b.step x)).trans (b.capacity_step x)

/-! ## Subscribers do not disturb each other -/

variable {b c : Broadcast α}

theorem step_alikeFor (hf : AlikeFor k b.feed c.feed) (hr : b.readingsOf k = c.readingsOf k)
    (x : Step α) : AlikeFor k (b.step x).feed (c.step x).feed ∧
      (b.step x).readingsOf k = (c.step x).readingsOf k := by
  cases x with
  | publish event =>
    refine ⟨⟨hf.capacity, ?_, ?_, hf.subscriberCount, hf.position⟩, hr⟩
    · simp only [step, Feed.publish, hf.kept, hf.capacity]
    · simp only [step, Feed.publish, hf.kept, hf.capacity, hf.forgotten]
  | subscribe =>
    refine ⟨⟨hf.capacity, hf.kept, hf.forgotten, congrArg (· + 1) hf.subscriberCount, ?_⟩, hr⟩
    simp only [step, Feed.subscribe, Feed.published, List.lookup_cons, hf.subscriberCount,
      hf.forgotten, hf.kept, hf.position]
  | unsubscribe j =>
    refine ⟨⟨hf.capacity, hf.kept, hf.forgotten, hf.subscriberCount, ?_⟩, hr⟩
    rw [step, step, lookup_unsubscribe, lookup_unsubscribe, hf.position]
  | read j =>
    rw [step, step, readingsOf_concat, readingsOf_concat]
    by_cases hj : j = k
    · subst hj
      obtain ⟨hread, hrest⟩ := hf.read
      refine ⟨hrest, ?_⟩
      rw [hread]
      exact congrArg (· ++ _) hr
    · refine ⟨?_, ?_⟩
      · have hb := AlikeFor.read_of_ne b.feed (Ne.symm hj)
        have hc := AlikeFor.read_of_ne c.feed (Ne.symm hj)
        exact (hb.trans hf).trans hc.symm
      · rw [if_neg hj, if_neg hj]
        exact congrArg (· ++ _) hr

/-- What others do for themselves makes no difference. -/
theorem step_of_not_concerns {x : Step α} (hx : x.concerns k = false) :
    AlikeFor k (b.step x).feed b.feed ∧ (b.step x).readingsOf k = b.readingsOf k := by
  cases x with
  | publish _ | subscribe => cases hx
  | unsubscribe j =>
    have hj : j ≠ k := by simpa [Step.concerns] using hx
    refine ⟨⟨rfl, rfl, rfl, rfl, ?_⟩, rfl⟩
    rw [step, lookup_unsubscribe, if_neg hj.symm]
  | read j =>
    have hj : j ≠ k := by simpa [Step.concerns] using hx
    refine ⟨AlikeFor.read_of_ne b.feed hj.symm, ?_⟩
    rw [step, readingsOf_concat, if_neg hj]
    exact List.append_nil _

theorem run_filter_alikeFor (hf : AlikeFor k b.feed c.feed) (hr : b.readingsOf k = c.readingsOf k)
    (steps : List (Step α)) :
    (b.run steps).readingsOf k = (c.run (steps.filter (Step.concerns k))).readingsOf k := by
  induction steps generalizing b c with
  | nil => exact hr
  | cons x steps ih =>
    rw [List.filter_cons]
    split
    · obtain ⟨hf, hr⟩ := step_alikeFor hf hr x
      exact ih hf hr
    · next hx =>
      obtain ⟨hown, hsame⟩ := step_of_not_concerns (b := b) (Bool.eq_false_iff.mpr hx)
      exact ih (hown.trans hf) (hsame.trans hr)

end Broadcast

/-! ## Subscribers are served -/

/-- The subscriber with a number as the steps so far make it: how many have come, and how it should
be served if it is there. -/
structure Seat (α : Type) where
  taken : Nat
  follower : Option (Follower α)

def Seat.step (room k : Nat) (x : Seat α) : Step α → Seat α
  | .publish event =>
    { x with follower := x.follower.map fun w => { w with events := w.events ++ [event] } }
  | .subscribe => ⟨x.taken + 1, if x.taken = k then some ⟨[], []⟩ else x.follower⟩
  | .unsubscribe subscriber => { x with follower := if subscriber = k then none else x.follower }
  | .read subscriber =>
    if subscriber = k then { x with follower := x.follower.map fun w => (w.read room).2 } else x

theorem Seat.step_of_not_concerns {room : Nat} (x : Seat α) {m : Step α}
    (hm : m.concerns k = false) : x.step room k m = x := by
  cases m with
  | publish _ | subscribe => cases hm
  | unsubscribe j | read j =>
    have hj : j ≠ k := by simpa [Step.concerns] using hm
    rw [Seat.step, if_neg hj]

/-- How the subscriber with this number should be served after these steps, if it is there. -/
def follower? (room k : Nat) (steps : List (Step α)) : Option (Follower α) :=
  (steps.foldl (Seat.step room k) ⟨0, none⟩).follower

/-- The events that it has got are those with the numbers that it was given, and these increase. -/
structure Follower.Got (w : Follower α) (received : List α) : Prop where
  ordered : w.given.Pairwise (· < ·)
  lt_next : ∀ n ∈ w.given, n < w.next
  received : received.map some = w.given.map (w.events[·]?)

theorem Follower.Got.publish {w : Follower α} {received : List α} (h : w.Got received)
    (hnext : w.next ≤ w.events.length) (event : α) :
    Got { w with events := w.events ++ [event] } received where
  ordered := h.ordered
  lt_next := h.lt_next
  received := by
    refine h.received.trans (List.map_congr_left ?_)
    intro n hn
    exact (List.getElem?_append_left (Nat.lt_of_lt_of_le (h.lt_next n hn) hnext)).symm

theorem Follower.Got.read {w : Follower α} {received : List α} (h : w.Got received) (room : Nat) :
    Got (w.read room).2 (received ++ (w.read room).1.toList) := by
  cases ha : w.events[w.upcoming room]? with
  | none =>
    rw [read_of_none ha]
    exact (List.append_nil received).symm ▸ h
  | some a =>
    rw [read_of_some ha]
    have hle : w.next ≤ w.upcoming room := Nat.le_max_left ..
    refine ⟨?_, ?_, ?_⟩
    · refine List.pairwise_append.mpr ⟨h.ordered, List.pairwise_singleton _ _, ?_⟩
      intro n hn m hm
      rw [List.mem_singleton.mp hm]
      exact Nat.lt_of_lt_of_le (h.lt_next n hn) hle
    · intro n hn
      rw [next_concat]
      rcases List.mem_append.mp hn with hn | hn
      · exact Nat.lt_succ_of_lt (Nat.lt_of_lt_of_le (h.lt_next n hn) hle)
      · exact Nat.lt_succ_of_le (Nat.le_of_eq (List.mem_singleton.mp hn))
    · rw [List.map_append, List.map_append, h.received]
      simp [ha]

/-- The feed has the subscriber where it should be, and has given it what it should. -/
def Serves (k : Nat) (b : Broadcast α) : Option (Follower α) → Prop
  | none => b.feed.positions.lookup k = none
  | some w => w.Got (b.received k) ∧ ∃ base, b.feed.Stands k base w.events w.next

structure Seat.Holds (k : Nat) (b : Broadcast α) (x : Seat α) : Prop where
  sound : b.feed.Sound
  taken : b.feed.subscriberCount = x.taken
  early : x.taken ≤ k → x.follower = none ∧ b.received k = []
  serves : Serves k b x.follower

namespace Seat.Holds

variable {b c : Broadcast α} {x : Seat α}

theorem transfer (h : x.Holds k b) (hf : AlikeFor k b.feed c.feed)
    (hr : c.readingsOf k = b.readingsOf k) : x.Holds k c := by
  have hreceived : c.received k = b.received k := congrArg (List.filterMap id) hr
  have hserves := h.serves
  refine ⟨hf.sound h.sound, hf.subscriberCount.symm.trans h.taken, hreceived ▸ h.early, ?_⟩
  cases hx : x.follower with
  | none =>
    rw [hx] at hserves
    exact hf.position.symm.trans hserves
  | some w =>
    rw [hx] at hserves
    obtain ⟨hgot, base, hstands⟩ := hserves
    exact ⟨hreceived ▸ hgot, base, hstands.alikeFor hf⟩

theorem publish (h : x.Holds k b) (event : α) :
    (x.step b.feed.capacity k (.publish event)).Holds k (b.step (.publish event)) := by
  have hserves := h.serves
  refine ⟨h.sound.publish event, h.taken, ?_, ?_⟩
  · intro hk
    exact ⟨Option.map_eq_none_iff.mpr (h.early hk).1, (h.early hk).2⟩
  · rw [Seat.step]
    cases hx : x.follower with
    | none =>
      rw [hx] at hserves
      exact hserves
    | some w =>
      rw [hx] at hserves
      obtain ⟨hgot, base, hstands⟩ := hserves
      exact ⟨hgot.publish hstands.next_le event, base, hstands.publish event⟩

/-- A subscriber comes after all events so far. -/
theorem subscribe (h : x.Holds k b) :
    (x.step b.feed.capacity k .subscribe).Holds k (b.step .subscribe) := by
  have hlookup := lookup_subscribe b.feed k
  have hserves := h.serves
  rw [h.taken] at hlookup
  refine ⟨⟨h.sound.room, h.sound.forgotten⟩, congrArg (· + 1) h.taken, ?_, ?_⟩
  · intro hk
    rw [Seat.step, if_neg (Nat.ne_of_lt hk)]
    exact h.early (Nat.le_of_succ_le hk)
  · rw [Seat.step]
    by_cases hk : x.taken = k
    · rw [if_pos hk]
      have hstands := Stands.subscribe b.feed
      rw [show b.feed.subscribe.1 = k from h.taken.trans hk] at hstands
      exact ⟨⟨.nil, nofun, congrArg (List.map some) (h.early (Nat.le_of_eq hk)).2⟩,
        b.feed.published, hstands⟩
    · rw [if_neg hk]
      rw [if_neg (Ne.symm hk)] at hlookup
      cases hx : x.follower with
      | none =>
        rw [hx] at hserves
        exact hlookup.trans hserves
      | some w =>
        rw [hx] at hserves
        obtain ⟨hgot, base, hstands⟩ := hserves
        exact ⟨hgot, base, hlookup.trans hstands.position, hstands.published, hstands.next_le,
          hstands.kept⟩

theorem unsubscribe (h : x.Holds k b) :
    (x.step b.feed.capacity k (.unsubscribe k)).Holds k (b.step (.unsubscribe k)) := by
  have hlookup := lookup_unsubscribe b.feed k k
  rw [if_pos rfl] at hlookup
  rw [Seat.step, if_pos rfl]
  exact ⟨⟨h.sound.room, h.sound.forgotten⟩, h.taken, fun hk => ⟨rfl, (h.early hk).2⟩, hlookup⟩

/-- A subscriber that is there is given what it should be, and one that is not is given nothing. -/
theorem read (h : x.Holds k b) :
    (x.step b.feed.capacity k (.read k)).Holds k (b.step (.read k)) := by
  have hreceived : (b.step (.read k)).received k = b.received k ++ (b.feed.read k).1.toList := by
    rw [Broadcast.received, Broadcast.step, Broadcast.readingsOf_concat, if_pos rfl,
      List.filterMap_append]
    cases (b.feed.read k).1 <;> rfl
  have hserves := h.serves
  -- To another subscriber the feed is as it was.
  have hothers : AlikeFor (k + 1) (b.feed.read k).2 b.feed :=
    AlikeFor.read_of_ne b.feed (Nat.succ_ne_self k)
  have hsound : (b.step (.read k)).feed.Sound := hothers.symm.sound h.sound
  have htaken : (b.step (.read k)).feed.subscriberCount = x.taken :=
    hothers.subscriberCount.trans h.taken
  rw [Seat.step, if_pos rfl]
  cases hx : x.follower with
  | none =>
    rw [hx] at hserves
    have hread : b.feed.read k = (none, b.feed) := by rw [Feed.read, Feed.attempt, hserves]
    rw [hread] at hreceived
    refine ⟨hsound, htaken, fun hk => ⟨rfl, ?_⟩, ?_⟩
    · exact hreceived.trans ((List.append_nil _).trans (h.early hk).2)
    · change (b.feed.read k).2.positions.lookup k = none
      rw [hread]
      exact hserves
  | some w =>
    rw [hx] at hserves
    obtain ⟨hgot, base, hstands⟩ := hserves
    obtain ⟨hread, hnext, _⟩ := hstands.read h.sound
    refine ⟨hsound, htaken, ?_, ?_, base, ?_⟩
    · intro hk
      rw [(h.early hk).1] at hx
      cases hx
    · rw [hreceived, hread]
      exact hgot.read b.feed.capacity
    · rw [Follower.events_read]
      exact hnext

theorem step (h : x.Holds k b) (m : Step α) : (x.step b.feed.capacity k m).Holds k (b.step m) := by
  by_cases hm : m.concerns k
  · cases m with
    | publish event => exact h.publish event
    | subscribe => exact h.subscribe
    | unsubscribe j =>
      obtain rfl : j = k := beq_iff_eq.mp hm
      exact h.unsubscribe
    | read j =>
      obtain rfl : j = k := beq_iff_eq.mp hm
      exact h.read
  · have hm := Bool.eq_false_iff.mpr hm
    obtain ⟨halike, hsame⟩ := Broadcast.step_of_not_concerns (b := b) hm
    rw [Seat.step_of_not_concerns x hm]
    exact h.transfer halike.symm hsame

theorem run (h : x.Holds k b) (steps : List (Step α)) :
    (steps.foldl (Seat.step b.feed.capacity k) x).Holds k (b.run steps) := by
  induction steps generalizing b x with
  | nil => exact h
  | cons m steps ih =>
    have := ih (h.step m)
    rwa [Broadcast.capacity_step] at this

end Seat.Holds

/-! ## What a subscription delivers -/

/-- What holds at any time of a subscriber that is there. -/
structure Delivers (f : Feed α) (k : Nat) (w : Follower α) (received : List α) : Prop where
  /-- No event comes after a later one, and none comes twice. -/
  ordered : w.given.Pairwise (· < ·)
  received : received.map some = w.given.map (w.events[·]?)
  next_le : w.next ≤ w.events.length
  /-- It goes on with the next event, or with the oldest of the last ones that are kept. -/
  event : ∀ a, (f.read k).1 = some a →
    w.events[max w.next (w.events.length - f.capacity)]? = some a
  nothing : (f.read k).1 = none ↔ w.next = w.events.length
  /-- A read ends, after one lag at most. -/
  ends : ∃ lags ≤ 1, ∀ n x g,
    Reads k f n x g ↔ n = lags ∧ x = (f.read k).1 ∧ g = (f.read k).2

theorem Seat.Holds.delivers {b : Broadcast α} {x : Seat α} (h : x.Holds k b) {w : Follower α}
    (hw : x.follower = some w) : b.feed.Delivers k w (b.received k) := by
  have hserves := h.serves
  rw [hw] at hserves
  obtain ⟨hgot, base, hstands⟩ := hserves
  obtain ⟨hread, _, lags, hle, hreads⟩ := hstands.read h.sound
  have hnone := w.events_upcoming h.sound.room hstands.next_le
  refine ⟨hgot.ordered, hgot.received, hstands.next_le, ?_, ?_, lags, hle,
    fun n y g => ⟨fun hy => hy.unique hreads, ?_⟩⟩
  · intro a ha
    rw [hread] at ha
    cases hup : w.events[w.upcoming b.feed.capacity]? with
    | none =>
      rw [Follower.read_of_none hup] at ha
      cases ha
    | some c =>
      rw [Follower.read_of_some hup] at ha
      cases ha
      exact hup
  · rw [hread, ← hnone]
    cases hup : w.events[w.upcoming b.feed.capacity]? with
    | none => rw [Follower.read_of_none hup]
    | some c => rw [Follower.read_of_some hup]
  · rintro ⟨rfl, rfl, rfl⟩
    exact hreads

/-- The feed of a service keeps the least power of two of events that is enough. Whoever comes, goes,
reads or publishes when, each subscriber that is there is given what was published since it came, in
order and without repetition, and misses only what is no longer kept when it reads; what it is given
does not depend on how others read. -/
theorem subscription_delivers (registry : Registry) (channelCapacity eventCapacity : Nat)
    (steps : List (Step Resource)) (k : Nat) :
    let feed := (Keeper.service registry channelCapacity eventCapacity).server.feed
    let b := (Broadcast.mk feed []).run steps
    IsLeast {room : Nat | room.isPowerOfTwo ∧ eventCapacity ≤ room} b.feed.capacity ∧
      (∀ w, follower? b.feed.capacity k steps = some w → b.feed.Delivers k w (b.received k)) ∧
      ∀ steps', steps'.filter (Step.concerns k) = steps.filter (Step.concerns k) →
        ((Broadcast.mk feed []).run steps').readingsOf k = b.readingsOf k := by
  intro feed b
  have hcapacity : b.feed.capacity = feed.capacity := Broadcast.capacity_run _ steps
  have hstart : Seat.Holds k (Broadcast.mk feed []) ⟨0, none⟩ :=
    ⟨sound_empty eventCapacity, rfl, fun _ => ⟨rfl, rfl⟩, rfl⟩
  refine ⟨?_, ?_, ?_⟩
  · rw [hcapacity]
    exact ⟨⟨isPowerOfTwo_roomFor eventCapacity, le_roomFor eventCapacity⟩,
      fun room hroom => roomFor_le hroom.1 hroom.2⟩
  · intro w hw
    rw [hcapacity] at hw
    exact (hstart.run steps).delivers hw
  · intro steps' hsame
    have halike := AlikeFor.refl k feed
    rw [Broadcast.run_filter_alikeFor (c := ⟨feed, []⟩) halike rfl steps', hsame,
      ← Broadcast.run_filter_alikeFor (b := ⟨feed, []⟩) halike rfl steps]

def shade (n : Nat) : Resource := ⟨.application, numbered "Shade" n, .flag true⟩

/-- Four events are kept. The first subscriber reads one, falls behind while six are published, and
reads again; the second comes late, reads twice and goes. -/
def fallingBehind : List (Step Resource) :=
  [.publish (shade 0), .subscribe, .publish (shade 1), .read 0, .publish (shade 2),
    .publish (shade 3), .subscribe, .publish (shade 4), .read 1, .publish (shade 5), .read 1,
    .publish (shade 6), .unsubscribe 1, .publish (shade 7), .read 0]

/-- Who has fallen behind is given the fourth event after the first, and what the other reads does
not matter. -/
theorem subscription_delivers_fallingBehind :
    let feed := (Keeper.service .empty 1 3).server.feed
    let b := (Broadcast.mk feed []).run fallingBehind
    b.received 0 = [shade 1, shade 4] ∧
      b.feed.Delivers 0 ⟨[shade 1, shade 2, shade 3, shade 4, shade 5, shade 6, shade 7], [0, 3]⟩
        (b.received 0) ∧
      ((Broadcast.mk feed []).run (fallingBehind.filter (Step.concerns 0))).readingsOf 0 =
        b.readingsOf 0 := by
  obtain ⟨_, hdelivers, hsame⟩ := subscription_delivers .empty 1 3 fallingBehind 0
  have hempty : (Feed.empty 3 : Feed Resource) = ⟨4, [], 0, [], 0⟩ := rfl
  have hreceived : ((Broadcast.mk (.empty 3) []).run fallingBehind).received 0 =
      [shade 1, shade 4] := by
    rw [hempty]
    rfl
  have hfollower : follower? ((Broadcast.mk (.empty 3) []).run fallingBehind).feed.capacity 0
      fallingBehind =
        some ⟨[shade 1, shade 2, shade 3, shade 4, shade 5, shade 6, shade 7], [0, 3]⟩ := by
    rw [hempty]
    rfl
  refine ⟨hreceived, hdelivers _ hfollower, hsame _ ?_⟩
  rw [List.filter_filter]
  simp only [Bool.and_self]

end Feed

end ScopedResources
