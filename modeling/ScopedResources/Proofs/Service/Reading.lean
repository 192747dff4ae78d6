import ScopedResources.Service.Feed

/-! # Reading from a feed

A read tries again when it lags. Number the events that were published after a subscriber had come,
from zero on: its read finds the event after the one that it got last or, if that is no longer kept,
the oldest that is, and lags once at most. Nothing but its own position and what is kept matters to
it. Reading on until there is nothing more, it gets all of those events that are still kept. -/

namespace ScopedResources

namespace Feed

variable {α : Type}

/-! ## The loop of a read -/

/-- A read tries again after each lag, and ends with an event or with nothing. It comes to this
result and leaves this feed behind, after so many lags. -/
inductive Reads (subscriber : Nat) : Feed α → Nat → Option α → Feed α → Prop where
  | event {f f' : Feed α} {a : α} (h : f.attempt subscriber = (.event a, f')) :
    Reads subscriber f 0 (some a) f'
  | nothing {f f' : Feed α} (h : f.attempt subscriber = (.nothing, f')) :
    Reads subscriber f 0 none f'
  | lagged {f f' f'' : Feed α} {lags : Nat} {result : Option α}
    (h : f.attempt subscriber = (.lagged, f')) (rest : Reads subscriber f' lags result f'') :
    Reads subscriber f (lags + 1) result f''

/-- There is only one way for a read to go. -/
theorem Reads.unique {k : Nat} {f f₁ f₂ : Feed α} {m n : Nat} {x y : Option α}
    (h₁ : Reads k f m x f₁) (h₂ : Reads k f n y f₂) : m = n ∧ x = y ∧ f₁ = f₂ := by
  induction h₁ generalizing n with
  | event h =>
    cases h₂ with
    | event h' => cases h.symm.trans h'; exact ⟨rfl, rfl, rfl⟩
    | nothing h' | lagged h' _ => cases h.symm.trans h'
  | nothing h =>
    cases h₂ with
    | nothing h' => cases h.symm.trans h'; exact ⟨rfl, rfl, rfl⟩
    | event h' | lagged h' _ => cases h.symm.trans h'
  | lagged h _ ih =>
    cases h₂ with
    | lagged h' rest =>
      cases h.symm.trans h'
      obtain ⟨hlags, hresult⟩ := ih rest
      exact ⟨congrArg Nat.succ hlags, hresult⟩
    | event h' | nothing h' => cases h.symm.trans h'

/-! ## Positions -/

variable {f g : Feed α} {j k : Nat}

theorem lookup_moveTo (f : Feed α) (j p k : Nat) : (f.moveTo j p).positions.lookup k =
    (f.positions.lookup k).map fun position => if k = j then p else position := by
  unfold moveTo
  dsimp only
  induction f.positions with
  | nil => rfl
  | cons entry rest ih =>
    obtain ⟨number, position⟩ := entry
    have hentry : (if number = j then (j, p) else (number, position)) =
        (number, if number = j then p else position) := by
      split
      · next h => rw [h]
      · rfl
    rw [List.map_cons, hentry, List.lookup_cons, List.lookup_cons]
    by_cases hk : k = number
    · rw [hk, beq_self_eq_true]
      rfl
    · rw [beq_false_of_ne hk]
      exact ih

theorem lookup_unsubscribe (f : Feed α) (j k : Nat) : (f.unsubscribe j).positions.lookup k =
    if k = j then none else f.positions.lookup k := by
  unfold unsubscribe
  dsimp only
  induction f.positions with
  | nil => exact (ite_self none).symm
  | cons entry rest ih =>
    obtain ⟨number, position⟩ := entry
    rw [List.filter_cons, List.lookup_cons]
    by_cases hk : k = number
    · rw [hk, beq_self_eq_true]
      rw [hk] at ih
      by_cases hj : number = j
      · rw [if_neg (by simpa using hj), ih, if_pos hj, if_pos hj]
      · rw [if_pos (by simpa using hj), if_neg hj, List.lookup_cons, beq_self_eq_true]
    · rw [beq_false_of_ne hk]
      split
      · rw [List.lookup_cons, beq_false_of_ne hk]
        exact ih
      · exact ih

theorem lookup_subscribe (f : Feed α) (k : Nat) : f.subscribe.2.positions.lookup k =
    if k = f.subscriberCount then some f.published else f.positions.lookup k := by
  rw [subscribe, List.lookup_cons]
  by_cases hk : k = f.subscriberCount
  · rw [hk, beq_self_eq_true, if_pos rfl]
  · rw [beq_false_of_ne hk, if_neg hk]

/-! ## What a subscriber depends on -/

/-- The feeds are the same for this subscriber. -/
structure AlikeFor (k : Nat) (f g : Feed α) : Prop where
  capacity : f.capacity = g.capacity
  kept : f.kept = g.kept
  forgotten : f.forgotten = g.forgotten
  subscriberCount : f.subscriberCount = g.subscriberCount
  position : f.positions.lookup k = g.positions.lookup k

namespace AlikeFor

theorem refl (k : Nat) (f : Feed α) : AlikeFor k f f := ⟨rfl, rfl, rfl, rfl, rfl⟩

theorem symm (h : AlikeFor k f g) : AlikeFor k g f :=
  ⟨h.capacity.symm, h.kept.symm, h.forgotten.symm, h.subscriberCount.symm, h.position.symm⟩

theorem trans {f' : Feed α} (h : AlikeFor k f g) (h' : AlikeFor k g f') : AlikeFor k f f' :=
  ⟨h.capacity.trans h'.capacity, h.kept.trans h'.kept, h.forgotten.trans h'.forgotten,
    h.subscriberCount.trans h'.subscriberCount, h.position.trans h'.position⟩

theorem moveTo_of_ne (f : Feed α) (h : k ≠ j) (p : Nat) : AlikeFor k (f.moveTo j p) f :=
  ⟨rfl, rfl, rfl, rfl, by simp [lookup_moveTo, h]⟩

theorem moveTo (h : AlikeFor k f g) (p : Nat) : AlikeFor k (f.moveTo k p) (g.moveTo k p) :=
  ⟨h.capacity, h.kept, h.forgotten, h.subscriberCount, by
    rw [lookup_moveTo, lookup_moveTo, h.position]⟩

theorem attempt (h : AlikeFor k f g) :
    (f.attempt k).1 = (g.attempt k).1 ∧ AlikeFor k (f.attempt k).2 (g.attempt k).2 := by
  unfold Feed.attempt
  rw [← h.position, ← h.forgotten, ← h.kept]
  cases hp : f.positions.lookup k with
  | none => exact ⟨rfl, h⟩
  | some position =>
    dsimp only
    split
    · exact ⟨rfl, h.moveTo _⟩
    · split
      · exact ⟨rfl, h.moveTo _⟩
      · exact ⟨rfl, h⟩

theorem attempt_of_ne (f : Feed α) (h : k ≠ j) : AlikeFor k (f.attempt j).2 f := by
  unfold Feed.attempt
  split
  · exact refl k f
  · split
    · exact moveTo_of_ne f h _
    · split
      · exact moveTo_of_ne f h _
      · exact refl k f

theorem read (h : AlikeFor k f g) :
    (f.read k).1 = (g.read k).1 ∧ AlikeFor k (f.read k).2 (g.read k).2 := by
  obtain ⟨hfirst, hrest⟩ := h.attempt
  obtain ⟨hsecond, hend⟩ := hrest.attempt
  unfold Feed.read
  revert hfirst hrest hsecond hend
  generalize f.attempt k = x, g.attempt k = y
  obtain ⟨reading, f'⟩ := x
  obtain ⟨_, g'⟩ := y
  rintro rfl hrest hsecond hend
  cases reading with
  | event a => exact ⟨rfl, hrest⟩
  | nothing => exact ⟨rfl, hrest⟩
  | lagged =>
    dsimp only at hsecond hend ⊢
    revert hsecond hend
    generalize f'.attempt k = x, g'.attempt k = y
    obtain ⟨reading, f''⟩ := x
    obtain ⟨_, g''⟩ := y
    rintro rfl hend
    cases reading <;> exact ⟨rfl, hend⟩

theorem read_of_ne (f : Feed α) (h : k ≠ j) : AlikeFor k (f.read j).2 f := by
  have hfirst := attempt_of_ne f h
  unfold Feed.read
  split
  · next he => rwa [he] at hfirst
  · next he => rwa [he] at hfirst
  · next f' he =>
    rw [he] at hfirst
    have hsecond := (attempt_of_ne f' h).trans hfirst
    split
    · next he => rwa [he] at hsecond
    · next he => rwa [he] at hsecond

end AlikeFor

/-! ## Room -/

/-- The feed keeps as many of the events that were published last as it has room for. -/
structure Sound (f : Feed α) : Prop where
  room : 0 < f.capacity
  forgotten : f.forgotten = f.published - f.capacity

theorem AlikeFor.sound (h : AlikeFor k f g) (hf : f.Sound) : g.Sound := by
  have hpublished : f.published = g.published := by rw [published, published, h.forgotten, h.kept]
  refine ⟨h.capacity ▸ hf.room, ?_⟩
  rw [← h.forgotten, ← hpublished, ← h.capacity]
  exact hf.forgotten

theorem Sound.publish (hf : f.Sound) (event : α) : (f.publish event).Sound := by
  have hroom := hf.room
  have hforgotten := hf.forgotten
  refine ⟨hroom, ?_⟩
  rw [published_publish]
  simp only [Feed.publish, published, List.length_append, List.length_singleton] at hforgotten ⊢
  omega

theorem sound_empty (capacity : Nat) : (empty capacity : Feed α).Sound :=
  ⟨Nat.pos_of_isPowerOfTwo (isPowerOfTwo_roomFor capacity), (Nat.zero_sub _).symm⟩

/-- What is so of a feed and a list of events, and stays so when both get one more, holds however many
more they get. -/
theorem foldl_publish_induction {P : Feed α → List α → Prop} {events : List α}
    (hstep : ∀ {f events} event, P f events → P (f.publish event) (events ++ [event]))
    (h : P f events) (more : List α) : P (more.foldl publish f) (events ++ more) := by
  induction more generalizing f events with
  | nil => rwa [List.append_nil]
  | cons event more ih =>
    have hmore := ih (hstep event h)
    rwa [List.append_assoc] at hmore

/-! ## What is kept -/

/-- Of these events, the feed keeps as many of the last ones as it has room for. -/
structure Keeps (room : Nat) (f : Feed α) (events : List α) : Prop where
  capacity : f.capacity = room
  forgotten : f.forgotten = events.length - room
  kept : f.kept = events.drop (events.length - room)

namespace Keeps

variable {room : Nat} {events : List α}

theorem published (h : f.Keeps room events) : f.published = events.length := by
  rw [Feed.published, h.forgotten, h.kept, List.length_drop]
  omega

theorem sound (h : f.Keeps room events) (hroom : 0 < room) : f.Sound := by
  refine ⟨h.capacity ▸ hroom, ?_⟩
  rw [h.published, h.capacity]
  exact h.forgotten

theorem empty (capacity : Nat) : (Feed.empty capacity : Feed α).Keeps (roomFor capacity) [] :=
  ⟨rfl, (Nat.zero_sub _).symm, List.drop_nil.symm⟩

theorem subscribe (h : f.Keeps room events) : f.subscribe.2.Keeps room events :=
  ⟨h.capacity, h.forgotten, h.kept⟩

theorem publish (h : f.Keeps room events) (event : α) :
    (f.publish event).Keeps room (events ++ [event]) := by
  have hforgotten := h.forgotten
  have hlength : f.kept.length = events.length - f.forgotten := by
    rw [h.kept, List.length_drop, hforgotten]
  refine ⟨h.capacity, ?_, ?_⟩
  · simp only [Feed.publish, List.length_append, List.length_singleton, hlength, h.capacity]
    omega
  · rw [kept_publish, hlength, h.capacity, h.kept, ← List.drop_append_of_le_length (by omega),
      List.drop_drop, List.length_append, List.length_singleton]
    congr 1
    omega

theorem foldl_publish (h : f.Keeps room events) (more : List α) :
    (more.foldl Feed.publish f).Keeps room (events ++ more) :=
  foldl_publish_induction (fun event h => h.publish event) h more

end Keeps

/-! ## Followers -/

/-- A subscriber as it should be served: the events that were published since it came, which are
numbered from zero, and the numbers of those that it was given. -/
structure Follower (α : Type) where
  events : List α
  given : List Nat

namespace Follower

variable {w : Follower α} {room : Nat}

/-- The number after the one that was given last. -/
def next (w : Follower α) : Nat := w.given.getLast?.elim 0 (· + 1)

/-- The number that is to be given next where so many events are kept. -/
def upcoming (room : Nat) (w : Follower α) : Nat := max w.next (w.events.length - room)

def read (room : Nat) (w : Follower α) : Option α × Follower α :=
  match w.events[w.upcoming room]? with
  | some a => (some a, { w with given := w.given ++ [w.upcoming room] })
  | none => (none, w)

theorem read_of_some {a : α} (h : w.events[w.upcoming room]? = some a) :
    w.read room = (some a, { w with given := w.given ++ [w.upcoming room] }) := by
  rw [read, h]

theorem read_of_none (h : w.events[w.upcoming room]? = none) : w.read room = (none, w) := by
  rw [read, h]

theorem events_read (room : Nat) (w : Follower α) : (w.read room).2.events = w.events := by
  unfold read
  split <;> rfl

theorem next_concat (events : List α) (given : List Nat) (n : Nat) :
    (⟨events, given ++ [n]⟩ : Follower α).next = n + 1 := by
  rw [next, List.getLast?_concat]
  rfl

/-- Nothing is to be given exactly if everything has been. -/
theorem events_upcoming (hroom : 0 < room) (hnext : w.next ≤ w.events.length) :
    w.events[w.upcoming room]? = none ↔ w.next = w.events.length := by
  rw [List.getElem?_eq_none_iff, upcoming]
  omega

end Follower

/-! ## Reading from the feed -/

/-- The subscriber came after `base` events. Of those published since it is to read the one numbered
`next`, or a later one if that is no longer kept. -/
structure Stands (f : Feed α) (k base : Nat) (events : List α) (next : Nat) : Prop where
  position : f.positions.lookup k = some (base + next)
  published : base + events.length = f.published
  next_le : next ≤ events.length
  kept : ∀ i, f.forgotten ≤ base + i → f.kept[base + i - f.forgotten]? = events[i]?

namespace Stands

variable {base next : Nat} {events : List α}

theorem alikeFor (h : f.Stands k base events next) (hfg : AlikeFor k f g) :
    g.Stands k base events next where
  position := hfg.position.symm.trans h.position
  published := by rw [h.published, Feed.published, Feed.published, hfg.forgotten, hfg.kept]
  next_le := h.next_le
  kept := by
    rw [← hfg.forgotten, ← hfg.kept]
    exact h.kept

theorem moveTo (h : f.Stands k base events next) {n : Nat} (hn : n ≤ events.length) :
    (f.moveTo k (base + n)).Stands k base events n where
  position := by rw [lookup_moveTo, h.position, Option.map_some, if_pos rfl]
  published := h.published
  next_le := hn
  kept := h.kept

/-- A subscriber is to read all events that are yet to come. -/
theorem subscribe (f : Feed α) : f.subscribe.2.Stands f.subscribe.1 f.published [] 0 where
  position := by
    rw [lookup_subscribe]
    exact if_pos rfl
  published := rfl
  next_le := Nat.le_refl 0
  kept i _ := by
    refine List.getElem?_eq_none ?_
    change f.kept.length ≤ f.forgotten + f.kept.length + i - f.forgotten
    omega

theorem publish (h : f.Stands k base events next) (event : α) :
    (f.publish event).Stands k base (events ++ [event]) next where
  position := h.position
  published := by
    rw [published_publish, ← h.published, List.length_append, List.length_singleton]
    rfl
  next_le := by
    rw [List.length_append]
    exact Nat.le_add_right_of_le h.next_le
  kept i hi := by
    have hpublished := h.published
    have hkept := h.kept i
    simp only [Feed.publish, Feed.published] at hi hpublished ⊢
    rw [List.getElem?_drop]
    rcases Nat.lt_trichotomy i events.length with hlt | rfl | hgt
    · rw [List.getElem?_append_left hlt, List.getElem?_append_left (by omega),
        ← hkept (by omega)]
      congr 1
      omega
    · rw [List.getElem?_concat_length, show _ + _ = f.kept.length by omega,
        List.getElem?_concat_length]
    · rw [List.getElem?_eq_none (by simp; omega), List.getElem?_eq_none (by simp; omega)]

theorem foldl_publish (h : f.Stands k base events next) (more : List α) :
    (more.foldl Feed.publish f).Stands k base (events ++ more) next :=
  foldl_publish_induction (P := fun f events => f.Stands k base events next)
    (fun event h => h.publish event) h more

theorem attempt_of_lt (h : f.Stands k base events next) (hlag : base + next < f.forgotten) :
    f.attempt k = (.lagged, f.moveTo k f.forgotten) := by
  rw [attempt, h.position]
  exact if_pos hlag

theorem attempt_of_le (h : f.Stands k base events next) (hle : f.forgotten ≤ base + next) :
    f.attempt k = match events[next]? with
      | some a => (.event a, f.moveTo k (base + (next + 1)))
      | none => (.nothing, f) := by
  rw [attempt, h.position]
  dsimp only
  rw [if_neg (Nat.not_lt.mpr hle), h.kept next hle]
  rfl

/-- The subscriber is given what it should be, after one lag at most. -/
theorem read {w : Follower α} (h : f.Stands k base w.events w.next) (hf : f.Sound) :
    (f.read k).1 = (w.read f.capacity).1 ∧
      (f.read k).2.Stands k base w.events (w.read f.capacity).2.next ∧
      ∃ lags ≤ 1, Reads k f lags (f.read k).1 (f.read k).2 := by
  have hroom := hf.room
  have hforgotten := hf.forgotten
  have hpublished := h.published
  have hnext := h.next_le
  by_cases hlag : base + w.next < f.forgotten
  · -- The next event is no longer kept, but the oldest that is kept came after it.
    have hup : w.upcoming f.capacity = f.forgotten - base := by rw [Follower.upcoming]; omega
    have hbase : base + (f.forgotten - base) = f.forgotten := by omega
    have hlt : f.forgotten - base < w.events.length := by
      rw [Feed.published] at hpublished hforgotten
      omega
    obtain ⟨a, ha⟩ : ∃ a, w.events[f.forgotten - base]? = some a :=
      ⟨_, List.getElem?_eq_getElem hlt⟩
    have hmoved := h.moveTo (Nat.le_of_lt hlt)
    rw [hbase] at hmoved
    have hfirst := h.attempt_of_lt hlag
    have hsecond := hmoved.attempt_of_le (Nat.le_of_eq hbase.symm)
    rw [ha] at hsecond
    have hread : f.read k =
        (some a, (f.moveTo k f.forgotten).moveTo k (base + (f.forgotten - base + 1))) := by
      rw [Feed.read, hfirst]
      dsimp only
      rw [hsecond]
    rw [Follower.read_of_some (hup ▸ ha), hread, hup, Follower.next_concat]
    exact ⟨rfl, hmoved.moveTo hlt, 1, Nat.le_refl 1, .lagged hfirst (.event hsecond)⟩
  · have hle := Nat.not_lt.mp hlag
    have hup : w.upcoming f.capacity = w.next := by rw [Follower.upcoming]; omega
    have hfirst := h.attempt_of_le hle
    cases ha : w.events[w.next]? with
    | some a =>
      rw [ha] at hfirst
      have hread : f.read k = (some a, f.moveTo k (base + (w.next + 1))) := by
        rw [Feed.read, hfirst]
      rw [Follower.read_of_some (hup.symm ▸ ha), hread, hup, Follower.next_concat]
      have hlt := (List.getElem?_eq_some_iff.mp ha).1
      exact ⟨rfl, h.moveTo hlt, 0, Nat.zero_le 1, .event hfirst⟩
    | none =>
      rw [ha] at hfirst
      have hread : f.read k = (none, f) := by rw [Feed.read, hfirst]
      rw [Follower.read_of_none (hup.symm ▸ ha), hread]
      exact ⟨rfl, h, 0, Nat.zero_le 1, .nothing hfirst⟩

/-- Each further read goes on behind the one before, until there is nothing more or it is enough. -/
theorem readMany {w : Follower α} (h : f.Stands k base w.events w.next) (hf : f.Sound) (limit : Nat) :
    (f.readMany k limit).1 = (w.events.drop (w.upcoming f.capacity)).take limit := by
  induction limit generalizing f w with
  | zero => rfl
  | succ limit ih =>
    obtain ⟨hread, hstands, _⟩ := h.read hf
    have hothers : AlikeFor (k + 1) (f.read k).2 f := AlikeFor.read_of_ne f (Nat.succ_ne_self k)
    rw [Feed.readMany]
    cases ha : w.events[w.upcoming f.capacity]? with
    | none =>
      rw [Follower.read_of_none ha] at hread
      rw [List.drop_eq_nil_of_le (List.getElem?_eq_none_iff.mp ha), List.take_nil]
      split
      · rfl
      · next he =>
        rw [he] at hread
        cases hread
    | some a =>
      let w' : Follower α := ⟨w.events, w.given ++ [w.upcoming f.capacity]⟩
      rw [Follower.read_of_some ha] at hread hstands
      have hrest := ih (w := w') hstands (hothers.symm.sound hf)
      have hnext : w'.upcoming f.capacity = w.upcoming f.capacity + 1 := by
        rw [Follower.upcoming, Follower.next_concat]
        exact Nat.max_eq_left (Nat.le_succ_of_le (Nat.le_max_right ..))
      obtain ⟨hlt, rfl⟩ := List.getElem?_eq_some_iff.mp ha
      rw [hothers.capacity, hnext] at hrest
      rw [List.drop_eq_getElem_cons hlt, List.take_succ_cons, ← hrest]
      split
      · next he =>
        rw [he] at hread
        cases hread
      · next he =>
        rw [he] at hread ⊢
        cases hread
        rfl

/-- Who reads until there is nothing more gets all that is still kept of what it has not been given. -/
theorem drain {w : Follower α} (h : f.Stands k base w.events w.next) (hf : f.Sound) :
    (f.drain k).1 = w.events.drop (w.upcoming f.capacity) := by
  have hforgotten := hf.forgotten
  have hpublished := h.published
  rw [Feed.drain, h.readMany hf]
  refine List.take_of_length_le ?_
  rw [List.length_drop, Follower.upcoming]
  rw [Feed.published] at hforgotten hpublished
  omega

end Stands

/-- Who subscribes at some time and reads later gets the events in between that are still kept. -/
theorem drain_subscribe {room : Nat} {events : List α} (h : f.Keeps room events) (hroom : 0 < room)
    (later : List α) : ((later.foldl publish f.subscribe.2).drain f.subscribe.1).1 =
      later.drop (later.length - room) := by
  have hkeeps := h.subscribe.foldl_publish later
  have hstands := (Stands.subscribe f).foldl_publish later
  rw [List.nil_append] at hstands
  rw [hstands.drain (w := ⟨later, []⟩) (hkeeps.sound hroom), hkeeps.capacity]
  exact congrArg (later.drop ·) (Nat.zero_max _)

end Feed

end ScopedResources
