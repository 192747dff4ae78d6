/-!
# Mailboxes

A mailbox holds a limited number of messages. Senders that find it full wait in order: a place that
becomes free is promised to the first of them, who takes it when its turn comes. A closed mailbox
takes nothing more, and those who still wait have to leave.
-/

namespace ScopedResources

structure Mailbox (α : Type) where
  capacity : Nat
  /-- Messages that have been taken in. -/
  queue : List α
  /-- Messages that have been promised a place. -/
  called : List α
  /-- Messages that wait for a place. -/
  waiting : List α
  isOpen : Bool
deriving Repr

namespace Mailbox

variable {α : Type}

def empty (capacity : Nat) : Mailbox α := ⟨capacity, [], [], [], true⟩

/-- Some place is neither taken nor promised. -/
def hasRoom (m : Mailbox α) : Bool := decide (m.queue.length + m.called.length < m.capacity)

/-- All messages, in the order in which they will be handled if everyone who is called comes at
once. -/
def contents (m : Mailbox α) : List α := m.queue ++ m.called ++ m.waiting

/-- The messages that have not been taken in. -/
def outside (m : Mailbox α) : List α := m.called ++ m.waiting

theorem contents_eq (m : Mailbox α) : m.contents = m.queue ++ m.outside := List.append_assoc ..

/-- Takes a message in, or lets its sender wait. -/
def post (m : Mailbox α) (a : α) : Mailbox α :=
  if m.hasRoom then { m with queue := m.queue ++ [a] }
  else { m with waiting := m.waiting ++ [a] }

theorem contents_post (m : Mailbox α) (a : α) : (m.post a).contents.Perm (a :: m.contents) := by
  unfold post contents
  split
  · simp
  · simpa using List.perm_append_singleton a (m.queue ++ m.called ++ m.waiting)

/-- A message that is posted is taken in if there is room, and waits behind the others if not. -/
theorem queue_post (m : Mailbox α) (a : α) : ∃ taken, (m.post a).queue = m.queue ++ taken ∧
    taken.Sublist [a] ∧ (a :: m.outside).Perm (taken ++ (m.post a).outside) := by
  unfold post outside
  split
  · exact ⟨[a], rfl, .refl _, .refl _⟩
  · refine ⟨[], (List.append_nil _).symm, List.nil_sublist _, ?_⟩
    simpa using (List.perm_append_singleton a (m.called ++ m.waiting)).symm

theorem isOpen_post (m : Mailbox α) (a : α) : (m.post a).isOpen = m.isOpen := by
  unfold post
  split <;> rfl

/-- Promises a free place to the first message that waits. -/
def callNext (m : Mailbox α) : Mailbox α :=
  match m.waiting with
  | [] => m
  | a :: rest => { m with called := m.called ++ [a], waiting := rest }

@[simp]
theorem queue_callNext (m : Mailbox α) : m.callNext.queue = m.queue := by
  unfold callNext
  split <;> rfl

@[simp]
theorem outside_callNext (m : Mailbox α) : m.callNext.outside = m.outside := by
  unfold callNext outside
  split <;> simp_all

@[simp]
theorem isOpen_callNext (m : Mailbox α) : m.callNext.isOpen = m.isOpen := by
  unfold callNext
  split <;> rfl

@[simp]
theorem contents_callNext (m : Mailbox α) : m.callNext.contents = m.contents := by
  rw [contents_eq, contents_eq, queue_callNext, outside_callNext]

def enter (m : Mailbox α) (p : α → Bool) : Mailbox α :=
  { m with queue := m.queue ++ m.called.filter p, called := m.called.filter fun a => !p a }

theorem contents_enter (m : Mailbox α) (p : α → Bool) : (m.enter p).contents.Perm m.contents := by
  have h := (List.filter_append_perm p m.called).append_right m.waiting |>.append_left m.queue
  simpa [enter, contents] using h

theorem outside_enter (m : Mailbox α) (p : α → Bool) :
    m.outside.Perm (m.called.filter p ++ (m.enter p).outside) := by
  have h := (List.filter_append_perm p m.called).symm.append_right m.waiting
  rwa [List.append_assoc] at h

/-- Removes the first message. Its place is promised on. -/
def dropFirst (m : Mailbox α) : Mailbox α :=
  match m.queue with
  | [] => m
  | _ :: rest => { m with queue := rest }.callNext

theorem queue_dropFirst (m : Mailbox α) : m.dropFirst.queue = m.queue.tail := by
  unfold dropFirst
  split
  · next h => rw [h]; rfl
  · next h => rw [h]; exact queue_callNext _

theorem outside_dropFirst (m : Mailbox α) : m.dropFirst.outside = m.outside := by
  unfold dropFirst
  split
  · rfl
  · exact outside_callNext _

theorem mem_contents_of_dropFirst {m : Mailbox α} {a : α} (h : a ∈ m.dropFirst.contents) :
    a ∈ m.contents := by
  rw [contents_eq, queue_dropFirst, outside_dropFirst, List.mem_append] at h
  rw [contents_eq, List.mem_append]
  exact h.imp_left List.mem_of_mem_tail

theorem isOpen_dropFirst (m : Mailbox α) : m.dropFirst.isOpen = m.isOpen := by
  unfold dropFirst
  split
  · rfl
  · exact isOpen_callNext _

/-- Messages are handled in the order of the contents. -/
theorem contents_dropFirst {m : Mailbox α} (h : m.queue ≠ []) :
    m.dropFirst.contents = m.contents.tail := by
  unfold dropFirst
  split
  · contradiction
  · next hq => rw [contents_callNext]; simp [contents, hq]

/-- Gives up what was taken in and takes no more. Nobody has a place any longer. -/
def close (m : Mailbox α) : Mailbox α :=
  { m with queue := [], called := [], waiting := m.called ++ m.waiting, isOpen := false }

def leave (m : Mailbox α) (p : α → Bool) : Mailbox α :=
  { m with waiting := m.waiting.filter fun a => !p a }

/-- Takes back a message of this kind that has not been taken in. A place that was promised to it is
promised on. -/
def withdraw (m : Mailbox α) (p : α → Bool) : Mailbox α :=
  if m.called.any p then { m with called := m.called.eraseP p }.callNext else m.leave p

/-- Only messages of the kind are taken back, and at least one if there is any. -/
theorem outside_withdraw (m : Mailbox α) (p : α → Bool) :
    ∃ taken, m.outside.Perm (taken ++ (m.withdraw p).outside) ∧ (∀ a ∈ taken, p a) ∧
      (taken = [] → ∀ a ∈ (m.withdraw p).outside, ¬p a) := by
  unfold withdraw
  split
  · next h =>
    obtain ⟨a, ha, hp⟩ := List.any_eq_true.mp h
    obtain ⟨b, l₁, l₂, hl₁, hb, hcalled, herase⟩ := List.exists_of_eraseP ha hp
    refine ⟨[b], ?_, by simpa using hb, by simp⟩
    rw [outside_callNext, outside, outside, herase, hcalled]
    simp
  · next h =>
    refine ⟨m.waiting.filter p, ?_, fun a ha => (List.mem_filter.mp ha).2, fun _ a ha hp => ?_⟩
    · have hw := (List.filter_append_perm p m.waiting).symm.append_left m.called
      refine hw.trans ?_
      rw [leave, outside, ← List.append_assoc, ← List.append_assoc]
      exact List.perm_append_comm.append_right _
    · rcases List.mem_append.mp ha with ha | ha
      · exact h (List.any_eq_true.mpr ⟨a, ha, hp⟩)
      · simp [leave, hp] at ha

theorem queue_withdraw (m : Mailbox α) (p : α → Bool) : (m.withdraw p).queue = m.queue := by
  unfold withdraw
  split
  · exact queue_callNext _
  · rfl

theorem mem_contents_of_withdraw {m : Mailbox α} {p : α → Bool} {a : α}
    (h : a ∈ (m.withdraw p).contents) : a ∈ m.contents := by
  rw [contents_eq, queue_withdraw, List.mem_append] at h
  rw [contents_eq, List.mem_append]
  obtain ⟨taken, hperm, _⟩ := m.outside_withdraw p
  exact h.imp_right fun h => hperm.mem_iff.mpr (List.mem_append_right _ h)

theorem isOpen_withdraw (m : Mailbox α) (p : α → Bool) : (m.withdraw p).isOpen = m.isOpen := by
  unfold withdraw
  split
  · exact isOpen_callNext _
  · rfl

end Mailbox

end ScopedResources
