import Mathlib.Data.List.Basic

/-!
# First-In First-Out Queues of Bounded Capacity

The single-producer single-consumer queue seen as a value: a list of at most `cap`
items, oldest first. The bound is a field, so an overfull queue cannot be built and
`push` has to answer what it does when there is no room.
-/

/-- A queue of at most `cap` items, oldest first. -/
structure BoundedQueue (α : Type*) (cap : ℕ) where
  /-- the queued items, oldest first -/
  items : List α
  /-- the queue is never overfull -/
  length_le : items.length ≤ cap
  deriving DecidableEq

namespace BoundedQueue

variable {α : Type*} {cap : ℕ}

/-- Queues with the same items are the same. -/
@[ext] theorem ext {q r : BoundedQueue α cap} (h : q.items = r.items) : q = r := by
  cases q
  cases r
  cases h
  rfl

/-- The queue without items; also what consuming every item leaves. -/
def empty : BoundedQueue α cap := ⟨[], Nat.zero_le _⟩

/-- The empty queue has no items. -/
@[simp] theorem items_empty : (empty : BoundedQueue α cap).items = [] := rfl

/-- Append one item, or `none` when the queue is full. -/
def push (q : BoundedQueue α cap) (x : α) : Option (BoundedQueue α cap) :=
  if h : q.items.length < cap then
    some ⟨q.items ++ [x], by rw [List.length_append, List.length_singleton]; exact h⟩
  else none

/-- A push succeeds exactly when there is room, and then appends. -/
theorem push_eq_some_iff {q r : BoundedQueue α cap} {x : α} :
    q.push x = some r ↔ q.items.length < cap ∧ r.items = q.items ++ [x] := by
  rw [push]
  split
  · rename_i h
    constructor
    · intro hr
      obtain rfl := Option.some.inj hr
      exact ⟨h, rfl⟩
    · rintro ⟨-, hr⟩
      exact congrArg some (ext hr.symm)
  · rename_i h
    exact ⟨fun hr => (nomatch hr), fun hr => absurd hr.1 h⟩

/-- A push fails exactly when the queue is full. -/
theorem push_eq_none_iff {q : BoundedQueue α cap} {x : α} :
    q.push x = none ↔ q.items.length = cap := by
  have hle := q.length_le
  rw [push]
  split
  · rename_i h
    exact ⟨fun hr => (nomatch hr), fun hr => absurd hr (Nat.ne_of_lt h)⟩
  · rename_i h
    exact ⟨fun _ => Nat.le_antisymm hle (Nat.le_of_not_lt h), fun _ => rfl⟩

/-- Append a list of items, or `none` when they do not all fit. -/
def pushAll (q : BoundedQueue α cap) (xs : List α) : Option (BoundedQueue α cap) :=
  if h : q.items.length + xs.length ≤ cap then
    some ⟨q.items ++ xs, by rw [List.length_append]; exact h⟩
  else none

/-- All items are pushed exactly when there is room for them. -/
theorem pushAll_eq_some_iff {q r : BoundedQueue α cap} {xs : List α} :
    q.pushAll xs = some r ↔
      q.items.length + xs.length ≤ cap ∧ r.items = q.items ++ xs := by
  rw [pushAll]
  split
  · rename_i h
    constructor
    · intro hr
      obtain rfl := Option.some.inj hr
      exact ⟨h, rfl⟩
    · rintro ⟨-, hr⟩
      exact congrArg some (ext hr.symm)
  · rename_i h
    exact ⟨fun hr => (nomatch hr), fun hr => absurd hr.1 h⟩

/-- Take the oldest item, or `none` when the queue is empty. -/
def pop (q : BoundedQueue α cap) : Option (α × BoundedQueue α cap) :=
  match q with
  | ⟨[], _⟩ => none
  | ⟨x :: xs, h⟩ => some (x, ⟨xs, Nat.le_of_succ_le h⟩)

/-- A pop succeeds exactly on a nonempty queue, and then takes the head. -/
theorem pop_eq_some_iff {q r : BoundedQueue α cap} {x : α} :
    q.pop = some (x, r) ↔ q.items = x :: r.items := by
  obtain ⟨items, hle⟩ := q
  cases items with
  | nil => simp [pop]
  | cons y ys =>
      obtain ⟨ritems, hr⟩ := r
      simp [pop]

/-- A pop fails exactly when the queue is empty. -/
theorem pop_eq_none_iff {q : BoundedQueue α cap} : q.pop = none ↔ q.items = [] := by
  obtain ⟨items, hle⟩ := q
  cases items <;> simp [pop]

end BoundedQueue
