import Mathlib.Order.Basic
import Mathlib.Data.Nat.Init

/-!
# Locks and Cyclic Waits

Threads hold locks and ask for locks. A **cyclic wait** is a set of threads that all hold a
lock and all ask for one that another thread of the set holds: none of them will ever go on
by itself. `not_cyclicWait_of_rank` rules one out by a rank that falls from each thread to
the one it waits for, and `cyclicWait_pair` is the smallest one.

A `RecursiveMutex` may be locked again by the thread that holds it, and is free once it was
unlocked as often; `depth` counts for a thread how often it holds it.
-/

namespace Locks

variable {θ ι : Type*}

/-! ### Cyclic waits -/

/-- Who holds and who asks for which lock. -/
structure Table (θ ι : Type*) where
  holds : θ → ι → Prop
  asks : θ → ι → Prop

namespace Table

/-- A thread waits for another one: it asks for a lock that the other one holds. -/
def WaitsFor (t : Table θ ι) (T U : θ) : Prop := U ≠ T ∧ ∃ l, t.asks T l ∧ t.holds U l

/-- **A cyclic wait**: threads that all hold a lock and wait for one another. -/
def CyclicWait (t : Table θ ι) : Prop :=
  ∃ X : Set θ, X.Nonempty ∧ ∀ T ∈ X, (∃ l, t.holds T l) ∧ ∃ U ∈ X, t.WaitsFor T U

variable {t : Table θ ι}

/-- **The rank rule**: a rank that falls along every wait among threads that hold a lock, and
wait themselves, rules out a cyclic wait. -/
theorem not_cyclicWait_of_rank (rank : θ → ℕ)
    (hrank : ∀ T U V, (∃ l, t.holds T l) → t.WaitsFor T U → t.WaitsFor U V → rank U < rank T) :
    ¬t.CyclicWait := by
  rintro ⟨X, ⟨T, hT⟩, hX⟩
  -- a thread of the set of least rank
  have hleast : ∀ n, ∀ T ∈ X, rank T = n → False := by
    intro n
    induction n using Nat.strong_induction_on with
    | h n ih =>
        intro T hT hn
        obtain ⟨hholds, U, hU, hwaits⟩ := hX T hT
        obtain ⟨-, V, -, hwaits'⟩ := hX U hU
        exact ih (rank U) (hn ▸ hrank T U V hholds hwaits hwaits') U hU rfl
  exact hleast _ T hT rfl

/-- Two threads that each ask for a lock of the other one. -/
theorem cyclicWait_pair {T U : θ} {l m : ι} (hne : T ≠ U) (hT : t.holds T l) (hU : t.holds U m)
    (hTasks : t.asks T m) (hUasks : t.asks U l) : t.CyclicWait := by
  refine ⟨{T, U}, ⟨T, .inl rfl⟩, ?_⟩
  rintro V (rfl | rfl)
  · exact ⟨⟨l, hT⟩, U, .inr rfl, hne.symm, m, hTasks, hU⟩
  · exact ⟨⟨m, hU⟩, T, .inl rfl, hne, l, hUasks, hT⟩

end Table

/-! ### Recursive mutexes -/

/-- A recursive mutex: free, or held by a thread that locked it again so many times. -/
inductive RecursiveMutex (θ : Type*)
  | free
  | held (owner : θ) (again : ℕ)
  deriving DecidableEq

namespace RecursiveMutex

variable [DecidableEq θ] {m m' : RecursiveMutex θ} {T U : θ}

/-- Locking; `none` while another thread holds the mutex. -/
def lock (T : θ) : RecursiveMutex θ → Option (RecursiveMutex θ)
  | .free => some (.held T 0)
  | .held U n => if U = T then some (.held T (n + 1)) else none

/-- Unlocking, by the thread that holds the mutex. -/
def unlock : RecursiveMutex θ → RecursiveMutex θ
  | .free => .free
  | .held _ 0 => .free
  | .held T (n + 1) => .held T n

/-- How often a thread holds the mutex. -/
def depth (T : θ) : RecursiveMutex θ → ℕ
  | .free => 0
  | .held U n => if U = T then n + 1 else 0

/-- Locking counts for the thread that locks. -/
theorem depth_lock_self (h : m.lock T = some m') : m'.depth T = m.depth T + 1 := by
  cases m with
  | free =>
      obtain rfl := Option.some.inj h
      simp [depth]
  | held U n =>
      rw [lock] at h
      split at h
      · rename_i heq
        obtain rfl := Option.some.inj h
        simp [depth, heq]
      · cases h

/-- It does not count for the others. -/
theorem depth_lock_of_ne (h : m.lock T = some m') (hne : U ≠ T) : m'.depth U = m.depth U := by
  cases m with
  | free =>
      obtain rfl := Option.some.inj h
      simp [depth, hne.symm]
  | held V n =>
      rw [lock] at h
      split at h
      · rename_i heq
        obtain rfl := Option.some.inj h
        simp [depth, heq, hne.symm]
      · cases h

/-- A mutex that another thread holds cannot be locked. -/
theorem lock_of_held (h : 0 < m.depth U) (hne : U ≠ T) : m.lock T = none := by
  cases m with
  | free => exact absurd h (Nat.lt_irrefl 0)
  | held V n =>
      rw [depth] at h
      split at h
      · rename_i heq
        rw [lock, if_neg (heq ▸ hne)]
      · exact absurd h (Nat.lt_irrefl 0)

/-- Only one thread holds a mutex. -/
theorem eq_of_depth_pos (hT : 0 < m.depth T) (hU : 0 < m.depth U) : T = U := by
  by_contra hne
  have hnone := lock_of_held hU (Ne.symm hne)
  cases m with
  | free => exact absurd hT (Nat.lt_irrefl 0)
  | held V n =>
      rw [lock] at hnone
      split at hnone
      · cases hnone
      · rename_i hVT
        rw [depth, if_neg hVT] at hT
        exact absurd hT (Nat.lt_irrefl 0)

/-- Unlocking counts for the thread that holds the mutex. -/
theorem depth_unlock_self (h : 0 < m.depth T) : m.unlock.depth T + 1 = m.depth T := by
  cases m with
  | free => exact absurd h (Nat.lt_irrefl 0)
  | held U n =>
      rw [depth] at h ⊢
      split at h
      · rename_i heq
        subst heq
        cases n with
        | zero => simp [unlock, depth]
        | succ n => simp [unlock, depth]
      · exact absurd h (Nat.lt_irrefl 0)

/-- It does not count for the others. -/
theorem depth_unlock_of_ne (h : 0 < m.depth T) (hne : U ≠ T) :
    m.unlock.depth U = m.depth U := by
  cases m with
  | free => rfl
  | held V n =>
      rw [depth] at h
      split at h
      · rename_i heq
        subst heq
        cases n with
        | zero => simp [unlock, depth, hne.symm]
        | succ n => simp [unlock, depth, hne.symm]
      · exact absurd h (Nat.lt_irrefl 0)

end RecursiveMutex

end Locks
