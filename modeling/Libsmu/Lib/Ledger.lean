import Mathlib.Data.List.Range

/-!
# Ledgers of Owned Resources

Resources are numbered in the order in which they are obtained. A `Ledger` says how many that
were, which of them are owned still and which were released, in that order. It is `Balanced`
when each resource is in exactly one of the two places, once: nothing is lost, and nothing is
released twice.

## Main results

* `Balanced.acquire`, `Balanced.release`, `Balanced.releaseAll`: what keeps a ledger balanced.
* `Balanced.count_released`: when a balanced ledger owns nothing, each resource was released
  exactly once.
-/

/-- What was obtained, what is owned still and what was released. -/
@[ext] structure Ledger where
  obtained : ℕ
  owned : List ℕ
  released : List ℕ

namespace Ledger

open scoped List

variable {l : Ledger}

/-- Nothing was obtained yet. -/
def empty : Ledger := ⟨0, [], []⟩

/-- Obtaining `k` resources. -/
def acquire (k : ℕ) (l : Ledger) : Ledger :=
  { l with obtained := l.obtained + k, owned := l.owned ++ List.range' l.obtained k }

/-- Releasing one resource. -/
def release (t : ℕ) (l : Ledger) : Ledger :=
  { l with owned := l.owned.erase t, released := l.released ++ [t] }

/-- Releasing everything that is owned. -/
def releaseAll (l : Ledger) : Ledger :=
  { l with owned := [], released := l.released ++ l.owned }

/-- Every resource that was obtained is owned or was released, and that once. -/
def Balanced (l : Ledger) : Prop :=
  l.owned ++ l.released ~ List.range l.obtained

theorem balanced_empty : empty.Balanced := List.Perm.refl _

theorem Balanced.acquire (h : l.Balanced) (k : ℕ) : (l.acquire k).Balanced := by
  have hrange : List.range (l.obtained + k) =
      List.range l.obtained ++ List.range' l.obtained k := by
    rw [List.range_eq_range', List.range_eq_range', ← List.range'_append_1, Nat.zero_add]
  calc l.owned ++ List.range' l.obtained k ++ l.released
    _ = l.owned ++ (List.range' l.obtained k ++ l.released) := List.append_assoc ..
    _ ~ l.owned ++ (l.released ++ List.range' l.obtained k) :=
        List.perm_append_comm.append_left _
    _ = l.owned ++ l.released ++ List.range' l.obtained k := (List.append_assoc ..).symm
    _ ~ List.range l.obtained ++ List.range' l.obtained k := h.append_right _
    _ = List.range (l.obtained + k) := hrange.symm

/-- Releasing keeps the balance, if it is one of the owned resources that is released. -/
theorem Balanced.release (h : l.Balanced) {t : ℕ} (ht : t ∈ l.owned) :
    (l.release t).Balanced := by
  calc l.owned.erase t ++ (l.released ++ [t])
    _ = l.owned.erase t ++ l.released ++ [t] := (List.append_assoc ..).symm
    _ ~ t :: l.owned.erase t ++ l.released := List.perm_append_singleton ..
    _ ~ l.owned ++ l.released := (List.perm_cons_erase ht).symm.append_right _
    _ ~ List.range l.obtained := h

theorem Balanced.releaseAll (h : l.Balanced) : l.releaseAll.Balanced := by
  calc l.released ++ l.owned
    _ ~ l.owned ++ l.released := List.perm_append_comm
    _ ~ List.range l.obtained := h

theorem Balanced.nodup (h : l.Balanced) : (l.owned ++ l.released).Nodup :=
  h.nodup_iff.mpr List.nodup_range

/-- What is owned was obtained. -/
theorem Balanced.lt_obtained (h : l.Balanced) {t : ℕ} (ht : t ∈ l.owned) : t < l.obtained :=
  List.mem_range.mp (h.mem_iff.mp (List.mem_append_left _ ht))

/-- **Released exactly once.** -/
theorem Balanced.count_released (h : l.Balanced) (howned : l.owned = []) (t : ℕ) :
    l.released.count t = if t < l.obtained then 1 else 0 := by
  rw [Balanced, howned, List.nil_append] at h
  rw [h.count_eq, List.count_range]

end Ledger
