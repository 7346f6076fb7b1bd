import Libsmu.Lib.Emitter
import Mathlib.Algebra.Ring.Nat
import Mathlib.Logic.Function.Iterate
import Mathlib.Tactic.ByContra

/-!
# Loops with a Counter of Few Bits

A loop that counts from 0 to a bound and appends one value in each pass, where the counter
has `w` bits and the bound need not fit in them. `pass` is one pass, and `countedLoop` the
loop with so many tests of its condition.

## Main results

* `makes_iff`: how many passes the loop makes.
* `countedLoop_eq_some_iff`: it ends exactly for a bound that the counter can hold, with as
  many values.
* `countedLoop_map`: a loop over states that are named otherwise does the same.
-/

namespace CountedLoop

variable {σ β : Type*}

/-- What a loop holds between its passes: the counter, the state that the values are drawn
from, and what has been appended to. -/
@[ext] structure Frame (σ β : Type*) where
  counter : ℕ
  state : σ
  out : List β

/-- One pass. -/
def pass (w : ℕ) (f : σ → β × σ) (x : Frame σ β) : Frame σ β :=
  ⟨(x.counter + 1) % 2 ^ w, (f x.state).2, x.out ++ [(f x.state).1]⟩

/-- The loop, where the condition is tested fewer times than the fuel says. -/
def countedLoop (w bound : ℕ) (f : σ → β × σ) : ℕ → Frame σ β → Option (σ × List β)
  | 0, _ => none
  | fuel + 1, x =>
    if x.counter < bound then countedLoop w bound f fuel (pass w f x) else some (x.state, x.out)

/-- The loop makes `k` passes from the frame on. -/
def Makes (w bound : ℕ) (f : σ → β × σ) (k : ℕ) (x : Frame σ β) : Prop :=
  ∀ j < k, ((pass w f)^[j] x).counter < bound

variable {w bound : ℕ} {f : σ → β × σ}

/-- **What the passes leave**: a counter that has wrapped, and the values in order. -/
theorem pass_iterate (s : σ) (out : List β) (k : ℕ) :
    (pass w f)^[k] ⟨0, s, out⟩ = ⟨k % 2 ^ w, (emit f k s).2, out ++ (emit f k s).1⟩ := by
  induction k with
  | zero => simp
  | succ k ih =>
      rw [Function.iterate_succ_apply', ih, emit]
      simp [pass]

/-- **How many passes there are**: up to a bound that the counter can hold, and without end
otherwise. -/
theorem makes_iff {s : σ} {out : List β} {k : ℕ} :
    Makes w bound f k ⟨0, s, out⟩ ↔ k ≤ bound ∨ 2 ^ w ≤ bound := by
  simp only [Makes, pass_iterate]
  constructor
  · intro h
    by_contra! hlt
    have hmod := h bound hlt.1
    rw [Nat.mod_eq_of_lt hlt.2] at hmod
    exact lt_irrefl _ hmod
  · rintro (hle | hge) j hj
    · exact Nat.lt_of_le_of_lt (Nat.mod_le _ _) (Nat.lt_of_lt_of_le hj hle)
    · exact Nat.lt_of_lt_of_le (Nat.mod_lt _ (Nat.two_pow_pos w)) hge

/-- The passes that the loop makes can be made before it is looked at. -/
theorem countedLoop_of_makes {fuel k : ℕ} {x : Frame σ β} (h : Makes w bound f k x) :
    countedLoop w bound f (k + fuel) x = countedLoop w bound f fuel ((pass w f)^[k] x) := by
  induction k generalizing x with
  | zero => rw [Nat.zero_add, Function.iterate_zero_apply]
  | succ k ih =>
      have hfirst : x.counter < bound := h 0 (by omega)
      have hrest : Makes w bound f k (pass w f x) := fun j hj => h (j + 1) (by omega)
      rw [Nat.add_right_comm, countedLoop, if_pos hfirst, ih hrest, Function.iterate_succ_apply]

theorem countedLoop_eq_none {fuel : ℕ} {x : Frame σ β} (h : Makes w bound f fuel x) :
    countedLoop w bound f fuel x = none := by
  rw [← Nat.add_zero fuel, countedLoop_of_makes h, countedLoop]

/-- **The loop ends exactly for a bound that its counter can hold**, with as many values. -/
theorem countedLoop_eq_some_iff {s t : σ} {out out' : List β} {fuel : ℕ} :
    countedLoop w bound f fuel ⟨0, s, out⟩ = some (t, out') ↔
      bound < 2 ^ w ∧ bound < fuel ∧
        (t, out') = ((emit f bound s).2, out ++ (emit f bound s).1) := by
  rcases Nat.lt_or_ge bound (2 ^ w) with hlt | hge
  · rcases Nat.lt_or_ge bound fuel with hfuel | hfuel
    · obtain ⟨rest, rfl⟩ := Nat.exists_eq_add_of_lt hfuel
      rw [Nat.add_assoc, countedLoop_of_makes (makes_iff.2 (.inl le_rfl)), pass_iterate,
        Nat.mod_eq_of_lt hlt, countedLoop, if_neg (lt_irrefl _), Option.some.injEq, eq_comm,
        and_iff_right hlt, and_iff_right (by omega)]
    · rw [countedLoop_eq_none (makes_iff.2 (.inl hfuel))]
      exact iff_of_false (by simp) fun h => hfuel.not_gt h.2.1
  · rw [countedLoop_eq_none (makes_iff.2 (.inr hge))]
    exact iff_of_false (by simp) fun h => hge.not_gt h.1

/-- Given enough tests, it ends. -/
theorem exists_countedLoop_iff {s t : σ} {out out' : List β} :
    (∃ fuel, countedLoop w bound f fuel ⟨0, s, out⟩ = some (t, out')) ↔
      bound < 2 ^ w ∧ (t, out') = ((emit f bound s).2, out ++ (emit f bound s).1) := by
  simp only [countedLoop_eq_some_iff]
  constructor
  · rintro ⟨fuel, hlt, -, h⟩
    exact ⟨hlt, h⟩
  · rintro ⟨hlt, h⟩
    exact ⟨bound + 1, hlt, Nat.lt_succ_self _, h⟩

/-- **The rule of renamed states**: a loop whose values are drawn alike from states that are
named otherwise appends the same and leaves the state that is named so. -/
theorem countedLoop_map {τ : Type*} {g : τ → β × τ} {h : σ → τ}
    (hstep : ∀ s, g (h s) = ((f s).1, h (f s).2)) {fuel i : ℕ} {s : σ} {out : List β} :
    countedLoop w bound g fuel ⟨i, h s, out⟩ =
      (countedLoop w bound f fuel ⟨i, s, out⟩).map fun r => (h r.1, r.2) := by
  induction fuel generalizing i s out with
  | zero => rfl
  | succ fuel ih =>
      rw [countedLoop, countedLoop]
      split_ifs with hlt
      · rw [pass, hstep]
        exact ih
      · rfl

end CountedLoop
