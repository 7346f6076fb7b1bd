import Mathlib.Data.List.Basic
import Mathlib.Data.Nat.Init

/-!
# Emitters

A loop that produces one value per iteration, seen as a function
`f : σ → β × σ` giving the value and the next state. `emit f n s` is what `n`
iterations from `s` produce and the state they end in.

## Main results

* `emit_simulation`: two emitters that agree step by step emit the same values.
* `emit_invariant`: what every iteration preserves holds after any number of them.
* `emit_forall`: what every iteration makes true of its value is true of all values.
-/

variable {σ τ β : Type*}

/-- The values that `n` iterations of `f` from `s` produce, and the state after them. -/
def emit (f : σ → β × σ) : ℕ → σ → List β × σ
  | 0, s => ([], s)
  | n + 1, s => ((emit f n s).1 ++ [(f (emit f n s).2).1], (f (emit f n s).2).2)

@[simp] theorem emit_zero (f : σ → β × σ) (s : σ) : emit f 0 s = ([], s) := rfl

theorem emit_succ_fst (f : σ → β × σ) (n : ℕ) (s : σ) :
    (emit f (n + 1) s).1 = (emit f n s).1 ++ [(f (emit f n s).2).1] := rfl

theorem emit_succ_snd (f : σ → β × σ) (n : ℕ) (s : σ) :
    (emit f (n + 1) s).2 = (f (emit f n s).2).2 := rfl

/-- One value per iteration. -/
@[simp] theorem length_emit (f : σ → β × σ) (n : ℕ) (s : σ) : (emit f n s).1.length = n := by
  induction n with
  | zero => rfl
  | succ n ih => rw [emit_succ_fst, List.length_append, ih, List.length_singleton]

/-- Iterations go on from the state that others have left. -/
theorem emit_add (f : σ → β × σ) (n m : ℕ) (s : σ) :
    emit f (n + m) s =
      ((emit f n s).1 ++ (emit f m (emit f n s).2).1, (emit f m (emit f n s).2).2) := by
  induction m with
  | zero => simp
  | succ m ih => rw [← Nat.add_assoc, emit, ih, emit, List.append_assoc]

/-- **The invariant rule of a counted loop**, for a property that may mention how many
iterations have been made. -/
theorem emit_invariant {f : σ → β × σ} {n : ℕ} {s : σ} (P : ℕ → σ → Prop) (h0 : P 0 s)
    (hstep : ∀ k < n, ∀ t, P k t → P (k + 1) (f t).2) : P n (emit f n s).2 := by
  induction n with
  | zero => exact h0
  | succ n ih =>
      have hn := ih fun k hk => hstep k (Nat.lt_succ_of_lt hk)
      exact hstep n (Nat.lt_succ_self n) _ hn

/-- **The output rule of a counted loop**: what every iteration keeps, and makes true of the
value that it produces, holds of all values. -/
theorem emit_forall {f : σ → β × σ} {P : σ → Prop} {Q : β → Prop}
    (hstep : ∀ t, P t → Q (f t).1 ∧ P (f t).2) (n : ℕ) {s : σ} (hs : P s) :
    (∀ y ∈ (emit f n s).1, Q y) ∧ P (emit f n s).2 := by
  induction n with
  | zero => exact ⟨fun y hy => absurd hy List.not_mem_nil, hs⟩
  | succ n ih =>
      obtain ⟨hvals, hend⟩ := ih
      refine ⟨fun y hy => ?_, (hstep _ hend).2⟩
      rw [emit_succ_fst] at hy
      rcases List.mem_append.mp hy with hy | hy
      · exact hvals y hy
      · rw [List.mem_singleton.mp hy]
        exact (hstep _ hend).1

/-- **The simulation rule of a counted loop**: emitters whose iterations produce equal
values in related states produce equal lists. -/
theorem emit_simulation {f : σ → β × σ} {g : τ → β × τ} {n : ℕ} {s : σ} {t : τ}
    (R : ℕ → σ → τ → Prop) (h0 : R 0 s t)
    (hstep : ∀ k < n, ∀ u v, R k u v → (f u).1 = (g v).1 ∧ R (k + 1) (f u).2 (g v).2) :
    (emit f n s).1 = (emit g n t).1 ∧ R n (emit f n s).2 (emit g n t).2 := by
  induction n with
  | zero => exact ⟨rfl, h0⟩
  | succ n ih =>
      obtain ⟨hout, hrel⟩ := ih fun k hk => hstep k (Nat.lt_succ_of_lt hk)
      obtain ⟨hval, hnext⟩ := hstep n (Nat.lt_succ_self n) _ _ hrel
      refine ⟨?_, hnext⟩
      rw [emit_succ_fst, emit_succ_fst, hout, hval]
