import Mathlib.Data.List.Induction
import Mathlib.Data.Nat.Init

/-!
# Machines Driven by a Schedule

A `Machine` is a partial step function: `step s a` is the state after action `a`, or
`none` when `a` is not possible in `s`. All nondeterminism — which thread moves, what
the environment answers — sits in the actions, so that a *schedule* (a list of
actions) determines the run and a finite run is evaluated by `run`.

A claim about every interleaving is a claim about every schedule. The rules below
reduce it to single steps.

## Main results

* `run_append_eq_some_iff`: a run splits at every point of its schedule.
* `invariant`: what every step preserves holds in every state a schedule reaches.
* `invariant_of_history`: the same for an invariant that mentions the schedule.
* `invariant_of_meets`: the first for schedules whose steps all meet a condition on
  the state before the step (`Meets`).
* `exists_run_of_meets`: steps that meet such a condition and are possible then make a run.
* `simulation`: what every step of one machine finds matched in another, a run does.
* `meets_congr`: conditions that agree on the states of a run are met by the same schedules.
* `meets_iff_of_step`: when a condition on the steps is exact, a schedule meets it exactly
  when every state on the way is good.
* `sound_or_broken`: when a step that misses the condition does lasting damage, a schedule
  meets the condition and ends sound, or misses it and ends broken.
* `tally_rule`: what some steps raise by a constant and the others leave grows with the number
  of those steps (`tally`).
* `length_le_of_rank`: a rank that every step lowers bounds the length of a schedule.
* `countP_le_of_rank`: a rank that some actions lower and no other raises bounds their number.
* `reaches_of_rank`: if one action lowers a rank until a goal is met, repeating it meets it.
-/

/-- A machine with states `σ` and actions `α`: `step s a` is the state after `a`, and
`none` when `a` is not enabled in `s`. -/
structure Machine (σ α : Type*) where
  /-- the partial step function -/
  step : σ → α → Option σ

namespace Machine

variable {σ α : Type*} (M : Machine σ α)

/-- The state reached from `s` by the actions of the schedule, in order. -/
def run : σ → List α → Option σ
  | s, [] => some s
  | s, a :: as => (M.step s a).bind fun t => run t as

@[simp] theorem run_nil (s : σ) : M.run s [] = some s := rfl

theorem run_cons (s : σ) (a : α) (as : List α) :
    M.run s (a :: as) = (M.step s a).bind fun t => M.run t as := rfl

theorem run_cons_eq_some_iff {s u : σ} {a : α} {as : List α} :
    M.run s (a :: as) = some u ↔ ∃ t, M.step s a = some t ∧ M.run t as = some u := by
  rw [run_cons, Option.bind_eq_some_iff]

/-- A one-action schedule is a step. -/
theorem run_singleton (s : σ) (a : α) : M.run s [a] = M.step s a := by
  rw [run_cons]
  cases M.step s a with
  | none => rfl
  | some t => rfl

/-- A run of a concatenated schedule splits at the seam. -/
theorem run_append_eq_some_iff {s u : σ} {as bs : List α} :
    M.run s (as ++ bs) = some u ↔ ∃ t, M.run s as = some t ∧ M.run t bs = some u := by
  induction as generalizing s with
  | nil => simp
  | cons a as ih =>
      rw [List.cons_append, run_cons_eq_some_iff]
      constructor
      · rintro ⟨t, hstep, hrun⟩
        obtain ⟨v, hv, hu⟩ := ih.mp hrun
        exact ⟨v, M.run_cons_eq_some_iff.mpr ⟨t, hstep, hv⟩, hu⟩
      · rintro ⟨v, hv, hu⟩
        obtain ⟨t, hstep, hrun⟩ := M.run_cons_eq_some_iff.mp hv
        exact ⟨t, hstep, ih.mpr ⟨v, hrun, hu⟩⟩

/-- Running one more action. -/
theorem run_concat_eq_some_iff {s u : σ} {as : List α} {a : α} :
    M.run s (as ++ [a]) = some u ↔ ∃ t, M.run s as = some t ∧ M.step t a = some u := by
  rw [run_append_eq_some_iff]
  simp only [run_singleton]

/-! ### Conditions along a schedule -/

/-- Every step of the schedule from `s` meets the condition `ok` on the state before
the step and the action taken. -/
def Meets (ok : σ → α → Prop) : σ → List α → Prop
  | _, [] => True
  | s, a :: as => ok s a ∧ ∀ t, M.step s a = some t → Meets ok t as

variable {M}

/-- A condition that can be decided can be decided along a schedule. -/
instance decidableMeets {ok : σ → α → Prop} [∀ s a, Decidable (ok s a)] :
    (as : List α) → (s : σ) → Decidable (M.Meets ok s as)
  | [], _ => isTrue trivial
  | a :: as, s =>
      match h : M.step s a with
      | none => decidable_of_iff (ok s a) (by simp [Meets, h])
      | some t =>
          have : Decidable (M.Meets ok t as) := decidableMeets as t
          decidable_of_iff (ok s a ∧ M.Meets ok t as) (by simp [Meets, h])

/-- A weaker condition is met as well. -/
theorem Meets.imp {ok ok' : σ → α → Prop} (himp : ∀ s a, ok s a → ok' s a) {s : σ}
    {as : List α} (h : M.Meets ok s as) : M.Meets ok' s as := by
  induction as generalizing s with
  | nil => trivial
  | cons a as ih => exact ⟨himp s a h.1, fun t ht => ih (h.2 t ht)⟩

/-- Two conditions are met when each is. -/
theorem Meets.and {ok ok' : σ → α → Prop} {s : σ} {as : List α} (h : M.Meets ok s as)
    (h' : M.Meets ok' s as) : M.Meets (fun s a => ok s a ∧ ok' s a) s as := by
  induction as generalizing s with
  | nil => trivial
  | cons a as ih => exact ⟨⟨h.1, h'.1⟩, fun t ht => ih (h.2 t ht) (h'.2 t ht)⟩

/-- A concatenated schedule meets a condition when both parts do. -/
theorem meets_append_iff {ok : σ → α → Prop} {s : σ} {as bs : List α} :
    M.Meets ok s (as ++ bs) ↔ M.Meets ok s as ∧ ∀ t, M.run s as = some t → M.Meets ok t bs := by
  induction as generalizing s with
  | nil => simp [Meets]
  | cons b as ih =>
      simp only [List.cons_append, Meets, run_cons_eq_some_iff, ih]
      constructor
      · rintro ⟨hb, has⟩
        exact ⟨⟨hb, fun t ht => (has t ht).1⟩,
          fun u ⟨t, ht, hu⟩ => (has t ht).2 u hu⟩
      · rintro ⟨⟨hb, has⟩, hbs⟩
        exact ⟨hb, fun t ht => ⟨has t ht, fun u hu => hbs u ⟨t, ht, hu⟩⟩⟩

/-- One more action is met when it is in the state the schedule reaches. -/
theorem meets_concat_iff {ok : σ → α → Prop} {s : σ} {as : List α} {a : α} :
    M.Meets ok s (as ++ [a]) ↔ M.Meets ok s as ∧ ∀ t, M.run s as = some t → ok t a := by
  simp [meets_append_iff, Meets]

/-- A condition on the actions alone is met along a schedule of such actions. -/
theorem meets_of_forall {P : α → Prop} {as : List α} (h : ∀ a ∈ as, P a) {s : σ} :
    M.Meets (fun _ a => P a) s as := by
  induction as generalizing s with
  | nil => trivial
  | cons a as ih =>
      exact ⟨h a List.mem_cons_self, fun t _ => ih fun b hb => h b (List.mem_cons_of_mem a hb)⟩

/-- A machine in which every action is always possible runs every schedule. -/
theorem exists_run (htotal : ∀ s a, ∃ t, M.step s a = some t) (s : σ) (as : List α) :
    ∃ t, M.run s as = some t := by
  induction as generalizing s with
  | nil => exact ⟨s, rfl⟩
  | cons a as ih =>
      obtain ⟨t, ht⟩ := htotal s a
      obtain ⟨u, hu⟩ := ih t
      exact ⟨u, M.run_cons_eq_some_iff.mpr ⟨t, ht, hu⟩⟩

/-- There a condition on the actions alone is met only by schedules of such actions. -/
theorem meets_iff_forall (htotal : ∀ s a, ∃ t, M.step s a = some t) {P : α → Prop} {s : σ}
    {as : List α} : M.Meets (fun _ a => P a) s as ↔ ∀ a ∈ as, P a := by
  refine ⟨fun h => ?_, fun h => meets_of_forall h⟩
  induction as generalizing s with
  | nil => exact fun a ha => nomatch ha
  | cons a as ih =>
      intro b hb
      rcases List.mem_cons.mp hb with rfl | hb
      · exact h.1
      · obtain ⟨t, ht⟩ := htotal s a
        exact ih (h.2 t ht) b hb

/-! ### Induction rules -/

/-- **The invariant rule for conditional runs.** What every step that meets the
condition preserves holds at the end of every schedule whose steps all meet it. -/
theorem invariant_of_meets {Inv : σ → Prop} {ok : σ → α → Prop}
    (hstep : ∀ s a t, Inv s → ok s a → M.step s a = some t → Inv t)
    {s u : σ} {as : List α} (hs : Inv s) (hok : M.Meets ok s as)
    (hrun : M.run s as = some u) : Inv u := by
  induction as generalizing s with
  | nil =>
      obtain rfl : s = u := Option.some.inj hrun
      exact hs
  | cons a as ih =>
      obtain ⟨t, ht, hu⟩ := M.run_cons_eq_some_iff.mp hrun
      exact ih (hstep s a t hs hok.1 ht) (hok.2 t ht) hu

/-- **The rule of runs that go through.** If every step that meets the condition is possible
and keeps the invariant, a schedule whose steps all meet it runs to its end. -/
theorem exists_run_of_meets {Inv : σ → Prop} {ok : σ → α → Prop}
    (hstep : ∀ s a, Inv s → ok s a → ∃ t, M.step s a = some t ∧ Inv t)
    {s : σ} {as : List α} (hs : Inv s) (hok : M.Meets ok s as) :
    ∃ u, M.run s as = some u ∧ Inv u := by
  induction as generalizing s with
  | nil => exact ⟨s, rfl, hs⟩
  | cons a as ih =>
      obtain ⟨t, ht, hinv⟩ := hstep s a hs hok.1
      obtain ⟨u, hu, hend⟩ := ih hinv (hok.2 t ht)
      exact ⟨u, M.run_cons_eq_some_iff.mpr ⟨t, ht, hu⟩, hend⟩

/-- **The invariant rule.** What every step preserves holds in every state reached. -/
theorem invariant {Inv : σ → Prop}
    (hstep : ∀ s a t, Inv s → M.step s a = some t → Inv t)
    {s u : σ} {as : List α} (hs : Inv s) (hrun : M.run s as = some u) : Inv u := by
  induction as generalizing s with
  | nil =>
      obtain rfl : s = u := Option.some.inj hrun
      exact hs
  | cons a as ih =>
      obtain ⟨t, ht, hu⟩ := M.run_cons_eq_some_iff.mp hrun
      exact ih (hstep s a t hs ht) hu

/-- **The history rule**: an invariant that mentions the schedule taken so far. -/
theorem invariant_of_history {s : σ} (Inv : List α → σ → Prop) (hnil : Inv [] s)
    (hstep : ∀ as t a u, M.run s as = some t → Inv as t → M.step t a = some u →
      Inv (as ++ [a]) u) {u : σ} {as : List α} (hrun : M.run s as = some u) : Inv as u := by
  induction as using List.reverseRecOn generalizing u with
  | nil =>
      obtain rfl : s = u := Option.some.inj hrun
      exact hnil
  | append_singleton as a ih =>
      obtain ⟨t, ht, hu⟩ := M.run_concat_eq_some_iff.mp hrun
      exact hstep as t a u ht (ih ht) hu

/-- **The simulation rule.** If every step from related states is matched by a step of the
other machine with the same action, so is every run. -/
theorem simulation {τ : Type*} {N : Machine τ α} (Rel : σ → τ → Prop)
    (hstep : ∀ s t a s', Rel s t → M.step s a = some s' →
      ∃ t', N.step t a = some t' ∧ Rel s' t')
    {s u : σ} {t : τ} {as : List α} (hst : Rel s t) (hrun : M.run s as = some u) :
    ∃ v, N.run t as = some v ∧ Rel u v := by
  induction as generalizing s t with
  | nil =>
      obtain rfl : s = u := Option.some.inj hrun
      exact ⟨t, rfl, hst⟩
  | cons a as ih =>
      obtain ⟨s', hs', hu⟩ := M.run_cons_eq_some_iff.mp hrun
      obtain ⟨t', ht', hrel⟩ := hstep s t a s' hst hs'
      obtain ⟨v, hv, huv⟩ := ih hrel hu
      exact ⟨v, N.run_cons_eq_some_iff.mpr ⟨t', ht', hv⟩, huv⟩

/-- **The rule of equal conditions.** Conditions that agree on every step from a state with the
invariant are met by the same schedules. -/
theorem meets_congr {Inv : σ → Prop} {ok ok' : σ → α → Prop}
    (hstep : ∀ s a t, Inv s → M.step s a = some t → Inv t)
    (hiff : ∀ s a t, Inv s → M.step s a = some t → (ok s a ↔ ok' s a))
    {s u : σ} {as : List α} (hs : Inv s) (hrun : M.run s as = some u) :
    M.Meets ok s as ↔ M.Meets ok' s as := by
  induction as generalizing s with
  | nil => exact Iff.rfl
  | cons a as ih =>
      obtain ⟨t, ht, hu⟩ := M.run_cons_eq_some_iff.mp hrun
      have hrest := ih (hstep s a t hs ht) hu
      constructor
      · rintro ⟨ha, has⟩
        refine ⟨(hiff s a t hs ht).mp ha, fun t' ht' => ?_⟩
        obtain rfl := Option.some.inj (ht.symm.trans ht')
        exact hrest.mp (has t ht)
      · rintro ⟨ha, has⟩
        refine ⟨(hiff s a t hs ht).mpr ha, fun t' ht' => ?_⟩
        obtain rfl := Option.some.inj (ht.symm.trans ht')
        exact hrest.mpr (has t ht)

/-- **The rule of exact conditions.** If a step from a state with the invariant leads to
such a state when it meets the condition, and to a good one only then, a schedule meets the
condition exactly when every state on the way is good. -/
theorem meets_iff_of_step {Inv Good : σ → Prop} {ok : σ → α → Prop}
    (hgood : ∀ s, Inv s → Good s)
    (hstep : ∀ s a t, Inv s → ok s a → M.step s a = some t → Inv t)
    (hok : ∀ s a t, Inv s → M.step s a = some t → Good t → ok s a)
    {s u : σ} {as : List α} (hs : Inv s) (hrun : M.run s as = some u) :
    M.Meets ok s as ↔ ∀ bs v, bs <+: as → M.run s bs = some v → Good v := by
  induction as generalizing s with
  | nil =>
      refine iff_of_true trivial fun bs v hbs hv => ?_
      obtain rfl := List.prefix_nil.mp hbs
      obtain rfl : s = v := Option.some.inj hv
      exact hgood s hs
  | cons a as ih =>
      obtain ⟨t, ht, hu⟩ := M.run_cons_eq_some_iff.mp hrun
      constructor
      · rintro ⟨ha, has⟩ bs v hbs hv
        have hrest := (ih (hstep s a t hs ha ht) hu).mp (has t ht)
        rcases List.prefix_cons_iff.mp hbs with rfl | ⟨cs, rfl, hcs⟩
        · obtain rfl : s = v := Option.some.inj hv
          exact hgood s hs
        · obtain ⟨t', ht', hv⟩ := M.run_cons_eq_some_iff.mp hv
          obtain rfl := Option.some.inj (ht.symm.trans ht')
          exact hrest cs v hcs hv
      · intro hall
        have ha := hok s a t hs ht
          (hall [a] t ⟨as, rfl⟩ ((M.run_singleton s a).trans ht))
        refine ⟨ha, fun t' ht' => ?_⟩
        obtain rfl := Option.some.inj (ht.symm.trans ht')
        refine (ih (hstep s a t hs ha ht) hu).mpr fun bs v hbs hv => ?_
        exact hall (a :: bs) v ((List.prefix_cons_inj a).mpr hbs)
          (M.run_cons_eq_some_iff.mpr ⟨t, ht, hv⟩)

/-- **The rule of lasting damage** along the schedules that meet a side condition. If a sound
state stays sound in a step that meets the condition and is broken for ever by any other one, a
schedule meets the condition and ends in a sound state, or misses it and ends in a broken one. -/
theorem sound_or_broken_of_meets {Sound Broken : σ → Prop} {ok side : σ → α → Prop}
    (hsound : ∀ s a t, Sound s → side s a → ok s a → M.step s a = some t → Sound t)
    (hbreaks : ∀ s a t, Sound s → side s a → ¬ok s a → M.step s a = some t → Broken t)
    (hbroken : ∀ s a t, Broken s → side s a → M.step s a = some t → Broken t)
    {s u : σ} {as : List α} (hs : Sound s) (hside : M.Meets side s as)
    (hrun : M.run s as = some u) :
    (M.Meets ok s as ∧ Sound u) ∨ (¬M.Meets ok s as ∧ Broken u) := by
  induction as generalizing s with
  | nil =>
      obtain rfl : s = u := Option.some.inj hrun
      exact .inl ⟨trivial, hs⟩
  | cons a as ih =>
      obtain ⟨t, ht, hu⟩ := M.run_cons_eq_some_iff.mp hrun
      have hrest := hside.2 t ht
      by_cases ha : ok s a
      · refine (ih (hsound s a t hs hside.1 ha ht) hrest hu).imp ?_ ?_
        · rintro ⟨has, hend⟩
          refine ⟨⟨ha, fun t' ht' => ?_⟩, hend⟩
          obtain rfl := Option.some.inj (ht.symm.trans ht')
          exact has
        · rintro ⟨has, hend⟩
          exact ⟨fun hmeets => has (hmeets.2 t ht), hend⟩
      · refine .inr ⟨fun hmeets => ha hmeets.1, ?_⟩
        exact invariant_of_meets hbroken (hbreaks s a t hs hside.1 ha ht) hrest hu

/-- **The rule of lasting damage.** -/
theorem sound_or_broken {Sound Broken : σ → Prop} {ok : σ → α → Prop}
    (hsound : ∀ s a t, Sound s → ok s a → M.step s a = some t → Sound t)
    (hbreaks : ∀ s a t, Sound s → ¬ok s a → M.step s a = some t → Broken t)
    (hbroken : ∀ s a t, Broken s → M.step s a = some t → Broken t)
    {s u : σ} {as : List α} (hs : Sound s) (hrun : M.run s as = some u) :
    (M.Meets ok s as ∧ Sound u) ∨ (¬M.Meets ok s as ∧ Broken u) :=
  sound_or_broken_of_meets (fun s a t hs _ => hsound s a t hs)
    (fun s a t hs _ => hbreaks s a t hs) (fun s a t hs _ => hbroken s a t hs) hs
    (meets_of_forall (P := fun _ => True) fun _ _ => trivial) hrun

/-- How many steps of the schedule from `s` are marked. -/
def tally (M : Machine σ α) (mark : σ → α → Bool) : σ → List α → ℕ
  | _, [] => 0
  | s, a :: as => (mark s a).toNat + (M.step s a).elim 0 fun t => tally M mark t as

/-- **The rule of counted steps.** A quantity that every marked step raises by `w` and every
other one leaves has grown by `w` for each marked step. -/
theorem tally_rule {Inv : σ → Prop} {P : α → Prop} {mark : σ → α → Bool} {f : σ → ℕ} {w : ℕ}
    (hstep : ∀ s a t, Inv s → P a → M.step s a = some t →
      Inv t ∧ f t = f s + w * (mark s a).toNat)
    {s u : σ} {as : List α} (hs : Inv s) (has : ∀ a ∈ as, P a) (hrun : M.run s as = some u) :
    f u = f s + w * M.tally mark s as := by
  induction as generalizing s with
  | nil =>
      obtain rfl : s = u := Option.some.inj hrun
      rfl
  | cons a as ih =>
      obtain ⟨t, ht, hu⟩ := M.run_cons_eq_some_iff.mp hrun
      obtain ⟨hinv, hf⟩ := hstep s a t hs (has a List.mem_cons_self) ht
      rw [ih hinv (fun b hb => has b (List.mem_cons_of_mem a hb)) hu, hf, tally, ht,
        Option.elim_some, Nat.mul_add, Nat.add_assoc]

/-- **The rank rule.** If every step from a state with the invariant lowers the rank,
no schedule is longer than the rank of the state it starts from. -/
theorem length_le_of_rank {Inv : σ → Prop} {ok : σ → α → Prop} {rank : σ → ℕ}
    (hstep : ∀ s a t, Inv s → ok s a → M.step s a = some t → Inv t ∧ rank t < rank s)
    {s u : σ} {as : List α} (hs : Inv s) (hok : M.Meets ok s as)
    (hrun : M.run s as = some u) : as.length + rank u ≤ rank s := by
  induction as generalizing s with
  | nil =>
      obtain rfl : s = u := Option.some.inj hrun
      simp
  | cons a as ih =>
      obtain ⟨t, ht, hu⟩ := M.run_cons_eq_some_iff.mp hrun
      obtain ⟨hinv, hlt⟩ := hstep s a t hs hok.1 ht
      have hle := ih hinv (hok.2 t ht) hu
      rw [List.length_cons]
      omega

/-- **The rule of bounded steps.** A rank that every marked action lowers and no other one
raises bounds the number of the marked actions in a schedule. -/
theorem countP_le_of_rank {Inv : σ → Prop} {rank : σ → ℕ} (mark : α → Bool)
    (hstep : ∀ s a t, Inv s → M.step s a = some t → Inv t ∧ rank t + (mark a).toNat ≤ rank s)
    {s u : σ} {as : List α} (hs : Inv s) (hrun : M.run s as = some u) :
    as.countP mark + rank u ≤ rank s := by
  induction as generalizing s with
  | nil =>
      obtain rfl : s = u := Option.some.inj hrun
      simp
  | cons a as ih =>
      obtain ⟨t, ht, hu⟩ := M.run_cons_eq_some_iff.mp hrun
      obtain ⟨hinv, hle⟩ := hstep s a t hs ht
      have hrest := ih hinv hu
      rw [List.countP_cons]
      cases hmark : mark a <;> simp only [hmark, Bool.toNat_true, Bool.toNat_false,
        Bool.false_eq_true, if_true, if_false] at hle ⊢ <;> omega

/-- **The progress rule.** If an action is possible, keeps the invariant and lowers the rank
wherever the goal is not met yet, then repeating it meets the goal. -/
theorem reaches_of_rank {Inv Goal : σ → Prop} {rank : σ → ℕ} {a : α}
    (hstep : ∀ s, Inv s → Goal s ∨ ∃ t, M.step s a = some t ∧ Inv t ∧ rank t < rank s)
    {s : σ} (hs : Inv s) : ∃ k u, M.run s (List.replicate k a) = some u ∧ Inv u ∧ Goal u := by
  induction hrank : rank s using Nat.strong_induction_on generalizing s with
  | _ r ih =>
      rcases hstep s hs with hgoal | ⟨t, ht, hinv, hlt⟩
      · exact ⟨0, s, rfl, hs, hgoal⟩
      · obtain ⟨k, u, hu, hend⟩ := ih (rank t) (hrank ▸ hlt) hinv rfl
        exact ⟨k + 1, u, M.run_cons_eq_some_iff.mpr ⟨t, ht, hu⟩, hend⟩

end Machine
