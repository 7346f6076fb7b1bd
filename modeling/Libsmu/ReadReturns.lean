import Libsmu.ReadCall

/-!
# How a Call of `read` Ends

Left alone, a call of `read` either returns or finds the counter at zero and waits. While it
waits samples arrive, and when there are as many as it still has to count off it returns.

## Main results

* `Call.Runs.settles`: the reading thread goes on until the call has returned or waits.
* `delivers_iff`: a call that waits delivers what was asked for exactly when its distance fits
  an `int` and as many chunks are too large as the request has multiples of `2 ^ 32`.
* `returns_of_enough`: it returns once enough samples are counted.
-/

namespace Libsmu.InputFifo

variable {α : Type*} {m_queue_size m_sample_count : ℕ}
variable [Inhabited α] {c t : Call α m_queue_size} {a : Act α}

/-! ### The reading thread alone -/

/-- The numbers of the loop when no chunk is larger than what remains. -/
def ReaderPc.InStep (m_in_samples_avail : ℕ) : ReaderPc α → Prop
  | .load remaining _ => 0 < remaining ∧ m_in_samples_avail ≤ remaining
  | .copy remaining samples _ _ | .popped remaining samples _ _ =>
      0 < remaining ∧ samples ≤ remaining
  | .compare remaining _ | .again remaining _ => 0 < remaining
  | .idle => True

/-- How far a call is from returning or finding the counter at zero. -/
def Call.rank (c : Call α m_queue_size) : ℕ :=
  match c.prologue, c.reader with
  | .test _, _ => 22 * 2 ^ 32 + 101
  | .distance _, _ => 22 * 2 ^ 32 + 100
  | .skip _ s i _, _ => 20 * 2 ^ 32 + 100 + (s.toNat - i)
  | .passed, .idle => 0
  | .passed, .again remaining _ => 20 * remaining + 3
  | .passed, .compare remaining _ =>
      20 * remaining + if c.m_in_samples_avail = 0 then 8 else 2
  | .passed, .load remaining _ =>
      20 * remaining + if c.m_in_samples_avail = 0 then 7 else 1
  | .passed, .copy remaining samples i _ => 20 * (remaining - samples) + 2 * (samples - i) + 5
  | .passed, .popped remaining samples i _ => 20 * (remaining - samples) + 2 * (samples - i) + 4

/-- A call that the reading thread can go on with. -/
structure Call.Runs (q : List α) (c : Call α m_queue_size) : Prop where
  inv : ∃ lost, c.Inv q lost ∧ (c.prologue ≠ .passed → lost = 0)
  bounded : c.Bounded
  inStep : c.prologue = .passed → c.reader.InStep c.m_in_samples_avail

/-- The call has returned, or waits with the counter at zero. -/
def Call.Settled (c : Call α m_queue_size) : Prop :=
  c.Returned ∨ ∃ remaining sample, c.prologue = .passed ∧ c.reader = .again remaining sample ∧
    c.m_in_samples_avail = 0

omit [Inhabited α] in
/-- A step of the loop, when no chunk is too large. -/
theorem readerStep_inStep {s t : State α m_queue_size}
    (hin : s.reader.InStep s.m_in_samples_avail) (h : readerStep s = some t) :
    t.reader.InStep t.m_in_samples_avail := by
  cases readerMoves_of_readerStep h with
  | fewer hreader hlt =>
      rw [hreader] at hin
      exact ⟨hin, hlt.le⟩
  | enough hreader hle =>
      rw [hreader] at hin
      exact ⟨hin, le_rfl⟩
  | load hreader | pop hreader | miss hreader | count hreader =>
      rw [hreader] at hin
      exact ⟨hin.1, hin.2⟩
  | again hreader =>
      rw [hreader] at hin
      exact hin
  | last hreader hle hleft => exact trivial
  | further hreader hle hleft => exact Nat.pos_of_ne_zero hleft

omit [Inhabited α] in
/-- The loop goes on. -/
theorem readerStep_rank (skipped arrived : List α) {s : State α m_queue_size}
    (hb : s.reader.Bounded) (hin : s.reader.InStep s.m_in_samples_avail)
    (hidle : s.reader ≠ .idle)
    (hagain : ∀ remaining sample, s.reader = .again remaining sample →
      0 < s.m_in_samples_avail) :
    ∃ t, readerStep s = some t ∧
      Call.rank (⟨t, .passed, skipped, arrived⟩ : Call α m_queue_size) <
        Call.rank (⟨s, .passed, skipped, arrived⟩ : Call α m_queue_size) := by
  obtain ⟨queue, avail, sampleno, usb, reader, decoded, flushedAt, delivered, dropped⟩ := s
  cases reader with
  | idle => exact absurd rfl hidle
  | compare remaining sample =>
      simp only [ReaderPc.InStep] at hin
      simp only [readerStep]
      split
      · refine ⟨_, rfl, ?_⟩
        simp only [Call.rank]
        split <;> omega
      · refine ⟨_, rfl, ?_⟩
        simp only [Call.rank]
        split <;> omega
  | load remaining sample =>
      obtain ⟨hpos, hle⟩ := hin
      dsimp only at hle
      refine ⟨_, rfl, ?_⟩
      simp only [Call.rank]
      split <;> omega
  | copy remaining samples i sample =>
      obtain ⟨hpos, hle⟩ := hin
      obtain ⟨hr, hs, hi⟩ := hb
      simp only [readerStep]
      split
      · split
        · refine ⟨_, rfl, ?_⟩
          simp only [Call.rank]
          omega
        · refine ⟨_, rfl, ?_⟩
          simp only [Call.rank]
          omega
      · have hleft : Counter.add 32 remaining (2 ^ 32 - samples) = remaining - samples := by
          rw [Counter.add]
          omega
        split
        · refine ⟨_, rfl, ?_⟩
          simp only [Call.rank]
          omega
        · refine ⟨_, rfl, ?_⟩
          simp only [Call.rank, hleft]
          omega
  | popped remaining samples i sample =>
      obtain ⟨hr, hs, hi⟩ := hb
      refine ⟨_, rfl, ?_⟩
      simp only [Call.rank]
      omega
  | again remaining sample =>
      have hpos := hagain _ _ rfl
      refine ⟨_, rfl, ?_⟩
      simp only [Call.rank]
      rw [if_neg (by dsimp only at hpos; omega)]
      omega

omit [Inhabited α] in
/-- Entering the loop. -/
theorem Call.enter_rank (samples : ℕ) (sample : α) (c : Call α m_queue_size) :
    (c.enter samples sample).reader.InStep (c.enter samples sample).m_in_samples_avail ∧
      (c.enter samples sample).rank < 20 * 2 ^ 32 + 100 := by
  have hlt : samples % 2 ^ 32 < 2 ^ 32 := Nat.mod_lt _ (by decide)
  by_cases hzero : samples % 2 ^ 32 = 0
  · simp only [enter, if_pos hzero, rank, ReaderPc.InStep, true_and]
    decide
  · simp only [enter, if_neg hzero, rank, ReaderPc.InStep]
    refine ⟨Nat.pos_of_ne_zero hzero, ?_⟩
    split <;> omega

/-- Before the loop a step is always possible. -/
theorem Call.exists_advance (h : c.prologue ≠ .passed) : ∃ t, c.advance = some t := by
  cases hpro : c.prologue with
  | passed => exact absurd hpro h
  | test samples =>
      rw [advance, hpro]
      dsimp only
      split
      · exact ⟨_, rfl⟩
      · exact ⟨_, rfl⟩
  | distance samples =>
      rw [advance, hpro]
      exact ⟨_, rfl⟩
  | skip samples s i sample =>
      rw [advance, hpro]
      dsimp only
      split
      · split
        · exact ⟨_, rfl⟩
        · exact ⟨_, rfl⟩
      · exact ⟨_, rfl⟩

/-- No step of the call makes a chunk too large if the loads agree. -/
theorem Call.advance_inStep (hin : c.prologue = .passed → c.reader.InStep c.m_in_samples_avail)
    (hstep : c.advance = some t) (hpassed : t.prologue = .passed) :
    t.reader.InStep t.m_in_samples_avail := by
  cases moves_of_advance hstep with
  | more | distance | skip | miss => cases hpassed
  | noMore | enter => exact (enter_rank _ _ _).1
  | loop hpro hu => exact readerStep_inStep (hin hpro) hu

/-- **The reading thread goes on** until the call has returned or finds the counter at zero. -/
theorem Call.Runs.step {q : List α} (hsize : m_queue_size < 2 ^ 32) (h : c.Runs q) :
    c.Settled ∨ ∃ t, (callMachine α m_queue_size m_sample_count).step c .reader = some t ∧
      t.Runs q ∧ t.rank < c.rank := by
  obtain ⟨⟨lost, hinv, hlost⟩, hb, hin⟩ := h
  have hgoes : ∀ {t : Call α m_queue_size}, c.advance = some t →
      (∃ lost, t.Inv q lost ∧ (t.prologue ≠ .passed → lost = 0)) → t.rank < c.rank →
      c.Settled ∨ ∃ t, (callMachine α m_queue_size m_sample_count).step c .reader = some t ∧
        t.Runs q ∧ t.rank < c.rank := by
    intro t ht hinv' hlt
    have hstep : (callMachine α m_queue_size m_sample_count).step c .reader = some t := ht
    exact .inr ⟨t, ht, ⟨hinv', (hb.step hstep).1, advance_inStep hin ht⟩, hlt⟩
  cases hpro : c.prologue with
  | passed =>
      by_cases hidle : c.reader = .idle
      · exact .inl (.inl ⟨hpro, hidle⟩)
      · by_cases hagain : ∀ remaining sample, c.reader = .again remaining sample →
            0 < c.m_in_samples_avail
        · obtain ⟨u, hu, hlt⟩ := readerStep_rank c.skipped c.arrived hb.reader (hin hpro) hidle
            hagain
          have hstep : c.advance = some { c with toState := u } := by
            rw [advance, hpro]
            simp only [hu, Option.map_some]
          rw [← hpro] at hlt
          exact hgoes hstep ⟨lost, hinv.loop hsize hpro hu, hlost⟩ hlt
        · simp only [not_forall, not_lt, Nat.le_zero] at hagain
          obtain ⟨remaining, sample, hreader, hzero⟩ := hagain
          exact .inl (.inr ⟨remaining, sample, hpro, hreader, hzero⟩)
  | test samples =>
      have hne : c.prologue ≠ .passed := by simp [hpro]
      obtain rfl := hlost hne
      obtain ⟨t, ht⟩ := exists_advance hne
      have hrank : c.rank = 22 * 2 ^ 32 + 101 := by rw [rank, hpro]
      obtain ⟨hinv', heq⟩ := hinv.test hpro ht
      refine hgoes ht ⟨0, hinv', fun _ => rfl⟩ ?_
      rcases heq with ⟨-, rfl⟩ | ⟨-, rfl⟩
      · rw [hrank, rank]
        dsimp only
        omega
      · have hlt := (c.enter_rank samples default).2
        omega
  | distance samples =>
      have hne : c.prologue ≠ .passed := by simp [hpro]
      obtain rfl := hlost hne
      obtain ⟨t, ht⟩ := exists_advance hne
      have hrank : c.rank = 22 * 2 ^ 32 + 100 := by rw [rank, hpro]
      obtain ⟨hinv', rfl⟩ := hinv.distance hsize hpro ht
      refine hgoes ht ⟨0, hinv', fun _ => rfl⟩ ?_
      obtain ⟨-, hmax, -⟩ := hinv'.fits
      rw [hrank, rank]
      dsimp only
      omega
  | skip samples s i sample =>
      have hne : c.prologue ≠ .passed := by simp [hpro]
      obtain rfl := hlost hne
      obtain ⟨t, ht⟩ := exists_advance hne
      have hrank : c.rank = 20 * 2 ^ 32 + 100 + (s.toNat - i) := by rw [rank, hpro]
      have hlt := (enter_rank samples sample (c.countOff s)).2
      by_cases hs : 0 ≤ s
      · obtain ⟨hinv', heq⟩ := hinv.skip hpro hs ht
        refine hgoes ht ⟨0, hinv', fun _ => rfl⟩ ?_
        rcases heq with ⟨hless, x, queue, -, rfl⟩ | ⟨-, rfl⟩
        · rw [hrank, rank]
          dsimp only
          omega
        · omega
      · obtain ⟨⟨lost, -, hinv'⟩, rfl⟩ := hinv.negative hpro (not_le.mp hs) ht
        exact hgoes ht ⟨lost, hinv', fun hne => absurd rfl hne⟩ (by omega)

/-- **Left alone, the call settles.** -/
theorem Call.Runs.settles {q : List α} (hsize : m_queue_size < 2 ^ 32) (h : c.Runs q) :
    ∃ k u, (callMachine α m_queue_size m_sample_count).run c (List.replicate k .reader) = some u ∧
      u.Runs q ∧ u.Settled :=
  Machine.reaches_of_rank (fun _ hs => hs.step hsize) h

theorem State.Quiet.runs_begin {s : State α m_queue_size} (hsize : m_queue_size < 2 ^ 32)
    (hs : s.Quiet) (samples : ℕ) (skipsamples : Bool) :
    (Call.begin s samples skipsamples).Runs s.m_in_samples_q.items := by
  obtain ⟨hinv, -⟩ := hs.sound_begin hsize samples skipsamples
  refine ⟨⟨0, hinv, fun _ => rfl⟩, ⟨hinv.avail, ?_⟩, ?_⟩
  · cases skipsamples with
    | true =>
        have hreader : (Call.begin s samples true).reader = .idle := hs.reader
        rw [hreader]
        exact trivial
    | false => exact (Call.enter_cases samples default _).2.2
  · intro hover
    cases skipsamples with
    | true => cases hover
    | false => exact (Call.enter_rank samples default _).1

/-! ### Waiting for samples -/

/-- What the loop still has to count off, as far as the counter goes. -/
def ReaderPc.wanted : ReaderPc α → ℕ
  | .idle => 0
  | .compare remaining _ | .load remaining _ | .again remaining _ => remaining
  | .copy remaining _ i _ | .popped remaining _ i _ => remaining - i

/-- What the call still has to count off. -/
def Call.wanted (c : Call α m_queue_size) : ℕ :=
  match c.prologue with
  | .test samples | .distance samples => samples
  | .skip samples s _ _ => samples + s.toNat
  | .passed => c.reader.wanted

/-- The condition on a step: the distance to skip fits an `int`, and no chunk is loaded that
is larger than what remains. -/
def Call.Kept (c : Call α m_queue_size) (a : Act α) : Prop :=
  c.Near a ∧ c.overtaken a = false

omit [Inhabited α] in
theorem Call.enter_wanted (samples : ℕ) (sample : α) (c : Call α m_queue_size) :
    (c.enter samples sample).wanted ≤ samples := by
  have hle := Nat.mod_le samples (2 ^ 32)
  simp only [enter, wanted]
  split
  · exact Nat.zero_le _
  · exact hle

omit [Inhabited α] in
/-- The loop counts off what it takes. -/
theorem readerStep_wanted {s t : State α m_queue_size} (hb : s.reader.Bounded)
    (hin : s.reader.InStep s.m_in_samples_avail) (havail : s.m_in_samples_avail < 2 ^ 32)
    (h : readerStep s = some t) (hle : s.reader.wanted ≤ s.m_in_samples_avail) :
    t.reader.wanted ≤ t.m_in_samples_avail := by
  cases readerMoves_of_readerStep h with
  | fewer hreader | enough hreader | load hreader | pop hreader | miss hreader | again hreader =>
      rw [hreader] at hle
      exact hle
  | last hreader hle' hleft => exact Nat.zero_le _
  | further hreader hle' hleft =>
      rw [hreader] at hb hin hle
      obtain ⟨hr, hs, hi⟩ := hb
      obtain ⟨hpos, hin⟩ := hin
      simp only [ReaderPc.wanted, Counter.add] at hle ⊢
      omega
  | count hreader =>
      rw [hreader] at hb hin hle
      obtain ⟨hr, hs, hi⟩ := hb
      obtain ⟨hpos, hin⟩ := hin
      simp only [ReaderPc.wanted, Counter.pred] at hle ⊢
      omega

/-- **What is enough stays enough** while the reading thread is alone. -/
theorem Call.Sound.wanted_le {q : List α} (hsize : m_queue_size < 2 ^ 32) (h : c.Sound q)
    (hb : c.Bounded) (hin : c.prologue = .passed → c.reader.InStep c.m_in_samples_avail)
    (hnear : c.Near .reader) (hstep : c.advance = some t)
    (hle : c.wanted ≤ c.m_in_samples_avail) : t.wanted ≤ t.m_in_samples_avail := by
  obtain ⟨hinv, hskip⟩ := h
  cases hpro : c.prologue with
  | passed =>
      rw [advance, hpro] at hstep
      obtain ⟨u, hu, rfl⟩ := Option.map_eq_some_iff.mp hstep
      simp only [wanted, hpro] at hle
      exact readerStep_wanted hb.reader (hin hpro) hb.avail hu hle
  | test samples =>
      simp only [wanted, hpro] at hle
      obtain ⟨-, ⟨-, rfl⟩ | ⟨-, rfl⟩⟩ := hinv.test hpro hstep
      · exact hle
      · exact (enter_wanted _ _ _).trans hle
  | distance samples =>
      obtain ⟨-, rfl⟩ := hinv.distance hsize hpro hstep
      have havail := hinv.avail
      have hfits := hinv.fits
      rw [hpro] at hfits
      simp only [Prologue.Fits] at hfits
      simp only [Near, hpro] at hnear
      simp only [wanted]
      rcases asInt_cases (d := c.m_in_samples_avail - samples) (by omega) (by omega) with
        ⟨-, hint⟩ | ⟨hge, -⟩
      · omega
      · omega
  | skip samples s i sample =>
      have hs := hskip _ _ _ _ hpro
      have havail := hinv.avail
      simp only [wanted, hpro] at hle
      obtain ⟨-, ⟨-, x, queue, -, rfl⟩ | ⟨-, rfl⟩⟩ := hinv.skip hpro hs hstep
      · exact hle
      · refine (enter_wanted _ _ _).trans ?_
        simp only [enter, countOff]
        omega

/-- The state of a call whose steps were all kept to the condition. -/
structure Call.Good (q : List α) (c : Call α m_queue_size) : Prop where
  sound : c.Sound q
  bounded : c.Bounded
  inStep : c.prologue = .passed → c.reader.InStep 0

omit [Inhabited α] in
theorem ReaderPc.InStep.zero {n : ℕ} {r : ReaderPc α} (h : r.InStep n) : r.InStep 0 := by
  cases r with
  | load remaining sample => exact ⟨h.1, Nat.zero_le _⟩
  | idle | compare | copy | popped | again => exact h

omit [Inhabited α] in
/-- The loads agree when the chunk that comes next is not too large. -/
theorem Call.Good.inStep_avail {q : List α} (h : c.Good q)
    (hmark : c.overtaken .reader = false) (hover : c.prologue = .passed) :
    c.reader.InStep c.m_in_samples_avail := by
  have hin := h.inStep hover
  cases hreader : c.reader with
  | load remaining sample =>
      rw [hreader] at hin
      simp only [overtaken, hover, hreader, decide_eq_false_iff_not, not_lt] at hmark
      exact ⟨hin.1, hmark⟩
  | idle | compare | copy | popped | again =>
      rw [hreader] at hin
      exact hin

theorem Call.Good.step {q : List α} (hsize : m_queue_size < 2 ^ 32) (h : c.Good q)
    (hkept : c.Kept a) (hstep : (callMachine α m_queue_size m_sample_count).step c a = some t) :
    t.Good q := by
  refine ⟨h.sound.step hsize hkept.1 hstep, (h.bounded.step hstep).1, fun hover => ?_⟩
  rcases step_cases hstep with ⟨rfl, hstep⟩ | ⟨data, rfl, -, rfl⟩ | ⟨rfl, u, hu, rfl⟩ |
    ⟨rfl, -, -, rfl⟩
  · exact (advance_inStep (h.inStep_avail hkept.2) hstep hover).zero
  · exact h.inStep hover
  · exact (usbStep_cases hu).1 ▸ h.inStep hover
  · exact trivial

/-- What a call that waits delivers: as many samples as requested, in the order in which they
came, and the books are right. -/
structure Call.Delivers (q : List α) (samples : ℕ) (skipsamples : Bool)
    (c : Call α m_queue_size) : Prop where
  length : c.delivered.length = samples
  skipped : skipsamples = false → c.skipped = []
  stream : c.skipped ++ c.delivered ++ c.m_in_samples_q.items = q ++ c.arrived
  avail : c.m_in_samples_avail + c.usb.uncounted = c.m_in_samples_q.items.length

/-- Without `skipsamples` nothing is skipped. -/
theorem skipped_of_begin {s : State α m_queue_size} {samples : ℕ} {as : List (Act α)}
    (hrun : (callMachine α m_queue_size m_sample_count).run (.begin s samples false) as =
      some t) : t.skipped = [] := by
  have hstep : ∀ (c : Call α m_queue_size) (a : Act α) (t : Call α m_queue_size),
      (c.prologue = .passed ∧ c.skipped = []) →
      (callMachine α m_queue_size m_sample_count).step c a = some t →
      (t.prologue = .passed ∧ t.skipped = []) := by
    rintro c a t ⟨hover, hskipped⟩ hstep
    cases a with
    | read samples | flush => cases hstep
    | reader =>
        simp only [callMachine, Call.advance, hover] at hstep
        obtain ⟨u, -, rfl⟩ := Option.map_eq_some_iff.mp hstep
        exact ⟨rfl, hskipped⟩
    | usb =>
        obtain ⟨u, -, rfl⟩ := Option.map_eq_some_iff.mp hstep
        exact ⟨hover, hskipped⟩
    | in_completion data | giveUp =>
        simp only [callMachine] at hstep
        split at hstep
        · obtain rfl := Option.some.inj hstep
          exact ⟨hover, hskipped⟩
        · cases hstep
  exact (Machine.invariant hstep ⟨rfl, rfl⟩ hrun).2

/-- **A call that waits**, when it returns. -/
theorem delivers_iff {s : State α m_queue_size} (hsize : m_queue_size < 2 ^ 32) (hs : s.Quiet)
    {samples : ℕ} {skipsamples : Bool} {as : List (Act α)} (has : ∀ a ∈ as, a.waits = true)
    (hrun : (callMachine α m_queue_size m_sample_count).run (.begin s samples skipsamples) as =
      some t) (hret : t.Returned) :
    t.Delivers s.m_in_samples_q.items samples skipsamples ↔
      (callMachine α m_queue_size m_sample_count).Meets Call.Near
          (.begin s samples skipsamples) as ∧
        (callMachine α m_queue_size m_sample_count).tally Call.overtaken
          (.begin s samples skipsamples) as = samples / 2 ^ 32 := by
  obtain ⟨hover, hidle⟩ := hret
  have hbegin : (Call.begin s samples skipsamples).delivered.length +
      (Call.begin s samples skipsamples).todo = samples % 2 ^ 32 := by
    cases skipsamples with
    | true => exact Nat.zero_add _
    | false => exact (Nat.zero_add _).trans (Call.enter_cases samples default _).2.1
  have hlength := length_add_todo (hs.runs_begin hsize samples skipsamples).bounded has hrun
  have hdone : t.todo = 0 := by
    simp only [Call.todo, hover, hidle, ReaderPc.todo]
  rw [hbegin, hdone, Nat.add_zero] at hlength
  have hcount : t.delivered.length = samples ↔
      (callMachine α m_queue_size m_sample_count).tally Call.overtaken
        (.begin s samples skipsamples) as = samples / 2 ^ 32 := by
    rw [hlength]
    omega
  have hhand : t.reader.hand = [] := by rw [hidle]; rfl
  have htaken : t.prologue.taken = 0 := by rw [hover]; rfl
  rcases books hsize hs hrun with ⟨hmeets, hsound, -⟩ | ⟨hmeets, hbroken⟩
  · have havail := hsound.avail_eq hsize hhand htaken
    have hstream := hsound.stream
    rw [hhand, List.append_nil] at hstream
    refine ⟨fun h => ⟨hmeets, hcount.mp h.length⟩, fun h => ⟨hcount.mpr h.2, ?_, hstream, havail⟩⟩
    rintro rfl
    exact skipped_of_begin hrun
  · refine iff_of_false (fun h => ?_) fun h => hmeets h.1
    rcases hbroken with ⟨-, _, _, _, _, hpro, -⟩ | ⟨-, lost, hlost, hinv⟩
    · rw [hover] at hpro
      cases hpro
    · have havail := hinv.avail_eq hsize hhand htaken
      have hright := h.avail
      omega

/-- No chunk of a schedule that is kept to the condition is too large. -/
theorem tally_of_kept {as : List (Act α)}
    (h : (callMachine α m_queue_size m_sample_count).Meets Call.Kept c as) :
    (callMachine α m_queue_size m_sample_count).tally Call.overtaken c as = 0 := by
  induction as generalizing c with
  | nil => rfl
  | cons a as ih =>
      obtain ⟨⟨-, hmark⟩, hrest⟩ := h
      rw [Machine.tally, hmark]
      cases hstep : (callMachine α m_queue_size m_sample_count).step c a with
      | none => rfl
      | some u =>
          rw [Option.elim_some, ih (hrest u hstep)]
          rfl

/-- **A call that waits returns** once enough samples are counted, and delivers what was
requested. -/
theorem returns_of_enough {s : State α m_queue_size} (hsize : m_queue_size < 2 ^ 32)
    (hs : s.Quiet) {samples : ℕ} (hsamples : samples < 2 ^ 32) {skipsamples : Bool}
    {as : List (Act α)} (has : ∀ a ∈ as, a.waits = true)
    (hrun : (callMachine α m_queue_size m_sample_count).run (.begin s samples skipsamples) as =
      some t)
    (hkept : ∀ k, (callMachine α m_queue_size m_sample_count).Meets Call.Kept
      (.begin s samples skipsamples) (as ++ List.replicate k .reader))
    (henough : t.wanted ≤ t.m_in_samples_avail) :
    ∃ k u, (callMachine α m_queue_size m_sample_count).run (.begin s samples skipsamples)
        (as ++ List.replicate k .reader) = some u ∧ u.Returned ∧
      u.Delivers s.m_in_samples_q.items samples skipsamples := by
  have hruns := hs.runs_begin hsize samples skipsamples
  have hbegin : (Call.begin s samples skipsamples).Good s.m_in_samples_q.items :=
    ⟨hs.sound_begin hsize samples skipsamples, hruns.bounded, fun hover =>
      (hruns.inStep hover).zero⟩
  have hgood : t.Good s.m_in_samples_q.items :=
    Machine.invariant_of_meets (fun _ _ _ h hok hstep => h.step hsize hok hstep) hbegin
      (by simpa using hkept 0) hrun
  have hnext : t.Kept .reader := by
    have hmeets := hkept 1
    rw [List.replicate_one, Machine.meets_concat_iff] at hmeets
    exact hmeets.2 t hrun
  have htruns : t.Runs s.m_in_samples_q.items :=
    ⟨⟨0, hgood.sound.1, fun _ => rfl⟩, hgood.bounded, hgood.inStep_avail hnext.2⟩
  have hsettles : ∃ k u, (callMachine α m_queue_size m_sample_count).run t
      (List.replicate k .reader) = some u ∧ u.Runs s.m_in_samples_q.items ∧ u.Settled :=
    htruns.settles hsize
  obtain ⟨k, u, hu, -, hsettled⟩ := hsettles
  have hrun' : (callMachine α m_queue_size m_sample_count).run (.begin s samples skipsamples)
      (as ++ List.replicate k .reader) = some u :=
    (Machine.run_append_eq_some_iff _).mpr ⟨t, hrun, hu⟩
  have hret : u.Returned := by
    rcases hsettled with hret | ⟨remaining, sample, hover, hreader, hzero⟩
    · exact hret
    · -- what is enough stays enough, so the counter is not at zero
      have hmeets := ((Machine.meets_append_iff).mp (hkept k)).2 t hrun
      have halone : (callMachine α m_queue_size m_sample_count).Meets (fun _ a => a = .reader) t
          (List.replicate k .reader) :=
        Machine.meets_of_forall fun a ha => List.eq_of_mem_replicate ha
      have hstep : ∀ (c : Call α m_queue_size) (a : Act α) (v : Call α m_queue_size),
          (c.Good s.m_in_samples_q.items ∧ c.wanted ≤ c.m_in_samples_avail) →
          (c.Kept a ∧ a = .reader) →
          (callMachine α m_queue_size m_sample_count).step c a = some v →
          (v.Good s.m_in_samples_q.items ∧ v.wanted ≤ v.m_in_samples_avail) := by
        rintro c a v ⟨hc, hle⟩ ⟨hok, rfl⟩ hv
        exact ⟨hc.step hsize hok hv, hc.sound.wanted_le hsize hc.bounded
          (hc.inStep_avail hok.2) hok.1 hv hle⟩
      obtain ⟨hgood', hwanted⟩ :=
        Machine.invariant_of_meets hstep ⟨hgood, henough⟩ (hmeets.and halone) hu
      have hpos := hgood'.inStep hover
      simp only [hreader, ReaderPc.InStep] at hpos
      simp only [Call.wanted, hover, hreader, ReaderPc.wanted, hzero] at hwanted
      omega
  refine ⟨k, u, hrun', hret, ?_⟩
  refine (delivers_iff hsize hs ?_ hrun' hret).mpr ⟨(hkept k).imp fun _ _ h => h.1, ?_⟩
  · intro a ha
    rcases List.mem_append.mp ha with ha | ha
    · exact has a ha
    · rw [List.eq_of_mem_replicate ha]
      rfl
  · rw [tally_of_kept (hkept k), Nat.div_eq_of_lt hsamples]

end Libsmu.InputFifo
