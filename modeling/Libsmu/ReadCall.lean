import Libsmu.InputFifo

/-!
# A Call of `read`

`read` with `skipsamples` first pops what is queued beyond the requested samples, then takes
chunk after chunk until it has as many as requested. Both parts narrow numbers: the distance
to skip is an `int`, the samples that remain are a `uint32_t`. A chunk is as large as the second
load of the counter says, which may be more than what remains when samples arrived after
the first load; then what remains wraps.

`Call` is a call in the state of both threads: the steps of the loop and of the USB thread are
those of `InputFifo`, and every access of the first part is a step as well.

## Main results

* `length_add_todo`: the samples in the buffer and those to come are what was requested, up to
  multiples of `2 ^ 32`: one for every chunk that is too large.
* `books`: the counter is that of the queue as long as every distance fits an `int`, and never
  again after one that does not.
-/

namespace Libsmu.InputFifo

variable {α : Type*} {m_queue_size m_sample_count : ℕ}

/-- The conversion to an `int`. -/
def asInt (x : ℤ) : ℤ := (x + 2 ^ 31) % 2 ^ 32 - 2 ^ 31

/-- What becomes of a difference of counters. -/
theorem asInt_cases {d : ℤ} (h0 : 0 ≤ d) (h : d < 2 ^ 32) :
    (d < 2 ^ 31 ∧ asInt d = d) ∨ (2 ^ 31 ≤ d ∧ asInt d = d - 2 ^ 32) := by
  rw [asInt]
  omega

/-- Where a call of `read` stands before its loop. `sample` is the local of that name. -/
inductive Prologue (α : Type*)
  /-- at `m_in_samples_avail > samples` -/
  | test (samples : ℕ)
  /-- at `int s = m_in_samples_avail-samples` -/
  | distance (samples : ℕ)
  /-- at the head of the loop that pops `s` samples -/
  | skip (samples : ℕ) (s : ℤ) (i : ℕ) (sample : α)
  /-- past it -/
  | passed
  deriving DecidableEq

/-- A call of `read` among the steps of the USB thread; `delivered` is its buffer. -/
structure Call (α : Type*) (m_queue_size : ℕ) extends State α m_queue_size where
  prologue : Prologue α
  /-- record: the samples that were skipped -/
  skipped : List α
  /-- record: the samples that came into the queue since the call -/
  arrived : List α
  deriving DecidableEq

/-- The loop is entered, with `uint32_t remaining_samples = samples`. -/
def Call.enter (samples : ℕ) (sample : α) (c : Call α m_queue_size) : Call α m_queue_size :=
  { c with
    prologue := .passed
    reader := if samples % 2 ^ 32 = 0 then .idle else .compare (samples % 2 ^ 32) sample }

/-- `m_in_samples_avail -= s`, which is unsigned. -/
def Call.countOff (s : ℤ) (c : Call α m_queue_size) : Call α m_queue_size :=
  { c with m_in_samples_avail := ((c.m_in_samples_avail - s) % 2 ^ 32).toNat }

/-- The call begins in a state of both threads. -/
def Call.begin [Inhabited α] (s : State α m_queue_size) (samples : ℕ) (skipsamples : Bool) :
    Call α m_queue_size :=
  let c : Call α m_queue_size :=
    { s with delivered := [], prologue := .test samples, skipped := [], arrived := [] }
  if skipsamples then c else c.enter samples default

/-- The next step of the call. -/
def Call.advance [Inhabited α] (c : Call α m_queue_size) : Option (Call α m_queue_size) :=
  match c.prologue with
  | .test samples =>
      if samples < c.m_in_samples_avail then some { c with prologue := .distance samples }
      else some (c.enter samples default)
  | .distance samples =>
      some { c with
        prologue := .skip samples (asInt (c.m_in_samples_avail - samples)) 0 default }
  | .skip samples s i sample =>
      if i < s then
        match c.m_in_samples_q.pop with
        | some (x, q) =>
            some { c with
              m_in_samples_q := q
              prologue := .skip samples s (i + 1) x
              skipped := c.skipped ++ [x] }
        | none => some { c with prologue := .skip samples s (i + 1) sample }
      else some ((c.countOff s).enter samples sample)
  | .passed => (readerStep c.toState).map fun t => { c with toState := t }

/-- A call among the steps of the USB thread. -/
def callMachine (α : Type*) [Inhabited α] (m_queue_size m_sample_count : ℕ) :
    Machine (Call α m_queue_size) (Act α) where
  step c
    | .in_completion data =>
        match c.usb with
        | .outside => some { c with usb := .decoding data }
        | _ => none
    | .usb =>
        (usbStep m_sample_count c.toState).map fun t =>
          { c with
            toState := t
            arrived := c.arrived ++ t.m_in_samples_q.items.drop c.m_in_samples_q.items.length }
    | .reader => c.advance
    | .giveUp =>
        match c.prologue, c.reader with
        | .passed, .again _ _ => some { c with reader := .idle }
        | _, _ => none
    | .read _ | .flush => none

/-- The call has returned. -/
def Call.Returned (c : Call α m_queue_size) : Prop := c.prologue = .passed ∧ c.reader = .idle

/-! ### What a step can do -/

/-- The steps of the loop of `read`. -/
inductive ReaderMoves : State α m_queue_size → State α m_queue_size → Prop
  | fewer {s : State α m_queue_size} {remaining : ℕ} {sample : α}
      (hreader : s.reader = .compare remaining sample) (hlt : s.m_in_samples_avail < remaining) :
      ReaderMoves s { s with reader := .load remaining sample }
  | enough {s : State α m_queue_size} {remaining : ℕ} {sample : α}
      (hreader : s.reader = .compare remaining sample) (hle : remaining ≤ s.m_in_samples_avail) :
      ReaderMoves s { s with reader := .copy remaining remaining 0 sample }
  | load {s : State α m_queue_size} {remaining : ℕ} {sample : α}
      (hreader : s.reader = .load remaining sample) :
      ReaderMoves s { s with reader := .copy remaining s.m_in_samples_avail 0 sample }
  | pop {s : State α m_queue_size} {remaining samples i : ℕ} {sample x : α}
      {queue : BoundedQueue α m_queue_size}
      (hreader : s.reader = .copy remaining samples i sample) (hlt : i < samples)
      (hitems : s.m_in_samples_q.items = x :: queue.items) :
      ReaderMoves s { s with m_in_samples_q := queue, reader := .popped remaining samples i x }
  | miss {s : State α m_queue_size} {remaining samples i : ℕ} {sample : α}
      (hreader : s.reader = .copy remaining samples i sample) (hlt : i < samples)
      (hitems : s.m_in_samples_q.items = []) :
      ReaderMoves s { s with reader := .popped remaining samples i sample }
  | last {s : State α m_queue_size} {remaining samples i : ℕ} {sample : α}
      (hreader : s.reader = .copy remaining samples i sample) (hle : samples ≤ i)
      (hleft : Counter.add 32 remaining (2 ^ 32 - samples) = 0) :
      ReaderMoves s { s with reader := .idle }
  | further {s : State α m_queue_size} {remaining samples i : ℕ} {sample : α}
      (hreader : s.reader = .copy remaining samples i sample) (hle : samples ≤ i)
      (hleft : Counter.add 32 remaining (2 ^ 32 - samples) ≠ 0) :
      ReaderMoves s
        { s with reader := .again (Counter.add 32 remaining (2 ^ 32 - samples)) sample }
  | count {s : State α m_queue_size} {remaining samples i : ℕ} {sample : α}
      (hreader : s.reader = .popped remaining samples i sample) :
      ReaderMoves s { s with
        m_in_samples_avail := Counter.pred 32 s.m_in_samples_avail
        delivered := s.delivered ++ [sample]
        reader := .copy remaining samples (i + 1) sample }
  | again {s : State α m_queue_size} {remaining : ℕ} {sample : α}
      (hreader : s.reader = .again remaining sample) :
      ReaderMoves s { s with reader := .compare remaining sample }

theorem readerMoves_of_readerStep {s t : State α m_queue_size} (h : readerStep s = some t) :
    ReaderMoves s t := by
  cases hreader : s.reader with
  | idle =>
      rw [readerStep, hreader] at h
      cases h
  | compare remaining sample =>
      rw [readerStep, hreader] at h
      dsimp only at h
      split at h
      · rename_i hlt
        obtain rfl := Option.some.inj h
        exact .fewer hreader hlt
      · rename_i hge
        obtain rfl := Option.some.inj h
        exact .enough hreader (not_lt.mp hge)
  | load remaining sample =>
      rw [readerStep, hreader] at h
      obtain rfl := Option.some.inj h
      exact .load hreader
  | copy remaining samples i sample =>
      rw [readerStep, hreader] at h
      dsimp only at h
      split at h
      · rename_i hlt
        split at h
        · rename_i x queue hpop
          obtain rfl := Option.some.inj h
          exact .pop hreader hlt (BoundedQueue.pop_eq_some_iff.mp hpop)
        · rename_i hpop
          obtain rfl := Option.some.inj h
          exact .miss hreader hlt (BoundedQueue.pop_eq_none_iff.mp hpop)
      · rename_i hge
        split at h
        · rename_i hleft
          obtain rfl := Option.some.inj h
          exact .last hreader (not_lt.mp hge) hleft
        · rename_i hleft
          obtain rfl := Option.some.inj h
          exact .further hreader (not_lt.mp hge) hleft
  | popped remaining samples i sample =>
      rw [readerStep, hreader] at h
      obtain rfl := Option.some.inj h
      exact .count hreader
  | again remaining sample =>
      rw [readerStep, hreader] at h
      obtain rfl := Option.some.inj h
      exact .again hreader

/-- What a step of the USB thread does to the queue and the counter. -/
theorem usbStep_cases {s t : State α m_queue_size} (h : usbStep m_sample_count s = some t) :
    t.reader = s.reader ∧ t.delivered = s.delivered ∧
      ((t.m_in_samples_q = s.m_in_samples_q ∧ t.m_in_samples_avail = s.m_in_samples_avail ∧
          s.usb.uncounted = 0 ∧ t.usb.uncounted = 0) ∨
        (∃ x, t.m_in_samples_q.items = s.m_in_samples_q.items ++ [x] ∧
          t.m_in_samples_avail = s.m_in_samples_avail ∧
          s.usb.uncounted = 0 ∧ t.usb.uncounted = 1) ∨
        (t.m_in_samples_q = s.m_in_samples_q ∧
          t.m_in_samples_avail = Counter.add 32 s.m_in_samples_avail 1 ∧
          s.usb.uncounted = 1 ∧ t.usb.uncounted = 0)) := by
  obtain ⟨q, avail, sampleno, usb, reader, decoded, flushedAt, delivered, dropped⟩ := s
  cases usb with
  | outside => cases h
  | counting rest =>
      obtain rfl := Option.some.inj h
      exact ⟨rfl, rfl, .inr (.inr ⟨rfl, rfl, rfl, rfl⟩)⟩
  | decoding rest =>
      cases rest with
      | nil =>
          obtain rfl := Option.some.inj h
          exact ⟨rfl, rfl, .inl ⟨rfl, rfl, rfl, rfl⟩⟩
      | cons x rest =>
          simp only [usbStep] at h
          split at h
          · split at h
            · rename_i q' hpush
              obtain rfl := Option.some.inj h
              obtain ⟨-, hitems⟩ := BoundedQueue.push_eq_some_iff.mp hpush
              exact ⟨rfl, rfl, .inr (.inl ⟨x, hitems, rfl, rfl, rfl⟩)⟩
            · obtain rfl := Option.some.inj h
              exact ⟨rfl, rfl, .inl ⟨rfl, rfl, rfl, rfl⟩⟩
          · obtain rfl := Option.some.inj h
            exact ⟨rfl, rfl, .inl ⟨rfl, rfl, rfl, rfl⟩⟩

/-- The steps of a call. -/
inductive Call.Moves [Inhabited α] : Call α m_queue_size → Call α m_queue_size → Prop
  | more {c : Call α m_queue_size} {samples : ℕ} (hpro : c.prologue = .test samples)
      (hlt : samples < c.m_in_samples_avail) :
      Moves c { c with prologue := .distance samples }
  | noMore {c : Call α m_queue_size} {samples : ℕ} (hpro : c.prologue = .test samples)
      (hle : c.m_in_samples_avail ≤ samples) : Moves c (c.enter samples default)
  | distance {c : Call α m_queue_size} {samples : ℕ} (hpro : c.prologue = .distance samples) :
      Moves c { c with
        prologue := .skip samples (asInt (c.m_in_samples_avail - samples)) 0 default }
  | skip {c : Call α m_queue_size} {samples i : ℕ} {s : ℤ} {sample x : α}
      {queue : BoundedQueue α m_queue_size} (hpro : c.prologue = .skip samples s i sample)
      (hlt : i < s) (hitems : c.m_in_samples_q.items = x :: queue.items) :
      Moves c { c with
        m_in_samples_q := queue
        prologue := .skip samples s (i + 1) x
        skipped := c.skipped ++ [x] }
  | miss {c : Call α m_queue_size} {samples i : ℕ} {s : ℤ} {sample : α}
      (hpro : c.prologue = .skip samples s i sample) (hlt : i < s)
      (hitems : c.m_in_samples_q.items = []) :
      Moves c { c with prologue := .skip samples s (i + 1) sample }
  | enter {c : Call α m_queue_size} {samples i : ℕ} {s : ℤ} {sample : α}
      (hpro : c.prologue = .skip samples s i sample) (hle : s ≤ i) :
      Moves c ((c.countOff s).enter samples sample)
  | loop {c : Call α m_queue_size} {u : State α m_queue_size} (hpro : c.prologue = .passed)
      (hu : readerStep c.toState = some u) : Moves c { c with toState := u }

variable [Inhabited α] {c t : Call α m_queue_size} {a : Act α}

theorem Call.moves_of_advance (h : c.advance = some t) : c.Moves t := by
  cases hpro : c.prologue with
  | test samples =>
      rw [advance, hpro] at h
      dsimp only at h
      split at h
      · rename_i hlt
        obtain rfl := Option.some.inj h
        exact .more hpro hlt
      · rename_i hge
        obtain rfl := Option.some.inj h
        exact .noMore hpro (not_lt.mp hge)
  | distance samples =>
      rw [advance, hpro] at h
      obtain rfl := Option.some.inj h
      exact .distance hpro
  | skip samples s i sample =>
      rw [advance, hpro] at h
      dsimp only at h
      split at h
      · rename_i hlt
        split at h
        · rename_i x queue hpop
          obtain rfl := Option.some.inj h
          exact .skip hpro hlt (BoundedQueue.pop_eq_some_iff.mp hpop)
        · rename_i hpop
          obtain rfl := Option.some.inj h
          exact .miss hpro hlt (BoundedQueue.pop_eq_none_iff.mp hpop)
      · rename_i hge
        obtain rfl := Option.some.inj h
        exact .enter hpro (not_lt.mp hge)
  | passed =>
      rw [advance, hpro] at h
      obtain ⟨u, hu, rfl⟩ := Option.map_eq_some_iff.mp h
      have hmoves := Moves.loop hpro hu
      rw [hpro] at hmoves
      exact hmoves

/-- A step is one of the call or one of the USB thread, or the call gives up. -/
theorem Call.step_cases (h : (callMachine α m_queue_size m_sample_count).step c a = some t) :
    (a = .reader ∧ c.advance = some t) ∨
      (∃ data, a = .in_completion data ∧ c.usb = .outside ∧ t = { c with usb := .decoding data }) ∨
      (a = .usb ∧ ∃ u, usbStep m_sample_count c.toState = some u ∧
        t = { c with
          toState := u
          arrived := c.arrived ++ u.m_in_samples_q.items.drop c.m_in_samples_q.items.length }) ∨
      (a = .giveUp ∧ c.prologue = .passed ∧
        (∃ remaining sample, c.reader = .again remaining sample) ∧
        t = { c with reader := .idle }) := by
  cases a with
  | read samples | flush => cases h
  | reader => exact .inl ⟨rfl, h⟩
  | usb =>
      obtain ⟨u, hu, rfl⟩ := Option.map_eq_some_iff.mp h
      exact .inr (.inr (.inl ⟨rfl, u, hu, rfl⟩))
  | in_completion data =>
      simp only [callMachine] at h
      split at h
      · rename_i husb
        obtain rfl := Option.some.inj h
        exact .inr (.inl ⟨data, rfl, husb, rfl⟩)
      · cases h
  | giveUp =>
      simp only [callMachine] at h
      split at h
      · rename_i remaining sample hpro hreader
        obtain rfl := Option.some.inj h
        exact .inr (.inr (.inr ⟨rfl, hpro, ⟨remaining, sample, hreader⟩, rfl⟩))
      · cases h

/-! ### How many samples are delivered -/

/-- How many samples the loop still delivers if no further chunk is too large. -/
def ReaderPc.todo : ReaderPc α → ℕ
  | .idle => 0
  | .compare remaining _ | .load remaining _ | .again remaining _ => remaining
  | .copy remaining samples i _ | .popped remaining samples i _ =>
      (if samples ≤ remaining then remaining else remaining + 2 ^ 32) - i

/-- How many samples the call still delivers. -/
def Call.todo (c : Call α m_queue_size) : ℕ :=
  match c.prologue with
  | .test samples | .distance samples | .skip samples _ _ _ => samples % 2 ^ 32
  | .passed => c.reader.todo

/-- The numbers of the loop fit their types, and the copy loop stays within its chunk. -/
def ReaderPc.Bounded : ReaderPc α → Prop
  | .idle => True
  | .compare remaining _ | .load remaining _ | .again remaining _ => remaining < 2 ^ 32
  | .copy remaining samples i _ => remaining < 2 ^ 32 ∧ samples < 2 ^ 32 ∧ i ≤ samples
  | .popped remaining samples i _ => remaining < 2 ^ 32 ∧ samples < 2 ^ 32 ∧ i < samples

/-- The counter and the numbers of the loop fit their types. -/
structure Call.Bounded (c : Call α m_queue_size) : Prop where
  avail : c.m_in_samples_avail < 2 ^ 32
  reader : c.reader.Bounded

/-- The step loads a chunk that is larger than what remains. -/
def Call.overtaken (c : Call α m_queue_size) : Act α → Bool
  | .reader =>
      match c.prologue, c.reader with
      | .passed, .load remaining _ => remaining < c.m_in_samples_avail
      | _, _ => false
  | _ => false

/-- The call may make this step while it waits: any one but giving up. -/
def Act.waits : Act α → Bool
  | .giveUp => false
  | _ => true

omit [Inhabited α] in
/-- Entering the loop. -/
theorem Call.enter_cases (samples : ℕ) (sample : α) (c : Call α m_queue_size) :
    (c.enter samples sample).prologue = .passed ∧
      (c.enter samples sample).todo = samples % 2 ^ 32 ∧
      (c.enter samples sample).reader.Bounded := by
  have hlt : samples % 2 ^ 32 < 2 ^ 32 := Nat.mod_lt _ (by decide)
  refine ⟨rfl, ?_, ?_⟩
  · simp only [enter, todo]
    split
    · rename_i hzero
      exact hzero.symm
    · rfl
  · simp only [enter]
    split
    · exact trivial
    · exact hlt

/-- What remains after a chunk, with its wrap. -/
theorem left_eq {remaining samples i : ℕ} (hr : remaining < 2 ^ 32) (hs : samples < 2 ^ 32)
    (hi : samples = i) : Counter.add 32 remaining (2 ^ 32 - samples) =
      (if samples ≤ remaining then remaining else remaining + 2 ^ 32) - i := by
  rw [Counter.add]
  split <;> omega

omit [Inhabited α] in
/-- A step of the loop, as far as the numbers go. -/
theorem readerStep_todo {s t : State α m_queue_size} (havail : s.m_in_samples_avail < 2 ^ 32)
    (hb : s.reader.Bounded) (h : readerStep s = some t) :
    t.m_in_samples_avail < 2 ^ 32 ∧ t.reader.Bounded ∧
      t.delivered.length + t.reader.todo = s.delivered.length + s.reader.todo +
        2 ^ 32 * (match s.reader with
          | .load remaining _ => decide (remaining < s.m_in_samples_avail)
          | _ => false).toNat := by
  cases readerMoves_of_readerStep h with
  | fewer hreader hlt =>
      rw [hreader] at hb ⊢
      exact ⟨havail, hb, rfl⟩
  | enough hreader hle =>
      rw [hreader] at hb ⊢
      refine ⟨havail, ⟨hb, hb, Nat.zero_le _⟩, ?_⟩
      simp [ReaderPc.todo]
  | @load remaining sample hreader =>
      rw [hreader] at hb ⊢
      refine ⟨havail, ⟨hb, havail, Nat.zero_le _⟩, ?_⟩
      simp only [ReaderPc.todo, Nat.sub_zero]
      by_cases hle : s.m_in_samples_avail ≤ remaining
      · rw [if_pos hle, decide_eq_false (not_lt.mpr hle)]
        rfl
      · rw [if_neg hle, decide_eq_true (not_le.mp hle), Bool.toNat_true]
        omega
  | pop hreader hlt hitems =>
      rw [hreader] at hb ⊢
      exact ⟨havail, ⟨hb.1, hb.2.1, hlt⟩, rfl⟩
  | miss hreader hlt hitems =>
      rw [hreader] at hb ⊢
      exact ⟨havail, ⟨hb.1, hb.2.1, hlt⟩, rfl⟩
  | last hreader hle hleft =>
      rw [hreader] at hb ⊢
      obtain ⟨hr, hs, hi⟩ := hb
      refine ⟨havail, trivial, ?_⟩
      simp only [ReaderPc.todo, Bool.toNat_false, Nat.mul_zero, Nat.add_zero]
      rw [← left_eq hr hs (le_antisymm hle hi), hleft, Nat.add_zero]
  | further hreader hle hleft =>
      rw [hreader] at hb ⊢
      obtain ⟨hr, hs, hi⟩ := hb
      refine ⟨havail, Counter.add_lt _ _ _, ?_⟩
      simp only [ReaderPc.todo, Bool.toNat_false, Nat.mul_zero, Nat.add_zero]
      rw [← left_eq hr hs (le_antisymm hle hi)]
  | count hreader =>
      rw [hreader] at hb ⊢
      obtain ⟨hr, hs, hi⟩ := hb
      refine ⟨Nat.mod_lt _ (by decide), ⟨hr, hs, hi⟩, ?_⟩
      simp only [ReaderPc.todo, List.length_append, List.length_singleton, Bool.toNat_false,
        Nat.mul_zero, Nat.add_zero]
      split <;> omega
  | again hreader =>
      rw [hreader] at hb ⊢
      exact ⟨havail, hb, rfl⟩

/-- **What is delivered and what is to come** only a chunk that is too large changes. -/
theorem Call.Moves.todo (h : c.Moves t) (hb : c.Bounded) :
    t.Bounded ∧ t.delivered.length + t.todo =
      c.delivered.length + c.todo + 2 ^ 32 * (c.overtaken .reader).toNat := by
  cases h with
  | more hpro hlt =>
      simp only [Call.todo, overtaken, hpro]
      exact ⟨⟨hb.avail, hb.reader⟩, rfl⟩
  | @noMore samples hpro hle =>
      obtain ⟨-, htodo, hreader⟩ := c.enter_cases samples default
      refine ⟨⟨hb.avail, hreader⟩, ?_⟩
      rw [htodo]
      simp only [Call.todo, overtaken, hpro]
      rfl
  | distance hpro =>
      simp only [Call.todo, overtaken, hpro]
      exact ⟨⟨hb.avail, hb.reader⟩, rfl⟩
  | skip hpro hlt hitems =>
      simp only [Call.todo, overtaken, hpro]
      exact ⟨⟨hb.avail, hb.reader⟩, rfl⟩
  | miss hpro hlt hitems =>
      simp only [Call.todo, overtaken, hpro]
      exact ⟨⟨hb.avail, hb.reader⟩, rfl⟩
  | @enter samples i s sample hpro hle =>
      obtain ⟨-, htodo, hreader⟩ := enter_cases samples sample (c.countOff s)
      refine ⟨⟨?_, hreader⟩, ?_⟩
      · simp only [Call.enter, countOff]
        omega
      · rw [htodo]
        simp only [Call.todo, overtaken, hpro]
        rfl
  | loop hpro hu =>
      obtain ⟨havail, hreader, hlength⟩ := readerStep_todo hb.avail hb.reader hu
      refine ⟨⟨havail, hreader⟩, ?_⟩
      simp only [Call.todo, overtaken, hpro]
      refine hlength.trans ?_
      cases c.reader <;> rfl

theorem Call.Bounded.step (hb : c.Bounded)
    (h : (callMachine α m_queue_size m_sample_count).step c a = some t) :
    t.Bounded ∧ (a.waits = true → t.delivered.length + t.todo =
      c.delivered.length + c.todo + 2 ^ 32 * (c.overtaken a).toNat) := by
  rcases step_cases h with ⟨rfl, hstep⟩ | ⟨data, rfl, -, rfl⟩ | ⟨rfl, u, hu, rfl⟩ | ⟨rfl, -, -, rfl⟩
  · obtain ⟨hbt, hlength⟩ := (moves_of_advance hstep).todo hb
    exact ⟨hbt, fun _ => hlength⟩
  · exact ⟨⟨hb.avail, hb.reader⟩, fun _ => rfl⟩
  · obtain ⟨hreader, hdelivered, hcount⟩ := usbStep_cases hu
    refine ⟨⟨?_, hreader ▸ hb.reader⟩, fun _ => ?_⟩
    · rcases hcount with ⟨-, havail, -⟩ | ⟨_, -, havail, -⟩ | ⟨-, havail, -⟩
      · exact havail ▸ hb.avail
      · exact havail ▸ hb.avail
      · exact havail ▸ Counter.add_lt _ _ _
    · simp only [Call.todo, hreader, hdelivered, overtaken, Bool.toNat_false, Nat.mul_zero,
        Nat.add_zero]
  · exact ⟨⟨hb.avail, trivial⟩, fun hwaits => by cases hwaits⟩

/-- **How many samples are delivered**: what was requested, up to multiples of `2 ^ 32`. -/
theorem length_add_todo {as : List (Act α)} (hb : c.Bounded) (has : ∀ a ∈ as, a.waits = true)
    (hrun : (callMachine α m_queue_size m_sample_count).run c as = some t) :
    t.delivered.length + t.todo = c.delivered.length + c.todo +
      2 ^ 32 * (callMachine α m_queue_size m_sample_count).tally Call.overtaken c as :=
  Machine.tally_rule (fun _ _ _ hb ha hstep => ⟨(hb.step hstep).1, (hb.step hstep).2 ha⟩) hb has
    hrun

/-! ### The counter and the queue -/

/-- How many samples are taken from the queue and not counted off yet. -/
def Prologue.taken : Prologue α → ℕ
  | .skip _ _ i _ => i
  | _ => 0

/-- By how much the counter is still lowered: by the distance, which a negative `s` stands for
up to `2 ^ 32`, less what the loop has popped. -/
def Prologue.owed : Prologue α → ℕ
  | .skip _ s i _ => (if s < 0 then s + 2 ^ 32 else s - i).toNat
  | _ => 0

/-- What the first part has tested holds still, and its loop stays within the distance. -/
def Prologue.Fits (m_in_samples_avail : ℕ) : Prologue α → Prop
  | .distance samples => samples < m_in_samples_avail
  | .skip _ s i _ => -2 ^ 31 ≤ s ∧ s < 2 ^ 31 ∧ (i : ℤ) ≤ max s 0
  | .test _ | .passed => True

/-- The accounting of a call on a queue that held `q`: the counter is `lost` below what it
should be. -/
structure Call.Inv (q : List α) (lost : ℕ) (c : Call α m_queue_size) : Prop where
  avail : c.m_in_samples_avail < 2 ^ 32
  count : (c.m_in_samples_avail + c.usb.uncounted + lost) % 2 ^ 32 =
    (c.m_in_samples_q.items.length + c.reader.hand.length + c.prologue.taken) % 2 ^ 32
  owed : c.prologue.owed + c.reader.owed + c.usb.uncounted + lost ≤
    c.m_in_samples_q.items.length + c.reader.hand.length
  hand : c.reader.hand.length ≤ c.reader.owed
  early : c.prologue ≠ .passed → c.reader = .idle ∧ c.delivered = []
  fits : c.prologue.Fits c.m_in_samples_avail
  stream : c.skipped ++ c.delivered ++ c.reader.hand ++ c.m_in_samples_q.items = q ++ c.arrived

omit [Inhabited α] in
theorem uncounted_le (usb : UsbPc α) : usb.uncounted ≤ 1 := by
  cases usb <;> simp [UsbPc.uncounted]

omit [Inhabited α] in
/-- Where nothing is popped the counter is exact. -/
theorem Call.Inv.avail_eq {q : List α} {lost : ℕ} (hsize : m_queue_size < 2 ^ 32)
    (h : c.Inv q lost) (hhand : c.reader.hand = []) (htaken : c.prologue.taken = 0) :
    c.m_in_samples_avail + c.usb.uncounted + lost = c.m_in_samples_q.items.length := by
  have hlen := c.m_in_samples_q.length_le
  have hunc := uncounted_le c.usb
  have havail := h.avail
  have hcount := h.count
  have howed := h.owed
  rw [hhand, htaken] at hcount
  rw [hhand] at howed
  simp only [List.length_nil, Nat.add_zero] at hcount howed
  omega

/-- A step of the USB thread. -/
theorem Call.Inv.usb {q : List α} {lost : ℕ} (hsize : m_queue_size < 2 ^ 32) (h : c.Inv q lost)
    (hstep : (callMachine α m_queue_size m_sample_count).step c .usb = some t) :
    t.Inv q lost := by
  obtain ⟨u, hu, rfl⟩ := Option.map_eq_some_iff.mp hstep
  obtain ⟨hreader, hdelivered, hcases⟩ := usbStep_cases hu
  have hlen := c.m_in_samples_q.length_le
  have hlen' := u.m_in_samples_q.length_le
  have hcount := h.count
  have howed := h.owed
  have havail := h.avail
  have hstream := h.stream
  have hfits := h.fits
  have hearly : c.prologue ≠ .passed → u.reader = .idle ∧ u.delivered = [] := by
    rw [hreader, hdelivered]
    exact h.early
  rcases hcases with ⟨hq, heq, hunc, hunc'⟩ | ⟨x, hq, heq, hunc, hunc'⟩ | ⟨hq, heq, hunc, hunc'⟩
  · refine ⟨heq ▸ havail, ?_, ?_, hreader ▸ h.hand, hearly, heq ▸ hfits, ?_⟩
    · simp only [hreader, hq, heq, hunc']
      rw [hunc] at hcount
      exact hcount
    · simp only [hreader, hq, hunc']
      rw [hunc] at howed
      exact howed
    · simp only [hreader, hq, hdelivered, List.drop_length, List.append_nil]
      exact hstream
  · refine ⟨heq ▸ havail, ?_, ?_, hreader ▸ h.hand, hearly, heq ▸ hfits, ?_⟩
    · simp only [hreader, hq, heq, hunc', List.length_append, List.length_singleton]
      rw [hunc] at hcount
      omega
    · simp only [hreader, hq, hunc', List.length_append, List.length_singleton]
      rw [hunc] at howed
      omega
    · simp only [hreader, hq, hdelivered, List.drop_left]
      rw [← List.append_assoc, hstream, List.append_assoc]
  · refine ⟨heq ▸ Counter.add_lt _ _ _, ?_, ?_, hreader ▸ h.hand, hearly, ?_, ?_⟩
    · simp only [hreader, hq, heq, hunc', Counter.add]
      rw [hunc] at hcount
      omega
    · simp only [hreader, hq, hunc']
      rw [hunc] at howed
      omega
    · -- the counter rises: before the loop it is below the length of the queue
      simp only [heq]
      cases hpro : c.prologue with
      | test samples => trivial
      | passed => trivial
      | skip samples s i sample =>
          rw [hpro] at hfits
          exact hfits
      | distance samples =>
          obtain ⟨hidle, -⟩ := h.early (by simp [hpro])
          have hexact := h.avail_eq hsize (by rw [hidle]; rfl) (by rw [hpro]; rfl)
          rw [hpro] at hfits
          simp only [Prologue.Fits] at hfits ⊢
          rw [Counter.add_of_lt (by omega)]
          omega
    · simp only [hreader, hq, hdelivered, List.drop_length, List.append_nil]
      exact hstream

omit [Inhabited α] in
/-- In the loop the numbers of the part before it are out of use. -/
theorem Call.Inv.of_passed {q : List α} {lost : ℕ} (hpro : c.prologue = .passed)
    (hand : List α) (owed : ℕ) (hhand : c.reader.hand = hand) (howed : c.reader.owed = owed)
    (havail : c.m_in_samples_avail < 2 ^ 32)
    (hcount : (c.m_in_samples_avail + c.usb.uncounted + lost) % 2 ^ 32 =
      (c.m_in_samples_q.items.length + hand.length) % 2 ^ 32)
    (hleft : owed + c.usb.uncounted + lost ≤ c.m_in_samples_q.items.length + hand.length)
    (hle : hand.length ≤ owed)
    (hstream : c.skipped ++ c.delivered ++ hand ++ c.m_in_samples_q.items = q ++ c.arrived) :
    c.Inv q lost where
  avail := havail
  count := by
    rw [hpro, hhand]
    exact hcount
  owed := by
    simp only [hpro, Prologue.owed, hhand, howed, Nat.zero_add]
    exact hleft
  hand := by
    rw [hhand, howed]
    exact hle
  early hne := absurd hpro hne
  fits := by
    rw [hpro]
    trivial
  stream := by
    rw [hhand]
    exact hstream

omit [Inhabited α] in
/-- A step of the loop. -/
theorem Call.Inv.loop {q : List α} {lost : ℕ} (hsize : m_queue_size < 2 ^ 32) (h : c.Inv q lost)
    (hpro : c.prologue = .passed) {u : State α m_queue_size}
    (hstep : readerStep c.toState = some u) : Call.Inv q lost { c with toState := u } := by
  have havail := h.avail
  have hcount := h.count
  have howed := h.owed
  have hhand := h.hand
  have hstream := h.stream
  have hexact : c.reader.hand = [] →
      c.m_in_samples_avail + c.usb.uncounted + lost = c.m_in_samples_q.items.length :=
    fun hempty => h.avail_eq hsize hempty (by rw [hpro]; rfl)
  simp only [hpro, Prologue.taken, Prologue.owed, Nat.add_zero, Nat.zero_add] at hcount howed
  cases readerMoves_of_readerStep hstep with
  | fewer hreader | again hreader =>
      simp only [hreader, ReaderPc.hand, ReaderPc.owed] at hcount howed hhand hstream
      exact .of_passed hpro [] 0 rfl rfl havail hcount howed hhand hstream
  | @enough remaining sample hreader hle =>
      simp only [hreader, ReaderPc.hand] at hcount hstream hexact
      have heq := hexact trivial
      refine .of_passed hpro [] remaining rfl rfl havail hcount ?_ (Nat.zero_le _) hstream
      simp only [List.length_nil]
      omega
  | load hreader =>
      simp only [hreader, ReaderPc.hand] at hcount hstream hexact
      have heq := hexact trivial
      refine .of_passed hpro [] c.m_in_samples_avail rfl rfl havail hcount ?_ (Nat.zero_le _)
        hstream
      simp only [List.length_nil]
      omega
  | @pop remaining samples i sample x queue hreader hlt hitems =>
      simp only [hreader, hitems, ReaderPc.hand, ReaderPc.owed, List.length_nil, List.length_cons,
        Nat.add_zero, List.append_nil] at hcount howed hstream
      refine .of_passed hpro [x] (samples - i) rfl rfl havail hcount howed ?_ ?_
      · rw [List.length_singleton]
        omega
      · rw [← hstream]
        simp
  | miss hreader hlt hitems =>
      -- what the chunk still takes is in the queue
      simp only [hreader, hitems, ReaderPc.hand, ReaderPc.owed, List.length_nil] at howed
      omega
  | last hreader hle hleft | further hreader hle hleft =>
      simp only [hreader, ReaderPc.hand, ReaderPc.owed] at hcount howed hstream
      refine .of_passed hpro [] 0 rfl rfl havail hcount ?_ le_rfl hstream
      simp only
      omega
  | @count remaining samples i sample hreader =>
      obtain ⟨⟨queue, avail, sampleno, usb, reader, decoded, flushedAt, delivered, dropped⟩,
        prologue, skipped, arrived⟩ := c
      obtain rfl : reader = .popped remaining samples i sample := hreader
      simp only [ReaderPc.hand, ReaderPc.owed, List.length_singleton]
        at hcount howed hhand hstream
      refine .of_passed hpro [] (samples - (i + 1)) rfl rfl (Nat.mod_lt _ (by decide)) ?_ ?_
        (Nat.zero_le _) ?_
      · simp only [List.length_nil, Counter.pred]
        omega
      · simp only [List.length_nil]
        omega
      · rw [← hstream]
        simp

omit [Inhabited α] in
/-- The loop is entered without anything in hand. -/
theorem Call.Inv.enter {q : List α} {lost : ℕ} {samples : ℕ} {sample : α}
    (havail : c.m_in_samples_avail < 2 ^ 32)
    (hcount : (c.m_in_samples_avail + c.usb.uncounted + lost) % 2 ^ 32 =
      c.m_in_samples_q.items.length % 2 ^ 32)
    (howed : c.usb.uncounted + lost ≤ c.m_in_samples_q.items.length)
    (hstream : c.skipped ++ c.delivered ++ c.m_in_samples_q.items = q ++ c.arrived) :
    (c.enter samples sample).Inv q lost := by
  have hreader : (c.enter samples sample).reader.hand = [] ∧
      (c.enter samples sample).reader.owed = 0 := by
    simp only [Call.enter]
    split
    · exact ⟨rfl, rfl⟩
    · exact ⟨rfl, rfl⟩
  refine ⟨havail, ?_, ?_, ?_, fun hne => absurd rfl hne, trivial, ?_⟩
  · rw [hreader.1]
    exact hcount
  · rw [hreader.1, hreader.2]
    simp only [Call.enter, Prologue.owed, List.length_nil]
    omega
  · rw [hreader.1, hreader.2]
    exact le_rfl
  · rw [hreader.1, List.append_nil]
    exact hstream

/-- A step of another thread, or giving up. -/
theorem Call.Inv.other {q : List α} {lost : ℕ} (hsize : m_queue_size < 2 ^ 32) (h : c.Inv q lost)
    (ha : a ≠ .reader)
    (hstep : (callMachine α m_queue_size m_sample_count).step c a = some t) :
    t.Inv q lost ∧ t.prologue = c.prologue := by
  rcases step_cases hstep with ⟨rfl, -⟩ | ⟨data, rfl, husb, rfl⟩ | ⟨rfl, u, hu, rfl⟩ |
    ⟨rfl, hpro, ⟨remaining, sample, hreader⟩, rfl⟩
  · exact absurd rfl ha
  · have hcount := h.count
    have howed := h.owed
    rw [husb] at hcount howed
    exact ⟨⟨h.avail, hcount, howed, h.hand, h.early, h.fits, h.stream⟩, rfl⟩
  · exact ⟨h.usb hsize hstep, rfl⟩
  · have hcount := h.count
    have howed := h.owed
    have hstream := h.stream
    rw [hreader] at hcount howed hstream
    exact ⟨⟨h.avail, hcount, howed, Nat.zero_le _, fun hne => absurd hpro hne, h.fits, hstream⟩,
      rfl⟩

/-- A step before the loop: the test. -/
theorem Call.Inv.test {q : List α} {samples : ℕ} (h : c.Inv q 0)
    (hpro : c.prologue = .test samples) (hstep : c.advance = some t) :
    t.Inv q 0 ∧ ((samples < c.m_in_samples_avail ∧ t = { c with prologue := .distance samples }) ∨
      (c.m_in_samples_avail ≤ samples ∧ t = c.enter samples default)) := by
  obtain ⟨hidle, hempty⟩ := h.early (by simp [hpro])
  have hcount := h.count
  have howed := h.owed
  have hstream := h.stream
  simp only [hidle, hpro, ReaderPc.hand, ReaderPc.owed, Prologue.taken, Prologue.owed,
    List.length_nil, List.append_nil, Nat.add_zero] at hcount howed hstream
  rw [advance, hpro] at hstep
  dsimp only at hstep
  split at hstep
  · rename_i hlt
    obtain rfl := Option.some.inj hstep
    refine ⟨⟨h.avail, ?_, ?_, h.hand, fun _ => ⟨hidle, hempty⟩, hlt, h.stream⟩, .inl ⟨hlt, rfl⟩⟩
    · simp only [hidle, ReaderPc.hand, Prologue.taken, List.length_nil, Nat.add_zero]
      exact hcount
    · simp only [hidle, ReaderPc.hand, ReaderPc.owed, Prologue.owed, List.length_nil]
      omega
  · rename_i hge
    obtain rfl := Option.some.inj hstep
    exact ⟨.enter h.avail hcount (by omega) hstream, .inr ⟨not_lt.mp hge, rfl⟩⟩

/-- The distance. -/
theorem Call.Inv.distance {q : List α} {samples : ℕ} (hsize : m_queue_size < 2 ^ 32)
    (h : c.Inv q 0) (hpro : c.prologue = .distance samples) (hstep : c.advance = some t) :
    t.Inv q 0 ∧ t = { c with
      prologue := .skip samples (asInt (c.m_in_samples_avail - samples)) 0 default } := by
  obtain ⟨hidle, hempty⟩ := h.early (by simp [hpro])
  have hexact := h.avail_eq hsize (by rw [hidle]; rfl) (by rw [hpro]; rfl)
  have hcount := h.count
  have hfits := h.fits
  have havail := h.avail
  simp only [hidle, hpro, ReaderPc.hand, Prologue.taken, List.length_nil, Nat.add_zero] at hcount
  rw [hpro] at hfits
  simp only [Prologue.Fits] at hfits
  rw [advance, hpro] at hstep
  obtain rfl := Option.some.inj hstep
  refine ⟨⟨havail, ?_, ?_, h.hand, fun _ => ⟨hidle, hempty⟩, ?_, h.stream⟩, rfl⟩
  · simp only [hidle, ReaderPc.hand, Prologue.taken, List.length_nil, Nat.add_zero]
    exact hcount
  · simp only [hidle, ReaderPc.hand, ReaderPc.owed, Prologue.owed, List.length_nil]
    rcases asInt_cases (d := c.m_in_samples_avail - samples) (by omega) (by omega) with
      ⟨hlt, hint⟩ | ⟨hge, hint⟩
    · rw [hint, if_neg (by omega)]
      omega
    · rw [hint, if_pos (by omega)]
      omega
  · simp only [Prologue.Fits, asInt]
    omega

/-- A step of the loop that skips, or leaving it. -/
theorem Call.Inv.skip {q : List α} {samples i : ℕ} {s : ℤ} {sample : α} (h : c.Inv q 0)
    (hpro : c.prologue = .skip samples s i sample) (hs : 0 ≤ s) (hstep : c.advance = some t) :
    t.Inv q 0 ∧ ((i < s ∧ ∃ x queue, c.m_in_samples_q.items = x :: queue.items ∧
        t = { c with
          m_in_samples_q := queue
          prologue := .skip samples s (i + 1) x
          skipped := c.skipped ++ [x] }) ∨
      ((i : ℤ) = s ∧ t = (c.countOff s).enter samples sample)) := by
  obtain ⟨hidle, hempty⟩ := h.early (by simp [hpro])
  have hcount := h.count
  have howed := h.owed
  have hfits := h.fits
  have hstream := h.stream
  have havail := h.avail
  simp only [hidle, hpro, ReaderPc.hand, ReaderPc.owed, Prologue.taken, Prologue.owed,
    List.length_nil, List.append_nil, Nat.add_zero, if_neg (not_lt.mpr hs)]
    at hcount howed hstream
  rw [hpro] at hfits
  obtain ⟨-, hmax, hi⟩ := hfits
  rw [max_eq_left hs] at hi
  rw [advance, hpro] at hstep
  dsimp only at hstep
  split at hstep
  · rename_i hlt
    split at hstep
    · rename_i x queue hpop
      obtain rfl := Option.some.inj hstep
      have hitems := BoundedQueue.pop_eq_some_iff.mp hpop
      rw [hitems] at hcount howed hstream
      rw [List.length_cons] at hcount howed
      refine ⟨⟨havail, ?_, ?_, h.hand, fun _ => ⟨hidle, hempty⟩, ?_, ?_⟩,
        .inl ⟨hlt, x, queue, hitems, rfl⟩⟩
      · simp only [hidle, ReaderPc.hand, Prologue.taken, List.length_nil]
        omega
      · simp only [hidle, ReaderPc.hand, ReaderPc.owed, Prologue.owed, List.length_nil,
          if_neg (not_lt.mpr hs)]
        omega
      · simp only [Prologue.Fits]
        omega
      · rw [← hstream, hempty]
        simp [hidle, ReaderPc.hand]
    · rename_i hpop
      rw [BoundedQueue.pop_eq_none_iff.mp hpop, List.length_nil] at howed
      omega
  · rename_i hge
    obtain rfl := Option.some.inj hstep
    refine ⟨.enter ?_ ?_ ?_ hstream, .inr ⟨by omega, rfl⟩⟩
    · simp only [countOff]
      omega
    · simp only [countOff]
      omega
    · simp only [countOff]
      omega

/-- Leaving it with a negative distance. -/
theorem Call.Inv.negative {q : List α} {samples i : ℕ} {s : ℤ} {sample : α} (h : c.Inv q 0)
    (hpro : c.prologue = .skip samples s i sample) (hs : s < 0) (hstep : c.advance = some t) :
    (∃ lost, 0 < lost ∧ t.Inv q lost) ∧ t = (c.countOff s).enter samples sample := by
  obtain ⟨hidle, hempty⟩ := h.early (by simp [hpro])
  have hcount := h.count
  have howed := h.owed
  have hfits := h.fits
  have hstream := h.stream
  have havail := h.avail
  simp only [hidle, hpro, ReaderPc.hand, ReaderPc.owed, Prologue.taken, Prologue.owed,
    List.length_nil, List.append_nil, Nat.add_zero, if_pos hs] at hcount howed hstream
  rw [hpro] at hfits
  obtain ⟨hmin, hmax, hi⟩ := hfits
  rw [max_eq_right hs.le] at hi
  rw [advance, hpro] at hstep
  dsimp only at hstep
  rw [if_neg (by omega)] at hstep
  obtain rfl := Option.some.inj hstep
  refine ⟨⟨(s + 2 ^ 32).toNat, by omega, .enter ?_ ?_ ?_ hstream⟩, rfl⟩
  · simp only [countOff]
    omega
  · simp only [countOff]
    omega
  · simp only [countOff]
    omega

/-- The condition on a step: the distance to skip fits an `int`. -/
def Call.Near (c : Call α m_queue_size) : Act α → Prop
  | .reader =>
      match c.prologue with
      | .distance samples => c.m_in_samples_avail < samples + 2 ^ 31
      | _ => True
  | _ => True

/-- The books are right, and no distance is negative. -/
def Call.Sound (q : List α) (c : Call α m_queue_size) : Prop :=
  c.Inv q 0 ∧ ∀ samples s i sample, c.prologue = .skip samples s i sample → 0 ≤ s

/-- The distance came out negative, and the counter is or will be below the queue for good. -/
def Call.Broken (q : List α) (c : Call α m_queue_size) : Prop :=
  (c.Inv q 0 ∧ ∃ samples s i sample, c.prologue = .skip samples s i sample ∧ s < 0) ∨
    (c.prologue = .passed ∧ ∃ lost, 0 < lost ∧ c.Inv q lost)

/-- A step that meets the condition keeps the books. -/
theorem Call.Sound.step {q : List α} (hsize : m_queue_size < 2 ^ 32) (h : c.Sound q)
    (hnear : c.Near a) (hstep : (callMachine α m_queue_size m_sample_count).step c a = some t) :
    t.Sound q := by
  obtain ⟨hinv, hskip⟩ := h
  rcases eq_or_ne a .reader with rfl | ha
  · cases hpro : c.prologue with
    | passed =>
        simp only [callMachine, advance, hpro] at hstep
        obtain ⟨u, hu, rfl⟩ := Option.map_eq_some_iff.mp hstep
        have hloop := hinv.loop hsize hpro hu
        rw [hpro] at hloop
        exact ⟨hloop, fun _ _ _ _ h => by cases h⟩
    | test samples =>
        obtain ⟨hinv', ⟨-, rfl⟩ | ⟨-, rfl⟩⟩ := hinv.test hpro hstep
        · exact ⟨hinv', fun _ _ _ _ h => by cases h⟩
        · exact ⟨hinv', fun _ _ _ _ h => by cases h⟩
    | distance samples =>
        obtain ⟨hinv', rfl⟩ := hinv.distance hsize hpro hstep
        refine ⟨hinv', fun _ s _ _ h => ?_⟩
        have hfits := hinv.fits
        have havail := hinv.avail
        simp only [Near, hpro] at hnear
        rw [hpro] at hfits
        simp only [Prologue.Fits] at hfits
        obtain ⟨-, rfl, -, -⟩ := Prologue.skip.inj h
        rcases asInt_cases (d := c.m_in_samples_avail - samples) (by omega) (by omega) with
          ⟨-, hint⟩ | ⟨hge, -⟩
        · omega
        · omega
    | skip samples s i sample =>
        have hs := hskip _ _ _ _ hpro
        obtain ⟨hinv', ⟨-, x, queue, -, rfl⟩ | ⟨-, rfl⟩⟩ := hinv.skip hpro hs hstep
        · refine ⟨hinv', fun _ _ _ _ h => ?_⟩
          obtain ⟨-, rfl, -, -⟩ := Prologue.skip.inj h
          exact hs
        · exact ⟨hinv', fun _ _ _ _ h => by cases h⟩
  · obtain ⟨hinv', hpro⟩ := hinv.other hsize ha hstep
    exact ⟨hinv', fun _ _ _ _ h => hskip _ _ _ _ (hpro ▸ h)⟩

/-- One that does not takes a negative distance. -/
theorem Call.Sound.breaks {q : List α} (hsize : m_queue_size < 2 ^ 32) (h : c.Sound q)
    (hnear : ¬c.Near a) (hstep : (callMachine α m_queue_size m_sample_count).step c a = some t) :
    t.Broken q := by
  rcases eq_or_ne a .reader with rfl | ha
  · cases hpro : c.prologue with
    | distance samples =>
        obtain ⟨hinv', rfl⟩ := h.1.distance hsize hpro hstep
        refine .inl ⟨hinv', _, _, _, _, rfl, ?_⟩
        have havail := h.1.avail
        simp only [Near, hpro] at hnear
        rcases asInt_cases (d := c.m_in_samples_avail - samples) (by omega) (by omega) with
          ⟨hlt, -⟩ | ⟨-, hint⟩
        · omega
        · omega
    | test samples | skip samples s i sample | passed =>
        simp only [Near, hpro, not_true] at hnear
  · cases a with
    | reader => exact absurd rfl ha
    | in_completion data | usb | read samples | giveUp | flush => exact absurd trivial hnear

/-- A counter that is too low stays so. -/
theorem Call.Broken.step {q : List α} (hsize : m_queue_size < 2 ^ 32) (h : c.Broken q)
    (hstep : (callMachine α m_queue_size m_sample_count).step c a = some t) : t.Broken q := by
  rcases h with ⟨hinv, samples, s, i, sample, hpro, hs⟩ | ⟨hpro, lost, hlost, hinv⟩
  · rcases eq_or_ne a .reader with rfl | ha
    · obtain ⟨hlost, rfl⟩ := hinv.negative hpro hs hstep
      exact .inr ⟨rfl, hlost⟩
    · obtain ⟨hinv', hpro'⟩ := hinv.other hsize ha hstep
      exact .inl ⟨hinv', samples, s, i, sample, hpro'.trans hpro, hs⟩
  · rcases eq_or_ne a .reader with rfl | ha
    · simp only [callMachine, advance, hpro] at hstep
      obtain ⟨u, hu, rfl⟩ := Option.map_eq_some_iff.mp hstep
      have hloop := hinv.loop hsize hpro hu
      rw [hpro] at hloop
      exact .inr ⟨rfl, lost, hlost, hloop⟩
    · obtain ⟨hinv', hpro'⟩ := hinv.other hsize ha hstep
      exact .inr ⟨hpro'.trans hpro, lost, hlost, hinv'⟩

/-- A queue between two calls, as the books have it. -/
structure State.Quiet (s : State α m_queue_size) : Prop where
  reader : s.reader = .idle
  usb : s.usb.uncounted = 0
  avail : s.m_in_samples_avail = s.m_in_samples_q.items.length

theorem State.Quiet.sound_begin {s : State α m_queue_size} (hsize : m_queue_size < 2 ^ 32)
    (hs : s.Quiet) (samples : ℕ) (skipsamples : Bool) :
    (Call.begin s samples skipsamples).Sound s.m_in_samples_q.items := by
  have havail : s.m_in_samples_avail < 2 ^ 32 := by
    rw [hs.avail]
    exact lt_of_le_of_lt s.m_in_samples_q.length_le hsize
  have hstart : ∀ c : Call α m_queue_size,
      c = { s with delivered := [], prologue := .test samples, skipped := [], arrived := [] } →
        c.Inv s.m_in_samples_q.items 0 := by
    rintro c rfl
    refine ⟨havail, ?_, ?_, ?_, fun _ => ⟨hs.reader, rfl⟩, trivial, ?_⟩
    · simp [hs.reader, hs.usb, hs.avail, ReaderPc.hand, Prologue.taken]
    · simp [hs.reader, hs.usb, ReaderPc.hand, ReaderPc.owed, Prologue.owed]
    · simp [hs.reader, ReaderPc.hand]
    · simp [hs.reader, ReaderPc.hand]
  cases skipsamples with
  | true => exact ⟨hstart _ rfl, fun _ _ _ _ h => by cases h⟩
  | false =>
      refine ⟨.enter havail ?_ ?_ ?_, fun _ _ _ _ h => by cases h⟩
      · simp [hs.usb, hs.avail]
      · simp [hs.usb]
      · simp

/-- How the books stand after a run: right if every distance fitted an `int`, and else wrong
for good. -/
theorem books {s : State α m_queue_size} (hsize : m_queue_size < 2 ^ 32) (hs : s.Quiet)
    {samples : ℕ} {skipsamples : Bool} {as : List (Act α)}
    (hrun : (callMachine α m_queue_size m_sample_count).run (.begin s samples skipsamples) as =
      some t) :
    ((callMachine α m_queue_size m_sample_count).Meets Call.Near
        (.begin s samples skipsamples) as ∧ t.Sound s.m_in_samples_q.items) ∨
      (¬(callMachine α m_queue_size m_sample_count).Meets Call.Near
        (.begin s samples skipsamples) as ∧ t.Broken s.m_in_samples_q.items) :=
  Machine.sound_or_broken (fun _ _ _ h hnear hstep => h.step hsize hnear hstep)
    (fun _ _ _ h hnear hstep => h.breaks hsize hnear hstep)
    (fun _ _ _ h hstep => h.step hsize hstep) (hs.sound_begin hsize samples skipsamples) hrun

end Libsmu.InputFifo
