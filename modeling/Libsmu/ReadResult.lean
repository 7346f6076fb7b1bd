import Libsmu.ReadReturns

/-!
# What `read` Returns

A call during which nothing arrives is `Alone`: it takes what is queued, and gives up. Together
with the call that waits this is what `read` promises.

## Main results

* `took_iff`, `not_took`: what a call takes that times out.
* `read_iff`: when `read` returns what was asked for.
-/

namespace Libsmu.InputFifo

variable {α : Type*} {m_queue_size m_sample_count : ℕ}
variable [Inhabited α] {c t : Call α m_queue_size} {a : Act α}

/-! ### Nothing arrives -/

/-- The steps of a call during which nothing arrives. -/
def Act.alone : Act α → Bool
  | .reader | .giveUp => true
  | _ => false

/-- What a call that times out takes from a queue that held `q`: the newest samples, if there
are more and the others are skipped, else the oldest. -/
structure Call.Took (q : List α) (samples : ℕ) (skipsamples : Bool) (c : Call α m_queue_size) :
    Prop where
  delivered : c.delivered =
    if skipsamples = true ∧ samples < q.length then q.drop (q.length - samples)
    else q.take samples
  rest : c.m_in_samples_q.items =
    if skipsamples = true ∧ samples < q.length then [] else q.drop samples
  avail : c.m_in_samples_avail = c.m_in_samples_q.items.length

/-- How many samples are to be skipped. -/
def dist (queued samples : ℕ) (skipsamples : Bool) : ℕ :=
  if skipsamples = true ∧ samples < queued then queued - samples else 0

/-- Where the loop stands when it is to deliver `n` samples, `delivered` are delivered and
`queued` are in the queue, which no one else touches. -/
def ReaderPc.Alone (n m_in_samples_avail queued delivered : ℕ) : ReaderPc α → Prop
  | .idle => delivered = n ∨ (queued = 0 ∧ delivered ≤ n)
  | .compare remaining _ => delivered + remaining = n
  | .load remaining _ => delivered + remaining = n ∧ m_in_samples_avail < remaining
  | .copy remaining samples i _ => delivered + (remaining - i) = n ∧ samples ≤ remaining ∧
      (samples < remaining → queued = samples - i)
  | .popped remaining samples i _ => delivered + (remaining - i) = n ∧ samples ≤ remaining ∧
      (samples < remaining → queued + 1 = samples - i)
  | .again remaining _ => delivered + remaining = n ∧ queued = 0

omit [Inhabited α] in
/-- The loop leaves the USB thread alone. -/
theorem readerStep_usb {s t : State α m_queue_size} (h : readerStep s = some t) :
    t.usb = s.usb := by
  cases readerMoves_of_readerStep h <;> rfl

omit [Inhabited α] in
/-- The loop takes what there is, once. -/
theorem readerStep_alone {n : ℕ} {s t : State α m_queue_size} (hb : s.reader.Bounded)
    (hexact : s.reader.hand = [] → s.m_in_samples_avail = s.m_in_samples_q.items.length)
    (howed : s.reader.owed ≤ s.m_in_samples_q.items.length + s.reader.hand.length)
    (h : readerStep s = some t)
    (ha : s.reader.Alone n s.m_in_samples_avail s.m_in_samples_q.items.length
      s.delivered.length) :
    t.reader.Alone n t.m_in_samples_avail t.m_in_samples_q.items.length t.delivered.length := by
  cases readerMoves_of_readerStep h with
  | fewer hreader hlt =>
      rw [hreader] at ha
      exact ⟨ha, hlt⟩
  | enough hreader hle =>
      rw [hreader] at ha
      exact ⟨ha, le_rfl, fun hlt => absurd hlt (lt_irrefl _)⟩
  | load hreader =>
      rw [hreader] at ha hexact
      exact ⟨ha.1, ha.2.le, fun _ => (hexact rfl).symm⟩
  | pop hreader hlt hitems =>
      rw [hreader, hitems, List.length_cons] at ha
      exact ha
  | miss hreader hlt hitems =>
      rw [hreader, hitems] at howed
      simp only [ReaderPc.owed, ReaderPc.hand, List.length_nil] at howed
      omega
  | last hreader hle hleft =>
      rw [hreader] at hb ha
      obtain ⟨hr, hs, hi⟩ := hb
      obtain ⟨hsum, hle', hqueued⟩ := ha
      rw [Counter.add] at hleft
      exact .inl (by dsimp only; omega)
  | further hreader hle hleft =>
      rw [hreader] at hb ha
      obtain ⟨hr, hs, hi⟩ := hb
      obtain ⟨hsum, hle', hqueued⟩ := ha
      rw [Counter.add] at hleft
      simp only [ReaderPc.Alone, Counter.add]
      omega
  | @count remaining samples i sample hreader =>
      obtain ⟨queue, avail, sampleno, usb, reader, decoded, flushedAt, delivered, dropped⟩ := s
      obtain rfl : reader = .popped remaining samples i sample := hreader
      obtain ⟨hr, hs, hi⟩ := hb
      obtain ⟨hsum, hle, hqueued⟩ := ha
      dsimp only at hsum hqueued
      refine ⟨?_, hle, fun hlt => ?_⟩
      · dsimp only
        rw [List.length_append, List.length_singleton]
        omega
      · have heq := hqueued hlt
        dsimp only
        omega
  | again hreader =>
      rw [hreader] at ha
      exact ha.1

/-- Where a call stands during which nothing arrives. -/
structure Call.Alone (q : List α) (samples : ℕ) (skipsamples : Bool) (c : Call α m_queue_size) :
    Prop where
  sound : c.Sound q
  bounded : c.Bounded
  usb : c.usb.uncounted = 0
  arrived : c.arrived = []
  place : match c.prologue with
    | .test n => n = samples ∧ skipsamples = true ∧ c.skipped = []
    | .distance n => n = samples ∧ skipsamples = true ∧ samples < q.length ∧ c.skipped = []
    | .skip n s i _ => n = samples ∧ skipsamples = true ∧ samples < q.length ∧
        s = q.length - samples ∧ c.skipped.length = i
    | .passed => c.skipped.length = dist q.length samples skipsamples ∧
        c.reader.Alone (samples % 2 ^ 32) c.m_in_samples_avail c.m_in_samples_q.items.length
          c.delivered.length

omit [Inhabited α] in
theorem Call.enter_alone (samples : ℕ) (sample : α) {c : Call α m_queue_size}
    (hempty : c.delivered = []) :
    (c.enter samples sample).reader.Alone (samples % 2 ^ 32)
      (c.enter samples sample).m_in_samples_avail
      (c.enter samples sample).m_in_samples_q.items.length
      (c.enter samples sample).delivered.length := by
  simp only [enter, hempty, List.length_nil]
  split
  · rename_i hzero
    exact .inl hzero.symm
  · exact Nat.zero_add _

omit [Inhabited α] in
/-- Before anything is skipped the queue is the one of the call. -/
theorem Call.Inv.begun {q : List α} {lost : ℕ} (hsize : m_queue_size < 2 ^ 32) (h : c.Inv q lost)
    (hne : c.prologue ≠ .passed) (htaken : c.prologue.taken = 0) (hskipped : c.skipped = [])
    (harrived : c.arrived = []) :
    c.delivered = [] ∧ c.m_in_samples_avail + c.usb.uncounted + lost = q.length := by
  obtain ⟨hidle, hempty⟩ := h.early hne
  have hqueue := h.stream
  simp only [hskipped, hempty, hidle, ReaderPc.hand, harrived, List.nil_append, List.append_nil]
    at hqueue
  rw [← hqueue]
  exact ⟨hempty, h.avail_eq hsize (by rw [hidle]; rfl) htaken⟩

/-- A call during which nothing arrives, step by step. -/
theorem Call.Alone.step {q : List α} {samples : ℕ} {skipsamples : Bool}
    (hsize : m_queue_size < 2 ^ 32)
    (hnear : skipsamples = true → samples < q.length → q.length - samples < 2 ^ 31)
    (h : c.Alone q samples skipsamples) (ha : a.alone = true)
    (hstep : (callMachine α m_queue_size m_sample_count).step c a = some t) :
    t.Alone q samples skipsamples := by
  obtain ⟨hsound, hb, husb, harrived, hplace⟩ := h
  have hbt := (hb.step hstep).1
  cases a with
  | read | flush | usb | in_completion => cases ha
  | giveUp =>
      have hsoundt := hsound.step hsize (show c.Near .giveUp from trivial) hstep
      obtain ⟨h, -⟩ | ⟨_, h, -⟩ | ⟨h, -⟩ | ⟨-, hpro, ⟨remaining, sample, hreader⟩, rfl⟩ :=
        step_cases hstep
      · cases h
      · cases h
      · cases h
      · rw [hpro, hreader] at hplace
        obtain ⟨hskipped, hsum, hqueued⟩ := hplace
        refine ⟨hsoundt, hbt, husb, harrived, ?_⟩
        dsimp only
        rw [hpro]
        exact ⟨hskipped, .inr ⟨hqueued, by omega⟩⟩
  | reader =>
      have hinv := hsound.1
      cases hpro : c.prologue with
      | passed =>
          have hsoundt := hsound.step hsize (by simp only [Near, hpro]) hstep
          rw [hpro] at hplace
          simp only [callMachine, advance, hpro] at hstep
          obtain ⟨u, hu, rfl⟩ := Option.map_eq_some_iff.mp hstep
          have husbt : u.usb.uncounted = 0 := readerStep_usb hu ▸ husb
          refine ⟨hsoundt, hbt, husbt, harrived, hplace.1, ?_⟩
          have howed := hinv.owed
          refine readerStep_alone hb.reader (fun hhand => ?_) (by omega) hu hplace.2
          have hexact := hinv.avail_eq hsize hhand (by rw [hpro]; rfl)
          omega
      | test n =>
          have hsoundt := hsound.step hsize (by simp only [Near, hpro]) hstep
          rw [hpro] at hplace
          obtain ⟨rfl, rfl, hskipped⟩ := hplace
          have hne : c.prologue ≠ .passed := by simp [hpro]
          obtain ⟨hempty, hexact⟩ := hinv.begun hsize hne (by rw [hpro]; rfl) hskipped harrived
          obtain ⟨-, ⟨hlt, rfl⟩ | ⟨hge, rfl⟩⟩ := hinv.test hpro hstep
          · exact ⟨hsoundt, hbt, husb, harrived, rfl, rfl, by omega, hskipped⟩
          · refine ⟨hsoundt, hbt, husb, harrived, ?_, enter_alone n default hempty⟩
            rw [dist, if_neg (by omega)]
            exact congrArg List.length hskipped
      | distance n =>
          rw [hpro] at hplace
          obtain ⟨rfl, rfl, hlt, hskipped⟩ := hplace
          have hne : c.prologue ≠ .passed := by simp [hpro]
          obtain ⟨-, hexact⟩ := hinv.begun hsize hne (by rw [hpro]; rfl) hskipped harrived
          have hmax := hnear rfl hlt
          have hsoundt := hsound.step hsize (by simp only [Near, hpro]; omega) hstep
          obtain ⟨-, rfl⟩ := hinv.distance hsize hpro hstep
          refine ⟨hsoundt, hbt, husb, harrived, rfl, rfl, hlt, ?_, congrArg List.length hskipped⟩
          rcases asInt_cases (d := c.m_in_samples_avail - n) (by omega) (by omega) with
            ⟨-, hint⟩ | ⟨hge, -⟩
          · omega
          · omega
      | skip n s i sample =>
          have hsoundt := hsound.step hsize (by simp only [Near, hpro]) hstep
          rw [hpro] at hplace
          obtain ⟨rfl, rfl, hlt, hs, hskipped⟩ := hplace
          have hne : c.prologue ≠ .passed := by simp [hpro]
          obtain ⟨-, hempty⟩ := hinv.early hne
          obtain ⟨-, ⟨-, x, queue, -, rfl⟩ | ⟨hi, rfl⟩⟩ := hinv.skip hpro (by omega) hstep
          · refine ⟨hsoundt, hbt, husb, harrived, rfl, rfl, hlt, hs, ?_⟩
            dsimp only
            rw [List.length_append, List.length_singleton, hskipped]
          · refine ⟨hsoundt, hbt, husb, harrived, ?_, enter_alone n sample hempty⟩
            rw [dist, if_pos ⟨rfl, hlt⟩]
            refine hskipped.trans ?_
            omega

theorem State.Quiet.alone_begin {s : State α m_queue_size} (hsize : m_queue_size < 2 ^ 32)
    (hs : s.Quiet) (samples : ℕ) (skipsamples : Bool) :
    (Call.begin s samples skipsamples).Alone s.m_in_samples_q.items samples skipsamples := by
  have hsound := hs.sound_begin hsize samples skipsamples
  have hb := (hs.runs_begin hsize samples skipsamples).bounded
  cases skipsamples with
  | true => exact ⟨hsound, hb, hs.usb, rfl, rfl, rfl, rfl⟩
  | false =>
      refine ⟨hsound, hb, hs.usb, rfl, ?_, Call.enter_alone samples default rfl⟩
      rw [dist, if_neg (by simp)]
      rfl

omit [Inhabited α] in
/-- A list taken apart at the first `n`. -/
theorem take_drop_iff {xs ys : List α} {n : ℕ} :
    (xs = (xs ++ ys).take n ∧ ys = (xs ++ ys).drop n) ↔
      xs.length = min n (xs ++ ys).length := by
  constructor
  · rintro ⟨hxs, -⟩
    rw [← List.length_take, ← hxs]
  · intro h
    rw [List.length_append] at h
    rcases Nat.lt_or_ge xs.length n with hlt | hle
    · obtain rfl : ys = [] := List.eq_nil_of_length_eq_zero (by omega)
      rw [List.append_nil]
      exact ⟨(List.take_of_length_le hlt.le).symm, (List.drop_eq_nil_of_le hlt.le).symm⟩
    · obtain rfl : xs.length = n := by omega
      exact ⟨List.take_left.symm, List.drop_left.symm⟩

/-- **A call that times out takes what was asked for**, when the distance fits an `int`, exactly
when the request fits 32 bits or at least its low 32 bits cover the queue. -/
theorem took_iff {s : State α m_queue_size} (hsize : m_queue_size < 2 ^ 32) (hs : s.Quiet)
    {samples : ℕ} {skipsamples : Bool}
    (hnear : skipsamples = true → samples < s.m_in_samples_q.items.length →
      s.m_in_samples_q.items.length - samples < 2 ^ 31)
    {as : List (Act α)} (has : ∀ a ∈ as, a.alone = true)
    (hrun : (callMachine α m_queue_size m_sample_count).run (.begin s samples skipsamples) as =
      some t) (hret : t.Returned) :
    t.Took s.m_in_samples_q.items samples skipsamples ↔
      samples < 2 ^ 32 ∨ s.m_in_samples_q.items.length ≤ samples % 2 ^ 32 := by
  obtain ⟨hover, hidle⟩ := hret
  have hlen := s.m_in_samples_q.length_le
  obtain ⟨⟨hinv, -⟩, -, husb, harrived, hplace⟩ := Machine.invariant_of_meets
    (fun _ _ _ h ha hstep => h.step hsize hnear ha hstep) (hs.alone_begin hsize samples skipsamples)
    (Machine.meets_of_forall has) hrun
  rw [hover, hidle] at hplace
  obtain ⟨hskipped, hdelivered⟩ := hplace
  have havail := hinv.avail_eq hsize (by rw [hidle]; rfl) (by rw [hover]; rfl)
  have hstream := hinv.stream
  rw [hidle, harrived] at hstream
  simp only [ReaderPc.hand, List.append_nil] at hstream
  generalize s.m_in_samples_q.items = q at *
  have hsplit : t.delivered ++ t.m_in_samples_q.items =
      q.drop (dist q.length samples skipsamples) := by
    rw [← hskipped, ← hstream, List.append_assoc, List.drop_left]
  have hlength := congrArg List.length hsplit
  rw [List.length_append, List.length_drop] at hlength
  simp only [ReaderPc.Alone] at hdelivered
  by_cases hskip : skipsamples = true ∧ samples < q.length
  · -- nothing is left, and the request is shorter than the queue
    rw [dist, if_pos hskip] at hsplit hlength
    have hmod : samples % 2 ^ 32 = samples := Nat.mod_eq_of_lt (by omega)
    have hempty : t.m_in_samples_q.items = [] := List.eq_nil_of_length_eq_zero (by omega)
    refine iff_of_true ⟨?_, ?_, by omega⟩ (.inl (by omega))
    · rw [if_pos hskip, ← hsplit, hempty, List.append_nil]
    · rw [if_pos hskip, hempty]
  · rw [dist, if_neg hskip, List.drop_zero] at hsplit
    rw [dist, if_neg hskip] at hlength
    have htook : t.Took q samples skipsamples ↔ t.delivered.length = min samples q.length := by
      rw [← hsplit, ← take_drop_iff, hsplit]
      constructor
      · rintro ⟨hd, hr, -⟩
        rw [if_neg hskip] at hd hr
        exact ⟨hd, hr⟩
      · rintro ⟨hd, hr⟩
        refine ⟨?_, ?_, by omega⟩
        · rw [if_neg hskip]
          exact hd
        · rw [if_neg hskip]
          exact hr
    rw [htook]
    have hle := Nat.mod_le samples (2 ^ 32)
    have hmod : samples < 2 ^ 32 → samples % 2 ^ 32 = samples := Nat.mod_eq_of_lt
    omega

/-- With a distance that does not fit, the books are wrong afterwards. -/
theorem not_took {s : State α m_queue_size} (hsize : m_queue_size < 2 ^ 32) (hs : s.Quiet)
    {samples : ℕ} (hlt : samples < s.m_in_samples_q.items.length)
    (hfar : 2 ^ 31 ≤ s.m_in_samples_q.items.length - samples) {as : List (Act α)}
    (has : ∀ a ∈ as, a.alone = true)
    (hrun : (callMachine α m_queue_size m_sample_count).run (.begin s samples true) as = some t)
    (hret : t.Returned) : ¬t.Took s.m_in_samples_q.items samples true := by
  obtain ⟨hover, hidle⟩ := hret
  have hmiss : ¬(callMachine α m_queue_size m_sample_count).Meets Call.Near
      (.begin s samples true) as := by
    intro hmeets
    cases as with
    | nil =>
        obtain rfl := Option.some.inj hrun
        cases hover
    | cons a as =>
        obtain ⟨u, hu, hrun⟩ := Machine.run_cons_eq_some_iff _ |>.mp hrun
        have ha := has a List.mem_cons_self
        cases a with
        | read | flush | usb | in_completion => cases ha
        | giveUp => cases hu
        | reader =>
            have hmeets' := hmeets.2 u hu
            have havail : samples < (Call.begin s samples true).m_in_samples_avail := by
              rw [← hs.avail] at hlt
              exact hlt
            have hstep : (if samples < (Call.begin s samples true).m_in_samples_avail then
                some { Call.begin s samples true with prologue := .distance samples }
                else some ((Call.begin s samples true).enter samples default)) = some u := hu
            rw [if_pos havail] at hstep
            obtain rfl := Option.some.inj hstep
            cases as with
            | nil =>
                obtain rfl := Option.some.inj hrun
                cases hover
            | cons a as =>
                have ha := has a (List.mem_cons_of_mem _ List.mem_cons_self)
                have hnear := hmeets'.1
                cases a with
                | read | flush | usb | in_completion => cases ha
                | giveUp => 
                    obtain ⟨v, hv, -⟩ := Machine.run_cons_eq_some_iff _ |>.mp hrun
                    cases hv
                | reader =>
                    have hbound : s.m_in_samples_avail < samples + 2 ^ 31 := hnear
                    have havail' := hs.avail
                    omega
  rcases books hsize hs hrun with ⟨hmeets, -⟩ | ⟨-, hbroken⟩
  · exact absurd hmeets hmiss
  · rintro ⟨-, -, hright⟩
    rcases hbroken with ⟨-, _, _, _, _, hpro, -⟩ | ⟨-, lost, hlost, hinv⟩
    · rw [hover] at hpro
      cases hpro
    · have havail := hinv.avail_eq hsize (by rw [hidle]; rfl) (by rw [hover]; rfl)
      omega

/-- **A call that may give up returns** even if nothing arrives. -/
theorem exists_returned {s : State α m_queue_size} (hsize : m_queue_size < 2 ^ 32) (hs : s.Quiet)
    (samples : ℕ) (skipsamples : Bool) :
    ∃ (as : List (Act α)) (t : Call α m_queue_size), (∀ a ∈ as, a.alone = true) ∧
      (callMachine α m_queue_size m_sample_count).run (.begin s samples skipsamples) as = some t ∧
      t.Returned := by
  obtain ⟨k, u, hu, -, hret | ⟨remaining, sample, hover, hreader, -⟩⟩ :=
    (hs.runs_begin hsize samples skipsamples).settles hsize
  · refine ⟨_, u, fun a ha => ?_, hu, hret⟩
    rw [List.eq_of_mem_replicate ha]
    rfl
  · refine ⟨List.replicate k .reader ++ [.giveUp], { u with reader := .idle }, ?_, ?_, hover, rfl⟩
    · intro a ha
      rcases List.mem_append.mp ha with ha | ha
      · rw [List.eq_of_mem_replicate ha]
        rfl
      · rw [List.mem_singleton.mp ha]
        rfl
    · refine (Machine.run_concat_eq_some_iff _).mpr ⟨u, hu, ?_⟩
      simp only [callMachine, hover, hreader]

/-- Whenever a call returns during which nothing arrives, it took what was asked for. -/
def TakesAlone (m_sample_count : ℕ) (s : State α m_queue_size) (samples : ℕ)
    (skipsamples : Bool) : Prop :=
  ∀ (as : List (Act α)) (t : Call α m_queue_size), (∀ a ∈ as, a.alone = true) →
    (callMachine α m_queue_size m_sample_count).run (.begin s samples skipsamples) as = some t →
    t.Returned → t.Took s.m_in_samples_q.items samples skipsamples

theorem takesAlone_iff {s : State α m_queue_size} (hsize : m_queue_size < 2 ^ 32) (hs : s.Quiet)
    (samples : ℕ) (skipsamples : Bool) :
    TakesAlone m_sample_count s samples skipsamples ↔
      (samples < 2 ^ 32 ∨ s.m_in_samples_q.items.length ≤ samples % 2 ^ 32) ∧
        (skipsamples = true → samples < s.m_in_samples_q.items.length →
          s.m_in_samples_q.items.length - samples < 2 ^ 31) := by
  constructor
  · intro h
    have hexists : ∃ (as : List (Act α)) (t : Call α m_queue_size), (∀ a ∈ as, a.alone = true) ∧
        (callMachine α m_queue_size m_sample_count).run (.begin s samples skipsamples) as =
          some t ∧ t.Returned := exists_returned hsize hs samples skipsamples
    obtain ⟨as, t, has, hrun, hret⟩ := hexists
    have htook := h as t has hrun hret
    have hnear : skipsamples = true → samples < s.m_in_samples_q.items.length →
        s.m_in_samples_q.items.length - samples < 2 ^ 31 := by
      rintro rfl hlt
      by_contra hfar
      exact not_took hsize hs hlt (not_lt.mp hfar) has hrun hret htook
    exact ⟨(took_iff hsize hs hnear has hrun hret).mp htook, hnear⟩
  · rintro ⟨hsamples, hnear⟩ as t has hrun hret
    exact (took_iff hsize hs hnear has hrun hret).mpr hsamples

/-- **What `read` returns.** During a call that may give up, with nothing arriving, it takes
what was asked for exactly when the request fits 32 bits, or its low 32 bits cover the queue,
and the distance to skip fits an `int`; and such a call does return. A call that waits, with
samples arriving in any way, delivers what was asked for exactly when no distance was negative
and the number of chunks that were too large is what the request exceeds 32 bits by; and with
no such chunk and a request of 32 bits it returns once enough samples are counted. -/
theorem read_iff {s : State α m_queue_size} (hsize : m_queue_size < 2 ^ 32) (hs : s.Quiet)
    (samples : ℕ) (skipsamples : Bool) :
    (TakesAlone m_sample_count s samples skipsamples ↔
      (samples < 2 ^ 32 ∨ s.m_in_samples_q.items.length ≤ samples % 2 ^ 32) ∧
        (skipsamples = true → samples < s.m_in_samples_q.items.length →
          s.m_in_samples_q.items.length - samples < 2 ^ 31)) ∧
      (∃ (as : List (Act α)) (t : Call α m_queue_size), (∀ a ∈ as, a.alone = true) ∧
        (callMachine α m_queue_size m_sample_count).run (.begin s samples skipsamples) as =
          some t ∧ t.Returned) ∧
      (∀ (as : List (Act α)) (t : Call α m_queue_size), (∀ a ∈ as, a.waits = true) →
        (callMachine α m_queue_size m_sample_count).run (.begin s samples skipsamples) as =
          some t → t.Returned →
        (t.Delivers s.m_in_samples_q.items samples skipsamples ↔
          (callMachine α m_queue_size m_sample_count).Meets Call.Near
              (.begin s samples skipsamples) as ∧
            (callMachine α m_queue_size m_sample_count).tally Call.overtaken
              (.begin s samples skipsamples) as = samples / 2 ^ 32)) ∧
      (samples < 2 ^ 32 → ∀ (as : List (Act α)) (t : Call α m_queue_size),
        (∀ a ∈ as, a.waits = true) →
        (callMachine α m_queue_size m_sample_count).run (.begin s samples skipsamples) as =
          some t →
        (∀ k, (callMachine α m_queue_size m_sample_count).Meets Call.Kept
          (.begin s samples skipsamples) (as ++ List.replicate k .reader)) →
        t.wanted ≤ t.m_in_samples_avail →
        ∃ k u, (callMachine α m_queue_size m_sample_count).run (.begin s samples skipsamples)
            (as ++ List.replicate k .reader) = some u ∧ u.Returned ∧
          u.Delivers s.m_in_samples_q.items samples skipsamples) :=
  ⟨takesAlone_iff hsize hs samples skipsamples, exists_returned hsize hs samples skipsamples,
    fun _ _ has hrun hret => delivers_iff hsize hs has hrun hret,
    fun hsamples _ _ has hrun hkept henough =>
      returns_of_enough hsize hs hsamples has hrun hkept henough⟩

/-- A queue of three samples. -/
def three : State ℕ 100 :=
  { (State.init : State ℕ 100) with
    m_in_samples_q := ⟨[1, 2, 3], by decide⟩
    m_in_samples_avail := 3 }

/-- Two samples of the three, the newest. -/
theorem read_iff_two : TakesAlone 0 three 2 true :=
  (read_iff (by decide) ⟨rfl, rfl, rfl⟩ 2 true).1.mpr ⟨.inl (by decide), by decide⟩

/-- **Reads that return something else.** A request for `2 ^ 32 + 1` of three samples takes one,
and a request for two takes three if two more arrive between the two loads of the counter. -/
theorem narrowed_and_overtaken :
    (((callMachine ℕ 100 0).run (.begin three (2 ^ 32 + 1) false)
        (List.replicate 4 .reader)).map fun t => (t.reader, t.delivered,
          t.m_in_samples_q.items)) = some (.idle, [1], [2, 3]) ∧
      ¬TakesAlone 0 three (2 ^ 32 + 1) false ∧
      (((callMachine ℕ 100 0).run (.begin { three with
          m_in_samples_q := ⟨[1], by decide⟩, m_in_samples_avail := 1 } 2 false)
        ([.reader, .in_completion [2, 3]] ++ List.replicate 4 .usb ++
          List.replicate 7 .reader)).map fun t => t.delivered) = some [1, 2, 3] := by
  refine ⟨by decide +kernel, fun h => ?_, by decide +kernel⟩
  obtain ⟨hlow, -⟩ := (takesAlone_iff (by decide) ⟨rfl, rfl, rfl⟩ _ _).mp h
  revert hlow
  decide

end Libsmu.InputFifo
