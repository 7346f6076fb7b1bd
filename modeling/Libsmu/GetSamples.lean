import Libsmu.InputStream
import Libsmu.ReadResult

/-!
# Samples on Request

`Session.get_samples` of the bindings captures a number of samples of every device of a
session. The input queues may be smaller than that: it runs the session for as many samples as
fit the queues, reads them, and goes on until it has enough. No one reads while the session
runs.

A run is one of the USB thread alone (`Act.captures`), with the counters of the device reset,
and a read is one of the reading thread alone. The devices of a session do not share their
queues, so the calls of one of them are followed (`GetSamples`), with what its device has sent in
each run.

## Main results

* `Captured.step`: a run pushes what is left in the queue and the samples that it is to capture,
  as far as they fit, and drops the others.
* `get_samples_fresh`: `get_samples` returns as many samples as asked for, those that were left
  in the queue first, and then the samples of its runs.
* `get_samples_returns_iff`: it returns unless a run of it does not fit the queues.
-/

namespace Libsmu.InputFifo

variable {α : Type*} {m_queue_size N : ℕ}

/-! ### A run that nobody reads -/

/-- The counters are reset by `run`. -/
def State.restart (s : State α m_queue_size) : State α m_queue_size :=
  { s with
    m_in_sampleno := 0
    decoded := []
    flushedAt := 0
    delivered := []
    dropped := false }

/-- The steps of the USB thread. -/
def Act.captures : Act α → Bool
  | .in_completion _ | .usb => true
  | _ => false

/-- The samples of the transfers. -/
def streamed (as : List (Act α)) : List α :=
  as.flatMap fun
    | .in_completion data => data
    | _ => []

/-- The samples of two schedules, one after the other. -/
theorem streamed_append (as bs : List (Act α)) : streamed (as ++ bs) = streamed as ++ streamed bs :=
  List.flatMap_append

/-- A longer stream is cut behind the shorter one. -/
theorem cut_append (N : ℕ) (xs ys : List α) : ∃ zs, cut N (xs ++ ys) = cut N xs ++ zs := by
  rw [cut, cut]
  split
  · exact ⟨ys, rfl⟩
  · exact ⟨_, List.take_append⟩

/-- A run so far, which found `left` in the queue and got `stream`: nothing is dropped yet, or
the queue is full, with the first of these samples. -/
structure Captured (N : ℕ) (left stream : List α) (s : State α m_queue_size) : Prop where
  reader : s.reader = .idle
  avail : s.m_in_samples_avail + s.usb.uncounted = s.m_in_samples_q.items.length
  kept : s.dropped = false → s.m_in_sampleno = s.decoded.length ∧
    s.decoded ++ InputStream.rest s.usb = stream ∧
    s.m_in_samples_q.items = left ++ cut N s.decoded
  lost : s.dropped = true → s.usb.uncounted = 0 ∧ s.m_in_samples_q.items.length = m_queue_size ∧
    ∃ x xs, left ++ cut N stream = s.m_in_samples_q.items ++ x :: xs

/-- Before a run there is what was left. -/
theorem Captured.start {s : State α m_queue_size} (hs : s.Quiet) (husb : s.usb = .outside) :
    Captured N s.m_in_samples_q.items [] s.restart where
  reader := hs.reader
  avail := by
    rw [show s.restart.usb = s.usb from rfl, husb]
    exact hs.avail
  kept _ := by
    refine ⟨rfl, ?_, ?_⟩
    · rw [show s.restart.usb = s.usb from rfl, husb]
      rfl
    · simp [State.restart, cut]
  lost h := nomatch h

/-- The USB thread gets a transfer. -/
theorem Captured.in_completion {s : State α m_queue_size} {left stream data : List α}
    (h : Captured N left stream s) (husb : s.usb = .outside) :
    Captured N left (stream ++ data) { s with usb := .decoding data } where
  reader := h.reader
  avail := by
    have havail := h.avail
    rwa [husb] at havail
  kept hdropped := by
    obtain ⟨hsampleno, hstream, hitems⟩ := h.kept hdropped
    rw [husb] at hstream
    refine ⟨hsampleno, ?_, hitems⟩
    rw [← hstream]
    simp [InputStream.rest]
  lost hdropped := by
    obtain ⟨-, hfull, x, xs, hitems⟩ := h.lost hdropped
    obtain ⟨zs, hzs⟩ := cut_append N stream data
    refine ⟨rfl, hfull, x, xs ++ zs, ?_⟩
    rw [hzs, ← List.append_assoc, hitems, List.append_assoc, List.cons_append]

/-- The USB thread captures a sample. -/
theorem Captured.usbStep {s t : State α m_queue_size} {left stream : List α}
    (hsize : m_queue_size < 2 ^ 32) (hlt : stream.length < 2 ^ 64) (h : Captured N left stream s)
    (hstep : InputFifo.usbStep N s = some t) : Captured N left stream t := by
  obtain ⟨q, avail, sampleno, usb, reader, decoded, flushedAt, delivered, dropped⟩ := s
  obtain ⟨hreader, havail, hkept, hlost⟩ := h
  simp only at hreader havail hkept hlost
  have hlen := q.length_le
  cases usb with
  | outside => simp only [InputFifo.usbStep, reduceCtorEq] at hstep
  | counting rest =>
      obtain rfl := Option.some.inj hstep
      simp only [UsbPc.uncounted] at havail
      have hadd : Counter.add 32 avail 1 = avail + 1 := Counter.add_of_lt (by omega)
      refine ⟨hreader, ?_, hkept, fun hdropped => ?_⟩
      · simp only [hadd, UsbPc.uncounted]
        omega
      · exact absurd (hlost hdropped).1 (by simp [UsbPc.uncounted])
  | decoding rest =>
      cases rest with
      | nil =>
          obtain rfl := Option.some.inj hstep
          exact ⟨hreader, havail, hkept, hlost⟩
      | cons x rest =>
          simp only [InputFifo.usbStep] at hstep
          -- `m_in_sampleno` does not wrap before the end of the stream
          have hadd : dropped = false → sampleno = decoded.length →
              Counter.add 64 sampleno 1 = decoded.length + 1 := fun hdropped hsampleno => by
            have hstream := congrArg List.length (hkept hdropped).2.1
            simp only [InputStream.rest, List.length_append, List.length_cons] at hstream
            rw [hsampleno, Counter.add_of_lt (by omega)]
          by_cases hw : N = 0 ∨ Counter.add 64 sampleno 1 ≤ N
          · rw [if_pos hw] at hstep
            cases hpush : q.push x with
            | none =>
                simp only [hpush, Option.some.injEq] at hstep
                subst hstep
                have hfull := BoundedQueue.push_eq_none_iff.mp hpush
                refine ⟨hreader, havail, fun h => (by cases h), fun _ => ⟨rfl, hfull, ?_⟩⟩
                cases dropped with
                | true => exact (hlost rfl).2.2
                | false =>
                    -- the sample that does not fit is the next one
                    obtain ⟨hsampleno, hstream, hitems⟩ := hkept rfl
                    obtain ⟨zs, hzs⟩ := cut_append N (decoded ++ [x]) rest
                    rw [hadd rfl hsampleno] at hw
                    have hnext := cut_concat_of_wanted (x := x) hw (Nat.zero_le _)
                    rw [List.drop_zero, List.drop_zero] at hnext
                    rw [List.append_assoc, List.singleton_append,
                      show decoded ++ x :: rest = stream from hstream] at hzs
                    refine ⟨x, zs, ?_⟩
                    rw [hzs, hnext, hitems]
                    simp
            | some q' =>
                simp only [hpush, Option.some.injEq] at hstep
                subst hstep
                obtain ⟨hlt, hitems'⟩ := BoundedQueue.push_eq_some_iff.mp hpush
                simp only [UsbPc.uncounted] at havail
                refine ⟨hreader, ?_, fun hdropped => ?_, fun hdropped => ?_⟩
                · simp only [UsbPc.uncounted, hitems', List.length_append, List.length_singleton]
                  omega
                · obtain ⟨hsampleno, hstream, hitems⟩ := hkept hdropped
                  rw [hadd hdropped hsampleno] at hw
                  have hnext := cut_concat_of_wanted (x := x) hw (Nat.zero_le _)
                  rw [List.drop_zero, List.drop_zero] at hnext
                  refine ⟨by simp [hadd hdropped hsampleno], ?_, ?_⟩
                  · rw [← hstream]
                    simp [InputStream.rest]
                  · simp only [hitems', hitems, hnext, List.append_assoc]
                · have hfull := (hlost hdropped).2.1
                  omega
          · rw [if_neg hw] at hstep
            simp only [Option.some.injEq] at hstep
            subst hstep
            refine ⟨hreader, havail, fun hdropped => ?_, hlost⟩
            obtain ⟨hsampleno, hstream, hitems⟩ := hkept hdropped
            rw [hadd hdropped hsampleno] at hw
            refine ⟨by simp [hadd hdropped hsampleno], ?_, ?_⟩
            · rw [← hstream]
              simp [InputStream.rest]
            · simp only [cut_concat_of_not_wanted hw, hitems]

variable [Inhabited α]

/-- **The step lemma** of a run that nobody reads. -/
theorem Captured.step {s t : State α m_queue_size} {left : List α} {as : List (Act α)} {a : Act α}
    (hsize : m_queue_size < 2 ^ 32) (hlt : (streamed as).length < 2 ^ 64)
    (h : Captured N left (streamed as) s) (ha : a.captures = true)
    (hstep : (machine α m_queue_size N).step s a = some t) :
    Captured N left (streamed (as ++ [a])) t := by
  rw [streamed_append]
  cases a with
  | in_completion data =>
      simp only [machine] at hstep
      split at hstep
      · rename_i husb
        obtain rfl := Option.some.inj hstep
        have hnext : Captured N left (streamed as ++ data) _ := h.in_completion husb
        simpa [streamed] using hnext
      · cases hstep
  | usb => simpa [streamed] using h.usbStep hsize hlt hstep
  | read samples | reader | giveUp | flush => cases ha

omit [Inhabited α] in
/-- **What a run leaves in the queue**: what it found there and the samples that it was to
capture, as far as they fit. The counter is that of the queue, and a sample was dropped exactly
when they do not all fit. -/
theorem Captured.done {s : State α m_queue_size} {left stream : List α}
    (h : Captured N left stream s) (husb : s.usb = .outside) :
    s.Quiet ∧ s.m_in_samples_q.items = (left ++ cut N stream).take m_queue_size ∧
      (s.dropped = true ↔ m_queue_size < (left ++ cut N stream).length) := by
  have havail := h.avail
  rw [husb] at havail
  refine ⟨⟨h.reader, by rw [husb]; rfl, havail⟩, ?_⟩
  cases hdropped : s.dropped with
  | false =>
      obtain ⟨-, hstream, hitems⟩ := h.kept hdropped
      rw [husb, InputStream.rest, List.append_nil] at hstream
      rw [← hstream, ← hitems]
      have hle := s.m_in_samples_q.length_le
      exact ⟨(List.take_of_length_le hle).symm, iff_of_false (by simp) (Nat.not_lt.mpr hle)⟩
  | true =>
      obtain ⟨-, hfull, x, xs, hitems⟩ := h.lost hdropped
      rw [hitems]
      refine ⟨(List.take_left' hfull).symm, iff_of_true rfl ?_⟩
      rw [List.length_append, List.length_cons]
      omega

/-- A run captures what the device streams. -/
theorem captured_of_run (hsize : m_queue_size < 2 ^ 32) {s t : State α m_queue_size}
    (hs : s.Quiet) (husb : s.usb = .outside) {as : List (Act α)}
    (has : ∀ a ∈ as, a.captures = true) (hlt : (streamed as).length < 2 ^ 64)
    (hrun : (machine α m_queue_size N).run s.restart as = some t) :
    Captured N s.m_in_samples_q.items (streamed as) t := by
  refine Machine.invariant_of_history
    (fun as t => (∀ a ∈ as, a.captures = true) → (streamed as).length < 2 ^ 64 →
      Captured N s.m_in_samples_q.items (streamed as) t)
    (fun _ _ => .start hs husb) ?_ hrun has hlt
  intro as t a u _ hinv hstep has hlt
  have hshort : (streamed as).length < 2 ^ 64 := by
    rw [streamed_append, List.length_append] at hlt
    exact Nat.lt_of_le_of_lt (Nat.le_add_right _ _) hlt
  exact (hinv (fun b hb => has b (List.mem_append_left _ hb)) hshort).step hsize hshort
    (has a (by simp)) hstep

/-- The steps that the USB thread takes until it is outside again, at most. -/
def UsbPc.todo : UsbPc α → ℕ
  | .outside => 0
  | .decoding rest => 2 * rest.length + 1
  | .counting rest => 2 * rest.length + 2

/-- Every stream can be captured. -/
theorem exists_capture (s : State α m_queue_size) (husb : s.usb = .outside) (stream : List α) :
    ∃ as t, (∀ a ∈ as, a.captures = true) ∧ streamed as = stream ∧
      (machine α m_queue_size N).run s as = some t ∧ t.usb = .outside := by
  have hstep : ∀ t : State α m_queue_size, True → t.usb = .outside ∨
      ∃ u, (machine α m_queue_size N).step t .usb = some u ∧ True ∧
        u.usb.todo < t.usb.todo := by
    intro t _
    cases husb : t.usb with
    | outside => exact .inl rfl
    | counting rest =>
        refine .inr ⟨_, by simp only [machine, usbStep, husb]; rfl, trivial, ?_⟩
        simp [UsbPc.todo]
    | decoding rest =>
        cases rest with
        | nil =>
            refine .inr ⟨_, by simp only [machine, usbStep, husb]; rfl, trivial, ?_⟩
            simp [UsbPc.todo]
        | cons x rest =>
            simp only [machine, usbStep, husb]
            split
            · split
              · refine .inr ⟨_, rfl, trivial, ?_⟩
                simp only [UsbPc.todo, List.length_cons]
                omega
              · exact .inr ⟨_, rfl, trivial, by simp [UsbPc.todo]⟩
            · exact .inr ⟨_, rfl, trivial, by simp [UsbPc.todo]⟩
  obtain ⟨k, t, ht, -, hout⟩ := Machine.reaches_of_rank hstep
    (s := { s with usb := .decoding stream }) trivial
  refine ⟨.in_completion stream :: List.replicate k .usb, t, ?_, ?_, ?_, hout⟩
  · intro a ha
    rcases List.mem_cons.mp ha with rfl | ha
    · rfl
    · rw [List.eq_of_mem_replicate ha]
      rfl
  · have hnil : streamed (List.replicate k (.usb : Act α)) = [] :=
      List.flatMap_eq_nil_iff.mpr fun a ha => by rw [List.eq_of_mem_replicate ha]
    rw [← List.singleton_append, streamed_append, hnil, List.append_nil]
    simp [streamed]
  · refine (Machine.run_cons_eq_some_iff _).mpr ⟨_, ?_, ht⟩
    simp only [machine, husb]

/-! ### A read that has enough -/

/-- The reader leaves the USB thread where it is. -/
theorem usb_of_run {c u : Call α m_queue_size} {as : List (Act α)}
    (has : ∀ a ∈ as, a = .reader)
    (hrun : (callMachine α m_queue_size N).run c as = some u) : u.usb = c.usb := by
  have hstep : ∀ (v : Call α m_queue_size) (a : Act α) (w : Call α m_queue_size),
      v.usb = c.usb → a = .reader → (callMachine α m_queue_size N).step v a = some w →
      w.usb = c.usb := by
    rintro v a w hv rfl hstep
    rw [← hv]
    cases Call.moves_of_advance hstep with
    | loop hpro hu => exact readerStep_usb hu
    | _ => rfl
  exact Machine.invariant_of_meets hstep rfl (Machine.meets_of_forall has) hrun

/-- A read of no more than is queued returns without a wait. -/
theorem exists_read (hsize : m_queue_size < 2 ^ 32) {s : State α m_queue_size} (hs : s.Quiet)
    {n : ℕ} (hle : n ≤ s.m_in_samples_q.items.length) :
    ∃ as c, (∀ a ∈ as, a = .reader) ∧
      (callMachine α m_queue_size N).run (.begin s n false) as = some c ∧ c.Returned := by
  have hn : n < 2 ^ 32 := by
    have hlen := s.m_in_samples_q.length_le
    omega
  have hsettles : ∃ k u, (callMachine α m_queue_size N).run (.begin s n false)
      (List.replicate k .reader) = some u ∧ u.Runs s.m_in_samples_q.items ∧ u.Settled :=
    (hs.runs_begin hsize n false).settles hsize
  obtain ⟨k, u, hu, hruns, hret | ⟨remaining, sample, hover, hreader, hzero⟩⟩ := hsettles
  · exact ⟨_, u, fun a ha => List.eq_of_mem_replicate ha, hu, hret⟩
  · -- it would have taken everything that is queued, and that is enough
    have halone : u.Alone s.m_in_samples_q.items n false := Machine.invariant_of_meets
      (fun _ _ _ h ha hstep => h.step hsize (by simp) ha hstep) (hs.alone_begin hsize n false)
      (Machine.meets_of_forall (P := fun a => a.alone = true) fun a ha => by
        rw [List.eq_of_mem_replicate ha]
        rfl) hu
    have hpos := hruns.inStep hover
    have hplace := halone.place
    rw [hover] at hplace
    simp only [hreader, ReaderPc.InStep] at hpos
    simp only [hreader, ReaderPc.Alone, dist, Nat.mod_eq_of_lt hn, Bool.false_eq_true, false_and,
      if_false] at hplace
    have hstream := congrArg List.length halone.sound.1.stream
    rw [hreader, halone.arrived] at hstream
    simp only [ReaderPc.hand, List.append_nil, List.length_append] at hstream
    omega

/-- A read that waits takes the oldest samples, and leaves the others. -/
theorem read_split (hsize : m_queue_size < 2 ^ 32) {s : State α m_queue_size} (hs : s.Quiet)
    (husb : s.usb = .outside) {n : ℕ} {as : List (Act α)} (has : ∀ a ∈ as, a = .reader)
    {c : Call α m_queue_size}
    (hrun : (callMachine α m_queue_size N).run (.begin s n false) as = some c)
    (hret : c.Returned) :
    c.delivered ++ c.m_in_samples_q.items = s.m_in_samples_q.items ∧ c.toState.Quiet ∧
      c.usb = .outside := by
  obtain ⟨hover, hidle⟩ := hret
  have halone : c.Alone s.m_in_samples_q.items n false := Machine.invariant_of_meets
    (fun _ _ _ h ha hstep => h.step hsize (by simp) ha hstep) (hs.alone_begin hsize n false)
    (Machine.meets_of_forall (P := fun a => a.alone = true) fun a ha => by rw [has a ha]; rfl) hrun
  have hinv := halone.sound.1
  have houtside : c.usb = .outside := (usb_of_run has hrun).trans husb
  have hstream := hinv.stream
  rw [skipped_of_begin hrun, hidle, halone.arrived, List.nil_append, List.append_nil] at hstream
  refine ⟨by simpa [ReaderPc.hand] using hstream, ⟨hidle, by rw [houtside]; rfl, ?_⟩, houtside⟩
  have havail := hinv.avail_eq hsize (by rw [hidle]; rfl) (by rw [hover]; rfl)
  rwa [houtside] at havail

/-- A read that waits returns only if as many samples as it is asked for are there. -/
theorem read_returned (hsize : m_queue_size < 2 ^ 32) {s : State α m_queue_size} (hs : s.Quiet)
    {n : ℕ} (hn : n < 2 ^ 32) {as : List (Act α)} (has : ∀ a ∈ as, a = .reader)
    {c : Call α m_queue_size}
    (hrun : (callMachine α m_queue_size N).run (.begin s n false) as = some c)
    (hret : c.Returned) : n ≤ s.m_in_samples_q.items.length ∧ c.delivered.length = n := by
  have hnear : false = true → n < s.m_in_samples_q.items.length →
      s.m_in_samples_q.items.length - n < 2 ^ 31 := by simp
  have htook : c.Took s.m_in_samples_q.items n false :=
    (took_iff hsize hs hnear (fun a ha => by rw [has a ha]; rfl) hrun hret).mpr (.inl hn)
  have hdelivered : c.delivered = s.m_in_samples_q.items.take n := by simpa using htook.delivered
  -- without a time limit nothing stays to be delivered
  have hlength := length_add_todo (hs.runs_begin hsize n false).bounded
    (fun a ha => by rw [has a ha]; rfl) hrun
  have hdone : c.todo = 0 := by simp only [Call.todo, hret.1, hret.2, ReaderPc.todo]
  have hbegin : (Call.begin s n false).delivered.length + (Call.begin s n false).todo =
      n % 2 ^ 32 := (Nat.zero_add _).trans (Call.enter_cases n default _).2.1
  have htaken := congrArg List.length hdelivered
  rw [List.length_take] at htaken
  rw [hbegin, hdone, Nat.mod_eq_of_lt hn] at hlength
  omega

/-! ### Run and read -/

/-- `get_samples`: `n` samples are still required of a device, whose transfers carry the samples
of the list of each run. Every run completes, so that they are enough, and fewer than what
`m_in_sampleno` can count. The errors of dropped samples are ignored (`ignore_dataflow`). The
bindings' `run` takes an `int`, as their `queue_size` is one: here both have any size. -/
inductive GetSamples (max_samples : ℕ) :
    ℕ → State α m_queue_size → List (List α) → List α → State α m_queue_size → Prop
  | done (s : State α m_queue_size) : GetSamples max_samples 0 s [] [] s
  | round {n : ℕ} {s t u : State α m_queue_size} {c : Call α m_queue_size}
      {as bs : List (Act α)} {streams : List (List α)} {data : List α} (hn : n ≠ 0)
      (has : ∀ a ∈ as, a.captures = true)
      (hrun : (machine α m_queue_size (min n max_samples)).run s.restart as = some t)
      (husb : t.usb = .outside) (hlen : min n max_samples ≤ (streamed as).length)
      (hlt : (streamed as).length < 2 ^ 64) (hbs : ∀ b ∈ bs, b = .reader)
      (hread : (callMachine α m_queue_size (min n max_samples)).run
        (.begin t (min n max_samples) false) bs = some c)
      (hret : c.Returned)
      (hrest : GetSamples max_samples (n - min n max_samples) c.toState streams data u) :
      GetSamples max_samples n s (streamed as :: streams) (c.delivered ++ data) u

variable {max_samples n : ℕ} {s t u : State α m_queue_size} {c : Call α m_queue_size}

/-- With no room there is no end: a run of no samples is followed by another one. -/
theorem GetSamples.max_pos {streams : List (List α)} {data : List α}
    (h : GetSamples max_samples n s streams data t) (hn : n ≠ 0) : 0 < max_samples := by
  induction h with
  | done s => exact absurd rfl hn
  | round hn has hrun husb hlen hlt hbs hread hret hrest ih =>
      by_contra hmax
      exact hmax (ih (by omega))

/-- **A round**: it returns only if the queue has room for it, returns what was left in the queue
and what it captures, and leaves the rest there, as far as it fits. -/
theorem round_spec (hsize : m_queue_size < 2 ^ 32) (hs : s.Quiet) (husb : s.usb = .outside)
    (hN : N ≠ 0) (hbound : N < 2 ^ 32) {as bs : List (Act α)}
    (has : ∀ a ∈ as, a.captures = true) (hlt : (streamed as).length < 2 ^ 64)
    (hrun : (machine α m_queue_size N).run s.restart as = some t) (hout : t.usb = .outside)
    (hbs : ∀ b ∈ bs, b = .reader)
    (hread : (callMachine α m_queue_size N).run (.begin t N false) bs = some c)
    (hret : c.Returned) :
    c.toState.Quiet ∧ c.usb = .outside ∧ N ≤ m_queue_size ∧ c.delivered.length = N ∧
      c.delivered ++ c.m_in_samples_q.items =
        (s.m_in_samples_q.items ++ (streamed as).take N).take m_queue_size := by
  obtain ⟨hquiet, hitems, -⟩ := (captured_of_run hsize hs husb has hlt hrun).done hout
  obtain ⟨hsplit, hquiet', hout'⟩ := read_split hsize hquiet hout hbs hread hret
  obtain ⟨hle, hlength⟩ := read_returned hsize hquiet hbound hbs hread hret
  rw [cut, if_neg hN] at hitems
  exact ⟨hquiet', hout', hle.trans t.m_in_samples_q.length_le, hlength, hsplit.trans hitems⟩

/-- A round that the queue has room for comes to an end. -/
theorem exists_round (hsize : m_queue_size < 2 ^ 32) (hs : s.Quiet) (husb : s.usb = .outside)
    (hN : N ≠ 0) (hroom : N ≤ m_queue_size) {stream : List α} (hlen : N ≤ stream.length)
    (hlt : stream.length < 2 ^ 64) :
    ∃ as t bs c, (∀ a ∈ as, a.captures = true) ∧ streamed as = stream ∧
      (machine α m_queue_size N).run s.restart as = some t ∧ t.usb = .outside ∧
      (∀ b ∈ bs, b = .reader) ∧
      (callMachine α m_queue_size N).run (.begin t N false) bs = some c ∧ c.Returned := by
  have hcapture : ∃ as t, (∀ a ∈ as, a.captures = true) ∧ streamed as = stream ∧
      (machine α m_queue_size N).run s.restart as = some t ∧ t.usb = .outside :=
    exists_capture s.restart husb stream
  obtain ⟨as, t, has, hstream, hrun, hout⟩ := hcapture
  obtain ⟨hquiet, hitems, -⟩ :=
    (captured_of_run hsize hs husb has (hstream ▸ hlt) hrun).done hout
  have henough : N ≤ t.m_in_samples_q.items.length := by
    rw [hitems, cut, if_neg hN, hstream, List.length_take, List.length_append, List.length_take]
    omega
  have hread : ∃ bs c, (∀ b ∈ bs, b = .reader) ∧
      (callMachine α m_queue_size N).run (.begin t N false) bs = some c ∧ c.Returned :=
    exists_read hsize hquiet henough
  obtain ⟨bs, c, hbs, hread, hret⟩ := hread
  exact ⟨as, t, bs, c, has, hstream, hrun, hout, hbs, hread, hret⟩

/-- What the transfers of the runs carry that is to be captured. -/
def fresh (max_samples n : ℕ) (streams : List (List α)) : List α :=
  (streams.flatMap fun stream => stream.take max_samples).take n

omit [Inhabited α] in
/-- What the first run captures comes first. -/
theorem fresh_cons {stream : List α} (streams : List (List α))
    (hlen : min n max_samples ≤ stream.length) :
    fresh max_samples n (stream :: streams) =
      stream.take (min n max_samples) ++
        fresh max_samples (n - min n max_samples) streams := by
  rw [fresh, fresh, List.flatMap_cons, List.take_append, List.take_take, List.length_take]
  rcases Nat.le_total n max_samples with hle | hle
  · -- the last round
    rw [Nat.min_eq_left hle] at *
    rw [Nat.sub_eq_zero_of_le (by omega : n ≤ min max_samples stream.length), Nat.sub_self]
  · rw [Nat.min_eq_right hle] at *
    rw [Nat.min_eq_left hlen]

/-- The number of runs of `n` samples. -/
theorem runs_succ (hn : n ≠ 0) (hmax : 0 < max_samples) :
    (n - min n max_samples + max_samples - 1) / max_samples + 1 =
      (n + max_samples - 1) / max_samples := by
  rcases Nat.le_total n max_samples with hle | hle
  · rw [Nat.min_eq_left hle, Nat.sub_self, Nat.zero_add, Nat.div_eq_of_lt (by omega)]
    exact (Nat.div_eq_of_lt_le (by omega) (by omega)).symm
  · rw [Nat.min_eq_right hle, Nat.sub_add_cancel hle, ← Nat.add_div_right _ hmax]
    congr 1
    omega

/-- **What `get_samples` returns**: as many samples as asked for, in as few runs as the size of
the queue allows. What was left in the queue comes first. Where the queue has room for that and
for a run, no sample of a run is lost: what is not returned is left in the queue. -/
theorem get_samples_fresh (hsize : m_queue_size < 2 ^ 32) (hmax : max_samples < 2 ^ 32)
    (hs : s.Quiet) (husb : s.usb = .outside) {streams : List (List α)} {data : List α}
    (h : GetSamples max_samples n s streams data t) :
    data.length = n ∧ streams.length = (n + max_samples - 1) / max_samples ∧
      s.m_in_samples_q.items.take n <+: data ∧
      (s.m_in_samples_q.items.length + min n max_samples ≤ m_queue_size →
        data ++ t.m_in_samples_q.items =
          s.m_in_samples_q.items ++ fresh max_samples n streams) := by
  induction h with
  | done s =>
      refine ⟨rfl, ?_, List.nil_prefix.trans (List.nil_prefix), fun _ => ?_⟩
      · rw [List.length_nil, Nat.zero_add]
        rcases Nat.eq_zero_or_pos max_samples with rfl | hpos
        · rfl
        · exact (Nat.div_eq_of_lt (by omega)).symm
      · rw [fresh, List.take_zero, List.append_nil, List.nil_append]
  | @round n s t u c as bs streams data hn has hrun hout hlen hlt hbs hread hret hrest ih =>
      have hpos := (GetSamples.round hn has hrun hout hlen hlt hbs hread hret hrest).max_pos hn
      obtain ⟨hquiet, hout', hroom, hlength, hitems⟩ := round_spec hsize hs husb (by omega)
        (by omega) has hlt hrun hout hbs hread hret
      obtain ⟨ihlength, ihruns, ihprefix, ihitems⟩ := ih hquiet hout'
      refine ⟨?_, ?_, ?_, fun hle => ?_⟩
      · rw [List.length_append, hlength, ihlength]
        omega
      · rw [List.length_cons, ihruns, runs_succ hn hpos]
      · -- what was left is in front of what the run pushed
        have hfront : s.m_in_samples_q.items <+: c.delivered ++ c.m_in_samples_q.items := by
          rw [hitems, List.take_append]
          exact (List.prefix_append _ _).trans
            (by rw [List.take_of_length_le s.m_in_samples_q.length_le])
        have hwhole : c.delivered.take n = c.delivered := List.take_of_length_le (by omega)
        have htake := hfront.take n
        rw [List.take_append, hwhole, hlength] at htake
        exact htake.trans ((List.prefix_append_right_inj _).mpr ihprefix)
      · -- the run fits, and takes as much room as the read has made
        have hlen' : ((streamed as).take (min n max_samples)).length = min n max_samples := by
          rw [List.length_take, Nat.min_eq_left hlen]
        rw [List.take_of_length_le (by rw [List.length_append, hlen']; exact hle)] at hitems
        have hcount := congrArg List.length hitems
        rw [List.length_append, List.length_append, hlength, hlen'] at hcount
        rw [fresh_cons streams hlen, List.append_assoc, ihitems (by omega), ← List.append_assoc,
          hitems, List.append_assoc]

/-- Three samples are left, and two are asked for: two of those are returned, and the two that
are captured stay. -/
theorem get_samples_fresh_stale : ∃ data t, GetSamples 100 2 three [[4, 5, 6]] data t ∧
    data.length = 2 ∧ data ++ t.m_in_samples_q.items = [1, 2, 3, 4, 5] := by
  have hquiet : three.Quiet := ⟨rfl, rfl, rfl⟩
  have hround : ∃ as t bs c, (∀ a ∈ as, a.captures = true) ∧ streamed as = [4, 5, 6] ∧
      (machine ℕ 100 2).run three.restart as = some t ∧ t.usb = .outside ∧
      (∀ b ∈ bs, b = .reader) ∧
      (callMachine ℕ 100 2).run (.begin t 2 false) bs = some c ∧ c.Returned :=
    exists_round (by decide) hquiet rfl (by decide) (by decide) (by decide) (by decide)
  obtain ⟨as, t, bs, c, has, hstream, hrun, hout, hbs, hread, hret⟩ := hround
  have h : GetSamples 100 2 three [[4, 5, 6]] (c.delivered ++ []) c.toState := by
    rw [← hstream]
    exact .round (by decide) has hrun hout (by rw [hstream]; decide) (by rw [hstream]; decide) hbs
      hread hret (.done _)
  obtain ⟨hlength, -, -, hitems⟩ := get_samples_fresh (by decide) (by decide) hquiet rfl h
  exact ⟨_, _, h, hlength, hitems (by decide)⟩

/-- **When `get_samples` returns**, whatever the devices send in runs that complete: unless the
size that it takes for that of the queues is zero, or a run of it does not fit the queue. Then it
waits for ever. -/
theorem get_samples_returns_iff (hsize : m_queue_size < 2 ^ 32) (hmax : max_samples < 2 ^ 32)
    (hs : s.Quiet) (husb : s.usb = .outside) (stream : ℕ → List α)
    (hlen : ∀ i, min n max_samples ≤ (stream i).length ∧ (stream i).length < 2 ^ 64) :
    (∃ k data t, GetSamples max_samples n s ((List.range k).map stream) data t) ↔
      n = 0 ∨ 0 < max_samples ∧ min n max_samples ≤ m_queue_size := by
  constructor
  · rintro ⟨k, data, t, h⟩
    generalize (List.range k).map stream = streams at h
    rcases eq_or_ne n 0 with hn | hn
    · exact .inl hn
    · have hpos := h.max_pos hn
      cases h with
      | done => exact absurd rfl hn
      | round _ has hrun hout hlen hlt hbs hread hret hrest =>
          have hspec :=
            round_spec hsize hs husb (by omega) (by omega) has hlt hrun hout hbs hread hret
          exact .inr ⟨hpos, hspec.2.2.1⟩
  · intro hcond
    induction n using Nat.strong_induction_on generalizing s stream with
    | _ n ih =>
        rcases eq_or_ne n 0 with rfl | hn
        · exact ⟨0, [], s, .done s⟩
        · obtain ⟨hpos, hroom⟩ := hcond.resolve_left hn
          have hN : min n max_samples ≠ 0 := by omega
          obtain ⟨as, t, bs, c, has, hstream, hrun, hout, hbs, hread, hret⟩ :=
            exists_round hsize hs husb hN hroom (hlen 0).1 (hlen 0).2
          obtain ⟨hquiet, hout', -⟩ :=
            round_spec hsize hs husb hN (by omega) has (hstream ▸ (hlen 0).2) hrun hout hbs hread
              hret
          have hnext := ih (n - min n max_samples) (by omega) hquiet hout'
            (fun i => stream (i + 1))
            (fun i => ⟨(by omega : _ ≤ _).trans (hlen (i + 1)).1, (hlen (i + 1)).2⟩)
            (.inr ⟨hpos, by omega⟩)
          obtain ⟨k, data, u, hrest⟩ := hnext
          refine ⟨k + 1, c.delivered ++ data, u, ?_⟩
          rw [List.range_succ_eq_map, List.map_cons, List.map_map, ← hstream]
          exact .round hn has hrun hout (by rw [hstream]; exact (hlen 0).1)
            (by rw [hstream]; exact (hlen 0).2) hbs hread hret hrest

/-- Five samples in runs of two. -/
theorem get_samples_returns_iff_five : ∃ k data t,
    GetSamples 2 5 (State.init : State ℕ 100) ((List.range k).map fun i => [i, i]) data t :=
  (get_samples_returns_iff (by decide) (by decide) ⟨rfl, rfl, rfl⟩ rfl (fun i => [i, i])
    fun _ => ⟨Nat.le_refl 2, by rw [List.length_cons, List.length_singleton]; omega⟩).mpr
    (.inr (by decide))

end Libsmu.InputFifo
