import Libsmu.EncodeOut
import Libsmu.Lib.Emitter
import Libsmu.Lib.Machine
import Mathlib.Data.List.TakeDrop
import Mathlib.Tactic.Ring

/-!
# Output Continuity across Runs

Histories of non-cyclic `write` calls and noncontinuous runs. A write puts its whole
buffer into the queue and raises `m_out_samples_avail`; a run of `N` samples resets
`m_out_sampleno` and fills transfers of `m_samples_per_transfer` positions while
`m_out_sampleno < N`. The codes at the positions below `N` are recorded.

What the output of a channel is for is stated apart from the code: a **sample-and-hold**
(`Hold`) carries the written samples in order and repeats the last one only when none is
left. In between stands the `View` of a channel, which forgets in which of the two places
an unused sample waits, and on which `encode_out` is a function.

At position `N`, reached when `m_samples_per_transfer` does not divide `N`, `encode_out`
takes a sample ahead of its position and counts it off; the run that carries the sample
counts it off again.

## Main results

* `encode_out_view`: `encode_out` acts on the view.
* `runFills_spec`: what a run of `N` samples does to the view and which codes it sends.
* `continuity_iff`: the codes sent are those of the sample-and-hold, each unused sample
  still waiting, exactly when every run finds its samples covered by the counter or the
  counter equal to the number of unused samples; and runs are never stuck.
* `counted_of_no_lookahead`: the latter holds as long as no run takes a sample ahead.
* `look_ahead_counted_twice`: three samples, two runs, and one sample is not sent.
-/

namespace Libsmu

/-! ### The sample-and-hold -/

/-- A sample-and-hold: the samples still to be carried, and the one carried last. -/
structure Hold (α : Type*) where
  unused : List α
  last : Option α
  deriving DecidableEq

namespace Hold

variable {α : Type*}

/-- Carry the next sample, or repeat the last one when none is left. -/
def next (h : Hold α) : Option α × Hold α :=
  match h.unused with
  | x :: rest => (some x, ⟨rest, some x⟩)
  | [] => (h.last, h)

/-- The samples written are carried after those that wait. -/
def write (h : Hold α) (buf : List α) : Hold α := { h with unused := h.unused ++ buf }

theorem length_unused_next (h : Hold α) : h.next.2.unused.length = h.unused.length - 1 := by
  rw [next]
  cases hu : h.unused with
  | nil => simp [hu]
  | cons x rest => simp

/-- `n` positions carry as many of the waiting samples as there are. -/
theorem length_unused_emit (h : Hold α) (n : ℕ) :
    (emit next n h).2.unused.length = h.unused.length - n := by
  refine emit_invariant (fun k (u : Hold α) => u.unused.length = h.unused.length - k) rfl ?_
  intro k _ u hu
  rw [length_unused_next, hu]
  omega

end Hold

/-! ### The view of a channel -/

/-- A channel without the places where its samples wait: the unused samples, the counter
and the sample to repeat. -/
structure View (α : Type*) where
  unused : List α
  avail : ℕ
  previous : Option α

/-- The view of a channel. -/
def OutChannel.view {α : Type*} {cap : ℕ} (c : OutChannel α cap) : View α where
  unused := c.unused
  avail := c.m_out_samples_avail
  previous := c.m_previous_output

namespace View

variable {α : Type*}

/-- One position: carry a counted sample, or repeat the previous one. -/
def next (v : View α) : Option α × View α :=
  match v.avail, v.unused with
  | n + 1, x :: rest => (some x, ⟨rest, n, some x⟩)
  | _, _ => (v.previous, v)

/-- The look-ahead at position `N`: the sample is counted off and left where it is. -/
def peek (v : View α) : View α :=
  match v.avail, v.unused with
  | n + 1, x :: rest => ⟨x :: rest, n, some x⟩
  | _, _ => v

/-- What `n` positions of a run of `N` samples carry, and the view after them. -/
def upTo (N n : ℕ) (v : View α) : List (Option α) × View α :=
  if n ≤ N then emit next n v else ((emit next N v).1, (emit next N v).2.peek)

theorem next_of_pos {v : View α} (hle : v.avail ≤ v.unused.length) (hpos : 0 < v.avail) :
    ∃ x rest, v.unused = x :: rest ∧ v.next = (some x, ⟨rest, v.avail - 1, some x⟩) := by
  obtain ⟨unused, avail, previous⟩ := v
  cases avail with
  | zero => exact absurd hpos (Nat.lt_irrefl 0)
  | succ n =>
      cases unused with
      | nil => exact absurd hle (Nat.not_succ_le_zero n)
      | cons x rest => exact ⟨x, rest, rfl, rfl⟩

theorem next_of_zero {v : View α} (h : v.avail = 0) : v.next = (v.previous, v) := by
  obtain ⟨unused, avail, previous⟩ := v
  obtain rfl : avail = 0 := h
  rfl

theorem peek_of_pos {v : View α} (hle : v.avail ≤ v.unused.length) (hpos : 0 < v.avail) :
    ∃ x rest, v.unused = x :: rest ∧ v.peek = ⟨x :: rest, v.avail - 1, some x⟩ := by
  obtain ⟨unused, avail, previous⟩ := v
  cases avail with
  | zero => exact absurd hpos (Nat.lt_irrefl 0)
  | succ n =>
      cases unused with
      | nil => exact absurd hle (Nat.not_succ_le_zero n)
      | cons x rest => exact ⟨x, rest, rfl, rfl⟩

theorem peek_of_zero {v : View α} (h : v.avail = 0) : v.peek = v := by
  obtain ⟨unused, avail, previous⟩ := v
  obtain rfl : avail = 0 := h
  rfl

/-- Looking ahead keeps the unused samples and raises no counter. -/
theorem peek_le {v : View α} (hle : v.avail ≤ v.unused.length) :
    v.peek.unused = v.unused ∧ v.peek.avail ≤ v.avail := by
  rcases Nat.eq_zero_or_pos v.avail with hzero | hpos
  · rw [peek_of_zero hzero]
    exact ⟨rfl, Nat.le_refl _⟩
  · obtain ⟨x, rest, hu, hpeek⟩ := peek_of_pos hle hpos
    rw [hpeek]
    exact ⟨hu.symm, Nat.sub_le _ _⟩

/-- `n` positions use up and count off as many samples as are counted. -/
theorem emit_next_lengths {v : View α} (hle : v.avail ≤ v.unused.length) (n : ℕ) :
    (emit next n v).2.unused.length = v.unused.length - min n v.avail ∧
      (emit next n v).2.avail = v.avail - min n v.avail := by
  refine emit_invariant
    (fun k (u : View α) => u.unused.length = v.unused.length - min k v.avail ∧
      u.avail = v.avail - min k v.avail) ⟨by omega, by omega⟩ ?_
  rintro k - u ⟨hlen, hav⟩
  rcases Nat.eq_zero_or_pos u.avail with hzero | hpos
  · rw [next_of_zero hzero]
    simp only
    omega
  · obtain ⟨x, rest, hu, hnext⟩ := next_of_pos (by omega) hpos
    rw [hnext]
    rw [hu, List.length_cons] at hlen
    constructor
    · simp only
      omega
    · simp only
      omega

end View

/-! ### From the code to the view -/

section Refinement

variable {α γ : Type*} {cap N : ℕ} {convert : Channel → Mode → Option α → γ}

/-- **`encode_out` acts on the view.** A sourcing channel whose counter is backed carries
what its view carries; with `peek` the view is left with the sample counted off. -/
theorem encode_out_view {f : Mode → Option α → γ} (hcap : cap < 2 ^ 32) (hN : 0 < N)
    {peek : Bool} {c c' : OutChannel α cap} {v : γ} (hsrc : c.m_mode.sourcing)
    (hbacked : c.Backed) (h : c.encode_out f N peek = .done v c') :
    v = f c.m_mode c.view.next.1 ∧
      c'.view = (if peek then c.view.peek else c.view.next.2) ∧
      c'.m_mode = c.m_mode ∧ c'.Backed := by
  obtain ⟨val, hdone, rfl⟩ := OutChannel.encode_out_eq_done_iff.mp h
  have hmode := OutChannel.m_mode_of_encode_sample hdone
  have hbacked' := hbacked.encode_sample hcap hN hdone
  have hle : c.view.avail ≤ c.view.unused.length := hbacked.le_unused
  rcases Nat.eq_zero_or_pos c.m_out_samples_avail with hzero | hpos
  · rw [OutChannel.encode_sample_of_uncounted hsrc (by omega)] at hdone
    rw [View.next_of_zero hzero, View.peek_of_zero hzero]
    split at hdone
    · rename_i x hx
      cases hdone
      refine ⟨?_, by split <;> rfl, hmode, hbacked'⟩
      rw [OutChannel.view, hx]
    · cases hdone
  · cases htake : c.takeNext with
    | none =>
        rw [OutChannel.encode_sample_of_unsupplied hsrc (.inr hpos) htake] at hdone
        cases hdone
    | some r =>
        obtain ⟨x, q⟩ := r
        rw [OutChannel.encode_sample_of_counted hsrc (.inr hpos) htake] at hdone
        cases hdone
        have hunused := OutChannel.unused_of_takeNext htake
        have hpred := hbacked.pred hcap hpos
        obtain ⟨y, rest, hu, hnext⟩ := View.next_of_pos hle hpos
        obtain ⟨z, rest', hu', hpeek⟩ := View.peek_of_pos hle hpos
        obtain ⟨rfl, rfl⟩ : x = y ∧ q.items = rest :=
          List.cons.inj (hunused.symm.trans hu)
        obtain ⟨rfl, rfl⟩ : x = z ∧ q.items = rest' :=
          List.cons.inj (hunused.symm.trans hu')
        refine ⟨by rw [hnext], ?_, hmode, hbacked'⟩
        rw [hnext, hpeek]
        cases peek with
        | true => simp [OutChannel.view, OutChannel.unused, hpred]
        | false => simp [OutChannel.view, OutChannel.unused, hpred]

/-- The codes of the samples that positions carry. -/
def codesOf (convert : Channel → Mode → Option α → γ) (ch : Channel) (m : Mode)
    (vals : List (Option α)) : List (Option γ) :=
  vals.map fun val => some (convert ch m val)

/-- Where channel `ch` stands after `n` positions of a run of `N` samples that it began
in view `v` and mode `m`. -/
structure Along (N n : ℕ) (m : Mode) (v : View α) (c : OutChannel α cap) : Prop where
  mode : c.m_mode = m
  backed : c.Backed
  view : c.view = (View.upTo N n v).2

/-- **The fill follows the view.** Filling `k` more positions of a run takes a sourcing
channel `k` positions on, and its codes at positions below `N` are those of the samples
the view carries there. -/
theorem fillSamples_spec (hcap : cap < 2 ^ 32) (hN : 0 < N) {ch : Channel} {m : Mode}
    (hsrc : m.sourcing) {v : View α} {k : ℕ} {r : Codes γ} {s t : OutState α cap}
    {buffer : List (Codes γ)} (hfit : s.m_out_sampleno + k < 2 ^ 64)
    (h : fillSamples convert N k r s = .filled t buffer)
    (hat : Along N s.m_out_sampleno m v (s.chan ch)) :
    Along N (s.m_out_sampleno + k) m v (t.chan ch) ∧
      codesOf convert ch m (View.upTo N (s.m_out_sampleno + k) v).1 =
        codesOf convert ch m (View.upTo N s.m_out_sampleno v).1 ++
          (buffer.map (·.chan ch)).take (N - s.m_out_sampleno) := by
  induction k generalizing r s buffer with
  | zero =>
      cases h
      exact ⟨hat, by simp⟩
  | succ k ih =>
      obtain ⟨x, u, rest, rfl, hrest, hno, hin, hout⟩ := fillSamples_succ_eq_filled h
      rw [Counter.add_of_lt (by omega)] at hno
      have hstep : Along N u.m_out_sampleno m v (u.chan ch) ∧
          codesOf convert ch m (View.upTo N u.m_out_sampleno v).1 =
            codesOf convert ch m (View.upTo N s.m_out_sampleno v).1 ++
              [x.chan ch].take (N - s.m_out_sampleno) := by
        rw [hno]
        rcases Nat.lt_trichotomy s.m_out_sampleno N with hlt | heq | hgt
        · -- a position below `N` carries the next sample
          obtain ⟨y, hy, hdone⟩ := hin (.inr (Nat.le_of_lt hlt)) ch
          obtain ⟨hval, hview, hmode, hbacked⟩ := encode_out_view hcap hN
            (by rw [hat.mode]; exact hsrc) hat.backed hdone
          have hpeek : decide (N > 0 ∧ s.m_out_sampleno = N) = false := by
            simp only [decide_eq_false_iff_not]
            omega
          rw [hpeek, if_neg (by simp), hat.view, View.upTo, if_pos (Nat.le_of_lt hlt)] at hview
          rw [hat.view, hat.mode, View.upTo, if_pos (Nat.le_of_lt hlt)] at hval
          refine ⟨⟨hmode.trans hat.mode, hbacked, ?_⟩, ?_⟩
          · rw [hview, View.upTo, if_pos (show s.m_out_sampleno + 1 ≤ N from hlt),
              emit_succ_snd]
          · rw [List.take_of_length_le (by simp only [List.length_singleton]; omega), View.upTo,
              View.upTo, if_pos (show s.m_out_sampleno + 1 ≤ N from hlt),
              if_pos (Nat.le_of_lt hlt), emit_succ_fst, hy, hval]
            simp [codesOf]
        · -- position `N` looks ahead
          obtain ⟨y, hy, hdone⟩ := hin (.inr (Nat.le_of_eq heq)) ch
          obtain ⟨-, hview, hmode, hbacked⟩ := encode_out_view hcap hN
            (by rw [hat.mode]; exact hsrc) hat.backed hdone
          have hpeek : decide (N > 0 ∧ s.m_out_sampleno = N) = true := by
            simp only [decide_eq_true_eq]
            omega
          rw [hpeek, if_pos rfl, hat.view, View.upTo, if_pos (Nat.le_of_eq heq), heq] at hview
          refine ⟨⟨hmode.trans hat.mode, hbacked, ?_⟩, ?_⟩
          · rw [hview, View.upTo, if_neg (by omega)]
          · rw [heq, Nat.sub_self, List.take_zero, List.append_nil, View.upTo, View.upTo,
              if_neg (by omega), if_pos (Nat.le_refl N)]
        · -- later positions repeat the registers
          have hsame := hout (by omega) ch
          have hup : View.upTo N (s.m_out_sampleno + 1) v = View.upTo N s.m_out_sampleno v := by
            rw [View.upTo, View.upTo, if_neg (by omega), if_neg (by omega)]
          rw [hsame, hup, Nat.sub_eq_zero_of_le (Nat.le_of_lt hgt)]
          exact ⟨⟨hat.mode, hat.backed, by rw [hup]; exact hat.view⟩, by simp⟩
      obtain ⟨hat', hcodes⟩ := ih (by omega) hrest hstep.1
      rw [show u.m_out_sampleno + k = s.m_out_sampleno + (k + 1) by omega] at hat' hcodes
      refine ⟨hat', ?_⟩
      rw [hcodes, hstep.2, List.append_assoc, List.map_cons, hno]
      congr 1
      rcases Nat.lt_or_ge s.m_out_sampleno N with hlt | hge
      · rw [show N - s.m_out_sampleno = (N - (s.m_out_sampleno + 1)) + 1 by omega]
        simp
      · rw [Nat.sub_eq_zero_of_le hge, Nat.sub_eq_zero_of_le (Nat.le_succ_of_le hge)]
        simp

end Refinement

/-! ### Histories of writes and runs -/

namespace OutputRuns

variable {α γ : Type*} {cap S : ℕ} {convert : Channel → Mode → Option α → γ}

/-- What the user does with an idle device. -/
inductive Act (α : Type*)
  /-- `write(buf, ch, false)`, with `buf` fully queued before anything else happens -/
  | write (ch : Channel) (buf : List α)
  /-- a noncontinuous run of `N` samples, up to its end -/
  | run (N : ℕ)
  deriving DecidableEq

/-- The device and the codes it has sent at the positions below the sample count. -/
structure State (α γ : Type*) (cap : ℕ) where
  out : OutState α cap
  /-- record: the codes of all runs, in order -/
  sent : List (Codes γ)

/-- A device in the given modes to which nothing was written. -/
def State.init (α γ : Type*) (cap : ℕ) (modeA modeB : Mode) : State α γ cap where
  out := ⟨.fresh modeA, .fresh modeB, 0⟩
  sent := []

/-- The mode of a channel. -/
def modeOf (modeA modeB : Mode) : Channel → Mode
  | .A => modeA
  | .B => modeB

/-- `write` of a buffer that fits, and the write thread's push of all of it. -/
def writeChan (c : OutChannel α cap) (buf : List α) : Option (OutChannel α cap) :=
  match c.m_out_samples_q.pushAll buf with
  | some q =>
      some { c with
        m_out_samples_q := q
        m_out_samples_avail := Counter.add 32 c.m_out_samples_avail buf.length }
  | none => none

/-- The transfers of a run, each submitted while `m_out_sampleno < m_sample_count`. The
result is the state at the end and the codes of all positions. -/
def runFills (convert : Channel → Mode → Option α → γ) (N S : ℕ) :
    ℕ → OutState α cap → Option (OutState α cap × List (Codes γ))
  | 0, s => if s.m_out_sampleno < N then none else some (s, [])
  | k + 1, s =>
      if s.m_out_sampleno < N then
        match handle_out_transfer convert N S s with
        | .filled t buffer =>
            (runFills convert N S k t).map fun r => (r.1, buffer ++ r.2)
        | .threw _ => none
        | .waits => none
      else some (s, [])

/-- How many transfers hold `N` samples. -/
def fillsFor (S N : ℕ) : ℕ := (N + S - 1) / S

/-- One thing the user does. A run is possible when none of its transfers throws or
waits and `m_out_sampleno` gets to `N`. -/
def machine (convert : Channel → Mode → Option α → γ) (S cap : ℕ) :
    Machine (State α γ cap) (Act α) where
  step s
    | .write .A buf => (writeChan s.out.a buf).map fun c => { s with out.a := c }
    | .write .B buf => (writeChan s.out.b buf).map fun c => { s with out.b := c }
    | .run N =>
        if 0 < N ∧ N < 2 ^ 64 then
          (runFills convert N S (fillsFor S N) { s.out with m_out_sampleno := 0 }).map
            fun r => ⟨r.1, s.sent ++ r.2.take N⟩
        else none

/-- The sample-and-hold of a channel: what the history asks of it, and what it carries. -/
def ideal (ch : Channel) (as : List (Act α)) : List (Option α) × Hold α :=
  as.foldl
    (fun r a =>
      match a with
      | .write ch' buf => (r.1, if ch' = ch then r.2.write buf else r.2)
      | .run N => (r.1 ++ (emit Hold.next N r.2).1, (emit Hold.next N r.2).2))
    ([], ⟨[], none⟩)

theorem ideal_write (ch ch' : Channel) (as : List (Act α)) (buf : List α) :
    ideal ch (as ++ [.write ch' buf]) =
      ((ideal ch as).1,
        if ch' = ch then (ideal ch as).2.write buf else (ideal ch as).2) := by
  simp [ideal]

theorem ideal_run (ch : Channel) (as : List (Act α)) (N : ℕ) :
    ideal ch (as ++ [.run N]) =
      ((ideal ch as).1 ++ (emit Hold.next N (ideal ch as).2).1,
        (emit Hold.next N (ideal ch as).2).2) := by
  simp [ideal]

/-- **The output of channel `ch` is continuous**: the codes sent are those of the
sample-and-hold, and the samples it has not carried are the ones that still wait. -/
def Continuous (convert : Channel → Mode → Option α → γ) (ch : Channel) (m : Mode)
    (as : List (Act α)) (s : State α γ cap) : Prop :=
  s.sent.map (·.chan ch) = codesOf convert ch m (ideal ch as).1 ∧
    (s.out.chan ch).unused = (ideal ch as).2.unused

/-- A run finds the samples of channel `ch` in order: either the counter covers the
whole run, or it counts every unused sample. -/
def Covered (ch : Channel) (s : State α γ cap) : Act α → Prop
  | .write _ _ => True
  | .run N =>
      N ≤ (s.out.chan ch).m_out_samples_avail ∨
        (s.out.chan ch).m_out_samples_avail = (s.out.chan ch).unused.length

instance (ch : Channel) (s : State α γ cap) (a : Act α) : Decidable (Covered ch s a) :=
  match a with
  | .write _ _ => isTrue trivial
  | .run _ => inferInstanceAs (Decidable (_ ∨ _))

/-! ### Steps of a history -/

/-- What a write does to the channels. -/
theorem step_write {s t : State α γ cap} {ch' : Channel} {buf : List α}
    (h : (machine convert S cap).step s (.write ch' buf) = some t) :
    t.sent = s.sent ∧ (∀ ch, ch ≠ ch' → t.out.chan ch = s.out.chan ch) ∧
      writeChan (s.out.chan ch') buf = some (t.out.chan ch') := by
  cases ch' with
  | A =>
      obtain ⟨c, hc, rfl⟩ := Option.map_eq_some_iff.mp h
      refine ⟨rfl, ?_, hc⟩
      intro ch hne
      cases ch with
      | A => exact absurd rfl hne
      | B => rfl
  | B =>
      obtain ⟨c, hc, rfl⟩ := Option.map_eq_some_iff.mp h
      refine ⟨rfl, ?_, hc⟩
      intro ch hne
      cases ch with
      | A => rfl
      | B => exact absurd rfl hne

/-- A write to a channel appends to its unused samples and counts them. -/
theorem writeChan_spec (hcap : cap < 2 ^ 32) {c c' : OutChannel α cap} {buf : List α}
    (hbacked : c.Backed) (h : writeChan c buf = some c') :
    c'.m_mode = c.m_mode ∧ c'.unused = c.unused ++ buf ∧
      c'.m_out_samples_avail = c.m_out_samples_avail + buf.length ∧
      c'.m_previous_output = c.m_previous_output ∧ c'.Backed := by
  rw [writeChan] at h
  split at h
  · rename_i q hq
    cases h
    obtain ⟨hroom, hitems⟩ := BoundedQueue.pushAll_eq_some_iff.mp hq
    rw [OutChannel.Backed] at hbacked
    have hadd := Counter.add_of_lt
      (show c.m_out_samples_avail + buf.length < 2 ^ 32 by omega)
    refine ⟨rfl, ?_, hadd, rfl, ?_⟩
    · simp only [OutChannel.unused, hitems, List.append_assoc]
    · simp only [OutChannel.Backed, hitems, hadd, List.length_append]
      omega
  · cases h

/-- **What a run does to a channel**: its `N` positions carry what the view carries, and
the last transfer takes it to the first multiple of `S` at or after `N`. The number `k`
of transfers still allowed is such that only the last one can pass `N`. -/
theorem runFills_spec (hcap : cap < 2 ^ 32) {N : ℕ} (hN : 0 < N) (hN' : N < 2 ^ 64)
    (hS : S < 2 ^ 32) {ch : Channel} {m : Mode} (hsrc : m.sourcing) {v : View α} {k : ℕ}
    {s t : OutState α cap} {buffer : List (Codes γ)} (hdvd : S ∣ s.m_out_sampleno)
    (hfuel : s.m_out_sampleno + S * k < N + S)
    (h : runFills convert N S k s = some (t, buffer))
    (hat : Along N s.m_out_sampleno m v (s.chan ch)) :
    ∃ n, (N ≤ n ∧ n < N + S ∧ S ∣ n) ∧ Along N n m v (t.chan ch) ∧
      codesOf convert ch m (View.upTo N n v).1 =
        codesOf convert ch m (View.upTo N s.m_out_sampleno v).1 ++
          (buffer.map (·.chan ch)).take (N - s.m_out_sampleno) := by
  induction k generalizing s buffer with
  | zero =>
      rw [runFills] at h
      split at h
      · cases h
      · cases h
        exact ⟨t.m_out_sampleno, ⟨by omega, by omega, hdvd⟩, hat, by simp⟩
  | succ k ih =>
      have hsucc : S * (k + 1) = S * k + S := by ring
      rw [runFills] at h
      split at h
      · rename_i hlt
        split at h
        · rename_i u front hfill
          obtain ⟨r, hrest, hr⟩ := Option.map_eq_some_iff.mp h
          obtain ⟨rfl, rfl⟩ := Prod.mk.inj hr
          obtain ⟨hlen, hno⟩ := fillSamples_counts hfill (by omega)
          by_cases hwrap : s.m_out_sampleno + S < 2 ^ 64
          · rw [Counter.add_of_lt hwrap] at hno
            obtain ⟨hat', hcodes⟩ := fillSamples_spec hcap hN hsrc hwrap hfill hat
            rw [← hno] at hat' hcodes
            obtain ⟨n, hn, hat'', hcodes'⟩ :=
              ih (by rw [hno]; exact Nat.dvd_add hdvd (Nat.dvd_refl S)) (by omega) hrest hat'
            refine ⟨n, hn, hat'', ?_⟩
            rw [hcodes', hcodes, List.append_assoc, List.map_append, List.take_append,
              List.length_map, hlen]
            congr 3
            omega
          · -- the counter wraps below `N`, so the run has not ended
            obtain rfl : k = 0 := by
              by_contra hk
              have := Nat.le_mul_of_pos_right S (Nat.pos_of_ne_zero hk)
              omega
            have hlow : u.m_out_sampleno < N := by
              rw [hno, Counter.add]
              omega
            rw [runFills, if_pos hlow] at hrest
            cases hrest
        · cases h
        · cases h
      · rename_i hge
        cases h
        refine ⟨t.m_out_sampleno, ⟨by omega, by omega, hdvd⟩, hat, ?_⟩
        rw [List.map_nil, List.take_nil, List.append_nil]

/-- **The run lemma.** A run of `N` samples sends, at its `N` positions, what the view of
a sourcing channel carries there; unless `S` divides `N` it then looks ahead. -/
theorem step_run (hcap : cap < 2 ^ 32) (hS : 0 < S) (hS' : S < 2 ^ 32) {ch : Channel} {N : ℕ}
    {s t : State α γ cap} (hsrc : (s.out.chan ch).m_mode.sourcing)
    (hbacked : (s.out.chan ch).Backed)
    (h : (machine convert S cap).step s (.run N) = some t) :
    (t.out.chan ch).m_mode = (s.out.chan ch).m_mode ∧ (t.out.chan ch).Backed ∧
      t.sent.map (·.chan ch) = s.sent.map (·.chan ch) ++
        codesOf convert ch (s.out.chan ch).m_mode
          (emit View.next N (s.out.chan ch).view).1 ∧
      (t.out.chan ch).view =
        if S ∣ N then (emit View.next N (s.out.chan ch).view).2
        else (emit View.next N (s.out.chan ch).view).2.peek := by
  simp only [machine] at h
  split at h
  · rename_i hN
    obtain ⟨⟨u, buffer⟩, hfills, rfl⟩ := Option.map_eq_some_iff.mp h
    have hfuel : 0 + S * fillsFor S N < N + S := by
      have := Nat.mul_div_le (N + S - 1) S
      rw [fillsFor]
      omega
    have hsame : ({ s.out with m_out_sampleno := 0 } : OutState α cap).chan ch =
        s.out.chan ch := by
      cases ch <;> rfl
    obtain ⟨n, ⟨hle, hlt, hdvd⟩, hat, hcodes⟩ := runFills_spec hcap hN.1 hN.2 hS' hsrc
      (v := (s.out.chan ch).view) (Nat.dvd_zero S) hfuel hfills ⟨by rw [hsame], by
        rw [hsame]; exact hbacked, by rw [hsame]; rfl⟩
    refine ⟨hat.mode, hat.backed, ?_, ?_⟩
    · have hfront : (View.upTo N n (s.out.chan ch).view).1 =
          (emit View.next N (s.out.chan ch).view).1 := by
        rw [View.upTo]
        split
        · rw [show n = N by omega]
        · rfl
      rw [hfront] at hcodes
      rw [List.map_append, List.map_take, hcodes]
      simp [View.upTo, codesOf]
    · rw [hat.view, View.upTo]
      by_cases hSN : S ∣ N
      · obtain rfl : n = N := by
          obtain ⟨i, rfl⟩ := hSN
          obtain ⟨j, rfl⟩ := hdvd
          have hj : j < i + 1 := by
            by_contra hge
            have := Nat.mul_le_mul_left S (Nat.le_of_not_lt hge)
            rw [Nat.mul_succ] at this
            omega
          have := Nat.mul_le_mul_left S (Nat.le_of_lt_succ hj)
          omega
        rw [if_pos (Nat.le_refl n), if_pos hSN]
      · have hne : n ≠ N := fun heq => hSN (heq ▸ hdvd)
        rw [if_neg (by omega), if_neg hSN]
  · cases h

/-! ### Runs are never stuck -/

/-- What one `encode_out` preserves, a whole run preserves. -/
theorem runFills_preserves {N : ℕ} {ch : Channel} {P : OutChannel α cap → Prop}
    (hP : ∀ peek c c' v, P c → c.encode_out (convert ch) N peek = .done v c' → P c')
    {k : ℕ} {s t : OutState α cap} {buffer : List (Codes γ)}
    (h : runFills convert N S k s = some (t, buffer)) (hs : P (s.chan ch)) :
    P (t.chan ch) := by
  have hfill : ∀ {k r} {s t : OutState α cap} {buffer : List (Codes γ)},
      fillSamples convert N k r s = .filled t buffer → P (s.chan ch) → P (t.chan ch) := by
    intro k
    induction k with
    | zero =>
        intro r s t buffer h hs
        cases h
        exact hs
    | succ k ih =>
        intro r s t buffer h hs
        obtain ⟨x, u, rest, rfl, hrest, -, hin, hout⟩ := fillSamples_succ_eq_filled h
        refine ih hrest ?_
        by_cases hle : N = 0 ∨ s.m_out_sampleno ≤ N
        · obtain ⟨v, -, hv⟩ := hin hle ch
          exact hP _ _ _ _ hs hv
        · rw [hout hle ch]
          exact hs
  induction k generalizing s buffer with
  | zero =>
      rw [runFills] at h
      split at h <;> cases h
      exact hs
  | succ k ih =>
      rw [runFills] at h
      split at h
      · split at h
        · rename_i u front hu
          obtain ⟨r, hrest, hr⟩ := Option.map_eq_some_iff.mp h
          obtain ⟨rfl, rfl⟩ := Prod.mk.inj hr
          exact ih hrest (hfill hu hs)
        · cases h
        · cases h
      · cases h
        exact hs

/-- With both channels supplied a run gets to its end, if its length rounded up to whole
transfers fits `m_out_sampleno`. -/
theorem runFills_of_supplied (hcap : cap < 2 ^ 32) {N : ℕ} (hN : 0 < N) {k : ℕ}
    {s : OutState α cap} (hsup : ∀ ch, (s.chan ch).Supplied)
    (hfuel : N ≤ s.m_out_sampleno + S * k) (hfit : s.m_out_sampleno + S * k < 2 ^ 64) :
    ∃ r, runFills convert N S k s = some r := by
  induction k generalizing s with
  | zero =>
      rw [runFills, if_neg (by omega)]
      exact ⟨_, rfl⟩
  | succ k ih =>
      have hsucc : S * (k + 1) = S * k + S := by ring
      rw [runFills]
      split
      · obtain ⟨t, buffer, hfill, ht⟩ := fillSamples_of_supplied hcap hN S
          ⟨none, none⟩ hsup
        obtain ⟨-, hno⟩ := fillSamples_counts hfill (by omega)
        rw [Counter.add_of_lt (by omega)] at hno
        obtain ⟨r, hr⟩ := ih ht (by omega) (by omega)
        rw [handle_out_transfer, hfill]
        exact ⟨(r.1, buffer ++ r.2), by simp only [hr]; rfl⟩
      · exact ⟨_, rfl⟩

/-- After a history a channel is backed, and once anything was written to it there is a
sample to count on or one to repeat. -/
theorem backed_of_run (hcap : cap < 2 ^ 32) {modeA modeB : Mode} {as : List (Act α)}
    {s : State α γ cap}
    (hrun : (machine convert S cap).run (.init α γ cap modeA modeB) as = some s)
    (ch : Channel) :
    (s.out.chan ch).m_mode = modeOf modeA modeB ch ∧ (s.out.chan ch).Backed ∧
      ((∃ buf, buf ≠ [] ∧ .write ch buf ∈ as) → (s.out.chan ch).Primed) := by
  refine Machine.invariant_of_history
    (fun as s => (s.out.chan ch).m_mode = modeOf modeA modeB ch ∧
      (s.out.chan ch).Backed ∧
      ((∃ buf, buf ≠ [] ∧ .write ch buf ∈ as) → (s.out.chan ch).Primed)) ?_ ?_ hrun
  · refine ⟨by cases ch <;> rfl, ?_, fun ⟨_, _, hmem⟩ => absurd hmem List.not_mem_nil⟩
    cases ch <;> exact Nat.le_refl 0
  · rintro as u a s - ⟨hmode, hbacked, hprimed⟩ hstep
    cases a with
    | write ch' buf =>
        obtain ⟨-, hother, hwrite⟩ := step_write hstep
        by_cases hch : ch = ch'
        · subst hch
          obtain ⟨hm, -, hav, hprev, hb⟩ := writeChan_spec hcap hbacked hwrite
          refine ⟨hm.trans hmode, hb, ?_⟩
          rintro ⟨buf', hne, hmem⟩
          rw [OutChannel.Primed, hav, hprev]
          rcases List.mem_append.mp hmem with hmem | hmem
          · exact (hprimed ⟨buf', hne, hmem⟩).imp_left (by omega)
          · obtain ⟨-, rfl⟩ := Act.write.inj (List.mem_singleton.mp hmem)
            have := List.length_pos_iff.mpr hne
            exact .inl (by omega)
        · rw [hother ch hch]
          refine ⟨hmode, hbacked, ?_⟩
          rintro ⟨buf', hne, hmem⟩
          refine hprimed ⟨buf', hne, (List.mem_append.mp hmem).resolve_right ?_⟩
          intro hmem
          exact hch (Act.write.inj (List.mem_singleton.mp hmem)).1
    | run N =>
        simp only [machine] at hstep
        split at hstep
        · rename_i hN
          obtain ⟨r, hfills, rfl⟩ := Option.map_eq_some_iff.mp hstep
          have hsame : ({ u.out with m_out_sampleno := 0 } : OutState α cap).chan ch =
              u.out.chan ch := by
            cases ch <;> rfl
          have hmode' : (r.1.chan ch).m_mode = modeOf modeA modeB ch ∧
              (r.1.chan ch).Backed := by
            refine runFills_preserves
              (P := fun c => c.m_mode = modeOf modeA modeB ch ∧ c.Backed)
              ?_ hfills (by rw [hsame]; exact ⟨hmode, hbacked⟩)
            intro peek c c' v hc hdone
            obtain ⟨val, hval, -⟩ := OutChannel.encode_out_eq_done_iff.mp hdone
            exact ⟨(OutChannel.m_mode_of_encode_sample hval).trans hc.1,
              hc.2.encode_sample hcap hN.1 hval⟩
          refine ⟨hmode'.1, hmode'.2, ?_⟩
          rintro ⟨buf', hne, hmem⟩
          have hmem' : .write ch buf' ∈ as :=
            (List.mem_append.mp hmem).resolve_right fun hmem =>
              (nomatch List.mem_singleton.mp hmem)
          exact runFills_preserves (P := OutChannel.Primed)
            (fun peek c c' v hc hdone => hc.encode_out hdone) hfills
            (by rw [hsame]; exact hprimed ⟨buf', hne, hmem'⟩)
        · cases hstep

/-! ### Continuity -/

/-- The output of a channel has gone as it should and will go on so: besides continuity,
the sample to repeat is the last one carried whenever none waits. -/
def Agrees (convert : Channel → Mode → Option α → γ) (ch : Channel) (m : Mode)
    (as : List (Act α)) (s : State α γ cap) : Prop :=
  Continuous convert ch m as s ∧
    ((s.out.chan ch).unused = [] → (s.out.chan ch).m_previous_output = (ideal ch as).2.last)

/-- More samples wait than should, and not all of them are counted. -/
def Behind (ch : Channel) (as : List (Act α)) (s : State α γ cap) : Prop :=
  (ideal ch as).2.unused.length < (s.out.chan ch).unused.length ∧
    (s.out.chan ch).m_out_samples_avail < (s.out.chan ch).unused.length

/-- A view and a sample-and-hold with the same samples waiting, in a run with `rest`
positions to go that finds its samples covered. -/
structure Together (rest : ℕ) (v : View α) (h : Hold α) : Prop where
  unused : v.unused = h.unused
  le : v.avail ≤ v.unused.length
  last : v.unused = [] → v.previous = h.last
  covered : rest ≤ v.avail ∨ v.avail = v.unused.length

/-- **The position lemma**: together, a view and a sample-and-hold carry the same. -/
theorem Together.next {rest : ℕ} {v : View α} {h : Hold α} (ht : Together (rest + 1) v h) :
    v.next.1 = h.next.1 ∧ Together rest v.next.2 h.next.2 := by
  obtain ⟨hunused, hle, hlast, hcov⟩ := ht
  rcases Nat.eq_zero_or_pos v.avail with hzero | hpos
  · have hnil : v.unused = [] := List.eq_nil_of_length_eq_zero (by omega)
    have hnext : h.next = (h.last, h) := by
      rw [Hold.next]
      rw [← hunused, hnil]
    rw [View.next_of_zero hzero, hnext]
    exact ⟨hlast hnil, hunused, hle, hlast, .inr (by rw [hnil, hzero]; rfl)⟩
  · obtain ⟨x, rest', hu, hv⟩ := View.next_of_pos hle hpos
    have hnext : h.next = (some x, ⟨rest', some x⟩) := by
      rw [Hold.next]
      rw [← hunused, hu]
    rw [hu, List.length_cons] at hle hcov
    rw [hv, hnext]
    refine ⟨rfl, rfl, ?_, fun _ => rfl, ?_⟩
    · simp only
      omega
    · simp only
      omega

/-- **A covered run carries what it should.** -/
theorem emit_of_covered {v : View α} {h : Hold α} {N : ℕ} (ht : Together N v h) :
    (emit View.next N v).1 = (emit Hold.next N h).1 ∧
      Together 0 (emit View.next N v).2 (emit Hold.next N h).2 := by
  have hsim := emit_simulation (fun k u w => Together (N - k) u w) ht
    (f := View.next) (g := Hold.next) (n := N) fun k hk u w huw => by
      rw [show N - k = (N - (k + 1)) + 1 by omega] at huw
      exact huw.next
  rw [Nat.sub_self] at hsim
  exact hsim

/-- Looking ahead leaves the samples where they are. -/
theorem Together.peek {v : View α} {h : Hold α} (ht : Together 0 v h) :
    Together 0 v.peek h := by
  obtain ⟨hunused, hle, hlast, -⟩ := ht
  obtain ⟨hsame, havail⟩ := View.peek_le hle
  refine ⟨hsame.trans hunused, by rw [hsame]; omega, ?_, .inl (Nat.zero_le _)⟩
  intro hnil
  rw [hsame] at hnil
  rw [hnil, List.length_nil] at hle
  rw [View.peek_of_zero (Nat.le_zero.mp hle)]
  exact hlast hnil

/-- A run that finds its samples covered keeps the output as it should be. -/
theorem Agrees.run (hcap : cap < 2 ^ 32) (hS : 0 < S) (hS' : S < 2 ^ 32) {ch : Channel}
    {as : List (Act α)} {N : ℕ} {s t : State α γ cap}
    (hsrc : (s.out.chan ch).m_mode.sourcing) (hbacked : (s.out.chan ch).Backed)
    (h : Agrees convert ch (s.out.chan ch).m_mode as s) (hcov : Covered ch s (.run N))
    (hstep : (machine convert S cap).step s (.run N) = some t) :
    Agrees convert ch (s.out.chan ch).m_mode (as ++ [.run N]) t := by
  obtain ⟨⟨hsent, hunused⟩, hlast⟩ := h
  obtain ⟨-, -, hcodes, hview⟩ := step_run hcap hS hS' hsrc hbacked hstep
  obtain ⟨hout, htog⟩ := emit_of_covered
    (show Together N (s.out.chan ch).view (ideal ch as).2 from
      ⟨hunused, hbacked.le_unused, hlast, hcov⟩)
  have hview' : Together 0 (t.out.chan ch).view (emit Hold.next N (ideal ch as).2).2 := by
    rw [hview]
    split
    · exact htog
    · exact htog.peek
  refine ⟨⟨?_, ?_⟩, ?_⟩
  · rw [hcodes, hsent, hout, ideal_run, codesOf, codesOf, codesOf, List.map_append]
  · rw [ideal_run]
    exact hview'.unused
  · rw [ideal_run]
    exact hview'.last

/-- A run that does not find its samples covered falls behind, and so does every run of a
channel that is behind. -/
theorem Behind.of_run (hcap : cap < 2 ^ 32) (hS : 0 < S) (hS' : S < 2 ^ 32) {ch : Channel}
    {as : List (Act α)} {N : ℕ} {s t : State α γ cap}
    (hsrc : (s.out.chan ch).m_mode.sourcing) (hbacked : (s.out.chan ch).Backed)
    (h : Behind ch as s ∨
      (s.out.chan ch).unused = (ideal ch as).2.unused ∧ ¬Covered ch s (.run N))
    (hstep : (machine convert S cap).step s (.run N) = some t) :
    Behind ch (as ++ [.run N]) t := by
  obtain ⟨-, -, -, hview⟩ := step_run hcap hS hS' hsrc hbacked hstep
  have hle : (s.out.chan ch).view.avail ≤ (s.out.chan ch).view.unused.length :=
    hbacked.le_unused
  obtain ⟨hlen, hav⟩ := View.emit_next_lengths hle N
  have hideal := Hold.length_unused_emit (ideal ch as).2 N
  have hlen' : (t.out.chan ch).view.unused.length =
        (s.out.chan ch).view.unused.length - min N (s.out.chan ch).view.avail ∧
      (t.out.chan ch).view.avail ≤
        (s.out.chan ch).view.avail - min N (s.out.chan ch).view.avail := by
    rw [hview]
    split
    · exact ⟨hlen, Nat.le_of_eq hav⟩
    · obtain ⟨hsame, hpeek⟩ := View.peek_le
        (show (emit View.next N (s.out.chan ch).view).2.avail ≤ _ by rw [hav, hlen]; omega)
      rw [hsame, ← hav]
      exact ⟨hlen, hpeek⟩
  simp only [OutChannel.view] at hlen' hle
  simp only [Behind, ideal_run, hideal, hlen'.1]
  rcases h with ⟨hlt, hav'⟩ | ⟨hsame, hcov⟩
  · omega
  · simp only [Covered, not_or] at hcov
    rw [hsame] at hlen' hle hcov ⊢
    omega

/-- What a history has made of a channel: either every run found its samples covered and
all is as it should be, or some run did not and the channel is behind for good. -/
theorem agrees_or_behind (hcap : cap < 2 ^ 32) (hS : 0 < S) (hS' : S < 2 ^ 32)
    {modeA modeB : Mode} {ch : Channel} (hsrc : (modeOf modeA modeB ch).sourcing)
    {as : List (Act α)} {s : State α γ cap}
    (hrun : (machine convert S cap).run (.init α γ cap modeA modeB) as = some s) :
    ((machine convert S cap).Meets (Covered ch) (.init α γ cap modeA modeB) as ∧
        Agrees convert ch (modeOf modeA modeB ch) as s) ∨
      (¬(machine convert S cap).Meets (Covered ch) (.init α γ cap modeA modeB) as ∧
        Behind ch as s) := by
  refine Machine.invariant_of_history
    (fun as s =>
      ((machine convert S cap).Meets (Covered ch) (.init α γ cap modeA modeB) as ∧
          Agrees convert ch (modeOf modeA modeB ch) as s) ∨
        (¬(machine convert S cap).Meets (Covered ch) (.init α γ cap modeA modeB) as ∧
          Behind ch as s)) (.inl ⟨trivial, ?_⟩) ?_ hrun
  · cases ch <;> exact ⟨⟨rfl, rfl⟩, fun _ => rfl⟩
  · intro as s a t hs hinv hstep
    obtain ⟨hmode, hbacked, -⟩ := backed_of_run hcap hs ch
    simp only [Machine.meets_concat_iff, hs, Option.some.injEq, forall_eq']
    cases a with
    | write ch' buf =>
        simp only [Covered, and_true]
        obtain ⟨hsent, hother, hwrite⟩ := step_write hstep
        refine hinv.imp (fun ⟨hmeets, ⟨hcodes, hunused⟩, hlast⟩ => ⟨hmeets, ?_⟩)
          (fun ⟨hmeets, hlt, hav⟩ => ⟨hmeets, ?_⟩)
        · by_cases hch : ch = ch'
          · subst hch
            obtain ⟨-, hu, -, hprev, -⟩ := writeChan_spec hcap hbacked hwrite
            simp only [Agrees, Continuous, ideal_write, if_true, Hold.write, hsent, hu, hprev]
            exact ⟨⟨hcodes, by rw [hunused]⟩, fun hnil => hlast (List.append_eq_nil_iff.mp hnil).1⟩
          · simp only [Agrees, Continuous, ideal_write, if_neg (Ne.symm hch), hsent, hother ch hch]
            exact ⟨⟨hcodes, hunused⟩, hlast⟩
        · by_cases hch : ch = ch'
          · subst hch
            obtain ⟨-, hu, hav', -, -⟩ := writeChan_spec hcap hbacked hwrite
            simp only [Behind, ideal_write, if_true, Hold.write, hu, hav', List.length_append]
            omega
          · simp only [Behind, ideal_write, if_neg (Ne.symm hch), hother ch hch]
            exact ⟨hlt, hav⟩
    | run N =>
        rw [← hmode] at hsrc hinv ⊢
        by_cases hcov : Covered ch s (.run N)
        · refine hinv.imp (fun ⟨hmeets, hagree⟩ => ⟨⟨hmeets, hcov⟩, ?_⟩)
            (fun ⟨hmeets, hbehind⟩ => ⟨fun hm => hmeets hm.1, ?_⟩)
          · exact hagree.run hcap hS hS' hsrc hbacked hcov hstep
          · exact .of_run hcap hS hS' hsrc hbacked (.inl hbehind) hstep
        · refine .inr ⟨fun hm => hcov hm.2, .of_run hcap hS hS' hsrc hbacked ?_ hstep⟩
          exact hinv.symm.imp And.right fun ⟨_, hagree⟩ => ⟨hagree.1.2, hcov⟩

/-- **Output continuity.** The codes sent at the positions of the runs are those of the
sample-and-hold of the written samples, with the rest still waiting, exactly when every
run found its samples covered: the counter reaching to its end, or counting every unused
sample. And a run of any length that fits the position counter gets to its end once
something was written to each channel that takes samples. -/
theorem continuity_iff (hcap : cap < 2 ^ 32) (hS : 0 < S) (hS' : S < 2 ^ 32)
    {modeA modeB : Mode} {ch : Channel} (hsrc : (modeOf modeA modeB ch).sourcing)
    {as : List (Act α)} {s : State α γ cap}
    (hrun : (machine convert S cap).run (.init α γ cap modeA modeB) as = some s) :
    (Continuous convert ch (modeOf modeA modeB ch) as s ↔
        (machine convert S cap).Meets (Covered ch) (.init α γ cap modeA modeB) as) ∧
      ∀ N, 0 < N → N < 2 ^ 64 → S * fillsFor S N < 2 ^ 64 →
        (∀ ch', (modeOf modeA modeB ch').sourcing →
          ∃ buf, buf ≠ [] ∧ .write ch' buf ∈ as) →
        ∃ t, (machine convert S cap).step s (.run N) = some t := by
  constructor
  · rcases agrees_or_behind hcap hS hS' hsrc hrun with ⟨hmeets, hagree⟩ | ⟨hmeets, hlt, -⟩
    · exact ⟨fun _ => hmeets, fun _ => hagree.1⟩
    · refine ⟨?_, fun hm => absurd hm hmeets⟩
      intro hcont
      rw [hcont.2] at hlt
      exact absurd hlt (Nat.lt_irrefl _)
  · intro N hN hN' hfit hwritten
    have hsup : ∀ ch', (({ s.out with m_out_sampleno := 0 } : OutState α cap).chan
        ch').Supplied := by
      intro ch'
      have hsame : ({ s.out with m_out_sampleno := 0 } : OutState α cap).chan ch' =
          s.out.chan ch' := by
        cases ch' <;> rfl
      obtain ⟨hmode, hbacked, hprimed⟩ := backed_of_run hcap hrun ch'
      rw [hsame]
      refine ⟨hbacked, fun hm => hprimed (hwritten ch' ?_)⟩
      rw [← hmode]
      exact hm
    have hceil : N ≤ S * fillsFor S N := by
      have hdiv := Nat.div_add_mod (N + S - 1) S
      have hmod := Nat.mod_lt (N + S - 1) hS
      rw [fillsFor]
      omega
    obtain ⟨r, hr⟩ := runFills_of_supplied (S := S) (k := fillsFor S N) hcap hN hsup
      (by simpa using hceil) (by simpa using hfit)
    refine ⟨⟨r.1, s.sent ++ r.2.take N⟩, ?_⟩
    simp only [machine]
    rw [if_pos ⟨hN, hN'⟩, hr]
    rfl

/-- Three samples are written to channel A and sent, then two more, the last of which is held. -/
def twoRuns : List (Act ℕ) := [.write .A [1, 2, 3], .run 3, .write .A [4, 5], .run 4]

/-- The second run goes on where the first ended. -/
theorem continuity_iff_twoRuns : ∃ s : State ℕ ℕ 1000,
    (machine (fun _ _ val => val.getD 0) 256 1000).run (.init ℕ ℕ 1000 .SVMI .HI_Z) twoRuns =
        some s ∧
      s.sent.map (·.chan .A) = [some 1, some 2, some 3, some 4, some 5, some 5, some 5] ∧
      Continuous (fun _ _ val => val.getD 0) .A .SVMI twoRuns s := by
  have hrun : ((machine (fun _ _ val => val.getD 0) 256 1000).run
      (.init ℕ ℕ 1000 .SVMI .HI_Z) twoRuns).map (fun s => s.sent.map (·.chan .A)) =
        some [some 1, some 2, some 3, some 4, some 5, some 5, some 5] := by
    decide +kernel
  obtain ⟨s, hs, hsent⟩ := Option.map_eq_some_iff.mp hrun
  have hsrc : (modeOf .SVMI .HI_Z .A).sourcing := by decide
  exact ⟨s, hs, hsent, (continuity_iff (by decide) (by decide) (by decide) hsrc hs).1.mpr
    (by decide +kernel)⟩

/-- A run of `N` samples does not look ahead on channel `ch`: its transfers end at
position `N`, or no counted sample is left there. -/
def NoLookahead (S : ℕ) (ch : Channel) (s : State α γ cap) : Act α → Prop
  | .write _ _ => True
  | .run N => S ∣ N ∨ (s.out.chan ch).m_out_samples_avail ≤ N

/-- **Without looking ahead the counter is exact**, so that every run finds its samples
covered. -/
theorem counted_of_no_lookahead (hcap : cap < 2 ^ 32) (hS : 0 < S) (hS' : S < 2 ^ 32)
    {modeA modeB : Mode} {ch : Channel} (hsrc : (modeOf modeA modeB ch).sourcing)
    {as : List (Act α)} {s : State α γ cap}
    (hrun : (machine convert S cap).run (.init α γ cap modeA modeB) as = some s)
    (hmeets : (machine convert S cap).Meets (NoLookahead S ch)
      (.init α γ cap modeA modeB) as) :
    (machine convert S cap).Meets (Covered ch) (.init α γ cap modeA modeB) as ∧
      (s.out.chan ch).m_out_samples_avail = (s.out.chan ch).unused.length := by
  refine Machine.invariant_of_history
    (fun as s =>
      (machine convert S cap).Meets (NoLookahead S ch) (.init α γ cap modeA modeB) as →
        (machine convert S cap).Meets (Covered ch) (.init α γ cap modeA modeB) as ∧
          (s.out.chan ch).m_out_samples_avail = (s.out.chan ch).unused.length)
    (fun _ => ⟨trivial, by cases ch <;> rfl⟩) ?_ hrun hmeets
  intro as s a t hs hinv hstep hmeets
  obtain ⟨hmode, hbacked, -⟩ := backed_of_run hcap hs ch
  simp only [Machine.meets_concat_iff, hs, Option.some.injEq, forall_eq'] at hmeets ⊢
  obtain ⟨hcov, hcount⟩ := hinv hmeets.1
  cases a with
  | write ch' buf =>
      obtain ⟨-, hother, hwrite⟩ := step_write hstep
      refine ⟨⟨hcov, trivial⟩, ?_⟩
      by_cases hch : ch = ch'
      · subst hch
        obtain ⟨-, hu, hav, -, -⟩ := writeChan_spec hcap hbacked hwrite
        rw [hu, hav, hcount, List.length_append]
      · rw [hother ch hch]
        exact hcount
  | run N =>
      refine ⟨⟨hcov, .inr hcount⟩, ?_⟩
      rw [← hmode] at hsrc
      obtain ⟨-, -, -, hview⟩ := step_run hcap hS hS' hsrc hbacked hstep
      obtain ⟨hlen, hav⟩ := View.emit_next_lengths
        (show (s.out.chan ch).view.avail ≤ (s.out.chan ch).view.unused.length from
          hbacked.le_unused) N
      have hsame : (t.out.chan ch).view = (emit View.next N (s.out.chan ch).view).2 := by
        rw [hview]
        split
        · rfl
        · rename_i hSN
          have hle : (s.out.chan ch).m_out_samples_avail ≤ N := hmeets.2.resolve_left hSN
          refine View.peek_of_zero ?_
          rw [hav]
          simp only [OutChannel.view]
          omega
      rw [← hsame] at hlen hav
      simp only [OutChannel.view] at hlen hav
      omega

/-- **The look-ahead sample is counted twice.** Three samples are written; a run of one
sample looks ahead at the second, and the next run of two sends the second twice and the
third never, although it waits. -/
theorem look_ahead_counted_twice : ∃ s : State ℕ ℕ 1000,
    (machine (fun _ _ val => val.getD 0) 256 1000).run (.init ℕ ℕ 1000 .SVMI .HI_Z)
        [.write .A [1, 2, 3], .run 1, .run 2] = some s ∧
      s.sent.map (·.chan .A) = [some 1, some 2, some 2] ∧
      (s.out.chan .A).unused = [3] ∧
      (ideal .A [.write .A [1, 2, 3], .run 1, .run 2]).1 = [some 1, some 2, some 3] ∧
      ¬Continuous (fun _ _ val => val.getD 0) .A .SVMI
        [.write .A [1, 2, 3], .run 1, .run 2] s := by
  have hrun : ((machine (fun _ _ val => val.getD 0) 256 1000).run
      (.init ℕ ℕ 1000 .SVMI .HI_Z) [.write .A [1, 2, 3], .run 1, .run 2]).map
        (fun s => (s.sent.map (·.chan .A), (s.out.chan .A).unused)) =
      some ([some 1, some 2, some 2], [3]) := by decide +kernel
  obtain ⟨s, hs, hout⟩ := Option.map_eq_some_iff.mp hrun
  obtain ⟨hsent, hunused⟩ := Prod.mk.inj hout
  refine ⟨s, hs, hsent, hunused, rfl, ?_⟩
  intro hcont
  have := hcont.2
  rw [hunused] at this
  exact absurd this (by decide)

end OutputRuns

end Libsmu
