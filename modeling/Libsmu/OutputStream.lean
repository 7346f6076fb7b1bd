import Libsmu.PauseResume
import Libsmu.WireRoundTrip

/-!
# The Output of a Continuous Run

The way of a sample from `write` to the device, with everything on it that runs at the same
time: the user thread that calls `write`, the write thread of each channel that pushes into its
queue, and the USB thread, which asks `encode_out` for the codes of channel A and channel B in
turn and lays them out in packets. `off` and `run` may pause and resume the write threads.

The channels are those of `WriteThread`, and a call of `encode_out` is that of `EncodeOut` on
the queue and the counter of its channel. What this takes from the queue is a `pop` of the
channel.

## Main results

* `encode_cases`: what one call of `encode_out` takes and which code it makes.
* `Carried.step`: the codes are those of the samples taken.
* `device_finds`: the device finds the codes of the written samples in its packets, in order,
  and those of cyclic buffers over and over.
-/

namespace Libsmu

namespace OutputStream

open WriteThread (unroll OnTheWay Unflushed Seen)

variable {cap : ℕ}

/-- The output side of a device in a continuous run. -/
structure State (cap : ℕ) where
  chan : Channel → WriteThread.State ℚ cap
  m_next_output : Channel → Option ℚ
  m_previous_output : Channel → Option ℚ
  /-- `a` of `handle_out_transfer`, while `b` comes next -/
  a : Option ℕ
  /-- record: the codes of both channels at the positions so far -/
  codes : List (ℕ × ℕ)

/-- Nothing was written yet. -/
def State.init (cap : ℕ) : State cap where
  chan _ := .init ℚ cap
  m_next_output _ := none
  m_previous_output _ := none
  a := none
  codes := []

namespace State

/-- The channel that is encoded next. -/
def turn (s : State cap) : Channel := if s.a.isNone then .A else .B

/-- What `encode_out` sees of a channel. -/
def out (m_mode : Channel → Mode) (s : State cap) (ch : Channel) : OutChannel ℚ cap where
  m_mode := m_mode ch
  m_next_output := s.m_next_output ch
  m_previous_output := s.m_previous_output ch
  m_out_samples_q := (s.chan ch).m_out_samples_q
  m_out_samples_avail := (s.chan ch).m_out_samples_avail

/-- What `encode_out` leaves of a channel; what has left the queue is recorded. -/
def leave (s : State cap) (ch : Channel) (c : OutChannel ℚ cap) : State cap :=
  let d := s.chan ch
  let gone := d.m_out_samples_q.items.take
    (d.m_out_samples_q.items.length - c.m_out_samples_q.items.length)
  { s with
    chan := Function.update s.chan ch
      { d with
        m_out_samples_q := c.m_out_samples_q
        m_out_samples_avail := c.m_out_samples_avail
        popped := d.popped ++ gone }
    m_next_output := Function.update s.m_next_output ch c.m_next_output
    m_previous_output := Function.update s.m_previous_output ch c.m_previous_output }

/-- The code is put into `a`, or completes a position with it. -/
def put (s : State cap) (v : ℕ) : State cap :=
  match s.a with
  | none => { s with a := some v }
  | some a => { s with a := none, codes := s.codes ++ [(a, v)] }

/-- The next call of `encode_out`, which waits while there is no sample. `flush` keeps it out. -/
def encode (m_cal : EEPROM_cal) (m_mode : Channel → Mode) (s : State cap) :
    Option (State cap) :=
  if (s.chan .A).user.holdsState ∨ (s.chan .B).user.holdsState then none
  else
    match (s.out m_mode s.turn).encode_out (Libsmu.encode m_cal s.turn) 0 false with
    | .done v c => some ((s.leave s.turn c).put v)
    | .noFallback => none
    | .waits => none

end State

/-- The actions. -/
inductive Act
  /-- a step of the user or the write thread of a channel, or of `off` or `run` -/
  | channel (ch : Channel) (a : WriteThread.Act ℚ)
  /-- the USB thread encodes the next sample -/
  | encode

/-- One step. Samples are taken from the queues by `encode` only. -/
def machine (m_cal : EEPROM_cal) (m_mode : Channel → Mode) (cap : ℕ) :
    Machine (State cap) Act where
  step s
    | .channel _ .pop => none
    | .channel ch a => ((WriteThread.machine ℚ cap).step (s.chan ch) a).map fun c =>
        { s with chan := Function.update s.chan ch c }
    | .encode => s.encode m_cal m_mode

/-- A step of a channel that flushes nothing and takes no pause for a stop. -/
def Kept (s : State cap) : Act → Prop
  | .channel ch a => Unflushed (s.chan ch) a ∧ Seen (s.chan ch) a
  | .encode => True

instance (s : State cap) (a : Act) : Decidable (Kept s a) :=
  match a with
  | .channel _ _ => inferInstanceAs (Decidable (_ ∧ _))
  | .encode => isTrue trivial

/-- The codes of a channel so far. -/
def State.codesOf (s : State cap) : Channel → List ℕ
  | .A => s.codes.map Prod.fst ++ s.a.toList
  | .B => s.codes.map Prod.snd

/-! ### What one call takes -/

/-- Only `pop` takes samples from the queue. -/
theorem popped_of_step {α : Type*} {s t : WriteThread.State α cap} {a : WriteThread.Act α}
    (h : (WriteThread.machine α cap).step s a = some t) (ha : a ≠ .pop) :
    t.popped = s.popped := by
  have hnotify : s.notify.popped = s.popped := by
    rcases WriteThread.notify_cases s with heq | ⟨-, heq⟩ <;> rw [heq]
  cases WriteThread.step_cases h with
  | thread k h => cases h <;> rfl
  | user h =>
      cases h with
      | writeNotify hpc => exact hnotify
      | flushNotify k hpc => exact hnotify
      | _ => rfl
  | pop => exact absurd rfl ha
  | resume hresuming => exact hnotify
  | _ => rfl

section Call

variable {m_cal : EEPROM_cal} {m_mode : Channel → Mode} {s t : State cap} {ch : Channel}

/-- A code extends those of the channel whose turn it is. -/
theorem codesOf_put (v : ℕ) (ch : Channel) :
    (s.put v).codesOf ch = if ch = s.turn then s.codesOf ch ++ [v] else s.codesOf ch := by
  cases ha : s.a with
  | none => cases ch <;> simp [State.put, State.codesOf, State.turn, ha]
  | some a => cases ch <;> simp [State.put, State.codesOf, State.turn, ha]

@[simp] theorem chan_put (v : ℕ) : (s.put v).chan = s.chan := by
  rw [State.put]
  split <;> rfl

@[simp] theorem m_next_output_put (v : ℕ) : (s.put v).m_next_output = s.m_next_output := by
  rw [State.put]
  split <;> rfl

@[simp] theorem codesOf_leave (c : OutChannel ℚ cap) (ch' : Channel) :
    (s.leave ch c).codesOf ch' = s.codesOf ch' := by
  cases ch' <;> rfl

theorem m_next_output_leave (c : OutChannel ℚ cap) :
    (s.leave ch c).m_next_output = Function.update s.m_next_output ch c.m_next_output := rfl

@[simp] theorem turn_leave (c : OutChannel ℚ cap) : (s.leave ch c).turn = s.turn := rfl

/-- What one call of `encode_out` does to the channel whose turn it is: a floating channel
stays, and one that sources gives its oldest queued sample away. -/
inductive Taken (m_cal : EEPROM_cal) (m_mode : Channel → Mode) (s : State cap) (ch : Channel) :
    ℕ → WriteThread.State ℚ cap → Prop
  | floating (v : ℕ) (hfloat : ¬(m_mode ch).sourcing) : Taken m_cal m_mode s ch v (s.chan ch)
  | sample (x : ℚ) (q : BoundedQueue ℚ cap) (n : ℕ) (hsrc : (m_mode ch).sourcing)
      (hq : (s.chan ch).m_out_samples_q.items = x :: q.items) :
      Taken m_cal m_mode s ch (Libsmu.encode m_cal ch (m_mode ch) (some x))
        { s.chan ch with
          m_out_samples_q := q
          m_out_samples_avail := n
          popped := (s.chan ch).popped ++ [x] }

/-- **One call of `encode_out`** in a continuous run, with nothing taken ahead. -/
theorem encode_cases (hnext : s.m_next_output s.turn = none)
    (h : s.encode m_cal m_mode = some t) :
    (∀ ch, (s.chan ch).user.holdsState = false) ∧
      ∃ v c d, Taken m_cal m_mode s s.turn v d ∧ t = (s.leave s.turn c).put v ∧
        c.m_next_output = none ∧
        t.chan = Function.update s.chan s.turn d := by
  rw [State.encode] at h
  obtain ⟨hfree, h⟩ := Option.ite_none_left_eq_some.mp h
  refine ⟨fun ch => ?_, ?_⟩
  · rw [not_or] at hfree
    cases ch with
    | A => exact Bool.eq_false_iff.mpr hfree.1
    | B => exact Bool.eq_false_iff.mpr hfree.2
  split at h
  · rename_i v c hdone
    obtain rfl := Option.some.inj h
    obtain ⟨val, hval, rfl⟩ := OutChannel.encode_out_eq_done_iff.mp hdone
    by_cases hsrc : (m_mode s.turn).sourcing
    · cases htake : (s.out m_mode s.turn).takeNext with
      | none =>
          rw [OutChannel.encode_sample_of_unsupplied hsrc (.inl rfl) htake] at hval
          cases hval
      | some r =>
          obtain ⟨x, q⟩ := r
          have hitems := OutChannel.unused_of_takeNext htake
          rw [OutChannel.unused, show (s.out m_mode s.turn).m_next_output = none from hnext]
            at hitems
          rw [OutChannel.encode_sample_of_counted hsrc (.inl rfl) htake] at hval
          obtain ⟨rfl, rfl⟩ := Encoded.done.inj hval
          refine ⟨_, _, _, .sample x q (Counter.pred 32 (s.chan s.turn).m_out_samples_avail) hsrc
            hitems, rfl, rfl, ?_⟩
          have hgone : (s.chan s.turn).m_out_samples_q.items.take
              ((s.chan s.turn).m_out_samples_q.items.length - q.items.length) = [x] := by
            rw [show (s.chan s.turn).m_out_samples_q.items = x :: q.items from hitems]
            simp
          simp only [chan_put, State.leave, hgone]
          rfl
    · rw [OutChannel.encode_sample_of_floating hsrc] at hval
      obtain ⟨rfl, rfl⟩ := Encoded.done.inj hval
      refine ⟨_, _, _, .floating _ hsrc, rfl, hnext, ?_⟩
      simp [chan_put, State.leave, State.out]
  · cases h
  · cases h

/-- A call of `encode_out` does not wait while there is a sample to take. -/
theorem exists_encode (hfree : ∀ ch, (s.chan ch).user.holdsState = false)
    (hnext : s.m_next_output s.turn = none)
    (hqueued : (m_mode s.turn).sourcing → (s.chan s.turn).m_out_samples_q.items ≠ []) :
    ∃ t, s.encode m_cal m_mode = some t := by
  have hdone : ∃ val c, (s.out m_mode s.turn).encode_sample 0 false = .done val c := by
    by_cases hsrc : (m_mode s.turn).sourcing
    · have hunused : (s.out m_mode s.turn).unused = (s.chan s.turn).m_out_samples_q.items := by
        rw [OutChannel.unused, show (s.out m_mode s.turn).m_next_output = none from hnext]
        rfl
      obtain ⟨⟨x, q⟩, htake⟩ := Option.ne_none_iff_exists'.mp fun hnone =>
        hqueued hsrc (hunused ▸ OutChannel.takeNext_eq_none_iff.mp hnone)
      exact ⟨_, _, OutChannel.encode_sample_of_counted hsrc (.inl rfl) htake⟩
    · exact ⟨_, _, OutChannel.encode_sample_of_floating hsrc⟩
  obtain ⟨val, c, hval⟩ := hdone
  have hencoded : (s.out m_mode s.turn).encode_out (Libsmu.encode m_cal s.turn) 0 false =
      .done (Libsmu.encode m_cal s.turn (m_mode s.turn) val) c :=
    OutChannel.encode_out_eq_done_iff.mpr ⟨val, hval, rfl⟩
  refine ⟨(s.leave s.turn c).put (Libsmu.encode m_cal s.turn (m_mode s.turn) val), ?_⟩
  rw [State.encode, if_neg (by simp [hfree]), hencoded]

/-- Each channel that sources has as many samples queued as are needed, and nothing keeps the
USB thread out. -/
structure Ready (m_mode : Channel → Mode) (need : Channel → ℕ) (s : State cap) : Prop where
  free (ch : Channel) : (s.chan ch).user.holdsState = false
  next (ch : Channel) : s.m_next_output ch = none
  queued (ch : Channel) : (m_mode ch).sourcing →
    need ch ≤ (s.chan ch).m_out_samples_q.items.length

variable (m_cal) in
/-- One call takes one of the samples needed. -/
theorem Ready.encode {need : Channel → ℕ} (h : Ready m_mode need s) (hneed : 0 < need s.turn) :
    ∃ t, s.encode m_cal m_mode = some t ∧
      Ready m_mode (Function.update need s.turn (need s.turn - 1)) t ∧
      (∀ ch, (t.chan ch).written = (s.chan ch).written) ∧
      ∃ v c, t = (s.leave s.turn c).put v := by
  have hexists : ∃ t, s.encode m_cal m_mode = some t :=
    exists_encode h.free (h.next _) fun hsrc hnil => by
      have hle := h.queued _ hsrc
      rw [hnil, List.length_nil] at hle
      omega
  obtain ⟨t, ht⟩ := hexists
  obtain ⟨-, v, c, d, htaken, rfl, hnext, hchan⟩ := encode_cases (h.next _) ht
  have hd : d.user = (s.chan s.turn).user ∧ d.written = (s.chan s.turn).written ∧
      ((m_mode s.turn).sourcing →
        need s.turn - 1 ≤ d.m_out_samples_q.items.length) := by
    cases htaken with
    | floating v hfloat => exact ⟨rfl, rfl, fun hsrc => absurd hsrc hfloat⟩
    | sample x q n hsrc hq =>
        refine ⟨rfl, rfl, fun _ => ?_⟩
        have hle := h.queued _ hsrc
        rw [hq, List.length_cons] at hle
        exact Nat.sub_le_of_le_add hle
  refine ⟨_, ht, ⟨fun ch => ?_, fun ch => ?_, fun ch hsrc => ?_⟩, fun ch => ?_, v, c, rfl⟩
  · by_cases hch : ch = s.turn
    · subst hch
      rw [hchan, Function.update_self, hd.1]
      exact h.free _
    · rw [hchan, Function.update_of_ne hch]
      exact h.free ch
  · by_cases hch : ch = s.turn
    · subst hch
      rw [m_next_output_put, m_next_output_leave, Function.update_self]
      exact hnext
    · rw [m_next_output_put, m_next_output_leave, Function.update_of_ne hch]
      exact h.next ch
  · by_cases hch : ch = s.turn
    · subst hch
      rw [hchan, Function.update_self, Function.update_self]
      exact hd.2.2 hsrc
    · rw [hchan, Function.update_of_ne hch, Function.update_of_ne hch]
      exact h.queued ch hsrc
  · by_cases hch : ch = s.turn
    · subst hch
      rw [hchan, Function.update_self]
      exact hd.2.1
    · rw [hchan, Function.update_of_ne hch]

variable (m_cal) in
/-- **Two channels that have `n` samples queued are encoded at `n` positions** without a wait. -/
theorem Ready.encodes {n : ℕ} (ha : s.a = none) (h : Ready m_mode (fun _ => n) s) :
    ∃ t, (machine m_cal m_mode cap).run s (List.replicate (2 * n) .encode) = some t ∧
      t.codes.length = s.codes.length + n ∧ ∀ ch, (t.chan ch).written = (s.chan ch).written := by
  induction n generalizing s with
  | zero => exact ⟨s, rfl, rfl, fun _ => rfl⟩
  | succ n ih =>
      have hturn : s.turn = .A := by
        rw [State.turn, ha]
        rfl
      obtain ⟨t, ht, hready, hwritten, v, c, htput⟩ := h.encode m_cal (Nat.succ_pos n)
      have hta : t.a = some v := by
        rw [htput, State.put, show (s.leave s.turn c).a = none from ha]
      have hturn' : t.turn = .B := by
        rw [State.turn, hta]
        rfl
      rw [hturn] at hready
      obtain ⟨u, hu, hready', hwritten', w, e, huput⟩ := hready.encode m_cal
        (by rw [hturn']; exact Nat.succ_pos n)
      have hua : u.a = none ∧ u.codes = s.codes ++ [(v, w)] := by
        rw [huput, State.put, show (t.leave t.turn e).a = some v from hta]
        refine ⟨rfl, ?_⟩
        change t.codes ++ [(v, w)] = _
        rw [htput, State.put, show (s.leave s.turn c).a = none from ha]
        rfl
      rw [hturn'] at hready'
      obtain ⟨r, hr, hlen, hrwritten⟩ := ih hua.1
        ⟨hready'.free, hready'.next, fun ch hsrc => by
          have hle := hready'.queued ch hsrc
          cases ch <;> simpa using hle⟩
      refine ⟨r, ?_, ?_, fun ch => (hrwritten ch).trans ((hwritten' ch).trans (hwritten ch))⟩
      · rw [Nat.mul_succ, List.replicate_succ, List.replicate_succ]
        exact (Machine.run_cons_eq_some_iff _).mpr
          ⟨t, ht, (Machine.run_cons_eq_some_iff _).mpr ⟨u, hu, hr⟩⟩
      · rw [hlen, hua.2, List.length_append, List.length_singleton]
        omega

/-! ### The codes of the samples taken -/

/-- **Carried**: no sample is lost on the way, and the codes of a channel that sources are
those of the samples taken from its queue. -/
structure Carried (m_cal : EEPROM_cal) (m_mode : Channel → Mode) (s : State cap) : Prop where
  onTheWay (ch : Channel) : OnTheWay (s.chan ch)
  next (ch : Channel) : s.m_next_output ch = none
  codes (ch : Channel) : (m_mode ch).sourcing →
    s.codesOf ch = (s.chan ch).popped.map fun x => Libsmu.encode m_cal ch (m_mode ch) (some x)

theorem Carried.init (m_cal : EEPROM_cal) (m_mode : Channel → Mode) :
    Carried m_cal m_mode (.init cap) where
  onTheWay _ := .init
  next _ := rfl
  codes ch _ := by
    cases ch <;> rfl

/-- Giving a sample away keeps the others on their way. -/
theorem Taken.onTheWay {v : ℕ} {d : WriteThread.State ℚ cap}
    (h : Taken m_cal m_mode s ch v d) (hs : OnTheWay (s.chan ch))
    (hstate : (s.chan ch).user.holdsState = false) : OnTheWay d := by
  cases h with
  | floating v hfloat => exact hs
  | sample x q n hsrc hq =>
      have hpop : (WriteThread.machine ℚ cap).step (s.chan ch) .pop =
          some { s.chan ch with m_out_samples_q := q, popped := (s.chan ch).popped ++ [x] } := by
        simp [WriteThread.machine, hstate, BoundedQueue.pop_eq_some_iff.mpr hq]
      have hpopped := hs.step (a := .pop) ⟨trivial, trivial⟩ hpop
      have hsound := hpopped.sound
      -- the counter does not matter to the samples on the way
      exact hpopped.userGoto ⟨hsound.thread, hsound.user, hsound.stop, hsound.fresh,
        hsound.busy, hsound.position, hsound.running⟩ rfl hpopped.user hpopped.plain

theorem Carried.encode (hs : Carried m_cal m_mode s) (h : s.encode m_cal m_mode = some t) :
    Carried m_cal m_mode t := by
  obtain ⟨hfree, v, c, d, htaken, rfl, hnext, hchan⟩ := encode_cases (hs.next _) h
  refine ⟨fun ch => ?_, fun ch => ?_, fun ch hsrc => ?_⟩
  · rw [hchan]
    by_cases hch : ch = s.turn
    · subst hch
      rw [Function.update_self]
      exact htaken.onTheWay (hs.onTheWay _) (hfree _)
    · rw [Function.update_of_ne hch]
      exact hs.onTheWay ch
  · rw [m_next_output_put]
    by_cases hch : ch = s.turn
    · subst hch
      rw [m_next_output_leave, Function.update_self]
      exact hnext
    · rw [m_next_output_leave, Function.update_of_ne hch]
      exact hs.next ch
  · rw [codesOf_put, hchan, turn_leave, codesOf_leave]
    by_cases hch : ch = s.turn
    · subst hch
      rw [if_pos rfl, Function.update_self, hs.codes _ hsrc]
      cases htaken with
      | floating v hfloat => exact absurd hsrc hfloat
      | sample x q n hsrc hq => simp
    · rw [if_neg hch, Function.update_of_ne hch, hs.codes ch hsrc]

/-- A step of a channel other than giving a sample away. -/
theorem step_channel {a : WriteThread.Act ℚ}
    (h : (machine m_cal m_mode cap).step s (.channel ch a) = some t) :
    a ≠ .pop ∧ ∃ c, (WriteThread.machine ℚ cap).step (s.chan ch) a = some c ∧
      t = { s with chan := Function.update s.chan ch c } := by
  have hstep : a ≠ .pop → (machine m_cal m_mode cap).step s (.channel ch a) =
      ((WriteThread.machine ℚ cap).step (s.chan ch) a).map fun c =>
        { s with chan := Function.update s.chan ch c } := by
    intro ha
    cases a with
    | pop => exact absurd rfl ha
    | _ => rfl
  have hpop : a ≠ .pop := by
    rintro rfl
    cases h
  rw [hstep hpop] at h
  obtain ⟨c, hc, rfl⟩ := Option.map_eq_some_iff.mp h
  exact ⟨hpop, c, hc, rfl⟩

/-- **The step lemma.** -/
theorem Carried.step (hs : Carried m_cal m_mode s) {a : Act} (hok : Kept s a)
    (h : (machine m_cal m_mode cap).step s a = some t) : Carried m_cal m_mode t := by
  cases a with
  | encode => exact hs.encode h
  | channel ch a =>
      obtain ⟨hpop, c, hc, rfl⟩ := step_channel h
      have hpopped := popped_of_step hc hpop
      refine ⟨fun ch' => ?_, hs.next, fun ch' hsrc => ?_⟩
      · by_cases hch : ch' = ch
        · subst hch
          simpa using (hs.onTheWay ch').step hok hc
        · simpa [Function.update_of_ne hch] using hs.onTheWay ch'
      · have hcodes := hs.codes ch' hsrc
        by_cases hch : ch' = ch
        · subst hch
          simpa [State.codesOf, hpopped] using hcodes
        · simpa [State.codesOf, Function.update_of_ne hch] using hcodes

end Call

/-! ### What the device finds -/

/-- The codes of transfer `i`, which `handle_out_transfer` lays out in its packets. -/
def State.transfer (packets i : ℕ) (s : State cap) : List (ℕ × ℕ) :=
  (s.codes.drop (i * (packets * chunk_size))).take (packets * chunk_size)

theorem getElem?_transfer {packets i j : ℕ} {s : State cap} (hj : j < packets * chunk_size) :
    (s.transfer packets i)[j]? = s.codes[i * (packets * chunk_size) + j]? := by
  rw [State.transfer, List.getElem?_take_of_lt hj, List.getElem?_drop]

/-- The code at a finished position is among those of its channel. -/
theorem getElem?_codesOf {s : State cap} {k : ℕ} {code : ℕ × ℕ} (h : s.codes[k]? = some code)
    (ch : Channel) : (s.codesOf ch)[k]? = some (codeOf code ch) := by
  have hlt : k < s.codes.length := (List.getElem?_eq_some_iff.mp h).1
  cases ch with
  | A =>
      rw [State.codesOf, List.getElem?_append_left (by rwa [List.length_map]), List.getElem?_map,
        h]
      rfl
  | B =>
      rw [State.codesOf, List.getElem?_map, h]
      rfl

/-- The code at a finished position is that of the sample written for it. -/
theorem Carried.code {m_cal : EEPROM_cal} {m_mode : Channel → Mode} {s : State cap}
    (h : Carried m_cal m_mode s) {ch : Channel} (hsrc : (m_mode ch).sourcing) :
    ∃ n, ∀ (k : ℕ) (code : ℕ × ℕ), s.codes[k]? = some code → ∃ x,
      (unroll n (s.chan ch).written)[k]? = some x ∧
        codeOf code ch = Libsmu.encode m_cal ch (m_mode ch) (some x) := by
  obtain ⟨n, rest, hrest⟩ := (h.onTheWay ch).lossless.popped_prefix
  refine ⟨n, fun k code hk => ?_⟩
  have hcode := getElem?_codesOf hk ch
  rw [h.codes ch hsrc, List.getElem?_map, Option.map_eq_some_iff] at hcode
  obtain ⟨x, hx, hcode⟩ := hcode
  refine ⟨x, ?_, hcode.symm⟩
  rw [← hrest, List.getElem?_append_left (List.getElem?_eq_some_iff.mp hx).1, hx]

/-- The word at a finished position of a transfer is the code of the sample written for it. -/
theorem Carried.word {m_cal : EEPROM_cal} {m_mode : Channel → Mode} {s : State cap}
    (h : Carried m_cal m_mode s) {ch : Channel} (hsrc : (m_mode ch).sourcing) (fwver : ℚ)
    (packets : ℕ) (buffer : ℕ → UInt8) :
    ∃ n, ∀ i j, j < packets * chunk_size → i * (packets * chunk_size) + j < s.codes.length →
      ∃ x, (unroll n (s.chan ch).written)[i * (packets * chunk_size) + j]? = some x ∧
        outWord fwver (layOut fwver packets (s.transfer packets i) buffer) (j / chunk_size)
          (j % chunk_size) (outStream ch) = Libsmu.encode m_cal ch (m_mode ch) (some x) := by
  obtain ⟨n, hn⟩ := h.code hsrc
  refine ⟨n, fun i j hj hlen => ?_⟩
  have hcode := List.getElem?_eq_getElem hlen
  obtain ⟨x, hx, hword⟩ := hn _ _ hcode
  refine ⟨x, hx, ?_⟩
  refine (outWord_layOut fwver buffer hj ((getElem?_transfer hj).trans hcode) ?_).trans hword
  rw [hword]
  exact encode_lt _ _ _ _

/-- **The run lemma.** -/
theorem carried_of_run {m_cal : EEPROM_cal} {m_mode : Channel → Mode} {as : List Act}
    {s : State cap} (hkept : (machine m_cal m_mode cap).Meets Kept (.init cap) as)
    (hrun : (machine m_cal m_mode cap).run (.init cap) as = some s) : Carried m_cal m_mode s :=
  Machine.invariant_of_meets (fun _ _ _ hs hok hstep => Carried.step hs hok hstep)
    (.init m_cal m_mode) hkept hrun

/-- **The device finds the written samples in its packets.** In a continuous run in which
nothing is flushed and no pause is taken for a stop, the word at each position of each transfer
is the code of the sample written for that position, cyclic buffers counted over and over. -/
theorem device_finds {m_cal : EEPROM_cal} {m_mode : Channel → Mode} {as : List Act}
    {s : State cap} (hkept : (machine m_cal m_mode cap).Meets Kept (.init cap) as)
    (hrun : (machine m_cal m_mode cap).run (.init cap) as = some s) {ch : Channel}
    (hsrc : (m_mode ch).sourcing) (fwver : ℚ) (packets : ℕ) (buffer : ℕ → UInt8) :
    ∃ n, ∀ i j, j < packets * chunk_size → i * (packets * chunk_size) + j < s.codes.length →
      ∃ x, (unroll n (s.chan ch).written)[i * (packets * chunk_size) + j]? = some x ∧
        outWord fwver (layOut fwver packets (s.transfer packets i) buffer) (j / chunk_size)
          (j % chunk_size) (outStream ch) = Libsmu.encode m_cal ch (m_mode ch) (some x) :=
  (carried_of_run hkept hrun).word hsrc fwver packets buffer

/-- Channel A sources a voltage, and channel B floats. -/
def sourceA : Channel → Mode
  | .A => .SVMI
  | .B => .HI_Z

/-- Two samples are sourced over and over through a queue of two, with a pause in between. -/
def pausedOnce : List Act :=
  [.channel .A (.write ⟨[1, 2], true⟩)] ++ List.replicate 6 (.channel .A .user) ++
    List.replicate 5 (.channel .A (.thread 0)) ++ [.channel .A (.thread 2), .channel .A .off,
      .channel .A (.thread 0), .encode, .encode, .channel .A .run, .channel .A .resume] ++
    List.replicate 4 (.channel .A (.thread 0)) ++ [.channel .A (.thread 1), .encode, .encode,
      .encode, .encode]

/-- The first sample comes a second time. -/
theorem device_finds_paused : ∃ s : State 2, s.codes.length = 3 ∧
    (s.chan .A).written = [⟨[1, 2], true⟩] ∧
    ∃ n, ∀ i j, j < 1 * chunk_size → i * (1 * chunk_size) + j < s.codes.length →
      ∃ x, (unroll n (s.chan .A).written)[i * (1 * chunk_size) + j]? = some x ∧
        outWord 2 (layOut 2 1 (s.transfer 1 i) fun _ => 0) (j / chunk_size)
          (j % chunk_size) (outStream .A) =
            Libsmu.encode .default .A .SVMI (some x) := by
  have hrun : ((machine .default sourceA 2).run (.init 2) pausedOnce).map
      (fun s => (s.codes.length, (s.chan .A).written)) = some (3, [⟨[1, 2], true⟩]) := by
    decide +kernel
  obtain ⟨s, hs, hend⟩ := Option.map_eq_some_iff.mp hrun
  obtain ⟨hlen, hwritten⟩ := Prod.mk.inj hend
  have hsrc : (sourceA .A).sourcing := by decide
  exact ⟨s, hlen, hwritten, device_finds (by decide +kernel) hs hsrc 2 1 _⟩

end OutputStream

end Libsmu
