import Libsmu.DeviceControl
import Libsmu.OutputSupply

/-!
# A Call of `write`

`write` refuses a bad channel, flushes if the last buffer was cyclic, and waits for the buffer
of the channel to be free; it may time out waiting. Then it raises `m_out_samples_avail`, takes
the mutex and sets the buffer, and only after that it looks whether an exception of the USB
thread is stored, which it takes and throws. `OutputSupply` has all of this as one step; here
the other threads may move in between.

## Main results

* `step_setBuf`: raising the counter and setting the buffer are one step for the rest of the
  device, the step in which the counter is raised.
* `all_or_nothing`: a call that times out leaves what the other threads make of the channel by
  themselves; one that returns 0 or throws a stored exception has handed over the whole buffer.
* `handed_over_and_thrown`: a call that throws after it has handed over its buffer.
-/

namespace Libsmu.OutputSupply

open Session (ENODEV)

variable {α ε : Type*} {cap S : ℕ}

/-- How a call of `write` ends; the exceptions that may be stored are of type `ε`. -/
inductive Result (ε : Type*)
  | returned (ret : ℤ)
  /-- it throws `data write timeout, no available queue space` -/
  | timedOut
  /-- it throws the exception that was stored -/
  | rethrew (e : ε)
  deriving DecidableEq

/-- Where a call of `write` stands. -/
inductive CallPc (ε : Type*)
  /-- in the loop that waits for the buffer to be free -/
  | waits
  /-- the counter is raised, the mutex not taken -/
  | raised
  /-- the buffer is set and the mutex released -/
  | handed
  | ended (r : Result ε)
  deriving DecidableEq

/-- A call of `write(buf, channel, cyclic)`, with the channel it is about. -/
structure Call (α ε : Type*) (cap : ℕ) where
  state : State α cap
  /-- the stored exception of the USB thread -/
  e_ptr : Option ε
  buf : List α
  cyclic : Bool
  pc : CallPc ε

/-- One step of the call or of another thread. -/
inductive CallAct (α ε : Type*)
  /-- the call moves on -/
  | call
  /-- the call has waited for more than `m_write_timeout` -/
  | timeout
  /-- any other thread does something to the channel -/
  | other (a : Act α)
  /-- the USB thread stores an exception -/
  | store (e : ε)

/-- The write thread is not in its loop, where it holds the mutex. -/
def WritePc.idle : WritePc α → Bool
  | .absent | .waiting => true
  | .pushing _ | .paused _ => false

/-- No other thread writes to the channel. -/
def Act.foreign : Act α → Bool
  | .write _ _ | .writeTimeout => false
  | _ => true

/-- The counter raised for `n` samples. -/
def State.raise (n : ℕ) (s : State α cap) : State α cap :=
  { s with
    chan := { s.chan with
      m_out_samples_avail := Counter.add 32 s.chan.m_out_samples_avail n } }

/-- The buffer and its cyclic flag set. -/
def State.setBuf (buf : List α) (cyclic : Bool) (s : State α cap) : State α cap :=
  { s with m_out_samples_buf := buf, m_out_samples_buf_cyclic := cyclic }

/-- `write` up to the loop. -/
def enter (s : State α cap) (e_ptr : Option ε) (buf : List α) (channel : ℕ) (cyclic : Bool) :
    Option (Call α ε cap) :=
  if channel ≠ CHAN_A ∧ channel ≠ CHAN_B then
    some ⟨s, e_ptr, buf, cyclic, .ended (.returned (-ENODEV))⟩
  else s.flushCyclic.map fun s => ⟨s, e_ptr, buf, cyclic, .waits⟩

/-- The next move of the call. -/
def Call.advance (c : Call α ε cap) : Option (Call α ε cap) :=
  match c.pc with
  | .waits =>
      match c.state.m_out_samples_buf with
      | [] => some { c with state := c.state.raise c.buf.length, pc := .raised }
      | _ :: _ => none
  | .raised =>
      if c.state.thread.idle then
        some { c with state := c.state.setBuf c.buf c.cyclic, pc := .handed }
      else none
  | .handed =>
      match c.e_ptr with
      | some e => some { c with e_ptr := none, pc := .ended (.rethrew e) }
      | none => some { c with pc := .ended (.returned 0) }
  | .ended _ => none

/-- A call among the other threads. -/
def callMachine (α ε : Type*) (S cap : ℕ) : Machine (Call α ε cap) (CallAct α ε) where
  step c
    | .call => c.advance
    | .timeout =>
        match c.pc, c.state.m_out_samples_buf with
        | .waits, _ :: _ => some { c with pc := .ended .timedOut }
        | _, _ => none
    | .other a =>
        if a.foreign then
          ((machine α S cap).step c.state a).map fun s => { c with state := s }
        else none
    | .store e => some { c with e_ptr := some e }

/-- What the other threads did to the channel. -/
def others (as : List (CallAct α ε)) : List (Act α) :=
  as.filterMap fun
    | .other a => some a
    | _ => none

/-- **The hand-over**: nothing was waiting in the buffer, and now all of `buf` is; the counter
is raised by as many samples. -/
structure HandsOver (buf : List α) (cyclic : Bool) (v w : State α cap) : Prop where
  free : v.rest = []
  pending : w.rest = buf
  eq : w = (v.raise buf.length).setBuf buf cyclic

/-- The other threads did `os` to the channel, and in between the buffer was handed over. -/
def HandedOver (S : ℕ) (buf : List α) (cyclic : Bool) (s : State α cap) (os : List (Act α))
    (t : State α cap) : Prop :=
  ∃ before after v w, os = before ++ after ∧ (machine α S cap).run s before = some v ∧
    HandsOver buf cyclic v w ∧ (machine α S cap).run w after = some t

/-- What a call of `write` that found the channel in state `s` comes to, where the other
threads did `os` meanwhile and left the channel in state `t`. -/
def Outcome (S : ℕ) (s : State α cap) (buf : List α) (channel : ℕ) (cyclic : Bool)
    (os : List (Act α)) (t : State α cap) : Result ε → Prop
  | .returned ret =>
      if channel ≠ CHAN_A ∧ channel ≠ CHAN_B then
        ret = -ENODEV ∧ (machine α S cap).run s os = some t
      else ret = 0 ∧ ∃ b, s.flushCyclic = some b ∧ HandedOver S buf cyclic b os t
  | .timedOut => ∃ b, s.flushCyclic = some b ∧ (machine α S cap).run b os = some t
  | .rethrew _ => ∃ b, s.flushCyclic = some b ∧ HandedOver S buf cyclic b os t

variable {s t b : State α cap} {buf : List α} {cyclic : Bool} {os : List (Act α)}

theorem others_concat (as : List (CallAct α ε)) (a : CallAct α ε) :
    others (as ++ [a]) = others as ++ others [a] :=
  List.filterMap_append

/-! ### Channels without a buffer -/

/-- Out of its loop the write thread needs no buffer. -/
theorem wf_of_idle (h : s.thread.idle = true) : s.Wf := by
  rw [State.Wf]
  cases hthread : s.thread with
  | absent | waiting => trivial
  | pushing rest | paused rest =>
      rw [hthread] at h
      cases h

/-- Without a buffer the write thread is not in its loop. -/
theorem idle_of_wf (h : s.Wf) (hbuf : s.m_out_samples_buf = []) : s.thread.idle = true := by
  rw [State.Wf] at h
  cases hthread : s.thread <;> rw [hthread] at h
  · rfl
  · rfl
  · exact absurd hbuf h
  · exact absurd hbuf h

/-! ### The hand-over is one step -/

/-- **The other threads do not see the buffer set** while the write thread has not taken it up:
what they do without the buffer they do with it. -/
theorem step_setBuf {a : Act α} (hforeign : a.foreign = true) (hbuf : s.m_out_samples_buf = [])
    (hidle : s.thread.idle = true) (hstep : (machine α S cap).step s a = some t) :
    t.m_out_samples_buf = [] ∧
      (machine α S cap).step (s.setBuf buf cyclic) a = some (t.setBuf buf cyclic) := by
  cases a with
  | write buf cyclic | writeTimeout => cases hforeign
  | flush =>
      simp only [machine, State.flush] at hstep ⊢
      split at hstep
      · rename_i hleft
        obtain rfl := Option.some.inj hstep
        rw [if_pos (show (s.setBuf buf cyclic).left = 0 from hleft)]
        simp only [State.flushed, State.setBuf]
        cases hthread : s.thread <;> rw [hthread] at hidle
        · exact ⟨hbuf, rfl⟩
        · exact ⟨hbuf, rfl⟩
        · cases hidle
        · cases hidle
      · cases hstep
  | take | push k | finish | resume =>
      simp only [machine, threadStep] at hstep
      cases hthread : s.thread <;> rw [hthread] at hidle hstep
      · simp at hstep
      · simp [hbuf] at hstep
      · cases hidle
      · cases hidle
  | set_mode m | off =>
      obtain rfl := Option.some.inj hstep
      exact ⟨hbuf, rfl⟩
  | run samples | fill | cut =>
      simp only [machine, fillStep] at hstep ⊢
      split at hstep
      · rename_i hcond
        obtain rfl := Option.some.inj hstep
        exact ⟨hbuf, if_pos hcond⟩
      · cases hstep
  | encode completes =>
      simp only [machine, fillStep] at hstep ⊢
      split at hstep
      · rename_i hleft
        rw [if_pos (show 0 < (s.setBuf buf cyclic).left from hleft)]
        split at hstep
        · rename_i hcount
          rw [if_pos (show (s.setBuf buf cyclic).m_sample_count = 0 ∨
            (s.setBuf buf cyclic).m_out_sampleno ≤ (s.setBuf buf cyclic).m_sample_count
            from hcount)]
          have hsame : (s.setBuf buf cyclic).chan.encode_sample
              (s.setBuf buf cyclic).m_sample_count
              (decide ((s.setBuf buf cyclic).m_sample_count > 0 ∧
                (s.setBuf buf cyclic).m_out_sampleno = (s.setBuf buf cyclic).m_sample_count)) =
              s.chan.encode_sample s.m_sample_count
                (decide (s.m_sample_count > 0 ∧ s.m_out_sampleno = s.m_sample_count)) := rfl
          rw [hsame]
          cases hencode : s.chan.encode_sample s.m_sample_count
              (decide (s.m_sample_count > 0 ∧ s.m_out_sampleno = s.m_sample_count)) with
          | done val c =>
              rw [hencode] at hstep
              cases completes <;> obtain rfl := Option.some.inj hstep <;> exact ⟨hbuf, rfl⟩
          | noFallback =>
              rw [hencode] at hstep
              obtain rfl := Option.some.inj hstep
              exact ⟨hbuf, rfl⟩
          | waits =>
              rw [hencode] at hstep
              cases hstep
        · rename_i hcount
          obtain rfl := Option.some.inj hstep
          exact ⟨hbuf, if_neg hcount⟩
      · cases hstep

/-- Out of its loop the write thread has pushed nothing of the buffer. -/
theorem rest_of_idle (h : s.thread.idle = true) : s.rest = s.m_out_samples_buf := by
  rw [State.rest]
  cases hthread : s.thread with
  | absent | waiting => rfl
  | pushing rest | paused rest =>
      rw [hthread] at h
      cases h

/-- A buffer is handed over to a channel whose write thread has none. -/
theorem handsOver_of_free (hbuf : s.m_out_samples_buf = []) (hidle : s.thread.idle = true) :
    HandsOver buf cyclic s ((s.raise buf.length).setBuf buf cyclic) := by
  refine ⟨(rest_of_idle hidle).trans hbuf, ?_, rfl⟩
  exact rest_of_idle (s := (s.raise buf.length).setBuf buf cyclic) hidle

/-- One more step of another thread. -/
theorem HandedOver.concat {a : Act α} (h : HandedOver S buf cyclic b os s)
    (hstep : (machine α S cap).step s a = some t) :
    HandedOver S buf cyclic b (os ++ [a]) t := by
  obtain ⟨before, after, v, w, rfl, hbefore, hover, hafter⟩ := h
  refine ⟨before, after ++ [a], v, w, List.append_assoc _ _ _, hbefore, hover, ?_⟩
  exact (machine α S cap).run_concat_eq_some_iff.mpr ⟨s, hafter, hstep⟩

/-- One more step of another thread after the call has ended. -/
theorem Outcome.concat {channel : ℕ} {a : Act α} {r : Result ε}
    (h : Outcome S b buf channel cyclic os s r)
    (hstep : (machine α S cap).step s a = some t) :
    Outcome S b buf channel cyclic (os ++ [a]) t r := by
  cases r with
  | returned ret =>
      simp only [Outcome] at h ⊢
      split
      · rename_i hbad
        rw [if_pos hbad] at h
        obtain ⟨hret, hrun⟩ := h
        exact ⟨hret, (machine α S cap).run_concat_eq_some_iff.mpr ⟨s, hrun, hstep⟩⟩
      · rename_i hgood
        rw [if_neg hgood] at h
        obtain ⟨hret, u, hu, hover⟩ := h
        exact ⟨hret, u, hu, hover.concat hstep⟩
  | timedOut =>
      obtain ⟨u, hu, hrun⟩ := h
      exact ⟨u, hu, (machine α S cap).run_concat_eq_some_iff.mpr ⟨s, hrun, hstep⟩⟩
  | rethrew e =>
      obtain ⟨u, hu, hover⟩ := h
      exact ⟨u, hu, hover.concat hstep⟩

/-! ### The call -/

/-- What has come of a call, as far as it got. -/
def Progress (S : ℕ) (s : State α cap) (channel : ℕ) (os : List (Act α)) (c : Call α ε cap) :
    Prop :=
  match c.pc with
  | .waits => ¬(channel ≠ CHAN_A ∧ channel ≠ CHAN_B) ∧
      ∃ b, s.flushCyclic = some b ∧ (machine α S cap).run b os = some c.state
  | .raised => ¬(channel ≠ CHAN_A ∧ channel ≠ CHAN_B) ∧ c.state.m_out_samples_buf = [] ∧
      ∃ b, s.flushCyclic = some b ∧
        HandedOver S c.buf c.cyclic b os (c.state.setBuf c.buf c.cyclic)
  | .handed => ¬(channel ≠ CHAN_A ∧ channel ≠ CHAN_B) ∧
      ∃ b, s.flushCyclic = some b ∧ HandedOver S c.buf c.cyclic b os c.state
  | .ended r => Outcome S s c.buf channel c.cyclic os c.state r

variable {c d : Call α ε cap} {channel : ℕ}

/-- A call begins with nothing done, except for the flush. -/
theorem progress_of_enter {e_ptr : Option ε}
    (h : enter s e_ptr buf channel cyclic = some c) (S : ℕ) :
    c.buf = buf ∧ c.cyclic = cyclic ∧ Progress S s channel [] c := by
  rw [enter] at h
  split at h
  · rename_i hbad
    obtain rfl := Option.some.inj h
    refine ⟨rfl, rfl, ?_⟩
    simp only [Progress, Outcome, if_pos hbad]
    exact ⟨trivial, rfl⟩
  · rename_i hgood
    obtain ⟨b, hb, rfl⟩ := Option.map_eq_some_iff.mp h
    exact ⟨rfl, rfl, hgood, b, hb, rfl⟩

/-- **The call's own steps.** -/
theorem Progress.advance (hwf : c.state.Wf) (h : Progress S s channel os c)
    (hstep : c.advance = some d) :
    d.buf = c.buf ∧ d.cyclic = c.cyclic ∧ d.state.Wf ∧ Progress S s channel os d := by
  rw [Progress] at h
  rw [Call.advance] at hstep
  cases hpc : c.pc with
  | waits =>
      rw [hpc] at h
      obtain ⟨hgood, b, hb, hrun⟩ := h
      simp only [hpc] at hstep
      split at hstep
      · rename_i hbuf
        obtain rfl := Option.some.inj hstep
        refine ⟨rfl, rfl, hwf, hgood, hbuf, b, hb, os, [], c.state, _, ?_, hrun, ?_, rfl⟩
        · rw [List.append_nil]
        · exact handsOver_of_free hbuf (idle_of_wf hwf hbuf)
      · cases hstep
  | raised =>
      rw [hpc] at h
      obtain ⟨hgood, -, b, hb, hover⟩ := h
      simp only [hpc] at hstep
      split at hstep
      · rename_i hidle
        obtain rfl := Option.some.inj hstep
        exact ⟨rfl, rfl, wf_of_idle (s := c.state.setBuf c.buf c.cyclic) hidle, hgood, b, hb, hover⟩
      · cases hstep
  | handed =>
      rw [hpc] at h
      obtain ⟨hgood, hover⟩ := h
      simp only [hpc] at hstep
      split at hstep
      · obtain rfl := Option.some.inj hstep
        exact ⟨rfl, rfl, hwf, hover⟩
      · obtain rfl := Option.some.inj hstep
        refine ⟨rfl, rfl, hwf, ?_⟩
        simp only [Progress, Outcome, if_neg hgood]
        exact ⟨trivial, hover⟩
  | ended r =>
      simp only [hpc] at hstep
      cases hstep

/-- **The steps of the other threads** are the same with the hand-over before them. -/
theorem Progress.other {a : Act α} (hwf : c.state.Wf) (h : Progress S s channel os c)
    (hforeign : a.foreign = true) (hstep : (machine α S cap).step c.state a = some t) :
    Progress S s channel (os ++ [a]) { c with state := t } := by
  rw [Progress] at h ⊢
  cases hpc : c.pc with
  | waits =>
      rw [hpc] at h
      obtain ⟨hgood, b, hb, hrun⟩ := h
      exact ⟨hgood, b, hb,
        (machine α S cap).run_concat_eq_some_iff.mpr ⟨c.state, hrun, hstep⟩⟩
  | raised =>
      rw [hpc] at h
      obtain ⟨hgood, hbuf, b, hb, hover⟩ := h
      obtain ⟨hbuf', hset⟩ := step_setBuf hforeign hbuf (idle_of_wf hwf hbuf) hstep
      exact ⟨hgood, hbuf', b, hb, hover.concat hset⟩
  | handed =>
      rw [hpc] at h
      obtain ⟨hgood, b, hb, hover⟩ := h
      exact ⟨hgood, b, hb, hover.concat hstep⟩
  | ended r =>
      rw [hpc] at h
      exact h.concat hstep

/-- **The step lemma** of a call. -/
theorem Progress.step {a : CallAct α ε} (hwf : c.state.Wf) (h : Progress S s channel os c)
    (hstep : (callMachine α ε S cap).step c a = some d) :
    d.buf = c.buf ∧ d.cyclic = c.cyclic ∧ d.state.Wf ∧
      Progress S s channel (os ++ others [a]) d := by
  cases a with
  | call =>
      rw [show others [CallAct.call] = ([] : List (Act α)) from rfl, List.append_nil]
      exact h.advance hwf hstep
  | timeout =>
      rw [show others [CallAct.timeout] = ([] : List (Act α)) from rfl, List.append_nil]
      simp only [callMachine] at hstep
      split at hstep
      · rename_i hpc hbuf
        obtain rfl := Option.some.inj hstep
        rw [Progress, hpc] at h
        exact ⟨rfl, rfl, hwf, h.2⟩
      · cases hstep
  | other a =>
      simp only [callMachine] at hstep
      split at hstep
      · rename_i hforeign
        obtain ⟨t, ht, rfl⟩ := Option.map_eq_some_iff.mp hstep
        exact ⟨rfl, rfl, wf_of_step hwf ht, h.other hwf hforeign ht⟩
      · cases hstep
  | store e =>
      rw [show others [CallAct.store e] = ([] : List (Act α)) from rfl, List.append_nil]
      obtain rfl := Option.some.inj hstep
      exact ⟨rfl, rfl, hwf, h⟩

/-- **All or nothing.** A call that times out or refuses the channel leaves what the other
threads make of it by themselves, after the flush that ends a cyclic buffer. A call that
returns 0 or throws a stored exception has handed over the whole buffer, once, and raised the
counter by its length. -/
theorem all_or_nothing {m : Mode} {past : List (Act α)} {e_ptr : Option ε} {channel : ℕ}
    {as : List (CallAct α ε)} {r : Result ε}
    (hpast : (machine α S cap).run (.init α cap m) past = some s)
    (henter : enter s e_ptr buf channel cyclic = some c)
    (hrun : (callMachine α ε S cap).run c as = some d) (hend : d.pc = .ended r) :
    Outcome S s buf channel cyclic (others as) d.state r := by
  have hwf : s.Wf := Machine.invariant (fun _ _ _ h hstep => wf_of_step h hstep)
    (show (State.init α cap m).Wf from trivial) hpast
  have hwf' : c.state.Wf := by
    rw [enter] at henter
    split at henter
    · obtain rfl := Option.some.inj henter
      exact hwf
    · obtain ⟨b, hb, rfl⟩ := Option.map_eq_some_iff.mp henter
      exact wf_of_step (S := S) (a := .writeTimeout) hwf hb
  have hinv : d.buf = c.buf ∧ d.cyclic = c.cyclic ∧ d.state.Wf ∧
      Progress S s channel (others as) d := by
    refine Machine.invariant_of_history (M := callMachine α ε S cap)
      (fun as d => d.buf = c.buf ∧ d.cyclic = c.cyclic ∧ d.state.Wf ∧
        Progress S s channel (others as) d)
      ⟨rfl, rfl, hwf', (progress_of_enter henter S).2.2⟩ ?_ hrun
    rintro as u a v - ⟨hbuf, hcyclic, hwf, hprogress⟩ hstep
    obtain ⟨hbuf', hcyclic', hwf', hprogress'⟩ := hprogress.step hwf hstep
    rw [others_concat]
    exact ⟨hbuf'.trans hbuf, hcyclic'.trans hcyclic, hwf', hprogress'⟩
  obtain ⟨hbuf, hcyclic, -, hprogress⟩ := hinv
  obtain ⟨hbuf', hcyclic', -⟩ := progress_of_enter henter S
  rw [Progress, hend, hbuf, hbuf', hcyclic, hcyclic'] at hprogress
  exact hprogress

/-- A call that returns 0 while a run starts and the write thread takes the buffer up. -/
theorem all_or_nothing_two : ∃ d : Call ℕ String 1000,
    (callMachine ℕ String 256 1000).run ⟨.init ℕ 1000 .SVMI, none, [1, 2], false, .waits⟩
        [.call, .other (.run 0), .call, .other .take, .call] = some d ∧
      Outcome 256 (State.init ℕ 1000 .SVMI) [1, 2] CHAN_A false [.run 0, .take] d.state
        (.returned 0 : Result String) := by
  have hout : ((callMachine ℕ String 256 1000).run
      ⟨.init ℕ 1000 .SVMI, none, [1, 2], false, .waits⟩
      [.call, .other (.run 0), .call, .other .take, .call]).map (fun d => d.pc) =
        some (.ended (.returned 0)) := by decide +kernel
  obtain ⟨d, hd, hend⟩ := Option.map_eq_some_iff.mp hout
  have hpast : (machine ℕ 256 1000).run (.init ℕ 1000 .SVMI) [] =
    some (.init ℕ 1000 .SVMI) := rfl
  have henter : enter (.init ℕ 1000 .SVMI) (none : Option String) [1, 2] CHAN_A false =
    some ⟨.init ℕ 1000 .SVMI, none, [1, 2], false, .waits⟩ := rfl
  exact ⟨d, hd, all_or_nothing hpast henter hd hend⟩

/-- **A call that throws and has handed its buffer over**, because an exception was stored; and
one that times out and has zeroed the counter, because the last buffer was cyclic. -/
theorem handed_over_and_thrown :
    (∃ c d : Call ℕ String 1000,
      enter (.init ℕ 1000 .SVMI) (some "data flow") [1, 2] CHAN_A false = some c ∧
      (callMachine ℕ String 256 1000).run c [.call, .call, .call] = some d ∧
      d.pc = .ended (.rethrew "data flow") ∧
      d.state.m_out_samples_buf = [1, 2] ∧ d.state.chan.m_out_samples_avail = 2) ∧
    ∃ (s : State ℕ 1000) (c d : Call ℕ String 1000),
      (machine ℕ 256 1000).run (.init ℕ 1000 .SVMI) [.write [1, 2] true] = some s ∧
      enter s none [3] CHAN_A false = some c ∧
      (callMachine ℕ String 256 1000).run c [.timeout] = some d ∧
      d.pc = .ended .timedOut ∧
      s.chan.m_out_samples_avail = 2 ∧ d.state.chan.m_out_samples_avail = 0 :=
  ⟨⟨_, _, rfl, rfl, rfl, rfl, rfl⟩, _, _, _, rfl, rfl, rfl, rfl, rfl, rfl⟩

end Libsmu.OutputSupply
