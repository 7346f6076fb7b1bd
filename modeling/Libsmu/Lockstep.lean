import Libsmu.Streaming
import Mathlib.Tactic.Ring

/-!
# Lockstep of the Two Directions in a Noncontinuous Run

IN transfers are counted in `m_requested_sampleno` when they are submitted, OUT
transfers in `m_out_sampleno` while their buffers are filled, and the two are tested
against `m_sample_count` in different places. When nothing fails, both directions
nevertheless make the same number of transfers. This module proves it for every order
of completions.

A direction is a `Lane`: its counter is the transfer size times the number of accepted
submissions, and until `transfersFor` submissions are made, every one of its transfers
is in flight, about to be resubmitted, or still to be kicked off.

## Main results

* `LockInv.step`: every step of a run without failures keeps both lanes, the accounting
  of the IN stream, and lowers a rank.
* `lockstep`: over the run each direction submits `transfersFor` transfers, `num_active`
  counts its transfers in flight and stays between `0` and the number of transfers, the
  run comes to its end within a bounded number of steps, and there both counters are
  the transfer size times `transfersFor` and exactly the requested samples are queued.
* `submitted_unbounded`: when the total does not fit into 64 bits the counter wraps and
  the run submits transfers without end.
-/

namespace Libsmu.Streaming

variable {α : Type*} {c : Config}

/-- How many transfers hold the requested samples: `⌈N / S⌉`. -/
def Config.transfersFor (c : Config) : ℕ :=
  (c.m_sample_count + c.m_samples_per_transfer - 1) / c.m_samples_per_transfer

/-- A count of transfers is too small exactly when its samples are. -/
theorem Config.lt_transfersFor_iff (hS : 0 < c.m_samples_per_transfer) {k : ℕ} :
    k < c.transfersFor ↔ c.m_samples_per_transfer * k < c.m_sample_count := by
  rw [Config.transfersFor]
  rw [← Nat.succ_le_iff, Nat.le_div_iff_mul_le hS, Nat.succ_mul, Nat.mul_comm k]
  omega

/-! ### Runs without failures -/

/-- Nothing fails: libusb accepts and completes every transfer, no exception is thrown,
the queue has room for the whole transfer, and nobody cancels. -/
def Act.Clean (c : Config) : Act α → Prop
  | .kickoffIn accepted => accepted = true
  | .kickoffOut fill accepted => fill = .filled ∧ accepted = true
  | .kickoffNext => True
  | .in_completion _ status data room =>
      status = .COMPLETED ∧ data.length = c.m_samples_per_transfer ∧ data.length ≤ room
  | .out_completion _ status => status = .COMPLETED
  | .usb fill accepted => fill = .filled ∧ accepted = true
  | .cancel => False

/-- With room in the queue `handle_in_transfer` counts every sample of the transfer and
pushes those up to the requested count. -/
theorem handle_in_transfer_of_room {N : ℕ} (hN : 0 < N) :
    ∀ (data : List α) (room n : ℕ), data.length ≤ room → n + data.length < 2 ^ 64 →
      handle_in_transfer N data room n = (n + data.length, data.take (N - n)) := by
  intro data
  induction data with
  | nil => intro room n _ _; simp [handle_in_transfer]
  | cons x xs ih =>
      intro room n hroom hfit
      rw [List.length_cons] at hroom hfit
      have hadd : Counter.add 64 n 1 = n + 1 := Counter.add_of_lt (by omega)
      obtain ⟨room, rfl⟩ : ∃ r, room = r + 1 := ⟨room - 1, by omega⟩
      simp only [handle_in_transfer, hadd, List.length_cons]
      by_cases hw : n + 1 ≤ N
      · rw [if_pos (.inr hw), ih room (n + 1) (by omega) (by omega)]
        have hsub : N - n = (N - (n + 1)) + 1 := by omega
        rw [hsub, List.take_succ_cons]
        exact Prod.ext (by simp only; omega) rfl
      · rw [if_neg (by omega), ih (room + 1) (n + 1) (by omega) (by omega)]
        have hsub : N - n = 0 := by omega
        have hsub' : N - (n + 1) = 0 := by omega
        rw [hsub, hsub', List.take_zero, List.take_zero]
        exact Prod.ext (by simp only; omega) rfl

/-! ### One direction -/

/-- One direction of a run without failures, with `n` transfers of its own. `todo` is
what the kickoff thread still has to submit, `none` once its loop is over, and `pending`
tells whether a callback is about to resubmit a transfer of this direction. -/
structure Lane (c : Config) (n : ℕ) (p : Pipe) (sampleno : ℕ) (todo : Option (List ℕ))
    (pending : ℕ) : Prop where
  active : p.num_active = p.in_flight.length
  sampleno : sampleno = c.m_samples_per_transfer * p.submitted
  submitted : p.submitted ≤ c.transfersFor
  starting : ∀ l, todo = some l →
    p.in_flight.length = p.submitted ∧ p.submitted + l.length = n ∧ pending = 0
  started : todo = none → p.in_flight.length + pending ≤ n ∧
    (p.submitted < c.transfersFor → p.in_flight.length + pending = n)

variable {n sampleno pending : ℕ} {p : Pipe} {todo : List ℕ}

theorem Lane.wants_iff {o : Option (List ℕ)} (h : Lane c n p sampleno o pending)
    (hN : 0 < c.m_sample_count) (hS : 0 < c.m_samples_per_transfer) :
    c.wants sampleno ↔ p.submitted < c.transfersFor := by
  rw [c.lt_transfersFor_iff hS, h.sampleno]
  rw [Config.wants]
  omega

/-- Advancing the counter by one transfer is exact while the whole run fits. -/
theorem Lane.add_sampleno {o : Option (List ℕ)} (h : Lane c n p sampleno o pending)
    (hfit : c.m_samples_per_transfer * c.transfersFor < 2 ^ 64)
    (hlt : p.submitted < c.transfersFor) :
    Counter.add 64 sampleno c.m_samples_per_transfer =
      c.m_samples_per_transfer * (p.submitted + 1) := by
  have hle : c.m_samples_per_transfer * (p.submitted + 1) ≤
      c.m_samples_per_transfer * c.transfersFor := Nat.mul_le_mul_left _ hlt
  rw [Nat.mul_succ] at hle ⊢
  rw [Counter.add_of_lt, h.sampleno]
  rw [h.sampleno]
  omega

/-- The kickoff thread submits the next transfer of its loop. -/
theorem Lane.kick {t : ℕ} (h : Lane c n p sampleno (some (t :: todo)) pending)
    (hlt : p.submitted < c.transfersFor) :
    Lane c n (p.submit t) (c.m_samples_per_transfer * (p.submitted + 1)) (some todo)
      pending := by
  obtain ⟨hflight, hcount, hpending⟩ := h.starting _ rfl
  have hactive := h.active
  rw [List.length_cons] at hcount
  refine ⟨?_, rfl, hlt, ?_, fun hnone => (nomatch hnone)⟩
  · simp only [Pipe.submit, List.length_cons]
    push_cast
    omega
  · rintro l hl
    obtain rfl := Option.some.inj hl
    simp only [Pipe.submit, List.length_cons]
    omega

/-- The kickoff thread finds that the run wants no more transfers. -/
theorem Lane.kickDone (h : Lane c n p sampleno (some todo) pending)
    (hge : c.transfersFor ≤ p.submitted) : Lane c n p sampleno none pending := by
  obtain ⟨hflight, hcount, hpending⟩ := h.starting _ rfl
  refine ⟨h.active, h.sampleno, h.submitted, fun _ hl => (nomatch hl), ?_⟩
  intro _
  omega

/-- The kickoff thread has submitted every transfer of its loop. -/
theorem Lane.kickNext (h : Lane c n p sampleno (some []) pending) :
    Lane c n p sampleno none pending := by
  obtain ⟨hflight, hcount, hpending⟩ := h.starting _ rfl
  rw [List.length_nil] at hcount
  refine ⟨h.active, h.sampleno, h.submitted, fun _ hl => (nomatch hl), ?_⟩
  intro _
  omega

/-- A callback of this direction is entered. -/
theorem Lane.retire {t : ℕ} (h : Lane c n p sampleno none 0) (ht : t ∈ p.in_flight) :
    Lane c n (p.retire t) sampleno none 1 := by
  have hlen := List.length_erase_of_mem ht
  have hpos := List.length_pos_of_mem ht
  have hactive := h.active
  obtain ⟨hle, hfull⟩ := h.started rfl
  refine ⟨?_, h.sampleno, h.submitted, fun _ hl => (nomatch hl), ?_⟩
  · simp only [Pipe.retire, hlen]
    omega
  · intro _
    simp only [Pipe.retire, hlen]
    refine ⟨by omega, ?_⟩
    intro hlt
    have := hfull hlt
    omega

/-- The callback resubmits its transfer. -/
theorem Lane.resubmit {t : ℕ} (h : Lane c n p sampleno none 1)
    (hlt : p.submitted < c.transfersFor) :
    Lane c n (p.submit t) (c.m_samples_per_transfer * (p.submitted + 1)) none 0 := by
  have hactive := h.active
  obtain ⟨hle, hfull⟩ := h.started rfl
  have hfull := hfull hlt
  refine ⟨?_, rfl, hlt, fun _ hl => (nomatch hl), ?_⟩
  · simp only [Pipe.submit, List.length_cons]
    push_cast
    omega
  · intro _
    simp only [Pipe.submit, List.length_cons]
    omega

/-- The callback finds that the run wants no more transfers. -/
theorem Lane.resubmitDone (h : Lane c n p sampleno none 1)
    (hge : c.transfersFor ≤ p.submitted) : Lane c n p sampleno none 0 := by
  obtain ⟨hle, -⟩ := h.started rfl
  refine ⟨h.active, h.sampleno, h.submitted, fun _ hl => (nomatch hl), ?_⟩
  intro _
  omega

/-- `num_active` lies between `0` and the number of transfers. -/
theorem Lane.active_bounds {o : Option (List ℕ)} (h : Lane c n p sampleno o pending) :
    0 ≤ p.num_active ∧ p.num_active ≤ n := by
  have hactive := h.active
  cases o with
  | none =>
      have hle := (h.started rfl).1
      omega
  | some l =>
      obtain ⟨hflight, hcount, -⟩ := h.starting l rfl
      omega

/-! ### Both directions -/

/-- The IN transfers the kickoff thread still has to submit. -/
def Kickoff.insTodo : Kickoff → Option (List ℕ)
  | .ins todo => some todo
  | _ => none

/-- The OUT transfers the kickoff thread still has to submit. -/
def Kickoff.outsTodo (c : Config) : Kickoff → Option (List ℕ)
  | .ins _ => some (List.range c.out_transfers)
  | .outs todo => some todo
  | .finished => none

/-- Whether the running callback is about to resubmit an IN transfer. -/
def Callback.pendingIn : Callback → ℕ
  | .resubmitIn _ => 1
  | _ => 0

/-- Whether the running callback is about to resubmit an OUT transfer. -/
def Callback.pendingOut : Callback → ℕ
  | .resubmitOut _ => 1
  | _ => 0

/-- The invariant of a run without failures. -/
structure LockInv (c : Config) (s : State α) : Prop where
  ins : Lane c c.in_transfers s.ins s.m_requested_sampleno s.kickoff.insTodo
    s.callback.pendingIn
  outs : Lane c c.out_transfers s.outs s.m_out_sampleno (s.kickoff.outsTodo c)
    s.callback.pendingOut
  /-- every transfer accepted and no longer in flight has brought its samples -/
  received : s.received.length + c.m_samples_per_transfer * s.ins.in_flight.length =
    c.m_samples_per_transfer * s.ins.submitted
  sampleno : s.m_in_sampleno = s.received.length
  queued : s.queued = s.received.take c.m_sample_count
  running : s.cancelled = false

/-- What is left to do: submissions to make, transfers to come back, and the way the
running callback and the kickoff thread have to go. -/
def State.rank (c : Config) (s : State α) : ℕ :=
  4 * (c.transfersFor - s.ins.submitted) + 4 * (c.transfersFor - s.outs.submitted) +
    3 * (s.ins.in_flight.length + s.outs.in_flight.length) +
    (match s.callback with
      | .outside => 0
      | .leaving => 1
      | .resubmitIn _ | .resubmitOut _ => 2) +
    match s.kickoff with
      | .ins todo => todo.length + c.out_transfers + 2
      | .outs todo => todo.length + 1
      | .finished => 0

theorem LockInv.init : LockInv c (State.init c : State α) where
  ins := by
    refine ⟨rfl, by simp [State.init], Nat.zero_le _, ?_, fun h => (nomatch h)⟩
    rintro l hl
    obtain rfl := Option.some.inj hl
    exact ⟨rfl, by simp [State.init], rfl⟩
  outs := by
    refine ⟨rfl, by simp [State.init], Nat.zero_le _, ?_, fun h => (nomatch h)⟩
    rintro l hl
    obtain rfl := Option.some.inj hl
    exact ⟨rfl, by simp [State.init], rfl⟩
  received := by simp [State.init]
  sampleno := rfl
  queued := by simp [State.init]
  running := rfl

section Step

variable {s t : State α} (hN : 0 < c.m_sample_count) (hS : 0 < c.m_samples_per_transfer)
  (hfit : c.m_samples_per_transfer * c.transfersFor < 2 ^ 64)
include hN hS hfit

theorem LockInv.kickoffStep {a : Act α} (h : LockInv c s) (hclean : a.Clean c)
    (hstep : kickoffStep c s a = some t) : LockInv c t ∧ t.rank c < s.rank c := by
  obtain ⟨kickoff, callback, ins, outs, requested, insampleno, outsampleno, cancelled,
    queued, received, completions⟩ := s
  obtain ⟨hins, houts, hreceived, hsampleno, hqueued, hrunning⟩ := h
  simp only at hins houts hreceived hsampleno hqueued hrunning
  cases a with
  | kickoffIn accepted =>
      obtain rfl : accepted = true := hclean
      simp only [Streaming.kickoffStep] at hstep
      split at hstep
      · rename_i u todo
        obtain rfl := Option.some.inj hstep
        have hwants := hins.wants_iff hN hS
        by_cases hlt : ins.submitted < c.transfersFor
        · have hadd := hins.add_sampleno hfit hlt
          simp only [submit_in_transfer, hwants.mpr hlt, if_true, hadd]
          refine ⟨⟨hins.kick hlt, houts, ?_, hsampleno, hqueued, hrunning⟩, ?_⟩
          · simp only [Pipe.submit, List.length_cons, Nat.mul_succ]
            omega
          · simp only [State.rank, Pipe.submit, List.length_cons]
            omega
        · have hno : ¬c.wants requested := fun hw => hlt (hwants.mp hw)
          simp only [submit_in_transfer, hno, if_false]
          refine ⟨⟨hins.kickDone (Nat.le_of_not_lt hlt), houts, hreceived, hsampleno,
            hqueued, hrunning⟩, ?_⟩
          simp only [State.rank, List.length_cons, Bool.false_eq_true, if_false,
            List.length_range]
          omega
      · exact absurd hstep (by simp)
  | kickoffOut fill accepted =>
      obtain ⟨rfl, rfl⟩ := hclean
      simp only [Streaming.kickoffStep] at hstep
      split at hstep
      · rename_i u todo
        obtain rfl := Option.some.inj hstep
        have hwants := houts.wants_iff hN hS
        by_cases hlt : outs.submitted < c.transfersFor
        · have hadd := houts.add_sampleno hfit hlt
          simp only [submit_out_transfer, send_out_transfer, hwants.mpr hlt, if_true, hadd]
          refine ⟨⟨hins, houts.kick hlt, hreceived, hsampleno, hqueued, hrunning⟩, ?_⟩
          simp only [State.rank, Pipe.submit, List.length_cons]
          omega
        · have hno : ¬c.wants outsampleno := fun hw => hlt (hwants.mp hw)
          simp only [submit_out_transfer, hno, if_false]
          refine ⟨⟨hins, houts.kickDone (Nat.le_of_not_lt hlt), hreceived, hsampleno,
            hqueued, hrunning⟩, ?_⟩
          simp only [State.rank, List.length_cons, Bool.false_eq_true, if_false]
          omega
      · exact absurd hstep (by simp)
  | kickoffNext =>
      simp only [Streaming.kickoffStep] at hstep
      split at hstep
      · obtain rfl := Option.some.inj hstep
        refine ⟨⟨hins.kickNext, houts, hreceived, hsampleno, hqueued, hrunning⟩, ?_⟩
        simp only [State.rank, List.length_nil, List.length_range]
        omega
      · obtain rfl := Option.some.inj hstep
        refine ⟨⟨hins, houts.kickNext, hreceived, hsampleno, hqueued, hrunning⟩, ?_⟩
        simp only [State.rank, List.length_nil]
        omega
      · exact absurd hstep (by simp)
  | in_completion | out_completion | usb | cancel =>
      simp [Streaming.kickoffStep] at hstep

omit hS in
theorem LockInv.enterStep {a : Act α} (h : LockInv c s) (hclean : a.Clean c)
    (hstep : enterStep c s a = some t) : LockInv c t ∧ t.rank c < s.rank c := by
  obtain ⟨kickoff, callback, ins, outs, requested, insampleno, outsampleno, cancelled,
    queued, received, completions⟩ := s
  obtain ⟨hins, houts, hreceived, hsampleno, hqueued, hrunning⟩ := h
  simp only at hins houts hreceived hsampleno hqueued hrunning
  cases a with
  | in_completion u status data room =>
      obtain ⟨rfl, hlen, hroom⟩ := hclean
      simp only [Streaming.enterStep] at hstep
      split at hstep
      · rename_i hguard
        obtain ⟨rfl, rfl, hu⟩ := hguard
        simp only [if_true] at hstep
        obtain rfl := Option.some.inj hstep
        subst hsampleno hqueued
        have herase := List.length_erase_of_mem hu
        have hpos := List.length_pos_of_mem hu
        have hflight : c.m_samples_per_transfer * ins.in_flight.length =
            c.m_samples_per_transfer * (ins.in_flight.length - 1) +
              c.m_samples_per_transfer := by
          rw [← Nat.mul_succ]
          congr 1
          omega
        have hmax : c.m_samples_per_transfer * ins.submitted ≤
            c.m_samples_per_transfer * c.transfersFor :=
          Nat.mul_le_mul_left _ hins.submitted
        have hhandled := handle_in_transfer_of_room hN data room received.length hroom
          (by rw [hlen]; omega)
        refine ⟨⟨hins.retire hu, houts, ?_, ?_, ?_, hrunning⟩, ?_⟩
        · simp only [Pipe.retire, List.length_append, herase, hlen]
          omega
        · simp only [hhandled, List.length_append]
        · simp only [hhandled]
          rw [List.take_append]
        · simp only [State.rank, Pipe.retire, herase]
          omega
      · exact absurd hstep (by simp)
  | out_completion u status =>
      obtain rfl : status = .COMPLETED := hclean
      simp only [Streaming.enterStep] at hstep
      split at hstep
      · rename_i hguard
        obtain ⟨rfl, rfl, hu⟩ := hguard
        simp only [if_true] at hstep
        obtain rfl := Option.some.inj hstep
        have herase := List.length_erase_of_mem hu
        have hpos := List.length_pos_of_mem hu
        refine ⟨⟨hins, houts.retire hu, hreceived, hsampleno, hqueued, hrunning⟩, ?_⟩
        simp only [State.rank, Pipe.retire, herase]
        omega
      · exact absurd hstep (by simp)
  | kickoffIn | kickoffOut | kickoffNext | usb | cancel =>
      simp [Streaming.enterStep] at hstep

theorem LockInv.callbackStep (h : LockInv c s)
    (hstep : callbackStep c s .filled true = some t) :
    LockInv c t ∧ t.rank c < s.rank c := by
  obtain ⟨kickoff, callback, ins, outs, requested, insampleno, outsampleno, cancelled,
    queued, received, completions⟩ := s
  obtain ⟨hins, houts, hreceived, hsampleno, hqueued, hrunning⟩ := h
  simp only at hins houts hreceived hsampleno hqueued hrunning
  subst hrunning
  -- a callback runs only once the kickoff thread is through
  have hfinished : ∀ (o : Option (List ℕ)) (m no : ℕ) (q : Pipe),
      Lane c m q no o 1 → o = none := by
    intro o m no q hlane
    cases o with
    | none => rfl
    | some l => exact absurd (hlane.starting l rfl).2.2 (by decide)
  cases callback with
  | outside => simp [Streaming.callbackStep] at hstep
  | resubmitIn u =>
      simp only [Streaming.callbackStep, Bool.false_eq_true, if_false,
        Option.some.injEq] at hstep
      subst hstep
      have hnone := hfinished _ _ _ _ hins
      rw [hnone] at hins
      have hwants := hins.wants_iff hN hS
      by_cases hlt : ins.submitted < c.transfersFor
      · have hadd := hins.add_sampleno hfit hlt
        simp only [submit_in_transfer, hwants.mpr hlt, if_true, hadd]
        refine ⟨⟨?_, houts, ?_, hsampleno, hqueued, rfl⟩, ?_⟩
        · rw [hnone]
          exact hins.resubmit hlt
        · simp only [Pipe.submit, List.length_cons, Nat.mul_succ]
          omega
        · simp only [State.rank, Pipe.submit, List.length_cons]
          omega
      · have hno : ¬c.wants requested := fun hw => hlt (hwants.mp hw)
        simp only [submit_in_transfer, hno, if_false]
        refine ⟨⟨?_, houts, hreceived, hsampleno, hqueued, rfl⟩, ?_⟩
        · rw [hnone]
          exact hins.resubmitDone (Nat.le_of_not_lt hlt)
        · simp only [State.rank]
          omega
  | resubmitOut u =>
      simp only [Streaming.callbackStep, Bool.false_eq_true, if_false,
        Option.some.injEq] at hstep
      subst hstep
      have hnone := hfinished _ _ _ _ houts
      rw [hnone] at houts
      have hwants := houts.wants_iff hN hS
      by_cases hlt : outs.submitted < c.transfersFor
      · have hadd := houts.add_sampleno hfit hlt
        simp only [submit_out_transfer, send_out_transfer, hwants.mpr hlt, if_true, hadd]
        refine ⟨⟨hins, ?_, hreceived, hsampleno, hqueued, rfl⟩, ?_⟩
        · rw [hnone]
          exact houts.resubmit hlt
        · simp only [State.rank, Pipe.submit, List.length_cons]
          omega
      · have hno : ¬c.wants outsampleno := fun hw => hlt (hwants.mp hw)
        simp only [submit_out_transfer, hno, if_false]
        refine ⟨⟨hins, ?_, hreceived, hsampleno, hqueued, rfl⟩, ?_⟩
        · rw [hnone]
          exact houts.resubmitDone (Nat.le_of_not_lt hlt)
        · simp only [State.rank]
          omega
  | leaving =>
      simp only [Streaming.callbackStep] at hstep
      split at hstep <;> obtain rfl := Option.some.inj hstep <;>
        refine ⟨⟨hins, houts, hreceived, hsampleno, hqueued, rfl⟩, ?_⟩ <;>
        simp only [State.rank] <;>
        omega

/-- **The step lemma**: every step of a run without failures keeps the invariant and
leaves less to do. -/
theorem LockInv.step {a : Act α} (h : LockInv c s) (hclean : a.Clean c)
    (hstep : (machine α c).step s a = some t) : LockInv c t ∧ t.rank c < s.rank c := by
  cases a with
  | kickoffIn accepted =>
      exact LockInv.kickoffStep hN hS hfit (a := .kickoffIn accepted) h hclean hstep
  | kickoffNext =>
      exact LockInv.kickoffStep hN hS hfit (a := .kickoffNext) h hclean hstep
  | kickoffOut fill accepted =>
      simp only [machine] at hstep
      split at hstep
      · exact LockInv.kickoffStep hN hS hfit h hclean hstep
      · exact absurd hstep (by simp)
  | in_completion u status data room =>
      exact LockInv.enterStep hN hfit (a := .in_completion u status data room) h hclean
        hstep
  | out_completion u status =>
      exact LockInv.enterStep hN hfit (a := .out_completion u status) h hclean hstep
  | usb fill accepted =>
      obtain ⟨rfl, rfl⟩ := hclean
      simp only [machine, Fill.legal] at hstep
      exact LockInv.callbackStep hN hS hfit h hstep
  | cancel => exact absurd hclean (by simp [Act.Clean])

end Step

/-- **Progress**: a run without failures goes on until it is quiescent. -/
theorem exists_step_of_not_quiescent [Inhabited α] {s : State α} (hq : ¬s.Quiescent) :
    ∃ a t, a.Clean c ∧ (machine α c).step s a = some t := by
  cases hk : s.kickoff with
  | ins todo =>
      cases todo with
      | nil =>
          exact ⟨.kickoffNext, _, trivial,
            by simp only [machine, Streaming.kickoffStep, hk]; rfl⟩
      | cons u todo =>
          exact ⟨.kickoffIn true, _, rfl,
            by simp only [machine, Streaming.kickoffStep, hk]; rfl⟩
  | outs todo =>
      cases todo with
      | nil =>
          exact ⟨.kickoffNext, _, trivial,
            by simp only [machine, Streaming.kickoffStep, hk]; rfl⟩
      | cons u todo =>
          exact ⟨.kickoffOut .filled true, _, ⟨rfl, rfl⟩,
            by simp only [machine, Streaming.kickoffStep, Fill.legal, hk]; rfl⟩
  | finished =>
      cases hc : s.callback with
      | resubmitIn u | resubmitOut u =>
          exact ⟨.usb .filled true, _, ⟨rfl, rfl⟩,
            by simp only [machine, Streaming.callbackStep, Fill.legal, hc]; rfl⟩
      | leaving =>
          refine ⟨.usb .filled true, { s with
            completions := s.completions +
              if s.outs.num_active = 0 ∧ s.ins.num_active = 0 then 1 else 0
            callback := .outside }, ⟨rfl, rfl⟩, ?_⟩
          simp only [machine, Streaming.callbackStep, Fill.legal, hc]
          rw [if_pos trivial]
          split <;> rfl
      | outside =>
          by_cases hi : s.ins.in_flight = []
          · obtain ⟨u, hu⟩ : ∃ u, u ∈ s.outs.in_flight :=
              List.exists_mem_of_ne_nil _ fun ho => hq ⟨hk, hc, hi, ho⟩
            exact ⟨.out_completion u .COMPLETED, _, rfl, if_pos ⟨hk, hc, hu⟩⟩
          · obtain ⟨u, hu⟩ := List.exists_mem_of_ne_nil _ hi
            exact ⟨.in_completion u .COMPLETED
              (List.replicate c.m_samples_per_transfer default) c.m_samples_per_transfer, _,
              ⟨rfl, by simp, by simp⟩, if_pos ⟨hk, hc, hu⟩⟩

/-- What a quiescent state of a run without failures looks like. -/
structure Finished (c : Config) (s : State α) : Prop where
  in_submitted : s.ins.submitted = c.transfersFor
  out_submitted : s.outs.submitted = c.transfersFor
  requested : s.m_requested_sampleno = c.m_samples_per_transfer * c.transfersFor
  out : s.m_out_sampleno = c.m_samples_per_transfer * c.transfersFor
  received : s.received.length = c.m_samples_per_transfer * c.transfersFor
  queued : s.queued = s.received.take c.m_sample_count

/-- A direction at rest has made all its submissions. -/
theorem Lane.submitted_eq {n sampleno : ℕ} {p : Pipe} (h : Lane c n p sampleno none 0)
    (hn : 0 < n) (hflight : p.in_flight = []) : p.submitted = c.transfersFor := by
  obtain ⟨-, hfull⟩ := h.started rfl
  rw [hflight, List.length_nil] at hfull
  have hle := h.submitted
  by_contra hne
  have := hfull (by omega)
  omega

theorem LockInv.finished {s : State α} (h : LockInv c s) (hins : 0 < c.in_transfers)
    (houts : 0 < c.out_transfers) (hq : s.Quiescent) : Finished c s := by
  obtain ⟨hk, hc, hi, ho⟩ := hq
  have hlane := h.ins
  have hlane' := h.outs
  rw [hk, hc] at hlane hlane'
  have hin := hlane.submitted_eq hins hi
  have hout := hlane'.submitted_eq houts ho
  have hreceived := h.received
  rw [hi, List.length_nil, hin] at hreceived
  exact ⟨hin, hout, by rw [hlane.sampleno, hin], by rw [hlane'.sampleno, hout],
    by omega, h.queued⟩

/-- **Lockstep of the two directions.** Over every run of `N > 0` samples in transfers
of `S > 0` samples in which nothing fails and whose transfers fit a 64-bit count: at
every step `num_active` of each direction is the number of its transfers in flight and
at most the two it has; no run is longer than a fixed bound, and each goes on until
nothing is in flight; and there `⌈N / S⌉` transfers have been submitted in each
direction, both sample numbers are `S * ⌈N / S⌉`, and exactly the first `N` samples of
the IN stream are queued. -/
theorem lockstep [Inhabited α] {as : List (Act α)} {s : State α}
    (hN : 0 < c.m_sample_count) (hS : 0 < c.m_samples_per_transfer)
    (hins : c.in_transfers = 2) (houts : c.out_transfers = 2)
    (hfit : c.m_samples_per_transfer * c.transfersFor < 2 ^ 64)
    (hclean : ∀ a ∈ as, a.Clean c)
    (hrun : (machine α c).run (.init c) as = some s) :
    (s.ins.num_active = s.ins.in_flight.length ∧
        0 ≤ s.ins.num_active ∧ s.ins.num_active ≤ 2) ∧
      (s.outs.num_active = s.outs.in_flight.length ∧
        0 ≤ s.outs.num_active ∧ s.outs.num_active ≤ 2) ∧
      as.length ≤ 8 * c.transfersFor + 6 ∧
      (s.Quiescent ∨ ∃ a t, a.Clean c ∧ (machine α c).step s a = some t) ∧
      (s.Quiescent → Finished c s) := by
  have hmeets : (machine α c).Meets (fun _ a => a.Clean c) (.init c) as :=
    Machine.meets_of_forall hclean
  have hinv : LockInv c s := Machine.invariant_of_meets
    (fun _ _ _ hu ha ht => (LockInv.step hN hS hfit hu ha ht).1) LockInv.init hmeets hrun
  have hlength := Machine.length_le_of_rank
    (fun _ _ _ hu ha ht => LockInv.step hN hS hfit hu ha ht) LockInv.init hmeets hrun
  have hrank : (State.init c : State α).rank c = 8 * c.transfersFor + 6 := by
    simp only [State.rank, State.init, List.length_nil, List.length_range, hins, houts]
    omega
  have hin := hinv.ins.active_bounds
  have hout := hinv.outs.active_bounds
  rw [hins] at hin
  rw [houts] at hout
  refine ⟨⟨hinv.ins.active, hin⟩, ⟨hinv.outs.active, hout⟩, by omega, ?_,
    hinv.finished (by omega) (by omega)⟩
  by_cases hq : s.Quiescent
  · exact .inl hq
  · exact .inr (exists_step_of_not_quiescent hq)

/-- A run of 3 samples in transfers of 2 is in lockstep when its OUT transfers come
back before its IN transfers. -/
theorem lockstep_three : ∃ s : State ℕ,
    (machine ℕ ⟨3, 2, 2, 2, by decide, by decide⟩).run
        (.init ⟨3, 2, 2, 2, by decide, by decide⟩)
        [.kickoffIn true, .kickoffIn true, .kickoffNext, .kickoffOut .filled true,
          .kickoffOut .filled true, .kickoffNext, .out_completion 1 .COMPLETED,
          .usb .filled true, .usb .filled true] = some s ∧
      s.outs.num_active = s.outs.in_flight.length := by
  obtain ⟨s, hs⟩ := Option.isSome_iff_exists.mp
    (show ((machine ℕ ⟨3, 2, 2, 2, by decide, by decide⟩).run
        (.init ⟨3, 2, 2, 2, by decide, by decide⟩)
        [.kickoffIn true, .kickoffIn true, .kickoffNext, .kickoffOut .filled true,
          .kickoffOut .filled true, .kickoffNext, .out_completion 1 .COMPLETED,
          .usb .filled true, .usb .filled true]).isSome = true by decide)
  refine ⟨s, hs, (lockstep (by decide) (by decide) rfl rfl (by decide) ?_ hs).2.1.1⟩
  simp [Act.Clean]

/-! ### Where the counter wraps -/

theorem longest_count_lt : (2 ^ 64 - 1 : ℕ) < 2 ^ 64 := by
  decide

theorem longest_transfer_lt : (256 : ℕ) < 2 ^ 32 := by
  decide

/-- A run of `2 ^ 64 - 1` samples: its last transfer brings the count to `2 ^ 64`. -/
def Config.longest : Config where
  m_sample_count := 2 ^ 64 - 1
  m_samples_per_transfer := 256
  in_transfers := 2
  out_transfers := 2
  sample_count_lt := longest_count_lt
  samples_per_transfer_lt := longest_transfer_lt

/-- The requested count is a multiple of the transfer size below `2 ^ 64`, so the
longest run always wants another transfer. -/
theorem Config.longest_wants {n : ℕ} (hlt : n < 2 ^ 64) (hdvd : 256 ∣ n) :
    Config.longest.wants n := by
  refine .inr ?_
  simp only [Config.longest]
  omega

/-- The longest run between two callbacks, with its IN transfer `0` in flight. -/
structure Endless (s : State ℕ) : Prop where
  kickoff : s.kickoff = .finished
  callback : s.callback = .outside
  flying : 0 ∈ s.ins.in_flight
  running : s.cancelled = false
  lt : s.m_requested_sampleno < 2 ^ 64
  dvd : 256 ∣ s.m_requested_sampleno

/-- In the longest run a completed IN transfer is resubmitted, however many have been
submitted before. -/
theorem Endless.resubmits {s : State ℕ} (h : Endless s) :
    ∃ (as : List (Act ℕ)) (t : State ℕ), (∀ a ∈ as, a.Clean .longest) ∧
      (machine ℕ .longest).run s as = some t ∧ Endless t ∧
      t.ins.submitted = s.ins.submitted + 1 := by
  obtain ⟨kickoff, callback, ins, outs, requested, insampleno, outsampleno, cancelled,
    queued, received, completions⟩ := s
  obtain ⟨rfl, rfl, hflying, rfl, hlt, hdvd⟩ := h
  simp only at hflying hlt hdvd
  have hwants := Config.longest_wants hlt hdvd
  have hdvd' : 256 ∣ Counter.add 64 requested 256 := by
    simp only [Counter.add]
    omega
  let r := handle_in_transfer Config.longest.m_sample_count (List.replicate 256 7) 256
    insampleno
  let p := (ins.retire 0).submit 0
  refine ⟨[.in_completion 0 .COMPLETED (List.replicate 256 7) 256, .usb .filled true,
    .usb .filled true],
    ⟨.finished, .outside, p, outs, Counter.add 64 requested 256, r.1, outsampleno, false,
      queued ++ r.2, received ++ List.replicate 256 7,
      completions + if outs.num_active = 0 ∧ p.num_active = 0 then 1 else 0⟩,
    ?_, ?_, ⟨rfl, rfl, List.mem_cons_self, rfl, Counter.add_lt _ _ _, hdvd'⟩, rfl⟩
  · refine List.forall_mem_cons.mpr ⟨⟨rfl, List.length_replicate, ?_⟩, ?_⟩
    · exact Nat.le_of_eq List.length_replicate
    · exact fun a ha => by
        obtain rfl : a = .usb .filled true := List.eq_of_mem_replicate (n := 2) ha
        exact ⟨rfl, rfl⟩
  · rw [Machine.run_cons_eq_some_iff]
    refine ⟨⟨.finished, .resubmitIn 0, ins.retire 0, outs, requested, r.1, outsampleno,
      false, queued ++ r.2, received ++ List.replicate 256 7, completions⟩, ?_, ?_⟩
    · simp only [machine, enterStep]
      rw [if_pos ⟨trivial, trivial, hflying⟩]
      rfl
    rw [Machine.run_cons_eq_some_iff]
    refine ⟨⟨.finished, .leaving, p, outs, Counter.add 64 requested 256, r.1, outsampleno,
      false, queued ++ r.2, received ++ List.replicate 256 7, completions⟩, ?_, ?_⟩
    · simp only [machine, callbackStep, Fill.legal, submit_in_transfer, if_pos hwants]
      rfl
    rw [Machine.run_singleton]
    simp only [machine, callbackStep, Fill.legal]
    rw [if_pos trivial]
    split <;> rfl

/-- **The longest run never ends.** In a run of `2 ^ 64 - 1` samples in transfers of 256
nothing fails, yet more IN transfers are submitted than hold the requested samples:
`m_requested_sampleno` wraps to zero instead of reaching the requested count. -/
theorem submitted_unbounded :
    Config.longest.transfersFor = 2 ^ 56 ∧
      ∃ (as : List (Act ℕ)) (s : State ℕ), (∀ a ∈ as, a.Clean .longest) ∧
        (machine ℕ .longest).run (.init .longest) as = some s ∧
        Config.longest.transfersFor < s.ins.submitted := by
  have hmany : ∀ k, ∃ (as : List (Act ℕ)) (s : State ℕ), (∀ a ∈ as, a.Clean .longest) ∧
      (machine ℕ .longest).run (.init .longest) as = some s ∧ Endless s ∧
      k ≤ s.ins.submitted := by
    intro k
    induction k with
    | zero =>
        refine ⟨[.kickoffIn true, .kickoffIn true, .kickoffNext, .kickoffOut .filled true,
          .kickoffOut .filled true, .kickoffNext], _, ?_, rfl,
          ⟨rfl, rfl, ?_, rfl, ?_, ?_⟩, Nat.zero_le _⟩
        · simp [Act.Clean]
        · decide
        · decide
        · decide
    | succ k ih =>
        obtain ⟨as, s, hclean, hrun, hs, hk⟩ := ih
        obtain ⟨bs, t, hclean', hrun', ht, hsub⟩ := hs.resubmits
        refine ⟨as ++ bs, t, ?_, ?_, ht, by omega⟩
        · intro a ha
          exact (List.mem_append.mp ha).elim (hclean a) (hclean' a)
        · exact (Machine.run_append_eq_some_iff _).mpr ⟨s, hrun, hrun'⟩
  have hceil : Config.longest.transfersFor = 2 ^ 56 := by decide
  obtain ⟨as, s, hclean, hrun, -, hk⟩ := hmany (2 ^ 56 + 1)
  exact ⟨hceil, as, s, hclean, hrun, by omega⟩

end Libsmu.Streaming
