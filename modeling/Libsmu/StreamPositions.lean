import Libsmu.Completion
import Libsmu.Lockstep
import Mathlib.Data.List.Range

/-!
# Positions in the IN Stream

A noncontinuous run of `N` samples wants the first `N` samples of the IN stream.
`handle_in_transfer` finds the end by `m_in_sampleno`, which it increments for every sample
it looks at. A push into the full queue throws, and the rest of the transfer is not looked
at: from then on `m_in_sampleno` is behind the stream, and samples past position `N` are
pushed as long as it has not reached `N`.

The samples are numbered here by their position in the stream, counted over all bytes
received in the run.

## Main results

* `handle_in_transfer_snd`: which samples of a transfer are pushed.
* `delivered_iff`: the pushed positions are at most `N` exactly when no transfer that goes
  past `N` finds samples skipped before it and room for a sample past `N`; they increase
  in any case.
* `delivered_past_the_end`: a run of 300 samples that pushes position 355.
-/

namespace Libsmu.Streaming

section Handle

variable {α : Type*} {N : ℕ}

/-- Samples are pushed in the order of the transfer. -/
theorem handle_in_transfer_sublist (xs : List α) (room n : ℕ) :
    (handle_in_transfer N xs room n).2.Sublist xs := by
  induction xs generalizing room n with
  | nil => exact List.Sublist.refl []
  | cons x xs ih =>
      simp only [handle_in_transfer]
      split
      · cases room with
        | zero => exact List.nil_sublist _
        | succ room => exact (ih _ _).cons_cons x
      · exact (ih _ _).cons x

/-- `m_in_sampleno` advances by the length of the transfer at most. -/
theorem handle_in_transfer_fst_le (xs : List α) (room n : ℕ) :
    (handle_in_transfer N xs room n).1 ≤ n + xs.length := by
  induction xs generalizing room n with
  | nil => exact Nat.le_refl _
  | cons x xs ih =>
      have hadd := Counter.add_le 64 n 1
      simp only [handle_in_transfer, List.length_cons]
      split
      · cases room with
        | zero =>
            simp only
            omega
        | succ room =>
            have := ih room (Counter.add 64 n 1)
            simp only
            omega
      · have := ih room (Counter.add 64 n 1)
        omega

/-- Into a full queue nothing is pushed. -/
theorem handle_in_transfer_full (xs : List α) (n : ℕ) : (handle_in_transfer N xs 0 n).2 = [] := by
  induction xs generalizing n with
  | nil => rfl
  | cons x xs ih =>
      simp only [handle_in_transfer]
      split
      · rfl
      · exact ih _

/-- **Which samples are pushed**: as many as the queue takes and the run still wants, as
long as `m_in_sampleno` does not wrap before. -/
theorem handle_in_transfer_snd (hN : 0 < N) (hN' : N < 2 ^ 64) (xs : List α) (room n : ℕ)
    (hfit : n + xs.length < 2 ^ 64 ∨ room ≤ N - n) :
    (handle_in_transfer N xs room n).2 = xs.take (min room (N - n)) := by
  induction xs generalizing room n with
  | nil => rw [List.take_nil]; rfl
  | cons x xs ih =>
      cases room with
      | zero => rw [handle_in_transfer_full, Nat.zero_min, List.take_zero]
      | succ room =>
          rw [List.length_cons] at hfit
          have hadd : Counter.add 64 n 1 = n + 1 := Counter.add_of_lt (by omega)
          simp only [handle_in_transfer, hadd]
          by_cases hw : n + 1 ≤ N
          · have hmin : min (room + 1) (N - n) = min room (N - (n + 1)) + 1 := by omega
            rw [if_pos (.inr hw), hmin, List.take_succ_cons, ih room (n + 1) (by omega)]
          · have hzero : min (room + 1) (N - n) = 0 := by omega
            have hzero' : min (room + 1) (N - (n + 1)) = 0 := by omega
            rw [if_neg (by omega), ih (room + 1) (n + 1) (by omega), hzero, hzero']
            rfl

end Handle

/-! ### What a step does to the input -/

section Step

variable {α : Type*} {c : Config} {s t : State α}

/-- A submission of an IN transfer, as far as the input is concerned. -/
theorem submit_in_transfer_input (s : State α) (u : ℕ) (accepted : Bool) :
    (submit_in_transfer c s u accepted).1.m_in_sampleno = s.m_in_sampleno ∧
      (submit_in_transfer c s u accepted).1.queued = s.queued ∧
      (submit_in_transfer c s u accepted).1.received = s.received := by
  rw [submit_in_transfer_frame]
  exact ⟨rfl, rfl, rfl⟩

/-- The transfers that a submission adds: none, or one that the run wants. -/
theorem submit_in_transfer_requests (s : State α) (u : ℕ) (accepted : Bool) :
    ((submit_in_transfer c s u accepted).1.ins = s.ins ∧
        (submit_in_transfer c s u accepted).1.m_requested_sampleno = s.m_requested_sampleno) ∨
      c.wants s.m_requested_sampleno ∧
        (submit_in_transfer c s u accepted).1.ins = s.ins.submit u ∧
        (submit_in_transfer c s u accepted).1.m_requested_sampleno =
          Counter.add 64 s.m_requested_sampleno c.m_samples_per_transfer := by
  rw [submit_in_transfer]
  split
  · rename_i hw
    cases accepted with
    | true => exact .inr ⟨hw, rfl, rfl⟩
    | false => exact .inl ⟨rfl, rfl⟩
  · exact .inl ⟨rfl, rfl⟩

theorem submit_out_transfer_input (s : State α) (u : ℕ) (fill : Fill) (accepted : Bool) :
    (submit_out_transfer c s u fill accepted).1.m_in_sampleno = s.m_in_sampleno ∧
      (submit_out_transfer c s u fill accepted).1.queued = s.queued ∧
      (submit_out_transfer c s u fill accepted).1.received = s.received ∧
      (submit_out_transfer c s u fill accepted).1.ins = s.ins ∧
      (submit_out_transfer c s u fill accepted).1.m_requested_sampleno =
        s.m_requested_sampleno := by
  rw [submit_out_transfer_frame]
  exact ⟨rfl, rfl, rfl, rfl, rfl⟩

/-- The input and the requests of `s` go over to `t` without a transfer of samples: at most
one transfer is submitted, which the run wants, or comes back. -/
structure Requests (c : Config) (s t : State α) : Prop where
  sampleno : t.m_in_sampleno = s.m_in_sampleno
  queued : t.queued = s.queued
  received : t.received = s.received
  requests : (t.ins = s.ins ∧ t.m_requested_sampleno = s.m_requested_sampleno) ∨
    (∃ u ∈ s.ins.in_flight, t.ins = s.ins.retire u ∧
      t.m_requested_sampleno = s.m_requested_sampleno) ∨
    ∃ u, c.wants s.m_requested_sampleno ∧ t.ins = s.ins.submit u ∧
      t.m_requested_sampleno =
        Counter.add 64 s.m_requested_sampleno c.m_samples_per_transfer

theorem Requests.of_submit_in (s : State α) (u : ℕ) (accepted : Bool) (k : Kickoff)
    (cb : Callback) :
    Requests c s { (submit_in_transfer c s u accepted).1 with kickoff := k, callback := cb } := by
  obtain ⟨hno, hqueued, hreceived⟩ := submit_in_transfer_input (c := c) s u accepted
  refine ⟨hno, hqueued, hreceived, ?_⟩
  rcases submit_in_transfer_requests (c := c) s u accepted with hsame | hmore
  · exact .inl hsame
  · exact .inr (.inr ⟨u, hmore⟩)

theorem Requests.of_submit_out (s : State α) (u : ℕ) (fill : Fill) (accepted : Bool)
    (k : Kickoff) (cb : Callback) :
    Requests c s
      { (submit_out_transfer c s u fill accepted).1 with kickoff := k, callback := cb } := by
  obtain ⟨hno, hqueued, hreceived, hins, hreq⟩ :=
    submit_out_transfer_input (c := c) s u fill accepted
  exact ⟨hno, hqueued, hreceived, .inl ⟨hins, hreq⟩⟩

theorem kickoffStep_requests {a : Act α} (hstep : kickoffStep c s a = some t) :
    Requests c s t := by
  cases a with
  | kickoffIn accepted =>
      simp only [kickoffStep] at hstep
      split at hstep
      · rename_i u todo hk
        obtain rfl := Option.some.inj hstep
        have h := Requests.of_submit_in (c := c) s u accepted
          (if (submit_in_transfer c s u accepted).2 then .ins todo
            else .outs (List.range c.out_transfers))
          (submit_in_transfer c s u accepted).1.callback
        exact h
      · cases hstep
  | kickoffOut fill accepted =>
      simp only [kickoffStep] at hstep
      split at hstep
      · rename_i u todo hk
        obtain rfl := Option.some.inj hstep
        have h := Requests.of_submit_out (c := c) s u fill accepted
          (if (submit_out_transfer c s u fill accepted).2 then .outs todo else .finished)
          (submit_out_transfer c s u fill accepted).1.callback
        exact h
      · cases hstep
  | kickoffNext =>
      simp only [kickoffStep] at hstep
      split at hstep
      · obtain rfl := Option.some.inj hstep
        exact ⟨rfl, rfl, rfl, .inl ⟨rfl, rfl⟩⟩
      · obtain rfl := Option.some.inj hstep
        exact ⟨rfl, rfl, rfl, .inl ⟨rfl, rfl⟩⟩
      · cases hstep
  | in_completion | out_completion | usb | cancel => simp [kickoffStep] at hstep

theorem callbackStep_requests {fill : Fill} {accepted : Bool}
    (hstep : callbackStep c s fill accepted = some t) : Requests c s t := by
  simp only [callbackStep] at hstep
  split at hstep
  · cases hstep
  · rename_i u hc
    obtain rfl := Option.some.inj hstep
    split
    · exact ⟨rfl, rfl, rfl, .inl ⟨rfl, rfl⟩⟩
    · exact Requests.of_submit_in (c := c) s u accepted
        (submit_in_transfer c s u accepted).1.kickoff .leaving
  · rename_i u hc
    obtain rfl := Option.some.inj hstep
    split
    · exact ⟨rfl, rfl, rfl, .inl ⟨rfl, rfl⟩⟩
    · exact Requests.of_submit_out (c := c) s u fill accepted
        (submit_out_transfer c s u fill accepted).1.kickoff .leaving
  · split at hstep
    · obtain rfl := Option.some.inj hstep
      exact ⟨rfl, rfl, rfl, .inl ⟨rfl, rfl⟩⟩
    · obtain rfl := Option.some.inj hstep
      exact ⟨rfl, rfl, rfl, .inl ⟨rfl, rfl⟩⟩

/-- **What a step does to the input**: an IN transfer in flight completes and is handled,
or no sample moves. -/
theorem step_input {a : Act α} (hstep : (machine α c).step s a = some t) :
    (∃ u data room, a = .in_completion u .COMPLETED data room ∧ u ∈ s.ins.in_flight ∧
      t.ins = s.ins.retire u ∧ t.m_requested_sampleno = s.m_requested_sampleno ∧
      t.m_in_sampleno = (handle_in_transfer c.m_sample_count data room s.m_in_sampleno).1 ∧
      t.queued =
        s.queued ++ (handle_in_transfer c.m_sample_count data room s.m_in_sampleno).2 ∧
      t.received = s.received ++ data) ∨
      (∀ u data room, a ≠ .in_completion u .COMPLETED data room) ∧ Requests c s t := by
  cases a with
  | kickoffIn accepted =>
      have hkick : kickoffStep c s (.kickoffIn accepted) = some t := hstep
      exact .inr ⟨by simp, kickoffStep_requests hkick⟩
  | kickoffOut fill accepted =>
      simp only [machine] at hstep
      split at hstep
      · exact .inr ⟨by simp, kickoffStep_requests hstep⟩
      · cases hstep
  | kickoffNext =>
      have hkick : kickoffStep c s .kickoffNext = some t := hstep
      exact .inr ⟨by simp, kickoffStep_requests hkick⟩
  | usb fill accepted =>
      simp only [machine] at hstep
      split at hstep
      · exact .inr ⟨by simp, callbackStep_requests hstep⟩
      · cases hstep
  | cancel =>
      obtain rfl := Option.some.inj hstep
      exact .inr ⟨by simp, rfl, rfl, rfl, .inl ⟨rfl, rfl⟩⟩
  | out_completion u status =>
      simp only [machine, enterStep] at hstep
      split at hstep
      · refine .inr ⟨by simp, ?_⟩
        split at hstep
        · obtain rfl := Option.some.inj hstep
          exact ⟨rfl, rfl, rfl, .inl ⟨rfl, rfl⟩⟩
        · split at hstep <;> obtain rfl := Option.some.inj hstep <;>
            exact ⟨rfl, rfl, rfl, .inl ⟨rfl, rfl⟩⟩
      · cases hstep
  | in_completion u status data room =>
      simp only [machine, enterStep] at hstep
      split at hstep
      · rename_i henter
        split at hstep
        · rename_i hstatus
          subst hstatus
          obtain rfl := Option.some.inj hstep
          exact .inl ⟨u, data, room, rfl, henter.2.2, rfl, rfl, rfl, rfl, rfl⟩
        · rename_i hstatus
          refine .inr ⟨?_, ?_⟩
          · rintro u' data' room' heq
            cases heq
            exact hstatus rfl
          · split at hstep <;> obtain rfl := Option.some.inj hstep <;>
              exact ⟨rfl, rfl, rfl, .inr (.inl ⟨u, henter.2.2, rfl, rfl⟩)⟩
      · cases hstep

end Step

/-! ### Numbered samples -/

variable {c : Config} {s t : State ℕ}

/-- The data of a completed IN transfer are the next positions of the stream. -/
def Numbered (c : Config) (s : State ℕ) : Act ℕ → Prop
  | .in_completion _ .COMPLETED data _ =>
      data = List.range' (s.received.length + 1) c.m_samples_per_transfer
  | _ => True

instance (c : Config) (s : State ℕ) : (a : Act ℕ) → Decidable (Numbered c s a)
  | .in_completion _ .COMPLETED _ _ => inferInstanceAs (Decidable (_ = _))
  | .in_completion _ .ERROR _ _ | .in_completion _ .TIMED_OUT _ _
  | .in_completion _ .CANCELLED _ _ | .in_completion _ .STALL _ _
  | .in_completion _ .NO_DEVICE _ _ | .in_completion _ .OVERFLOW _ _
  | .out_completion _ _ | .kickoffIn _ | .kickoffOut _ _ | .kickoffNext | .usb _ _ | .cancel =>
      isTrue trivial

/-- The device with its IN stream numbered. -/
def numbered (c : Config) : Machine (State ℕ) (Act ℕ) where
  step s a := if Numbered c s a then (machine ℕ c).step s a else none

/-- **Nothing beyond the requested count is delivered**: the positions pushed are at most
`N`, and they increase. -/
def Delivered (c : Config) (s : State ℕ) : Prop :=
  (∀ q ∈ s.queued, q ≤ c.m_sample_count) ∧ s.queued.Pairwise (· < ·)

instance (c : Config) (s : State ℕ) : Decidable (Delivered c s) :=
  inferInstanceAs (Decidable (_ ∧ _))

/-- A transfer that completes ends at position `N` or before, or no sample before it was
skipped (nor do its positions pass 64 bits), or the queue has no room for a sample past
position `N`. -/
def Unskipped (c : Config) (s : State ℕ) : Act ℕ → Prop
  | .in_completion _ .COMPLETED data room =>
      s.received.length + data.length ≤ c.m_sample_count ∨
        (s.m_in_sampleno = s.received.length ∧ s.received.length + data.length < 2 ^ 64) ∨
          room ≤ c.m_sample_count - s.received.length
  | _ => True

instance (c : Config) (s : State ℕ) : (a : Act ℕ) → Decidable (Unskipped c s a)
  | .in_completion _ .COMPLETED _ _ => inferInstanceAs (Decidable (_ ∨ _ ∨ _))
  | .in_completion _ .ERROR _ _ | .in_completion _ .TIMED_OUT _ _
  | .in_completion _ .CANCELLED _ _ | .in_completion _ .STALL _ _
  | .in_completion _ .NO_DEVICE _ _ | .in_completion _ .OVERFLOW _ _
  | .out_completion _ _ | .kickoffIn _ | .kickoffOut _ _ | .kickoffNext | .usb _ _ | .cancel =>
      isTrue trivial

/-- What the record of positions is like in every run. -/
structure Ordered (s : State ℕ) : Prop where
  sampleno : s.m_in_sampleno ≤ s.received.length
  bound : ∀ q ∈ s.queued, q ≤ s.received.length
  increasing : s.queued.Pairwise (· < ·)

theorem Ordered.step {a : Act ℕ} (h : Ordered s) (hstep : (numbered c).step s a = some t) :
    Ordered t := by
  simp only [numbered] at hstep
  split at hstep
  · rename_i hnumbered
    rcases step_input hstep with ⟨u, data, room, rfl, -, -, -, hno, hqueued, hreceived⟩ | ⟨-, hreq⟩
    · have hdata : data = List.range' (s.received.length + 1) c.m_samples_per_transfer := hnumbered
      have hlen : t.received.length = s.received.length + data.length := by
        rw [hreceived, List.length_append]
      have hsub := handle_in_transfer_sublist (N := c.m_sample_count) data room s.m_in_sampleno
      have hmem : ∀ q ∈ (handle_in_transfer c.m_sample_count data room s.m_in_sampleno).2,
          s.received.length < q ∧ q ≤ s.received.length + data.length := by
        intro q hq
        have hq' := hsub.subset hq
        rw [hdata, List.mem_range'_1] at hq'
        rw [hdata, List.length_range']
        omega
      refine ⟨?_, ?_, ?_⟩
      · have := handle_in_transfer_fst_le (N := c.m_sample_count) data room s.m_in_sampleno
        have := h.sampleno
        omega
      · intro q hq
        rw [hqueued, List.mem_append] at hq
        rcases hq with hold | hnew
        · have := h.bound q hold
          omega
        · have := hmem q hnew
          omega
      · rw [hqueued, List.pairwise_append]
        refine ⟨h.increasing, ?_, ?_⟩
        · refine List.Pairwise.sublist hsub ?_
          rw [hdata]
          exact List.pairwise_lt_range' _
        · intro q hq q' hq'
          exact Nat.lt_of_le_of_lt (h.bound q hq) (hmem q' hq').1
    · exact ⟨by rw [hreq.sampleno, hreq.received]; exact h.sampleno,
        by rw [hreq.queued, hreq.received]; exact h.bound,
        by rw [hreq.queued]; exact h.increasing⟩
  · cases hstep

/-- The transfers of a run whose length rounded up to whole transfers fits the counters. -/
structure Requested (c : Config) (s : State ℕ) : Prop where
  sampleno : s.m_requested_sampleno = c.m_samples_per_transfer * s.ins.submitted
  submitted : s.ins.submitted ≤ c.transfersFor
  received : s.received.length + c.m_samples_per_transfer * s.ins.in_flight.length ≤
    c.m_samples_per_transfer * s.ins.submitted

theorem Requested.step {a : Act ℕ} (hN : 0 < c.m_sample_count)
    (hS : 0 < c.m_samples_per_transfer)
    (hfit : c.m_samples_per_transfer * c.transfersFor < 2 ^ 64) (h : Requested c s)
    (hstep : (numbered c).step s a = some t) : Requested c t := by
  obtain ⟨hno, hsub, hrec⟩ := h
  have hretire : ∀ u ∈ s.ins.in_flight, ∃ n, s.ins.in_flight.length = n + 1 ∧
      (s.ins.retire u).in_flight.length = n := by
    intro u hu
    have hpos := List.length_pos_of_mem hu
    refine ⟨s.ins.in_flight.length - 1, by omega, ?_⟩
    rw [Pipe.retire, List.length_erase_of_mem hu]
  simp only [numbered] at hstep
  split at hstep
  · rename_i hnumbered
    rcases step_input hstep with ⟨u, data, room, rfl, hu, hins, hreq, -, -, hreceived⟩ | ⟨-, hreq⟩
    · have hdata : data = List.range' (s.received.length + 1) c.m_samples_per_transfer := hnumbered
      obtain ⟨n, hn, hn'⟩ := hretire u hu
      refine ⟨by rw [hreq, hins, hno]; rfl, by rw [hins]; exact hsub, ?_⟩
      rw [hn, Nat.mul_succ] at hrec
      rw [hins, hn', hreceived, List.length_append, hdata, List.length_range']
      simp only [Pipe.retire]
      omega
    · rcases hreq.requests with ⟨hins, hreq'⟩ | ⟨u, hu, hins, hreq'⟩ | ⟨u, hw, hins, hreq'⟩
      · exact ⟨by rw [hreq', hins, hno], by rw [hins]; exact hsub,
          by rw [hins, hreq.received]; exact hrec⟩
      · obtain ⟨n, hn, hn'⟩ := hretire u hu
        refine ⟨by rw [hreq', hins, hno]; rfl, by rw [hins]; exact hsub, ?_⟩
        rw [hn, Nat.mul_succ] at hrec
        rw [hins, hn', hreq.received]
        simp only [Pipe.retire]
        omega
      · have hlt : s.m_requested_sampleno < c.m_sample_count := hw.resolve_left (by omega)
        rw [hno, ← c.lt_transfersFor_iff hS] at hlt
        have hle := Nat.mul_le_mul_left c.m_samples_per_transfer (Nat.succ_le_of_lt hlt)
        rw [Nat.mul_succ] at hle
        refine ⟨?_, ?_, ?_⟩
        · rw [hreq', hno, Counter.add_of_lt (by omega), hins]
          exact (Nat.mul_succ _ _).symm
        · rw [hins]
          exact hlt
        · rw [hins, hreq.received]
          simp only [Pipe.submit, List.length_cons, Nat.mul_succ]
          omega
  · cases hstep

/-! ### Which positions are pushed -/

/-- The first `k` of `n` positions after `b`. -/
theorem mem_take_range'_iff {b n k q : ℕ} :
    q ∈ (List.range' (b + 1) n).take k ↔ b < q ∧ q ≤ b + k ∧ q ≤ b + n := by
  rcases Nat.le_total n k with hle | hge
  · rw [List.take_range'_of_length_le hle, List.mem_range'_1]
    omega
  · rw [List.take_range'_of_length_ge hge, List.mem_range'_1]
    omega

/-- A transfer that meets the condition pushes no position past `N`. -/
theorem pushed_le {u room : ℕ} {data : List ℕ} (hN : 0 < c.m_sample_count) (h : Ordered s)
    (hdata : data = List.range' (s.received.length + 1) c.m_samples_per_transfer)
    (hok : Unskipped c s (.in_completion u .COMPLETED data room)) :
    ∀ q ∈ (handle_in_transfer c.m_sample_count data room s.m_in_sampleno).2,
      q ≤ c.m_sample_count := by
  intro q hq
  have hle := h.sampleno
  have hq' := (handle_in_transfer_sublist data room s.m_in_sampleno).subset hq
  rw [hdata, List.mem_range'_1] at hq'
  have hlen : data.length = c.m_samples_per_transfer := by rw [hdata, List.length_range']
  rcases hok with hends | ⟨hcounted, hfit⟩ | hroom
  · omega
  · rw [handle_in_transfer_snd hN c.sample_count_lt _ _ _ (.inl (by omega)), hdata] at hq
    have := mem_take_range'_iff.mp hq
    omega
  · rw [handle_in_transfer_snd hN c.sample_count_lt _ _ _ (.inr (by omega)), hdata] at hq
    have := mem_take_range'_iff.mp hq
    omega

/-- A transfer that does not meet it pushes the position after `N`. -/
theorem pushed_past {u room : ℕ} {data : List ℕ} (hN : 0 < c.m_sample_count)
    (hfit : c.m_samples_per_transfer * c.transfersFor < 2 ^ 64)
    (hS : 0 < c.m_samples_per_transfer) (h : Ordered s) (hreq : Requested c s)
    (hu : u ∈ s.ins.in_flight)
    (hdata : data = List.range' (s.received.length + 1) c.m_samples_per_transfer)
    (hnot : ¬Unskipped c s (.in_completion u .COMPLETED data room)) :
    c.m_sample_count + 1 ∈
      (handle_in_transfer c.m_sample_count data room s.m_in_sampleno).2 := by
  have hle := h.sampleno
  have hlen : data.length = c.m_samples_per_transfer := by rw [hdata, List.length_range']
  have hflight : c.m_samples_per_transfer ≤
      c.m_samples_per_transfer * s.ins.in_flight.length :=
    Nat.le_mul_of_pos_right _ (List.length_pos_of_mem hu)
  have hsub := Nat.mul_le_mul_left c.m_samples_per_transfer hreq.submitted
  have hlast : c.m_samples_per_transfer * c.transfersFor <
      c.m_sample_count + c.m_samples_per_transfer := by
    obtain ⟨k, hk⟩ : ∃ k, c.transfersFor = k + 1 := by
      have hpos := (c.lt_transfersFor_iff hS (k := 0)).mpr (by omega)
      exact ⟨c.transfersFor - 1, by omega⟩
    have hlt := (c.lt_transfersFor_iff hS).mp (show k < c.transfersFor by omega)
    rw [hk, Nat.mul_succ]
    omega
  have hrec := hreq.received
  simp only [Unskipped, not_or] at hnot
  obtain ⟨hpast, hskipped, hroom⟩ := hnot
  rw [handle_in_transfer_snd hN c.sample_count_lt _ _ _ (.inl (by omega)), hdata,
    mem_take_range'_iff]
  omega

theorem Requested.init (c : Config) : Requested c (State.init c) :=
  ⟨rfl, Nat.zero_le _, Nat.zero_le _⟩

theorem Ordered.init (c : Config) : Ordered (State.init c) :=
  ⟨Nat.zero_le _, by simp [State.init], List.Pairwise.nil⟩

/-- **Delivery up to the requested count.** In a run of `N > 0` samples whose transfers all
meet the condition the positions pushed are at most `N` and increase. When `N` rounded up to
whole transfers fits 64 bits, there is no other run with that property. -/
theorem delivered_iff (hN : 0 < c.m_sample_count) {as : List (Act ℕ)}
    (hrun : (numbered c).run (.init c) as = some s) :
    ((numbered c).Meets (Unskipped c) (.init c) as → Delivered c s) ∧
      (0 < c.m_samples_per_transfer → c.m_samples_per_transfer * c.transfersFor < 2 ^ 64 →
        Delivered c s → (numbered c).Meets (Unskipped c) (.init c) as) := by
  have hordered : ∀ {as s}, (numbered c).run (.init c) as = some s → Ordered s := fun hrun =>
    Machine.invariant (fun _ _ _ => Ordered.step) (Ordered.init c) hrun
  suffices h : ((numbered c).Meets (Unskipped c) (.init c) as →
        ∀ q ∈ s.queued, q ≤ c.m_sample_count) ∧
      (0 < c.m_samples_per_transfer → c.m_samples_per_transfer * c.transfersFor < 2 ^ 64 →
        (∀ q ∈ s.queued, q ≤ c.m_sample_count) →
          (numbered c).Meets (Unskipped c) (.init c) as) from
    ⟨fun hmeets => ⟨h.1 hmeets, (hordered hrun).increasing⟩,
      fun hS hfit hdelivered => h.2 hS hfit hdelivered.1⟩
  refine Machine.invariant_of_history
    (fun as s => ((numbered c).Meets (Unskipped c) (.init c) as →
        ∀ q ∈ s.queued, q ≤ c.m_sample_count) ∧
      (0 < c.m_samples_per_transfer → c.m_samples_per_transfer * c.transfersFor < 2 ^ 64 →
        (∀ q ∈ s.queued, q ≤ c.m_sample_count) →
          (numbered c).Meets (Unskipped c) (.init c) as))
    ⟨fun _ q hq => absurd hq List.not_mem_nil, fun _ _ _ => trivial⟩ ?_ hrun
  intro as s a t hrun ih hstep
  simp only [Machine.meets_concat_iff, hrun, Option.some.injEq, forall_eq']
  have hstep' := hstep
  simp only [numbered] at hstep'
  split at hstep'
  · rename_i hnumbered
    rcases step_input hstep' with ⟨u, data, room, rfl, hu, -, -, -, hqueued, -⟩ | ⟨hother, hreq⟩
    · constructor
      · rintro ⟨hmeets, hok⟩ q hq
        rw [hqueued, List.mem_append] at hq
        rcases hq with hold | hnew
        · exact ih.1 hmeets q hold
        · exact pushed_le hN (hordered hrun) hnumbered hok q hnew
      · intro hS hfit hle
        rw [hqueued] at hle
        refine ⟨ih.2 hS hfit fun q hq => hle q (List.mem_append_left _ hq), ?_⟩
        by_contra hnot
        have hrequested : Requested c s :=
          Machine.invariant (fun _ _ _ h => h.step hN hS hfit) (Requested.init c) hrun
        have hpast := pushed_past hN hfit hS (hordered hrun) hrequested hu hnumbered hnot
        exact absurd (hle _ (List.mem_append_right _ hpast)) (by omega)
    · have hok : Unskipped c s a := by
        cases a with
        | in_completion u status data room =>
            cases status with
            | COMPLETED => exact absurd rfl (hother u data room)
            | ERROR | TIMED_OUT | CANCELLED | STALL | NO_DEVICE | OVERFLOW => trivial
        | out_completion | kickoffIn | kickoffOut | kickoffNext | usb | cancel => trivial
      rw [hreq.queued]
      exact ⟨fun h => ih.1 h.1, fun hS hfit hle => ⟨ih.2 hS hfit hle, hok⟩⟩
  · cases hstep'

/-- The kickoff of a run of 300 samples in transfers of 256: two IN transfers and no OUT
transfer. -/
def shortKickoff : List (Act ℕ) :=
  [.kickoffIn true, .kickoffIn true, .kickoffNext, .kickoffOut (.threw 0) true]

/-- A run of 300 samples with room for all of them. -/
theorem delivered_iff_short : ∃ s : State ℕ,
    (numbered .short).run (.init .short) (shortKickoff ++
      [.in_completion 0 .COMPLETED (List.range' 1 256) 1000, .usb .filled true,
        .usb .filled true, .in_completion 1 .COMPLETED (List.range' 257 256) 1000]) = some s ∧
      Delivered .short s := by
  obtain ⟨s, hs⟩ := Option.isSome_iff_exists.mp
    (show ((numbered .short).run (.init .short) (shortKickoff ++
      [.in_completion 0 .COMPLETED (List.range' 1 256) 1000, .usb .filled true,
        .usb .filled true, .in_completion 1 .COMPLETED (List.range' 257 256) 1000])).isSome =
        true by decide +kernel)
  exact ⟨s, hs, (delivered_iff (by decide) hs).1 (by decide +kernel)⟩

/-- **Positions past the end are delivered.** In a run of 300 samples the queue is full
after the first 200, and is read before the second transfer comes: 99 samples of that are
pushed, up to position 355. -/
theorem delivered_past_the_end : ∃ s : State ℕ,
    (numbered .short).run (.init .short) (shortKickoff ++
      [.in_completion 0 .COMPLETED (List.range' 1 256) 200, .usb .filled true,
        .usb .filled true, .in_completion 1 .COMPLETED (List.range' 257 256) 200]) = some s ∧
      355 ∈ s.queued ∧ ¬Delivered .short s := by
  have hrun : ((numbered .short).run (.init .short) (shortKickoff ++
      [.in_completion 0 .COMPLETED (List.range' 1 256) 200, .usb .filled true,
        .usb .filled true, .in_completion 1 .COMPLETED (List.range' 257 256) 200])).map
        (fun s => decide (355 ∈ s.queued ∧ ¬Delivered .short s)) = some true := by
    decide +kernel
  obtain ⟨s, hs, hout⟩ := Option.map_eq_some_iff.mp hrun
  exact ⟨s, hs, of_decide_eq_true hout⟩

end Libsmu.Streaming
