import Libsmu.StreamPositions
import Libsmu.TransferBuffers

/-!
# IN Transfers that Complete Short

libusb may complete an IN transfer with fewer bytes than its buffer holds. The buffers are used
again and again, so that after a short transfer the rest of the buffer has bytes of an earlier
one, and `handle_in_transfer` goes through all packets without looking at `actual_length`.

`Tracked` follows a device that streams (`Streaming.machine`) together with its buffers, where
every byte remembers with which completion it was received and every sample the bytes it was
decoded from.

## Main results

* `received_iff`: the samples that were received are the first ones, in both layouts.
* `handle_in_transfer_stop`: how far `handle_in_transfer` goes.
* `right_iff`: only received bytes are decoded, and as many samples are counted as were
  received, exactly when every transfer fills its buffer, or ends with the sample for which
  there is no room.
-/

namespace Libsmu

namespace Streaming

variable {α : Type*} {N : ℕ}

/-! ### How far a transfer is handled -/

/-- The run wants sample `j` of a transfer that finds `m_in_sampleno` at `n`. -/
def wanted (N n j : ℕ) : Bool := N = 0 ∨ Counter.add 64 n (j + 1) ≤ N

theorem wanted_succ (N n j : ℕ) : wanted N (Counter.add 64 n 1) j = wanted N n (j + 1) := by
  have hadd : Counter.add 64 (Counter.add 64 n 1) (j + 1) = Counter.add 64 n (j + 1 + 1) := by
    simp only [Counter.add, Nat.mod_add_mod]
    congr 1
    omega
  rw [wanted, wanted, hadd]

/-- How many of the first samples of a transfer are wanted. -/
theorem countP_wanted_succ (N n k : ℕ) :
    (List.range (k + 1)).countP (wanted N n) =
      (wanted N n 0).toNat + (List.range k).countP (wanted N (Counter.add 64 n 1)) := by
  rw [List.range_succ_eq_map, List.countP_cons, List.countP_map, Nat.add_comm]
  have hshift : wanted N n ∘ Nat.succ = wanted N (Counter.add 64 n 1) := by
    funext j
    exact (wanted_succ N n j).symm
  rw [hshift]
  cases wanted N n 0 <;> rfl

/-- **How far `handle_in_transfer` goes**: to the end if there is room for every sample that
is wanted, else to the first one for which there is none. -/
theorem handle_in_transfer_stop (xs : List α) (room : ℕ) {n : ℕ} (hn : n < 2 ^ 64) :
    ((List.range xs.length).countP (wanted N n) ≤ room ∧
        (handle_in_transfer N xs room n).1 = Counter.add 64 n xs.length) ∨
      ∃ j < xs.length, wanted N n j = true ∧ (List.range j).countP (wanted N n) = room ∧
        (handle_in_transfer N xs room n).1 = Counter.add 64 n (j + 1) ∧
        (handle_in_transfer N xs room n).2.Sublist (xs.take j) := by
  induction xs generalizing room n with
  | nil => exact .inl ⟨Nat.zero_le _, (Nat.mod_eq_of_lt hn).symm⟩
  | cons x xs ih =>
      have hnext := Counter.add_lt 64 n 1
      have hadd : ∀ k, Counter.add 64 (Counter.add 64 n 1) k = Counter.add 64 n (k + 1) := by
        intro k
        simp only [Counter.add, Nat.mod_add_mod]
        congr 1
        omega
      rw [List.length_cons, countP_wanted_succ]
      by_cases hw : N = 0 ∨ Counter.add 64 n 1 ≤ N
      · have hzero : wanted N n 0 = true := decide_eq_true hw
        simp only [handle_in_transfer, if_pos hw, hzero, Bool.toNat_true]
        cases room with
        | zero => exact .inr ⟨0, Nat.succ_pos _, hzero, rfl, rfl, List.Sublist.refl _⟩
        | succ room =>
            rcases ih room hnext with ⟨hle, hfst⟩ | ⟨j, hj, hwj, hcount, hfst, hsnd⟩
            · exact .inl ⟨by omega, hfst.trans (hadd _)⟩
            · refine .inr ⟨j + 1, Nat.succ_lt_succ hj, ?_, ?_, hfst.trans (hadd _),
                hsnd.cons_cons x⟩
              · rw [← wanted_succ]
                exact hwj
              · rw [countP_wanted_succ, hzero, hcount, Bool.toNat_true, Nat.add_comm]
      · have hzero : wanted N n 0 = false := decide_eq_false hw
        simp only [handle_in_transfer, if_neg hw, hzero, Bool.toNat_false, Nat.zero_add]
        rcases ih room hnext with ⟨hle, hfst⟩ | ⟨j, hj, hwj, hcount, hfst, hsnd⟩
        · exact .inl ⟨hle, hfst.trans (hadd _)⟩
        · refine .inr ⟨j + 1, Nat.succ_lt_succ hj, ?_, ?_, hfst.trans (hadd _), hsnd.cons x⟩
          · rw [← wanted_succ]
            exact hwj
          · rw [countP_wanted_succ, hzero, hcount, Bool.toNat_false, Nat.zero_add]

/-- A wanted sample adds to the count. -/
theorem countP_wanted_lt {n j k : ℕ} (hw : wanted N n j = true) (hjk : j < k) :
    (List.range j).countP (wanted N n) < (List.range k).countP (wanted N n) := by
  have hle := (List.range_sublist.mpr (Nat.succ_le_of_lt hjk)).countP_le (p := wanted N n)
  rw [List.range_succ, List.countP_append, List.countP_singleton, if_pos hw] at hle
  omega

end Streaming

/-! ### The samples that were received -/

/-- How many samples of a transfer the first `actual_length` bytes hold. -/
def received_samples (fwver : ℚ) (actual_length : ℕ) : ℕ :=
  if 2 ≤ fwver then actual_length / 8
  else chunk_size * (actual_length / in_packet_size) +
    (actual_length % in_packet_size - 3 * (2 * chunk_size)) / 2

/-- **The samples that were received are the first ones**: sample `j` has all its bytes among
the first `actual_length`. -/
theorem received_iff (fwver : ℚ) (actual_length j : ℕ) :
    (∀ k < 4, j / chunk_size * in_packet_size + wordOffset fwver (j % chunk_size) k + 1 <
        actual_length) ↔
      j < received_samples fwver actual_length := by
  simp only [received_samples, wordOffset, in_packet_size, chunk_size]
  constructor
  · intro h
    have hlast := h 3 (by decide)
    split at hlast <;> split <;> omega
  · intro h k hk
    split at h <;> split <;> omega

/-- A buffer that is filled holds all the samples, and only then. -/
theorem received_samples_eq_iff (fwver : ℚ) {packets actual_length : ℕ}
    (hle : actual_length ≤ packets * in_packet_size) :
    received_samples fwver actual_length = packets * chunk_size ↔
      actual_length = packets * in_packet_size := by
  simp only [received_samples, in_packet_size, chunk_size] at *
  split <;> omega

theorem received_samples_le (fwver : ℚ) {packets actual_length : ℕ}
    (hle : actual_length ≤ packets * in_packet_size) :
    received_samples fwver actual_length ≤ packets * chunk_size := by
  simp only [received_samples, in_packet_size, chunk_size] at *
  split <;> omega

/-- A sample that was received is decoded from bytes that were received. -/
theorem Decoder.lt_of_mem_sampleBytes (d : Decoder) {actual_length j b : ℕ}
    (hj : j < received_samples d.fwver actual_length)
    (hb : b ∈ d.sampleBytes (j / chunk_size, j % chunk_size)) : b < actual_length := by
  obtain ⟨k, -, hb⟩ := List.mem_flatMap.mp hb
  have hlt := (received_iff d.fwver actual_length j).mpr hj k k.isLt
  simp only [List.mem_cons, List.not_mem_nil, or_false] at hb
  omega

/-! ### Buffers that remember -/

/-- A decoded sample. -/
structure Sample where
  value : Fin 4 → ℚ
  /-- record: the completions with which its bytes were received -/
  origins : List ℕ
  deriving DecidableEq

/-- What `handle_in_transfer` did with a transfer. -/
structure Handled where
  /-- which completion it was -/
  number : ℕ
  /-- the samples that were received -/
  received : ℕ
  /-- `m_in_sampleno` before -/
  before : ℕ
  /-- `m_in_sampleno` after -/
  after : ℕ
  /-- the samples that were queued -/
  queued : List Sample
  deriving DecidableEq

/-- **Only received bytes are decoded**: every queued sample comes from bytes received with this
completion, and `m_in_sampleno` advances by the samples received. -/
def Handled.Right (h : Handled) : Prop :=
  (∀ x ∈ h.queued, ∀ c ∈ x.origins, c = h.number) ∧
    h.after = Counter.add 64 h.before h.received

/-- A device that streams, with the buffers of its IN transfers. -/
structure Tracked extends Streaming.State Sample where
  buffer : ℕ → ℕ → UInt8
  /-- record: the completion with which a byte of a buffer was received, 0 for none -/
  origin : ℕ → ℕ → ℕ
  /-- record: the completions of IN transfers so far -/
  number : ℕ
  /-- record: what was done with the transfers -/
  handled : List Handled

namespace Tracked

open Streaming (Config Status Fill)

/-- The actions: an IN transfer completes with some bytes, or anything else happens. -/
inductive Act
  | in_completion (t : ℕ) (status : Status) (actual_length : ℕ) (bytes : ℕ → UInt8) (room : ℕ)
  | other (a : Streaming.Act Sample)

/-- libusb puts the bytes into the buffer of the transfer. -/
def receive (t actual_length : ℕ) (bytes : ℕ → UInt8) (s : Tracked) : Tracked :=
  { s with
    buffer := Function.update s.buffer t fun b =>
      if b < actual_length then bytes b else s.buffer t b
    origin := Function.update s.origin t fun b =>
      if b < actual_length then s.number + 1 else s.origin t b
    number := s.number + 1 }

/-- The samples that `handle_in_transfer` decodes from a buffer. -/
def samples (d : Decoder) (packets t : ℕ) (s : Tracked) : List Sample :=
  List.zipWith Sample.mk (d.samples packets (s.buffer t))
    ((positions packets).map fun x => (d.sampleBytes x).map (s.origin t))

/-- A device that streams `m_packets_per_transfer` packets in every transfer. -/
def machine (d : Decoder) (c : Config) (m_packets_per_transfer : ℕ) : Machine Tracked Act where
  step s
    | .in_completion t status actual_length bytes room =>
        if actual_length ≤ m_packets_per_transfer * in_packet_size then
          let r := s.receive t actual_length bytes
          let data := r.samples d m_packets_per_transfer t
          ((Streaming.machine Sample c).step s.toState (.in_completion t status data room)).map
            fun u =>
              { r with
                toState := u
                handled :=
                  if status = .COMPLETED then
                    s.handled ++ [⟨r.number, received_samples d.fwver actual_length,
                      s.m_in_sampleno, u.m_in_sampleno,
                      (Streaming.handle_in_transfer c.m_sample_count data room
                        s.m_in_sampleno).2⟩]
                  else s.handled }
        else none
    | .other (.in_completion _ _ _ _) => none
    | .other a => ((Streaming.machine Sample c).step s.toState a).map fun u =>
        { s with toState := u }

/-- Nothing is received yet; the buffers hold whatever the memory held. -/
def init (c : Config) (buffer : ℕ → ℕ → UInt8) : Tracked where
  toState := .init c
  buffer := buffer
  origin _ _ := 0
  number := 0
  handled := []

variable {d : Decoder} {c : Config} {packets : ℕ} {s t : Tracked} {a : Act}

/-- The condition on a step: a transfer that completes fills its buffer, if the queue has room
for all the samples of it that the run wants; else it ends with the sample for which there is
no room. -/
def Whole (d : Decoder) (c : Config) (packets : ℕ) (s : Tracked) : Act → Prop
  | .in_completion _ .COMPLETED actual_length _ room =>
      ((List.range (packets * chunk_size)).countP
          (Streaming.wanted c.m_sample_count s.m_in_sampleno) ≤ room ∧
        actual_length = packets * in_packet_size) ∨
      ∃ j, Streaming.wanted c.m_sample_count s.m_in_sampleno j = true ∧
        (List.range j).countP (Streaming.wanted c.m_sample_count s.m_in_sampleno) = room ∧
        received_samples d.fwver actual_length = j + 1
  | _ => True

theorem length_samples (d : Decoder) (packets u : ℕ) (s : Tracked) :
    (s.samples d packets u).length = packets * chunk_size := by
  have hdecode : ∀ (ws : List (Fin 4 → ℕ)) (before : Fin 4 → ℚ),
      (d.decode_samples before ws).length = ws.length := by
    intro ws
    induction ws with
    | nil => exact fun _ => rfl
    | cons w ws ih =>
        intro before
        rw [Decoder.decode_samples, List.length_cons, ih, List.length_cons]
  rw [samples, List.length_zipWith, Decoder.samples, hdecode, transferWords, List.length_map,
    List.length_map, length_positions, Nat.min_self]

/-- The samples that were received come from bytes of this completion. -/
theorem origins_of_received {u actual_length : ℕ} {bytes : ℕ → UInt8} {x : Sample}
    (hx : x ∈ ((s.receive u actual_length bytes).samples d packets u).take
      (received_samples d.fwver actual_length)) :
    ∀ o ∈ x.origins, o = (s.receive u actual_length bytes).number := by
  obtain ⟨j, hj, hget⟩ := List.mem_take_iff_getElem.mp hx
  rw [length_samples] at hj
  have hjr : j < received_samples d.fwver actual_length := (lt_min_iff.mp hj).1
  have hjp : j < packets * chunk_size := (lt_min_iff.mp hj).2
  have horigins : x.origins = (d.sampleBytes (j / chunk_size, j % chunk_size)).map
      ((s.receive u actual_length bytes).origin u) := by
    have hpos := getElem?_positions hjp
    rw [List.getElem?_eq_getElem (by rw [length_positions]; exact hjp)] at hpos
    rw [← hget, ← Option.some.inj hpos]
    simp only [samples, List.getElem_zipWith, List.getElem_map]
  intro o ho
  rw [horigins] at ho
  obtain ⟨b, hb, rfl⟩ := List.mem_map.mp ho
  have hlt := d.lt_of_mem_sampleBytes hjr hb
  simp only [receive, Function.update_self, if_pos hlt]

/-- **One transfer** is handled right exactly under the condition. -/
theorem right_iff_whole (hpackets : packets < 2 ^ 32) {u actual_length room : ℕ}
    {bytes : ℕ → UInt8} (hn : s.m_in_sampleno < 2 ^ 64)
    (hle : actual_length ≤ packets * in_packet_size) :
    (⟨(s.receive u actual_length bytes).number, received_samples d.fwver actual_length,
      s.m_in_sampleno,
      (Streaming.handle_in_transfer c.m_sample_count
        ((s.receive u actual_length bytes).samples d packets u) room s.m_in_sampleno).1,
      (Streaming.handle_in_transfer c.m_sample_count
        ((s.receive u actual_length bytes).samples d packets u) room s.m_in_sampleno).2⟩ :
      Handled).Right ↔
      Whole d c packets s (.in_completion u .COMPLETED actual_length bytes room) := by
  have hreceived := received_samples_le d.fwver hle
  have hfull := received_samples_eq_iff d.fwver hle
  have horigins := fun x => @origins_of_received d packets s u actual_length bytes x
  have hlength := length_samples d packets u (s.receive u actual_length bytes)
  have hsub := Streaming.handle_in_transfer_sublist (N := c.m_sample_count)
    ((s.receive u actual_length bytes).samples d packets u) room s.m_in_sampleno
  have hstop := Streaming.handle_in_transfer_stop (N := c.m_sample_count)
    ((s.receive u actual_length bytes).samples d packets u) room hn
  generalize (s.receive u actual_length bytes).samples d packets u = data at *
  rw [hlength] at hstop
  have hcancel : ∀ k ≤ packets * chunk_size,
      (Counter.add 64 s.m_in_sampleno k =
        Counter.add 64 s.m_in_sampleno (received_samples d.fwver actual_length) ↔
        k = received_samples d.fwver actual_length) := by
    intro k hk
    simp only [Counter.add, chunk_size] at *
    omega
  rw [Handled.Right, Whole]
  dsimp only
  rcases hstop with ⟨hroom, hfst⟩ | ⟨j, hj, hwj, hcount, hfst, hsnd⟩
  · rw [hfst, hcancel _ le_rfl]
    constructor
    · rintro ⟨-, heq⟩
      exact .inl ⟨hroom, hfull.mp heq.symm⟩
    · rintro (⟨-, heq⟩ | ⟨j, hwj, hcount, heq⟩)
      · have hall := hfull.mpr heq
        refine ⟨fun x hx => horigins x ?_, hall.symm⟩
        rw [hall, ← hlength, List.take_length]
        exact hsub.subset hx
      · -- a wanted sample without room is one too many
        have hlt := Streaming.countP_wanted_lt hwj (show j < packets * chunk_size by omega)
        omega
  · rw [hfst, hcancel _ hj]
    constructor
    · rintro ⟨-, heq⟩
      exact .inr ⟨j, hwj, hcount, heq.symm⟩
    · rintro (⟨hroom, -⟩ | ⟨j', hwj', hcount', heq⟩)
      · have hlt := Streaming.countP_wanted_lt hwj hj
        omega
      · have hjj : j = j' := by
          rcases Nat.lt_trichotomy j j' with hlt | heq | hlt
          · have := Streaming.countP_wanted_lt hwj hlt
            omega
          · exact heq
          · have := Streaming.countP_wanted_lt hwj' hlt
            omega
        subst hjj
        refine ⟨fun x hx => horigins x ?_, heq.symm⟩
        rw [heq]
        exact (List.take_sublist_take_left (Nat.le_succ j)).subset (hsnd.subset hx)

/-- What a step does to the record: a completed transfer is put there, or nothing is. -/
theorem handled_of_step (h : (machine d c packets).step s a = some t) :
    (∃ u actual_length bytes room,
        a = .in_completion u .COMPLETED actual_length bytes room ∧
        actual_length ≤ packets * in_packet_size ∧
        t.m_in_sampleno = (Streaming.handle_in_transfer c.m_sample_count
          ((s.receive u actual_length bytes).samples d packets u) room s.m_in_sampleno).1 ∧
        t.handled = s.handled ++ [⟨(s.receive u actual_length bytes).number,
          received_samples d.fwver actual_length, s.m_in_sampleno, t.m_in_sampleno,
          (Streaming.handle_in_transfer c.m_sample_count
            ((s.receive u actual_length bytes).samples d packets u) room s.m_in_sampleno).2⟩]) ∨
      Whole d c packets s a ∧ t.m_in_sampleno = s.m_in_sampleno ∧ t.handled = s.handled := by
  cases a with
  | in_completion u status actual_length bytes room =>
      simp only [machine] at h
      split at h
      · rename_i hle
        obtain ⟨v, hv, rfl⟩ := Option.map_eq_some_iff.mp h
        rcases Streaming.step_input hv with ⟨u', data, room', heq, -, -, -, hsampleno, -, -⟩ |
          ⟨hne, hrest⟩
        · cases heq
          exact .inl ⟨u, actual_length, bytes, room, rfl, hle, hsampleno, rfl⟩
        · have hstatus : status ≠ .COMPLETED := fun heq => hne _ _ _ (by rw [heq])
          refine .inr ⟨?_, hrest.1, if_neg hstatus⟩
          cases status with
          | COMPLETED => exact absurd rfl hstatus
          | ERROR | TIMED_OUT | CANCELLED | STALL | NO_DEVICE | OVERFLOW => exact trivial
      · cases h
  | other a =>
      have hrest : ∀ u, (∀ v data room, a ≠ .in_completion v .COMPLETED data room) →
          (Streaming.machine Sample c).step s.toState a = some u → t = { s with toState := u } →
          t.m_in_sampleno = s.m_in_sampleno ∧ t.handled = s.handled := by
        rintro u hne hu rfl
        rcases Streaming.step_input hu with ⟨v, data, room, heq, -⟩ | ⟨-, hrest⟩
        · exact absurd heq (hne _ _ _)
        · exact ⟨hrest.1, rfl⟩
      cases a with
      | in_completion u status data room => cases h
      | cancel =>
          obtain rfl := Option.some.inj h
          exact .inr ⟨trivial, rfl, rfl⟩
      | kickoffIn | kickoffOut | kickoffNext | out_completion | usb =>
          obtain ⟨u, hu, rfl⟩ := Option.map_eq_some_iff.mp h
          exact .inr ⟨trivial, hrest u (fun _ _ _ h => nomatch h) hu rfl⟩

/-- Every transfer so far was handled right. -/
structure Sound (s : Tracked) : Prop where
  sampleno : s.m_in_sampleno < 2 ^ 64
  handled : ∀ h ∈ s.handled, h.Right

/-- Some transfer was not. -/
def Broken (s : Tracked) : Prop := ∃ h ∈ s.handled, ¬h.Right

theorem handle_in_transfer_fst_lt {N n : ℕ} (xs : List Sample) (room : ℕ) (hn : n < 2 ^ 64) :
    (Streaming.handle_in_transfer N xs room n).1 < 2 ^ 64 := by
  rcases Streaming.handle_in_transfer_stop (N := N) xs room hn with ⟨-, hfst⟩ |
    ⟨_, -, -, -, hfst, -⟩
  · rw [hfst]
    exact Counter.add_lt _ _ _
  · rw [hfst]
    exact Counter.add_lt _ _ _

theorem Sound.step (hpackets : packets < 2 ^ 32) (hs : s.Sound) (hok : Whole d c packets s a)
    (h : (machine d c packets).step s a = some t) : t.Sound := by
  rcases handled_of_step h with ⟨u, actual_length, bytes, room, rfl, hle, hsampleno, hhandled⟩ |
    ⟨-, hsampleno, hhandled⟩
  · refine ⟨hsampleno ▸ handle_in_transfer_fst_lt _ _ hs.sampleno, ?_⟩
    rw [hhandled]
    intro x hx
    rcases List.mem_append.mp hx with hx | hx
    · exact hs.handled x hx
    · obtain rfl := List.mem_singleton.mp hx
      rw [hsampleno]
      exact (right_iff_whole hpackets hs.sampleno hle).mpr hok
  · exact ⟨hsampleno ▸ hs.sampleno, hhandled ▸ hs.handled⟩

theorem Sound.breaks (hpackets : packets < 2 ^ 32) (hs : s.Sound) (hok : ¬Whole d c packets s a)
    (h : (machine d c packets).step s a = some t) : t.Broken := by
  rcases handled_of_step h with ⟨u, actual_length, bytes, room, rfl, hle, hsampleno, hhandled⟩ |
    ⟨hwhole, -, -⟩
  · rw [hsampleno] at hhandled
    refine ⟨_, by rw [hhandled]; exact List.mem_append_right _ List.mem_cons_self, fun hright =>
      hok ((right_iff_whole hpackets hs.sampleno hle).mp hright)⟩
  · exact absurd hwhole hok

theorem Broken.step (hs : s.Broken) (h : (machine d c packets).step s a = some t) :
    t.Broken := by
  obtain ⟨x, hx, hwrong⟩ := hs
  refine ⟨x, ?_, hwrong⟩
  rcases handled_of_step h with ⟨u, actual_length, bytes, room, rfl, hle, hsampleno, hhandled⟩ |
    ⟨-, -, hhandled⟩
  · rw [hhandled]
    exact List.mem_append_left _ hx
  · rw [hhandled]
    exact hx

/-- **Only received bytes are decoded**, in a run with transfers of any length up to that of the
buffer, exactly when every transfer meets the condition. -/
theorem right_iff (hpackets : packets < 2 ^ 32) {buffer : ℕ → ℕ → UInt8} {as : List Act}
    (hrun : (machine d c packets).run (init c buffer) as = some t) :
    (∀ h ∈ t.handled, h.Right) ↔ (machine d c packets).Meets (Whole d c packets)
      (init c buffer) as := by
  have hinit : (init c buffer).Sound := ⟨show 0 < 2 ^ 64 by decide, fun h hh => nomatch hh⟩
  rcases Machine.sound_or_broken (fun _ _ _ hs hok hstep => hs.step hpackets hok hstep)
    (fun _ _ _ hs hok hstep => hs.breaks hpackets hok hstep) (fun _ _ _ hs hstep => hs.step hstep)
    hinit hrun with ⟨hmeets, hsound⟩ | ⟨hmeets, h, hh, hwrong⟩
  · exact iff_of_true hsound.handled hmeets
  · exact iff_of_false (fun hall => hwrong (hall h hh)) hmeets

/-- A continuous run with one IN transfer of one packet. -/
def oneIn : Config where
  m_sample_count := 0
  m_samples_per_transfer := 256
  in_transfers := 1
  out_transfers := 0
  sample_count_lt := Nat.two_pow_pos 64
  samples_per_transfer_lt := Config.short.samples_per_transfer_lt

/-- The kickoff of such a run. -/
def kickedOff : List Act := [.other (.kickoffIn true), .other .kickoffNext, .other .kickoffNext]

/-- The transfer completes, and is submitted again. -/
def completes (actual_length : ℕ) (byte : UInt8) : List Act :=
  [.in_completion 0 .COMPLETED actual_length (fun _ => byte) 1000, .other (.usb .filled true),
    .other (.usb .filled true)]

/-- Two transfers that fill the buffer. -/
theorem right_iff_full :
    ∃ t, (machine ⟨217 / 100, .default, 0⟩ oneIn 1).run (init oneIn fun _ _ => 0)
        (kickedOff ++ completes 2048 1 ++ completes 2048 2) = some t ∧
      ((∀ h ∈ t.handled, h.Right) ↔ (machine ⟨217 / 100, .default, 0⟩ oneIn 1).Meets
        (Whole ⟨217 / 100, .default, 0⟩ oneIn 1) (init oneIn fun _ _ => 0)
        (kickedOff ++ completes 2048 1 ++ completes 2048 2)) := by
  have hrun : ((machine ⟨217 / 100, .default, 0⟩ oneIn 1).run (init oneIn fun _ _ => 0)
      (kickedOff ++ completes 2048 1 ++ completes 2048 2)).isSome := by decide +kernel
  obtain ⟨t, ht⟩ := Option.isSome_iff_exists.mp hrun
  exact ⟨t, ht, right_iff (by decide) ht⟩

/-- **Samples that were delivered before.** A transfer fills the buffer, and completes again
with no bytes: the same 256 samples are queued and counted once more. -/
theorem delivered_again :
    ∃ t, (machine ⟨217 / 100, .default, 0⟩ oneIn 1).run (init oneIn fun _ _ => 0)
        (kickedOff ++ completes 2048 1 ++ completes 0 2) = some t ∧
      (t.handled.map fun h => (h.number, h.received, h.before, h.after,
        (h.queued.map Sample.origins).headD [])) =
        [(1, 256, 0, 256, List.replicate 8 1),
          (2, 0, 256, 512, List.replicate 8 1)] ∧
      ¬∀ h ∈ t.handled, h.Right := by
  have hrun : ((machine ⟨217 / 100, .default, 0⟩ oneIn 1).run (init oneIn fun _ _ => 0)
      (kickedOff ++ completes 2048 1 ++ completes 0 2)).map (fun t => t.handled.map fun h =>
        (h.number, h.received, h.before, h.after, (h.queued.map Sample.origins).headD [])) =
      some [(1, 256, 0, 256, List.replicate 8 1),
        (2, 0, 256, 512, List.replicate 8 1)] := by decide +kernel
  obtain ⟨t, ht, hhandled⟩ := Option.map_eq_some_iff.mp hrun
  refine ⟨t, ht, hhandled, fun hall => ?_⟩
  have hlast : (2, 0, 256, 512, List.replicate 8 1) ∈ t.handled.map fun h =>
      (h.number, h.received, h.before, h.after, (h.queued.map Sample.origins).headD []) := by
    rw [hhandled]
    exact List.mem_cons_of_mem _ List.mem_cons_self
  obtain ⟨h, hh, heq⟩ := List.mem_map.mp hlast
  simp only [Prod.mk.injEq] at heq
  obtain ⟨-, hreceived, hbefore, hafter, -⟩ := heq
  have hadvance := (hall h hh).2
  rw [hreceived, hbefore, hafter] at hadvance
  exact absurd hadvance (by decide)

end Tracked

end Libsmu
