import Libsmu.InputFifo
import Libsmu.OutputStream

/-!
# The Input of a Run

The way of a sample from the device to `read`. The device sends four words for each sample and
lays them out in packets, a transfer after the other. The USB thread decodes each transfer
(`InputDecoding`) and pushes the samples into the queue, from which the reading thread takes
them (`InputFifo`), and both threads run at the same time.

`WordStream` is what the device measures: four words for each sample, without end. A transfer
carries the stream from a sample on (`Carries`) when the words are where the layout of the
device puts them.

## Main results

* `decoded_eq`: what the USB thread has decoded, and is about to, are its transfers.
* `reader_finds`: what `read` gives out are the words of the device, each calibrated by itself,
  none lost and none twice.
* `continuous_loopback`: a device that returns what it sources gives back what was written.
-/

namespace Libsmu

namespace InputStream

open InputFifo (State Unwrapped cut UsbPc)

variable {m_queue_size : ℕ}

/-- The actions of the USB thread, which gets a transfer, and of the reading thread. -/
inductive Act
  /-- the USB thread enters `in_completion` with a full transfer -/
  | in_completion (buffer : ℕ → UInt8)
  /-- the next step of the USB thread -/
  | usb
  /-- the reading thread calls `read` -/
  | read (samples : ℕ)
  /-- the next step of the reading thread -/
  | reader
  /-- `read` returns early -/
  | giveUp
  /-- the reading thread calls `flush` -/
  | flush

/-- What the action is to the queue: the transfer comes as the samples it decodes to. -/
def Act.onQueue (d : Decoder) (m_packets_per_transfer : ℕ) : Act → InputFifo.Act (Fin 4 → ℚ)
  | .in_completion buffer => .in_completion (d.samples m_packets_per_transfer buffer)
  | .usb => .usb
  | .read samples => .read samples
  | .reader => .reader
  | .giveUp => .giveUp
  | .flush => .flush

/-- Both threads. -/
def machine (d : Decoder) (m_packets_per_transfer m_queue_size m_sample_count : ℕ) :
    Machine (State (Fin 4 → ℚ) m_queue_size) Act where
  step s a := (InputFifo.machine (Fin 4 → ℚ) m_queue_size m_sample_count).step s
    (a.onQueue d m_packets_per_transfer)

/-- A run is one of the queue with the samples of the transfers. -/
theorem run_eq (d : Decoder) (packets N : ℕ) (s : State (Fin 4 → ℚ) m_queue_size)
    (as : List Act) :
    (machine d packets m_queue_size N).run s as =
      (InputFifo.machine (Fin 4 → ℚ) m_queue_size N).run s (as.map (Act.onQueue d packets)) := by
  induction as generalizing s with
  | nil => rfl
  | cons a as ih =>
      rw [Machine.run_cons, List.map_cons, Machine.run_cons]
      exact congrArg _ (funext ih)

/-- The transfers that the USB thread has got. -/
def transfers (as : List Act) : List (ℕ → UInt8) :=
  as.filterMap fun
    | .in_completion buffer => some buffer
    | _ => none

/-- The samples of the transfer in hand that are not decoded yet. -/
def rest {α : Type*} : UsbPc α → List α
  | .outside => []
  | .decoding rest => rest
  | .counting rest => rest

/-! ### What is decoded -/

section Decoded

variable {d : Decoder} {packets N : ℕ}

/-- The USB thread decodes the samples of a transfer in order. -/
theorem decoded_of_usbStep {α : Type*} {s t : State α m_queue_size}
    (h : InputFifo.usbStep N s = some t) :
    (t.dropped = false → s.dropped = false ∧
      t.decoded ++ rest t.usb = s.decoded ++ rest s.usb) := by
  intro hdropped
  simp only [InputFifo.usbStep] at h
  split at h
  · cases h
  · rename_i husb
    obtain rfl := Option.some.inj h
    simpa [rest, husb] using hdropped
  · rename_i x rest' husb
    split at h
    · split at h
      · obtain rfl := Option.some.inj h
        simpa [rest, husb] using hdropped
      · obtain rfl := Option.some.inj h
        cases hdropped
    · obtain rfl := Option.some.inj h
      simpa [rest, husb] using hdropped
  · rename_i rest' husb
    obtain rfl := Option.some.inj h
    simpa [rest, husb] using hdropped

/-- The reading thread decodes nothing. -/
theorem decoded_of_readerStep {α : Type*} {s t : State α m_queue_size}
    (h : InputFifo.readerStep s = some t) :
    t.dropped = s.dropped ∧ t.decoded = s.decoded ∧ t.usb = s.usb := by
  cases hreader : s.reader with
  | idle =>
      simp [InputFifo.readerStep, hreader] at h
  | compare remaining sample =>
      simp only [InputFifo.readerStep, hreader] at h
      split at h <;> obtain rfl := Option.some.inj h <;> exact ⟨rfl, rfl, rfl⟩
  | load remaining sample | popped remaining samples i sample | again remaining sample =>
      simp only [InputFifo.readerStep, hreader] at h
      obtain rfl := Option.some.inj h
      exact ⟨rfl, rfl, rfl⟩
  | copy remaining samples i sample =>
      simp only [InputFifo.readerStep, hreader] at h
      split at h
      · split at h <;> obtain rfl := Option.some.inj h <;> exact ⟨rfl, rfl, rfl⟩
      · split at h <;> obtain rfl := Option.some.inj h <;> exact ⟨rfl, rfl, rfl⟩

/-- One step: a new transfer is in hand, or what is decoded and in hand stays the same. -/
theorem decoded_of_step {s t : State (Fin 4 → ℚ) m_queue_size} {a : Act}
    (h : (machine d packets m_queue_size N).step s a = some t) (hdropped : t.dropped = false) :
    s.dropped = false ∧ t.decoded ++ rest t.usb =
      s.decoded ++ rest s.usb ++ (transfers [a]).flatMap (d.samples packets) := by
  cases a with
  | in_completion buffer =>
      simp only [machine, Act.onQueue, InputFifo.machine] at h
      split at h
      · rename_i husb
        obtain rfl := Option.some.inj h
        exact ⟨hdropped, by simp [rest, husb, transfers]⟩
      · cases h
  | usb =>
      simpa [transfers] using decoded_of_usbStep h hdropped
  | reader =>
      obtain ⟨heq, hdecoded, husb⟩ := decoded_of_readerStep h
      rw [hdecoded, husb, ← heq]
      simpa [transfers] using hdropped
  | read samples =>
      simp only [machine, Act.onQueue, InputFifo.machine] at h
      split at h
      · split at h
        · obtain rfl := Option.some.inj h
          simpa [transfers] using hdropped
        · obtain rfl := Option.some.inj h
          simpa [transfers] using hdropped
      · cases h
  | giveUp =>
      simp only [machine, Act.onQueue, InputFifo.machine] at h
      split at h
      · obtain rfl := Option.some.inj h
        simpa [transfers] using hdropped
      · cases h
  | flush =>
      simp only [machine, Act.onQueue, InputFifo.machine] at h
      split at h
      · obtain rfl := Option.some.inj h
        simpa [transfers] using hdropped
      · cases h

/-- The transfers of two schedules, one after the other. -/
theorem transfers_append (as bs : List Act) : transfers (as ++ bs) = transfers as ++ transfers bs :=
  List.filterMap_append

/-- **What is decoded** and still in hand are the transfers. -/
theorem decoded_eq {s : State (Fin 4 → ℚ) m_queue_size} {as : List Act}
    (hrun : (machine d packets m_queue_size N).run .init as = some s)
    (hdropped : s.dropped = false) :
    s.decoded ++ rest s.usb = (transfers as).flatMap (d.samples packets) := by
  refine Machine.invariant_of_history (s := State.init)
    (fun as s => s.dropped = false →
      s.decoded ++ rest s.usb = (transfers as).flatMap (d.samples packets))
    (fun _ => rfl) ?_ hrun hdropped
  intro as t a u _ hinv hstep hdropped
  obtain ⟨hbefore, heq⟩ := decoded_of_step hstep hdropped
  rw [heq, hinv hbefore, transfers_append, List.flatMap_append]

/-- The accounting of the queue goes on. -/
theorem inv_of_run (hcap : m_queue_size + 1 < 2 ^ 32) {s : State (Fin 4 → ℚ) m_queue_size}
    {as : List Act} (hrun : (machine d packets m_queue_size N).run .init as = some s) :
    InputFifo.Inv N s :=
  Machine.invariant (M := machine d packets m_queue_size N)
    (fun _ _ _ hs hstep => InputFifo.Inv.step hcap hs hstep) (.init N) hrun

end Decoded

/-! ### What the device sends -/

/-- The device sends four words for each sample. -/
abbrev WordStream : Type := ℕ → Fin 4 → ℕ

/-- A transfer carries the words of the device from sample `n` on. -/
def Carries (fwver : ℚ) (packets : ℕ) (dev : WordStream) (n : ℕ) (buffer : ℕ → UInt8) : Prop :=
  ∀ p < packets, ∀ i < chunk_size, ∀ k : Fin 4,
    inWord fwver buffer p i k = dev (n + p * chunk_size + i) k

/-- What the first words of the device stand for, each sample by itself. -/
def measured (d : Decoder) (dev : WordStream) (n : ℕ) : List (Fin 4 → ℚ) :=
  (List.range n).map fun k => d.alone_sample (dev k)

/-- What the decoder makes of the words of the device, transfer by transfer. -/
def received (d : Decoder) (packets : ℕ) (dev : WordStream) (transfers : ℕ) :
    List (Fin 4 → ℚ) :=
  (List.range transfers).flatMap fun i => d.decode_samples (fun _ => 0)
    ((List.range (packets * chunk_size)).map fun j => dev (i * (packets * chunk_size) + j))

section Device

variable {d : Decoder} {packets N : ℕ} {dev : WordStream}

/-- The decoder takes the words of the device in order. -/
theorem Carries.transferWords {fwver : ℚ} {n : ℕ} {buffer : ℕ → UInt8}
    (h : Carries fwver packets dev n buffer) :
    Libsmu.transferWords fwver packets buffer =
      (List.range (packets * chunk_size)).map fun j => dev (n + j) := by
  apply List.ext_getElem?
  intro j
  rcases Nat.lt_or_ge j (packets * chunk_size) with hj | hj
  · rw [Libsmu.transferWords, List.getElem?_map, getElem?_positions hj, List.getElem?_map,
      List.getElem?_range hj, Option.map_some, Option.map_some]
    congr 1
    funext k
    have hp : j / chunk_size < packets := Nat.div_lt_of_lt_mul (by rwa [Nat.mul_comm])
    have hplace : n + j / chunk_size * chunk_size + j % chunk_size = n + j := by
      rw [Nat.add_assoc, Nat.mul_comm, Nat.div_add_mod]
    rw [sampleWords_eq_inWord, h _ hp _ (Nat.mod_lt _ (by decide)), hplace]
  · rw [List.getElem?_eq_none, List.getElem?_eq_none]
    · simpa using hj
    · simpa [Libsmu.transferWords, length_positions] using hj

/-- The words of one transfer after the other are those of the device. -/
theorem flatMap_transferWords {fwver : ℚ} {buffers : List (ℕ → UInt8)}
    (h : ∀ i buffer, buffers[i]? = some buffer →
      Carries fwver packets dev (i * (packets * chunk_size)) buffer) :
    buffers.flatMap (Libsmu.transferWords fwver packets) =
      (List.range (buffers.length * (packets * chunk_size))).map dev := by
  induction buffers using List.reverseRecOn with
  | nil => simp
  | append_singleton buffers buffer ih =>
      have hinit : ∀ i b, buffers[i]? = some b →
          Carries fwver packets dev (i * (packets * chunk_size)) b := by
        intro i b hb
        refine h i b ?_
        rwa [List.getElem?_append_left (List.getElem?_eq_some_iff.mp hb).1]
      have hlast := h buffers.length buffer (by simp)
      rw [List.flatMap_append, List.flatMap_singleton, ih hinit, hlast.transferWords,
        List.length_append, List.length_singleton, Nat.add_mul, Nat.one_mul, List.range_add,
        List.map_append, List.map_map]
      rfl

/-- The transfers are decoded one after the other. -/
theorem flatMap_samples_eq_received {buffers : List (ℕ → UInt8)}
    (hcarries : ∀ i buffer, buffers[i]? = some buffer →
      Carries d.fwver packets dev (i * (packets * chunk_size)) buffer) :
    buffers.flatMap (d.samples packets) = received d packets dev buffers.length := by
  induction buffers using List.reverseRecOn with
  | nil => rfl
  | append_singleton buffers buffer ih =>
      have hinit : ∀ i b, buffers[i]? = some b →
          Carries d.fwver packets dev (i * (packets * chunk_size)) b := by
        intro i b hb
        refine hcarries i b ?_
        rwa [List.getElem?_append_left (List.getElem?_eq_some_iff.mp hb).1]
      have hlast := hcarries buffers.length buffer (by simp)
      have hnext : received d packets dev (buffers ++ [buffer]).length =
          received d packets dev buffers.length ++ d.samples packets buffer := by
        rw [received, List.length_append, List.length_singleton, List.range_succ,
          List.flatMap_append, List.flatMap_singleton, ← received, Decoder.samples,
          hlast.transferWords]
      rw [List.flatMap_append, List.flatMap_singleton, ih hinit, hnext]

/-- Steady transfers are decoded to what the words of the device stand for. -/
theorem flatMap_samples {buffers : List (ℕ → UInt8)}
    (hcarries : ∀ i buffer, buffers[i]? = some buffer →
      Carries d.fwver packets dev (i * (packets * chunk_size)) buffer)
    (hsteady : ∀ buffer ∈ buffers,
      d.Steady (fun _ => 0) (Libsmu.transferWords d.fwver packets buffer)) :
    buffers.flatMap (d.samples packets) =
      measured d dev (buffers.length * (packets * chunk_size)) := by
  have halone : ∀ buffer ∈ buffers, d.samples packets buffer =
      (Libsmu.transferWords d.fwver packets buffer).map d.alone_sample := fun buffer hb =>
    (Decoder.decode_samples_eq_map_iff fun _ _ => rfl).mpr (hsteady buffer hb)
  rw [List.flatMap_congr halone, ← List.map_flatMap, flatMap_transferWords hcarries, List.map_map]
  rfl

/-- A prefix of what is measured is what is measured of the first words. -/
theorem eq_measured_of_append {xs ys : List (Fin 4 → ℚ)} {n : ℕ}
    (h : xs ++ ys = measured d dev n) : xs = measured d dev xs.length := by
  have hlen : xs.length ≤ n := by
    have hlen := congrArg List.length h
    simp only [measured, List.length_append, List.length_map, List.length_range] at hlen
    omega
  have htake := congrArg (List.take xs.length) h
  rwa [List.take_left, measured, ← List.map_take, List.take_range, Nat.min_eq_left hlen] at htake

/-- A transfer has as many samples as its packets have room for. -/
theorem length_samples (d : Decoder) (packets : ℕ) (buffer : ℕ → UInt8) :
    (d.samples packets buffer).length = packets * chunk_size := by
  have hlen : ∀ (samples : Fin 4 → ℚ) (ws : List (Fin 4 → ℕ)),
      (d.decode_samples samples ws).length = ws.length := by
    intro samples ws
    induction ws generalizing samples with
    | nil => rfl
    | cons w ws ih => rw [Decoder.decode_samples, List.length_cons, List.length_cons, ih]
  rw [Decoder.samples, hlen, transferWords, List.length_map, length_positions]

/-- And so have all of them. -/
theorem length_flatMap_samples (d : Decoder) (packets : ℕ) (buffers : List (ℕ → UInt8)) :
    (buffers.flatMap (d.samples packets)).length = buffers.length * (packets * chunk_size) := by
  simp [List.length_flatMap, length_samples]

/-- **The reader finds the words of the device**: as long as the queue has never been full, what
`read` has given out since the last `flush`, what it holds and what is queued are the samples
decoded from that `flush` on, up to the count that the run asks for. These are what the decoder
makes of the words of the device, transfer by transfer, and each is that of its own words where no
sample is calibrated by the one before. -/
theorem reader_finds (hcap : m_queue_size + 1 < 2 ^ 32) {as : List Act}
    {s : State (Fin 4 → ℚ) m_queue_size}
    (hrun : (machine d packets m_queue_size N).run .init as = some s)
    (hdropped : s.dropped = false) (hcount : Unwrapped N s.decoded)
    (hcarries : ∀ i buffer, (transfers as)[i]? = some buffer →
      Carries d.fwver packets dev (i * (packets * chunk_size)) buffer) :
    s.delivered ++ s.reader.hand ++ s.m_in_samples_q.items =
        (cut N ((received d packets dev (transfers as).length).take s.decoded.length)).drop
          s.flushedAt ∧
      s.decoded.length + (rest s.usb).length = (transfers as).length * (packets * chunk_size) ∧
      ((∀ buffer ∈ transfers as,
          d.Steady (fun _ => 0) (Libsmu.transferWords d.fwver packets buffer)) →
        s.delivered ++ s.reader.hand ++ s.m_in_samples_q.items =
          (cut N (measured d dev s.decoded.length)).drop s.flushedAt) := by
  have hdecoded := decoded_eq hrun hdropped
  have hstream := (inv_of_run hcap hrun).stream hdropped hcount
  refine ⟨?_, ?_, fun hsteady => ?_⟩
  · rw [← flatMap_samples_eq_received hcarries, ← hdecoded, List.take_left]
    exact hstream
  · have hlen := congrArg List.length hdecoded
    rwa [List.length_append, length_flatMap_samples] at hlen
  · rw [flatMap_samples hcarries hsteady] at hdecoded
    rw [← eq_measured_of_append hdecoded]
    exact hstream

/-- A transfer whose first sample is pushed and read. -/
def readOne (buffer : ℕ → UInt8) : List Act :=
  [.in_completion buffer, .usb, .usb, .read 1] ++ List.replicate 4 .reader

/-- With the calibration that a device starts with, all transfers are steady. -/
theorem steady_default (fwver : ℚ) (mux : ℕ) (before : Fin 4 → ℚ) (ws : List (Fin 4 → ℕ)) :
    (⟨fwver, .default, mux⟩ : Decoder).Steady before ws := by
  induction ws generalizing before with
  | nil => trivial
  | cons w ws ih =>
      refine ⟨fun k => ?_, ih _⟩
      cases (⟨fwver, .default, mux⟩ : Decoder).readings k with
      | current ch => exact .inr (.inr rfl)
      | voltage ch | raw | unset => trivial

theorem transfers_readOne (buffer : ℕ → UInt8) : transfers (readOne buffer) = [buffer] := rfl

/-- The first sample of any transfer is read. -/
theorem read_one (buffer : ℕ → UInt8) : ∃ t : State (Fin 4 → ℚ) 2,
    (machine ⟨217 / 100, .default, 0⟩ 1 2 0).run .init (readOne buffer) = some t ∧
      t.delivered.length = 1 ∧ t.dropped = false := by
  have hcons : ∃ x xs, (⟨217 / 100, .default, 0⟩ : Decoder).samples 1 buffer = x :: xs :=
    List.length_pos_iff_exists_cons.mp (by rw [length_samples]; decide)
  obtain ⟨x, xs, hsamples⟩ := hcons
  rw [run_eq, readOne, List.map_append, List.map_cons, Act.onQueue, hsamples]
  exact ⟨_, rfl, rfl, rfl⟩

/-- The first of 256 equal samples is read. -/
theorem reader_finds_one : ∃ s : State (Fin 4 → ℚ) 2, s.delivered.length = 1 ∧
    s.delivered ++ s.reader.hand ++ s.m_in_samples_q.items =
        (cut 0 (measured ⟨217 / 100, .default, 0⟩ (fun _ _ => 257) s.decoded.length)).drop
          s.flushedAt ∧
      s.decoded.length + (rest s.usb).length = 1 * (1 * chunk_size) := by
  obtain ⟨s, hs, hlen, hdropped⟩ := read_one fun _ => 1
  have hcarries : ∀ i buffer, (transfers (readOne fun _ => 1))[i]? = some buffer →
      Carries (217 / 100) 1 (fun _ _ => 257) (i * (1 * chunk_size)) buffer := by
    intro i buffer hbuffer p _ j _ k
    rw [transfers_readOne] at hbuffer
    obtain rfl := List.mem_singleton.mp (List.mem_of_getElem? hbuffer)
    simp [inWord, WordBuffer.getWord]
  have hfinds := reader_finds (by decide) hs hdropped (.inl rfl) hcarries
  exact ⟨s, hlen, hfinds.2.2 fun _ _ => steady_default _ _ _ _, hfinds.2.1⟩

end Device

/-! ### There and back -/

section Loopback

variable {cap : ℕ}

/-- Lists of one length, one after the other: the element at a place is found by division. -/
theorem getElem?_flatMap {β γ : Type*} {f : β → List γ} {S : ℕ} (hlen : ∀ b, (f b).length = S)
    (bs : List β) (m : ℕ) :
    (bs.flatMap f)[m]? = (bs[m / S]?).bind fun b => (f b)[m % S]? := by
  induction bs generalizing m with
  | nil => simp
  | cons b bs ih =>
      rw [List.flatMap_cons]
      rcases Nat.lt_or_ge m S with hm | hm
      · rw [List.getElem?_append_left (by rwa [hlen]), Nat.div_eq_of_lt hm, Nat.mod_eq_of_lt hm]
        rfl
      · rw [List.getElem?_append_right (by rwa [hlen]), hlen, ih]
        rcases Nat.eq_zero_or_pos S with rfl | hS
        · have hnil : ∀ b, f b = [] := fun b => List.length_eq_zero_iff.mp (hlen b)
          simp [hnil]
        · rw [Nat.div_eq_sub_div hS hm, List.getElem?_cons_succ, ← Nat.mod_eq_sub_mod hm]

/-- A transfer of codes, as `decode_returned` takes it. -/
theorem map_registers (codes : List (ℕ × ℕ)) :
    (codes.map fun c => (⟨some c.1, some c.2⟩ : Codes ℕ)).map (registers 0) = codes := by
  rw [List.map_map]
  exact List.map_id codes

/-- The samples of cyclic buffers, too, are among those written. -/
theorem mem_unroll {α : Type*} {n : ℕ} {bs : List (WriteThread.Buffer α)} {x : α}
    (h : x ∈ WriteThread.unroll n bs) : ∃ b ∈ bs, x ∈ b.samples := by
  obtain ⟨b, hb, hx⟩ := List.mem_flatMap.mp h
  refine ⟨b, hb, ?_⟩
  split at hx
  · obtain ⟨xs, hxs, hx⟩ := List.mem_flatten.mp hx
    rwa [List.eq_of_mem_replicate hxs] at hx
  · exact hx

/-- **Each sample that is read was sourced**: the code at its place comes back within one LSB of
any voltage in range that it is the code of. -/
theorem close_of_read (hcap : m_queue_size + 1 < 2 ^ 32) {s : OutputStream.State cap}
    {fwver : ℚ} {packets : ℕ} {bs : List Act} {t : State (Fin 4 → ℚ) m_queue_size}
    (hin : (machine ⟨fwver, .default, 0⟩ packets m_queue_size 0).run .init bs = some t)
    (hdropped : t.dropped = false)
    (hsent : (transfers bs).length * (packets * chunk_size) ≤ s.codes.length)
    (hreturns : ∀ i ins, (transfers bs)[i]? = some ins → ∃ out,
      Returns fwver packets (layOut fwver packets (s.transfer packets i) out) ins)
    {k : ℕ} {v : Fin 4 → ℚ}
    (hv : (t.delivered ++ t.reader.hand ++ t.m_in_samples_q.items)[k]? = some v) :
    ∃ c, s.codes[t.flushedAt + k]? = some c ∧ ∀ (ch : Channel) (x : ℚ), 0 ≤ x → x ≤ 5 →
      codeOf c ch = encode .default ch .SVMI (some x) →
        |v (voltageEntry ch) - x| ≤ 5 / 65536 := by
  rw [(inv_of_run hcap hin).stream hdropped (.inl rfl), cut, if_pos rfl, List.getElem?_drop] at hv
  generalize t.flushedAt + k = m at hv ⊢
  -- the sample is one of a transfer
  have hsample : ((transfers bs).flatMap
      ((⟨fwver, .default, 0⟩ : Decoder).samples packets))[m]? = some v := by
    rw [← decoded_eq hin hdropped, List.getElem?_append_left (List.getElem?_eq_some_iff.mp hv).1,
      hv]
  rw [getElem?_flatMap (length_samples _ packets), Option.bind_eq_some_iff] at hsample
  obtain ⟨ins, hins, hsample⟩ := hsample
  have hj : m % (packets * chunk_size) < packets * chunk_size := by
    have hlt := (List.getElem?_eq_some_iff.mp hsample).1
    rwa [length_samples] at hlt
  have hplace : m / (packets * chunk_size) * (packets * chunk_size) +
      m % (packets * chunk_size) = m := by
    rw [Nat.mul_comm, Nat.div_add_mod]
  -- its code was sourced
  have hm : m < s.codes.length := by
    have hi := (List.getElem?_eq_some_iff.mp hins).1
    calc m < (m / (packets * chunk_size) + 1) * (packets * chunk_size) := by
          rw [Nat.add_mul]
          omega
      _ ≤ (transfers bs).length * (packets * chunk_size) := Nat.mul_le_mul_right _ hi
      _ ≤ s.codes.length := hsent
  have hcode := List.getElem?_eq_getElem hm
  refine ⟨s.codes[m], hcode, fun ch x hlo hhi hword => ?_⟩
  -- and comes back as it was sent
  obtain ⟨out, hout⟩ := hreturns _ ins hins
  rw [← map_registers (s.transfer packets _)] at hout
  have htransfer : (s.transfer packets (m / (packets * chunk_size)))[
      m % (packets * chunk_size)]? = some s.codes[m] := by
    rw [OutputStream.getElem?_transfer hj, hplace, hcode]
  have hchan : (⟨some s.codes[m].1, some s.codes[m].2⟩ : Codes ℕ).chan ch =
      some (encode .default ch .SVMI (some x)) := by
    rw [← hword]
    cases ch <;> rfl
  obtain ⟨v', hv', hclose⟩ := decode_returned hlo hhi hout hj
    (by rw [List.getElem?_map, htransfer, Option.map_some]) hchan
  obtain rfl := Option.some.inj (hv'.symm.trans hsample)
  exact hclose

/-- **There and back in a continuous run.** With the calibration that a device starts with, a
channel sources voltages in range, written with any pauses but those taken for a stop, and the
device returns each transfer as the voltages that it measures. What `read` gives out are then the
samples written, in order and each within one LSB, no matter how the threads of both directions
take turns. -/
theorem continuous_loopback (hcap : m_queue_size + 1 < 2 ^ 32) {m_mode : Channel → Mode}
    {as : List OutputStream.Act} {s : OutputStream.State cap}
    (hkept : (OutputStream.machine .default m_mode cap).Meets OutputStream.Kept (.init cap) as)
    (hout : (OutputStream.machine .default m_mode cap).run (.init cap) as = some s)
    {ch : Channel} (hmode : m_mode ch = .SVMI)
    (hrange : ∀ b ∈ (s.chan ch).written, ∀ x ∈ b.samples, 0 ≤ x ∧ x ≤ 5) {fwver : ℚ}
    {packets : ℕ} {bs : List Act} {t : State (Fin 4 → ℚ) m_queue_size}
    (hin : (machine ⟨fwver, .default, 0⟩ packets m_queue_size 0).run .init bs = some t)
    (hdropped : t.dropped = false)
    (hsent : (transfers bs).length * (packets * chunk_size) ≤ s.codes.length)
    (hreturns : ∀ i ins, (transfers bs)[i]? = some ins → ∃ out,
      Returns fwver packets (layOut fwver packets (s.transfer packets i) out) ins) :
    ∃ n, ∀ (k : ℕ) (v : Fin 4 → ℚ),
      (t.delivered ++ t.reader.hand ++ t.m_in_samples_q.items)[k]? = some v →
      ∃ x, (WriteThread.unroll n (s.chan ch).written)[t.flushedAt + k]? = some x ∧
        |v (voltageEntry ch) - x| ≤ 5 / 65536 := by
  obtain ⟨n, hn⟩ := (OutputStream.carried_of_run hkept hout).code (by rw [hmode]; decide)
  refine ⟨n, fun k v hv => ?_⟩
  obtain ⟨c, hc, hclose⟩ := close_of_read hcap hin hdropped hsent hreturns hv
  obtain ⟨x, hx, hword⟩ := hn _ c hc
  rw [hmode] at hword
  obtain ⟨b, hb, hxb⟩ := mem_unroll (List.mem_of_getElem? hx)
  obtain ⟨hlo, hhi⟩ := hrange b hb x hxb
  exact ⟨x, hx, hclose ch x hlo hhi hword⟩

/-- A transfer of one voltage is written to channel A and queued. -/
def queueOne (cyclic : Bool) : List OutputStream.Act :=
  [.channel .A (.write ⟨List.replicate 256 (5 / 2), cyclic⟩)] ++
    List.replicate 6 (.channel .A .user) ++ List.replicate 5 (.channel .A (.thread 0)) ++
    [.channel .A (.thread 256)]

/-- Channel A sources the transfer, while channel B floats. -/
theorem source_one (cyclic : Bool) : ∃ s : OutputStream.State 256,
    (OutputStream.machine .default OutputStream.sourceA 256).run (.init 256)
      (queueOne cyclic ++ List.replicate (2 * 256) .encode) = some s ∧ s.codes.length = 256 ∧
      (s.chan .A).written = [⟨List.replicate 256 (5 / 2), cyclic⟩] := by
  have hrun : ((OutputStream.machine .default OutputStream.sourceA 256).run (.init 256)
      (queueOne cyclic)).map (fun s => (s.a, s.codes.length, (s.chan .A).written,
        (s.chan .A).m_out_samples_q.items.length)) =
      some (none, 0, [⟨List.replicate 256 (5 / 2), cyclic⟩], 256) := by
    cases cyclic <;> decide +kernel
  have hidle : ((OutputStream.machine .default OutputStream.sourceA 256).run (.init 256)
      (queueOne cyclic)).map (fun s => ((s.chan .A).user.holdsState, (s.chan .B).user.holdsState,
        s.m_next_output .A, s.m_next_output .B)) = some (false, false, none, none) := by
    cases cyclic <;> decide +kernel
  obtain ⟨r, hr, hend⟩ := Option.map_eq_some_iff.mp hrun
  rw [hr, Option.map_some, Option.some.injEq] at hidle
  simp only [Prod.mk.injEq] at hend hidle
  obtain ⟨ha, hcodes, hwritten, hqueued⟩ := hend
  obtain ⟨hA, hB, hnextA, hnextB⟩ := hidle
  have hready : OutputStream.Ready OutputStream.sourceA (fun _ => 256) r := by
    refine ⟨fun ch => ?_, fun ch => ?_, fun ch hsrc => ?_⟩
    · cases ch with
      | A => exact hA
      | B => exact hB
    · cases ch with
      | A => exact hnextA
      | B => exact hnextB
    · cases ch with
      | A => exact hqueued.ge
      | B => exact absurd hsrc (by decide)
  obtain ⟨s, hs, hlen, hkept⟩ := hready.encodes .default ha
  refine ⟨s, (Machine.run_append_eq_some_iff _).mpr ⟨r, hr, hs⟩, ?_, (hkept .A).trans hwritten⟩
  rw [hlen, hcodes]

theorem kept_queueOne (cyclic : Bool) :
    (OutputStream.machine .default OutputStream.sourceA 256).Meets OutputStream.Kept (.init 256)
      (queueOne cyclic ++ List.replicate (2 * 256) .encode) := by
  refine Machine.meets_append_iff.mpr ⟨by cases cyclic <;> decide +kernel, fun r _ => ?_⟩
  refine (Machine.meets_of_forall (P := fun a => a = .encode) ?_).imp ?_
  · exact fun a ha => List.eq_of_mem_replicate ha
  · rintro r a rfl
    trivial

/-- The device returns the first transfer. -/
theorem returns_readOne (s : OutputStream.State cap) (i : ℕ) (ins : ℕ → UInt8)
    (hins : (transfers (readOne
      (returned (217 / 100) 1 (layOut (217 / 100) 1 (s.transfer 1 0) fun _ => 0))))[i]? =
        some ins) :
    ∃ out, Returns (217 / 100) 1 (layOut (217 / 100) 1 (s.transfer 1 i) out) ins := by
  rw [transfers_readOne] at hins
  cases i with
  | zero =>
      rw [List.getElem?_cons_zero, Option.some.injEq] at hins
      rw [← hins]
      exact ⟨fun _ => 0, returns_returned _ _ _⟩
  | succ i =>
      rw [List.getElem?_cons_succ, List.getElem?_nil] at hins
      cases hins

/-- The voltage comes back. -/
theorem continuous_loopback_one : ∃ (s : OutputStream.State 256) (t : State (Fin 4 → ℚ) 2),
    t.delivered.length = 1 ∧ ∃ n, ∀ (k : ℕ) (v : Fin 4 → ℚ),
      (t.delivered ++ t.reader.hand ++ t.m_in_samples_q.items)[k]? = some v →
      ∃ x, (WriteThread.unroll n (s.chan .A).written)[t.flushedAt + k]? = some x ∧
        |v (voltageEntry .A) - x| ≤ 5 / 65536 := by
  obtain ⟨s, hs, hcodes, hwritten⟩ := source_one false
  obtain ⟨t, ht, hlen, hdropped⟩ := read_one
    (returned (217 / 100) 1 (layOut (217 / 100) 1 (s.transfer 1 0) fun _ => 0))
  refine ⟨s, t, hlen, continuous_loopback (by decide) (kept_queueOne false) hs rfl ?_ ht hdropped
    ?_ (returns_readOne s)⟩
  · rw [hwritten]
    intro b hb x hx
    obtain rfl := List.mem_singleton.mp hb
    rw [List.eq_of_mem_replicate hx]
    norm_num
  · rw [hcodes, transfers_readOne, List.length_singleton]
    decide

end Loopback

end InputStream

end Libsmu
