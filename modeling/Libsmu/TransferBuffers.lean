import Libsmu.WireRoundTrip

/-!
# Buffers and their Processing

`configure` allocates the buffers of both directions for a packet count, and
`handle_in_transfer` and `handle_out_transfer` go through as many packets without looking at
the length of the buffer. Both index formulas, the interleaved one and the planar one, are
those of `wordOffset` and `outOffset`.

The byte indices are listed as the loops come to them: `Decoder.readBytes` for the samples of
an IN transfer, `filledBytes` for the codes of an OUT transfer.

## Main results

* `samples_congr`: the samples of a transfer depend on the bytes read alone.
* `filledBytes_perm`: a transfer that is filled has every byte of its packets written, once.
* `buffers_fit`: after a successful `configure` both directions stay within the buffers.
-/

namespace Libsmu

open WordBuffer

/-! ### Bytes read -/

/-- The bytes that `handle_in_transfer` reads for a sample: both bytes of each word that its
mux mode looks at. -/
def Decoder.sampleBytes (d : Decoder) (x : ℕ × ℕ) : List ℕ :=
  ((List.finRange 4).filter fun k => d.readings k ≠ .unset).flatMap fun k : Fin 4 =>
    [x.1 * in_packet_size + wordOffset d.fwver x.2 k,
      x.1 * in_packet_size + wordOffset d.fwver x.2 k + 1]

/-- The bytes that `handle_in_transfer` reads. -/
def Decoder.readBytes (d : Decoder) (m_packets_per_transfer : ℕ) : List ℕ :=
  (positions m_packets_per_transfer).flatMap d.sampleBytes

theorem mem_positions {packets : ℕ} {x : ℕ × ℕ} :
    x ∈ positions packets ↔ x.1 < packets ∧ x.2 < chunk_size := by
  rw [positions, ← List.mem_range, ← List.mem_range]
  exact List.mem_product

/-- **Reading stays within the packets.** -/
theorem Decoder.lt_of_mem_readBytes (d : Decoder) {packets b : ℕ}
    (hb : b ∈ d.readBytes packets) : b < packets * in_packet_size := by
  obtain ⟨x, hx, hb⟩ := List.mem_flatMap.mp hb
  obtain ⟨k, -, hb⟩ := List.mem_flatMap.mp hb
  obtain ⟨hp, hi⟩ := mem_positions.mp hx
  have hk := k.isLt
  have hoffset : wordOffset d.fwver x.2 k + 1 < in_packet_size := by
    simp only [wordOffset, in_packet_size, chunk_size] at *
    split <;> omega
  have hpacket : (x.1 + 1) * in_packet_size ≤ packets * in_packet_size :=
    Nat.mul_le_mul_right _ hp
  rw [Nat.succ_mul] at hpacket
  simp only [List.mem_cons, List.not_mem_nil, or_false] at hb
  omega

/-- A sample depends on its words only as far as they are looked at. -/
theorem Decoder.decode_sample_congr (d : Decoder) (samples : Fin 4 → ℚ) {w w' : Fin 4 → ℕ}
    (h : ∀ k, d.readings k ≠ .unset → w k = w' k) :
    d.decode_sample samples w = d.decode_sample samples w' := by
  funext k
  rw [decode_sample, decode_sample]
  by_cases hunset : d.readings k = .unset
  · rw [hunset, decode, decode]
  · rw [h k hunset]

/-- The same of the words of a transfer. -/
theorem Decoder.decode_samples_congr_words (d : Decoder) {β : Type*} (f f' : β → Fin 4 → ℕ)
    (samples : Fin 4 → ℚ) {xs : List β}
    (h : ∀ x ∈ xs, ∀ k, d.readings k ≠ .unset → f x k = f' x k) :
    d.decode_samples samples (xs.map f) = d.decode_samples samples (xs.map f') := by
  induction xs generalizing samples with
  | nil => rfl
  | cons x xs ih =>
      simp only [List.map_cons, decode_samples]
      rw [d.decode_sample_congr samples (h x List.mem_cons_self),
        ih _ fun y hy => h y (List.mem_cons_of_mem x hy)]

/-- **The samples depend on the bytes read alone.** -/
theorem Decoder.samples_congr (d : Decoder) {packets : ℕ} {buffer buffer' : ℕ → UInt8}
    (h : ∀ b ∈ d.readBytes packets, buffer b = buffer' b) :
    d.samples packets buffer = d.samples packets buffer' := by
  rw [samples, samples, transferWords, transferWords]
  refine d.decode_samples_congr_words _ _ _ fun x hx k hk => ?_
  have hmem : ∀ b ∈ [x.1 * in_packet_size + wordOffset d.fwver x.2 k,
      x.1 * in_packet_size + wordOffset d.fwver x.2 k + 1], b ∈ d.readBytes packets := by
    intro b hb
    refine List.mem_flatMap.mpr ⟨x, hx, List.mem_flatMap.mpr ⟨k, ?_, hb⟩⟩
    exact List.mem_filter.mpr ⟨List.mem_finRange k, by simpa using hk⟩
  exact getWord_congr (h _ (hmem _ List.mem_cons_self))
    (h _ (hmem _ (List.mem_cons_of_mem _ List.mem_cons_self)))

/-! ### Bytes written -/

/-- The bytes that `handle_out_transfer` writes for the codes of a transfer. -/
def filledBytes (fwver : ℚ) (m_packets_per_transfer : ℕ) (codes : List (ℕ × ℕ)) : List ℕ :=
  writtenBytes (outWrites fwver m_packets_per_transfer codes)

/-- The bytes of the two codes of a position. -/
theorem mem_filledBytes_iff {fwver : ℚ} {packets b : ℕ} {codes : List (ℕ × ℕ)} :
    b ∈ filledBytes fwver packets codes ↔
      ∃ x, x ∈ ((positions packets).zip codes).map Prod.fst ∧ ∃ k < 2,
        b = x.1 * out_packet_size + outOffset fwver x.2 k ∨
          b = x.1 * out_packet_size + outOffset fwver x.2 k + 1 := by
  simp only [filledBytes, writtenBytes, outWrites, List.mem_flatMap, List.mem_map]
  constructor
  · rintro ⟨w, ⟨y, hy, hw⟩, hb⟩
    simp only [List.mem_cons, List.not_mem_nil, or_false] at hw hb
    rcases hw with rfl | rfl
    · exact ⟨y.1, ⟨y, hy, rfl⟩, 0, by decide, hb⟩
    · exact ⟨y.1, ⟨y, hy, rfl⟩, 1, by decide, hb⟩
  · rintro ⟨x, ⟨y, hy, rfl⟩, k, hk, hb⟩
    have hwrite : ∀ w, w ∈ [(y.1.1 * out_packet_size + outOffset fwver y.1.2 0, y.2.1),
        (y.1.1 * out_packet_size + outOffset fwver y.1.2 1, y.2.2)] → b = w.1 ∨ b = w.1 + 1 →
        ∃ w, (∃ z ∈ (positions packets).zip codes,
          w ∈ [(z.1.1 * out_packet_size + outOffset fwver z.1.2 0, z.2.1),
            (z.1.1 * out_packet_size + outOffset fwver z.1.2 1, z.2.2)]) ∧
          b ∈ [w.1, w.1 + 1] := fun w hw hb => ⟨w, ⟨y, hy, hw⟩, by simpa using hb⟩
    obtain rfl | rfl : k = 0 ∨ k = 1 := by omega
    · exact hwrite _ List.mem_cons_self hb
    · exact hwrite _ (List.mem_cons_of_mem _ List.mem_cons_self) hb

/-- **Writing stays within the packets**, whatever codes there are. -/
theorem lt_of_mem_filledBytes {fwver : ℚ} {packets b : ℕ} {codes : List (ℕ × ℕ)}
    (hb : b ∈ filledBytes fwver packets codes) : b < packets * out_packet_size := by
  obtain ⟨x, hx, k, hk, hb⟩ := mem_filledBytes_iff.mp hb
  obtain ⟨y, hy, rfl⟩ := List.mem_map.mp hx
  obtain ⟨hp, hi⟩ := mem_positions.mp (List.of_mem_zip hy).1
  have hoffset : outOffset fwver y.1.2 k + 1 < out_packet_size := by
    simp only [outOffset, out_packet_size, chunk_size] at *
    split <;> omega
  have hpacket : (y.1.1 + 1) * out_packet_size ≤ packets * out_packet_size :=
    Nat.mul_le_mul_right _ hp
  rw [Nat.succ_mul] at hpacket
  omega

/-- **Every byte is written exactly once** when there is a code for every position. -/
theorem filledBytes_perm (fwver : ℚ) {packets : ℕ} {codes : List (ℕ × ℕ)}
    (hlen : codes.length = packets * chunk_size) :
    (filledBytes fwver packets codes).Perm (List.range (packets * out_packet_size)) := by
  have hnodup := nodup_writtenBytes (outWrites_apart fwver packets codes)
  refine (List.perm_ext_iff_of_nodup hnodup List.nodup_range).mpr fun b => ?_
  rw [List.mem_range]
  refine ⟨lt_of_mem_filledBytes, fun hb => mem_filledBytes_iff.mpr ?_⟩
  have hfst : ((positions packets).zip codes).map Prod.fst = positions packets :=
    List.map_fst_zip (by rw [length_positions, hlen])
  rw [hfst]
  -- the position and the code that the byte belongs to
  simp only [out_packet_size, outOffset, chunk_size, mem_positions] at *
  have hp : b / 1024 < packets := Nat.div_lt_of_lt_mul (by omega)
  by_cases hlayout : 2 ≤ fwver
  · refine ⟨(b / 1024, b % 1024 / 4), ⟨hp, by omega⟩, b % 4 / 2, by omega, ?_⟩
    simp only [if_pos hlayout]
    omega
  · refine ⟨(b / 1024, b % 512 / 2), ⟨hp, by omega⟩, b % 1024 / 512, by omega, ?_⟩
    simp only [if_neg hlayout]
    omega

/-! ### The buffers of a configuration -/

/-- A transfer holds few packets. -/
theorem packets_per_transfer_le (fwver : String) (sampleRate : ℕ) :
    packets_per_transfer (M1K_timer_clock fwver) (sam_per (M1K_timer_clock fwver) sampleRate) 2
      ≤ 8 := by
  have hper := (sam_per_bounds (M1K_timer_clock fwver) sampleRate).1
  have hclock : M1K_timer_clock fwver ≤ 48000000 := by
    rw [M1K_timer_clock]
    split <;> norm_num
  have hpos : 0 < M1K_timer_clock fwver :=
    lt_of_lt_of_le (by norm_num) (M1K_timer_clock_pos fwver)
  generalize M1K_timer_clock fwver = clock at *
  generalize sam_per clock sampleRate = per at *
  have hper' : (240 : ℚ) ≤ per := by exact_mod_cast hper
  have hle : BUFFER_TIME / ((per : ℚ) / clock * chunk_size) / (2 : ℕ) ≤ 8 := by
    rw [BUFFER_TIME, chunk_size, div_div, div_le_iff₀ (by positivity), div_mul_eq_mul_div,
      div_mul_eq_mul_div, mul_div_assoc', le_div_iff₀ hpos]
    push_cast
    linarith
  rw [packets_per_transfer, Int.toNat_le]
  exact Int.ceil_le.mpr (by exact_mod_cast hle)

/-- **Both directions stay within their buffers.** After a `configure` that succeeds there are two
transfers in each direction and at least one packet to a transfer, and the sizes do not overflow;
every byte that is read of an IN transfer and every byte that is written of an OUT transfer, in
either layout, lies in the buffer of the transfer; and a fill that returns writes every byte of it
once. -/
theorem buffers_fit {α : Type*} {cap : ℕ} (d : Device) {r : ℕ} {ins outs : Memory}
    (hret : 0 ≤ (d.configure r ins outs).2) :
    ∃ p, (d.configure r ins outs).1.m_packets_per_transfer = some p ∧ 0 < p ∧
      p * in_packet_size < 2 ^ 32 ∧
      (d.configure r ins outs).1.m_in_transfers.length = 2 ∧
      (d.configure r ins outs).1.m_out_transfers.length = 2 ∧
      (∀ slot ∈ (d.configure r ins outs).1.m_in_transfers, ∃ size, slot = .buffer size ∧
        ∀ decoder : Decoder, ∀ b ∈ decoder.readBytes p, b < size) ∧
      ∀ slot ∈ (d.configure r ins outs).1.m_out_transfers, ∃ size, slot = .buffer size ∧
        ∀ fwver codes, (∀ b ∈ filledBytes fwver p codes, b < size) ∧
          ∀ (convert : Channel → Mode → Option α → ℕ) (N unset : ℕ) (s t : OutState α cap)
            (filled : List (Codes ℕ)),
            handle_out_transfer convert N (p * chunk_size) s = .filled t filled →
              (filledBytes fwver p (filled.map (registers unset))).Perm (List.range size) := by
  have hgranted : ins.Grants 2 ∧ outs.Grants 2 := by
    by_contra hnot
    exact absurd (configure_of_not_granted r d hnot).1 (Int.not_lt.mpr hret)
  obtain ⟨p, hpos, hp, -, hin, hout⟩ :=
    (configure_of_granted r d hgranted.1 hgranted.2).2.packets
  have hle : p ≤ 8 := by
    rw [Device.configure_m_packets_per_transfer, Option.some.injEq] at hp
    rw [← hp]
    exact packets_per_transfer_le _ _
  refine ⟨p, hp, hpos, ?_, ?_, ?_, fun slot hslot => ?_, fun slot hslot => ?_⟩
  · simp only [in_packet_size, chunk_size]
    omega
  · rw [hin, List.length_replicate]
  · rw [hout, List.length_replicate]
  · rw [hin] at hslot
    exact ⟨_, List.eq_of_mem_replicate hslot, fun decoder b hb =>
      decoder.lt_of_mem_readBytes hb⟩
  · rw [hout] at hslot
    refine ⟨_, List.eq_of_mem_replicate hslot, fun fwver codes => ⟨fun b hb =>
      lt_of_mem_filledBytes hb, ?_⟩⟩
    intro convert N unset s t filled hfill
    refine filledBytes_perm fwver ?_
    rw [List.length_map]
    exact length_of_fillSamples hfill

/-- The same of the default rate. -/
theorem buffers_fit_default :
    ∃ p, ((Device.new "2.17" "").configure 100000 .plenty .plenty).1.m_packets_per_transfer =
        some p ∧ 0 < p ∧
      ((Device.new "2.17" "").configure 100000 .plenty .plenty).1.m_in_transfers.length = 2 ∧
      ∀ slot ∈ ((Device.new "2.17" "").configure 100000 .plenty .plenty).1.m_in_transfers,
        ∃ size, slot = .buffer size ∧
          ∀ decoder : Decoder, ∀ b ∈ decoder.readBytes p, b < size := by
  obtain ⟨p, hp, hpos, -, hlen, -, hin, -⟩ :=
    @buffers_fit ℚ 1 (.new "2.17" "") 100000 .plenty .plenty (by decide +kernel)
  exact ⟨p, hp, hpos, hlen, hin⟩

end Libsmu
