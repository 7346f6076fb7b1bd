import Libsmu.InputDecoding
import Mathlib.Algebra.Order.Field.Basic
import Mathlib.Data.List.Nodup
import Mathlib.Data.Rat.Floor
import Mathlib.Tactic.Linarith
import Mathlib.Tactic.NormNum
import Mathlib.Tactic.Ring

/-!
# From the Output to the Input over the Wire

`encode_out` converts a sample to a 16-bit code and `handle_out_transfer` lays out the
codes of both channels in packets; `handle_in_transfer` takes words out of packets and
converts them back. There are two layouts in each direction: firmware from 2.00 on takes
and sends the channels of a sample next to each other, older firmware sends one block of
256 words after the other.

A device that returns what it is told to source (`Returns`) reads the codes by its own
layout (`wordIndex`) and sends them as the voltage words of an IN transfer. The current
words are anything.

## Main results

* `abs_decode_encode_le`: converting a voltage there and back is off by one LSB at most.
* `outWord_layOut`: the device finds every code where it looks for it.
* `sends_carries`: positions of a run carry the written samples in order.
* `loopback`: the three together, for any number of transfers of any number of packets.
* `samples_of_same_words`: planar packets decode to what interleaved ones with the same
  words decode to.
-/

namespace Libsmu

open WordBuffer

/-! ### Converting a sample -/

/-- Constrain a given value by low and high bounds. -/
def constrain {α : Type*} [LT α] [DecidableLT α] (val lo hi : α) : α :=
  let val := if hi < val then hi else val
  if val < lo then lo else val

/-- The conversion of a `double` to an `int`, towards zero. -/
def toInt (x : ℚ) : ℤ := if x < 0 then ⌈x⌉ else ⌊x⌋

/-- The second half of `encode_out`: the code of a sample, which the modes that source
have got from the first half. -/
def encode (m_cal : EEPROM_cal) (ch : Channel) (mode : Mode) (sample : Option ℚ) : ℕ :=
  let val := sample.getD 0
  let v : ℤ :=
    match mode with
    | .SVMI | .SVMI_SPLIT =>
        let val := (val - m_cal.offset (sourceRecord ch .voltage)) *
          m_cal.gain_p (sourceRecord ch .voltage)
        let val := constrain val (m1000_signal_info .voltage).min
          (m1000_signal_info .voltage).max
        toInt (val * (1 / (m1000_signal_info .voltage).resolution))
    | .SIMV | .SIMV_SPLIT =>
        let val :=
          if 0 < val then (val - m_cal.offset (sourceRecord ch .current)) *
            m_cal.gain_p (sourceRecord ch .current)
          else (val - m_cal.offset (sourceRecord ch .current)) *
            m_cal.gain_n (sourceRecord ch .current)
        let val := constrain val (m1000_signal_info .current).min
          (m1000_signal_info .current).max
        toInt (65536 * (2 / 5 + 8 / 10 * (2 / 10) * 20 * (5 / 10) * val))
    | .HI_Z | .HI_Z_SPLIT => 32768 * 4 / 5
  (constrain v 0 65535).toNat

/-- A code has 16 bits. -/
theorem encode_lt (m_cal : EEPROM_cal) (ch : Channel) (mode : Mode) (sample : Option ℚ) :
    encode m_cal ch mode sample < 65536 := by
  have hle : ∀ v : ℤ, (constrain v 0 65535).toNat < 65536 := by
    intro v
    simp only [constrain]
    split <;> split <;> omega
  exact hle _

/-- **There and back within one LSB**: a voltage in range is decoded from its code to
within one step of the converter. -/
theorem abs_decode_encode_le (ch : Channel) {x : ℚ} (hlo : 0 ≤ x) (hhi : x ≤ 5) (fwver : ℚ)
    (mux : ℕ) (sample : ℚ) :
    |(⟨fwver, .default, mux⟩ : Decoder).decode sample (encode .default ch .SVMI (some x))
      (.voltage ch) - x| ≤ 5 / 65536 := by
  have hval : constrain ((x - 0) * 1) 0 5 = x := by
    rw [sub_zero, mul_one, constrain]
    simp only [not_lt.mpr hhi, not_lt.mpr hlo, if_false]
  have hscaled : x * (1 / (5 / 65536)) = x * 65536 / 5 := by ring
  have hnonneg : 0 ≤ x * 65536 / 5 := by linarith
  have hle : x * 65536 / 5 ≤ 65536 := by linarith
  have hfloor : 0 ≤ ⌊x * 65536 / 5⌋ := Int.floor_nonneg.mpr hnonneg
  have hcode : encode .default ch .SVMI (some x) =
      (constrain ⌊x * 65536 / 5⌋ 0 65535).toNat := by
    simp only [encode, EEPROM_cal.default, m1000_signal_info, Option.getD_some, hval, hscaled,
      toInt, not_lt.mpr hnonneg, if_false]
  have hbelow : (encode .default ch .SVMI (some x) : ℚ) ≤ x * 65536 / 5 ∧
      x * 65536 / 5 ≤ (encode .default ch .SVMI (some x) : ℚ) + 1 := by
    rw [hcode, constrain]
    by_cases hbig : 65535 < ⌊x * 65536 / 5⌋
    · have hge : (65536 : ℚ) ≤ x * 65536 / 5 := by
        have := Int.le_floor.mp (Int.add_one_le_of_lt hbig)
        push_cast at this
        linarith
      have hmax : ((Int.toNat 65535 : ℕ) : ℚ) = 65535 := by
        rw [show Int.toNat 65535 = 65535 from rfl]
        norm_num
      simp only [hbig, if_true, show ¬(65535 : ℤ) < 0 by decide, if_false, hmax]
      constructor <;> linarith
    · have hcast : ((⌊x * 65536 / 5⌋.toNat : ℕ) : ℚ) = ((⌊x * 65536 / 5⌋ : ℤ) : ℚ) := by
        exact_mod_cast Int.toNat_of_nonneg hfloor
      simp only [hbig, if_false, not_lt.mpr hfloor, hcast]
      exact ⟨Int.floor_le _, (Int.lt_floor_add_one _).le⟩
  have hdecode : ∀ w : ℕ, (⟨fwver, .default, mux⟩ : Decoder).decode sample w (.voltage ch) =
      w * (5 / 65536) := by
    intro w
    simp only [Decoder.decode, Decoder.voltsAbove, m1000_signal_info, EEPROM_cal.default]
    ring
  rw [hdecode, abs_le]
  constructor <;> linarith [hbelow.1, hbelow.2]

/-! ### Both ends of the wire -/

/-- The byte at which `handle_out_transfer` puts the code of channel `k` for sample `i` of
a packet. -/
def outOffset (fwver : ℚ) (i k : ℕ) : ℕ :=
  if 2 ≤ fwver then i * 4 + 2 * k else (i + chunk_size * k) * 2

/-- The words of a transfer's codes and the addresses they are put at, in order. -/
def outWrites (fwver : ℚ) (packets : ℕ) (codes : List (ℕ × ℕ)) : List (ℕ × ℕ) :=
  ((positions packets).zip codes).flatMap fun x =>
    [(x.1.1 * out_packet_size + outOffset fwver x.1.2 0, x.2.1),
      (x.1.1 * out_packet_size + outOffset fwver x.1.2 1, x.2.2)]

/-- The loop of `handle_out_transfer` that lays out the codes `a` and `b` of a transfer in
its buffer. -/
def layOut (fwver : ℚ) (packets : ℕ) (codes : List (ℕ × ℕ)) (buffer : ℕ → UInt8) :
    ℕ → UInt8 :=
  setWords buffer (outWrites fwver packets codes)

/-- The layout of the device: which word of a packet belongs to sample `i` of stream `k`,
when a packet holds `streams` of them side by side or one block after the other. -/
def wordIndex (fwver : ℚ) (streams i k : ℕ) : ℕ :=
  if 2 ≤ fwver then streams * i + k else 256 * k + i

/-- The code that the device finds for sample `i` of packet `p` on channel `k`. -/
def outWord (fwver : ℚ) (buffer : ℕ → UInt8) (p i k : ℕ) : ℕ :=
  getWord buffer (1024 * p + 2 * wordIndex fwver 2 i k)

/-- The word that the device sends for sample `i` of packet `p` in stream `k`. -/
def inWord (fwver : ℚ) (buffer : ℕ → UInt8) (p i k : ℕ) : ℕ :=
  getWord buffer (2048 * p + 2 * wordIndex fwver 4 i k)

/-- The stream of an OUT transfer with the codes of a channel. -/
def outStream : Channel → ℕ
  | .A => 0
  | .B => 1

/-- The stream of an IN transfer, and the entry of `samples`, with the voltages of a channel
in mux mode 0. -/
def voltageEntry : Channel → Fin 4
  | .A => 0
  | .B => 2

/-- The device returns the codes of an OUT transfer as the voltages of an IN transfer. -/
def Returns (fwver : ℚ) (packets : ℕ) (out ins : ℕ → UInt8) : Prop :=
  ∀ p < packets, ∀ i < 256, ∀ ch,
    inWord fwver ins p i (voltageEntry ch) = outWord fwver out p i (outStream ch)

theorem length_positions (packets : ℕ) : (positions packets).length = packets * chunk_size := by
  simp [positions, List.length_flatMap]

/-- The positions of a transfer by number. -/
theorem getElem?_positions {packets j : ℕ} (hj : j < packets * chunk_size) :
    (positions packets)[j]? = some (j / chunk_size, j % chunk_size) := by
  induction packets with
  | zero => omega
  | succ n ih =>
      have hsplit : positions (n + 1) =
          positions n ++ (List.range chunk_size).map fun i => (n, i) := by
        rw [positions, List.range_succ, List.flatMap_append, List.flatMap_singleton, positions]
      rw [hsplit, List.getElem?_append, length_positions]
      split
      · rename_i hlt
        exact ih hlt
      · rename_i hge
        simp only [chunk_size] at *
        have hlast : j - n * 256 < 256 := by omega
        rw [List.getElem?_map, List.getElem?_range hlast, Option.map_some]
        have hdiv : j / 256 = n := by omega
        have hmod : j % 256 = j - n * 256 := by omega
        rw [hdiv, hmod]

/-- The decoder takes the words where the device puts them. -/
theorem sampleWords_eq_inWord {fwver : ℚ} {buffer : ℕ → UInt8} (p i : ℕ) (k : Fin 4) :
    sampleWords fwver buffer p i k = inWord fwver buffer p i k := by
  rw [sampleWords, inWord]
  congr 1
  simp only [wordOffset, wordIndex, in_packet_size, chunk_size]
  split <;> omega

/-- Two samples of a transfer are written to different bytes, and so are the two codes of
one sample. -/
theorem outAddress_apart (fwver : ℚ) {p i k p' i' k' : ℕ} (hi : i < 256) (hi' : i' < 256)
    (hk : k < 2) (hk' : k' < 2) (hne : p ≠ p' ∨ i ≠ i' ∨ k ≠ k') :
    Apart (p * out_packet_size + outOffset fwver i k)
      (p' * out_packet_size + outOffset fwver i' k') := by
  simp only [Apart, outOffset, out_packet_size, chunk_size]
  split <;> omega

/-- The same of the two voltages that a device returns. -/
theorem inAddress_apart (fwver : ℚ) {p i k p' i' k' : ℕ} (hi : i < 256) (hi' : i' < 256)
    (hk : k < 4) (hk' : k' < 4) (hne : p ≠ p' ∨ i ≠ i' ∨ k ≠ k') :
    Apart (2048 * p + 2 * wordIndex fwver 4 i k) (2048 * p' + 2 * wordIndex fwver 4 i' k') := by
  simp only [Apart, wordIndex]
  split <;> omega

/-- Writing two words for each position of a transfer keeps them apart, when the addresses
of different positions and of the two words are apart. -/
theorem writes_apart {β : Type*} (place : β → ℕ × ℕ) (addr : ℕ × ℕ → ℕ → ℕ) {xs : List β}
    {packets : ℕ} (hplace : ∀ x ∈ xs, place x ∈ positions packets)
    (hne : xs.Pairwise fun x y => place x ≠ place y) {k k' : ℕ}
    (hkk : k ≠ k') (haddr : ∀ x y : ℕ × ℕ, x.2 < 256 → y.2 < 256 → ∀ l ∈ [k, k'], ∀ l' ∈ [k, k'],
      x.1 ≠ y.1 ∨ x.2 ≠ y.2 ∨ l ≠ l' → Apart (addr x l) (addr y l')) (v v' : β → ℕ) :
    (xs.flatMap fun x => [(addr (place x) k, v x), (addr (place x) k', v' x)]).Pairwise
      fun w w' => Apart w.1 w'.1 := by
  have hlt : ∀ x ∈ xs, (place x).2 < 256 := by
    intro x hx
    exact List.mem_range.mp (List.mem_product.mp (hplace x hx)).2
  rw [List.pairwise_flatMap]
  constructor
  · intro x hx
    refine List.pairwise_pair.mpr (haddr _ _ (hlt x hx) (hlt x hx) k ?_ k' ?_ ?_)
    · exact List.mem_cons_self
    · exact List.mem_cons_of_mem _ List.mem_cons_self
    · exact .inr (.inr hkk)
  · refine hne.imp_of_mem ?_
    intro x y hx hy hxy w hw w' hw'
    have hdiff : ∀ l l' : ℕ,
        (place x).1 ≠ (place y).1 ∨ (place x).2 ≠ (place y).2 ∨ l ≠ l' := by
      intro l l'
      by_contra hsame
      obtain ⟨h1, h2⟩ := not_or.mp hsame
      exact hxy (Prod.ext (not_not.mp h1) (not_not.mp (not_or.mp h2).1))
    have hwrite : ∀ z w, w ∈ [(addr (place z) k, v z), (addr (place z) k', v' z)] →
        ∃ l ∈ [k, k'], w.1 = addr (place z) l := by
      intro z w hw
      simp only [List.mem_cons, List.not_mem_nil, or_false] at hw
      rcases hw with rfl | rfl
      · exact ⟨k, List.mem_cons_self, rfl⟩
      · exact ⟨k', List.mem_cons_of_mem _ List.mem_cons_self, rfl⟩
    obtain ⟨l, hl, hwl⟩ := hwrite x w hw
    obtain ⟨l', hl', hwl'⟩ := hwrite y w' hw'
    rw [hwl, hwl']
    exact haddr _ _ (hlt x hx) (hlt y hy) l hl l' hl' (hdiff l l')

theorem positions_nodup (packets : ℕ) : (positions packets).Nodup :=
  List.nodup_range.product List.nodup_range

/-- The writes of a transfer keep apart. -/
theorem outWrites_apart (fwver : ℚ) (packets : ℕ) (codes : List (ℕ × ℕ)) :
    (outWrites fwver packets codes).Pairwise fun w w' => Apart w.1 w'.1 := by
  have hzip : ∀ (ps : List (ℕ × ℕ)) (codes : List (ℕ × ℕ)), ps.Nodup →
      (ps.zip codes).Pairwise fun x y => x.1 ≠ y.1 := by
    intro ps
    induction ps with
    | nil => intro codes _; exact List.Pairwise.nil
    | cons q ps ih =>
        intro codes hnodup
        cases codes with
        | nil => exact List.Pairwise.nil
        | cons c codes =>
            obtain ⟨hq, hps⟩ := List.nodup_cons.mp hnodup
            refine List.pairwise_cons.mpr ⟨?_, ih codes hps⟩
            rintro y hy rfl
            exact hq (List.of_mem_zip hy).1
  refine writes_apart Prod.fst (fun x k => x.1 * out_packet_size + outOffset fwver x.2 k)
    (fun x hx => (List.of_mem_zip hx).1) (hzip _ _ (positions_nodup packets)) zero_ne_one ?_ _ _
  intro x y hx hy l hl l' hl' hne
  simp only [List.mem_cons, List.not_mem_nil, or_false] at hl hl'
  exact outAddress_apart fwver hx hy (by omega) (by omega) hne

/-- The voltages of the IN transfer of a device that returns an OUT transfer. -/
def returned (fwver : ℚ) (packets : ℕ) (out : ℕ → UInt8) : ℕ → UInt8 :=
  setWords (fun _ => 0) ((positions packets).flatMap fun x =>
    [(2048 * x.1 + 2 * wordIndex fwver 4 x.2 0, outWord fwver out x.1 x.2 0),
      (2048 * x.1 + 2 * wordIndex fwver 4 x.2 2, outWord fwver out x.1 x.2 1)])

/-- There is such a transfer for every OUT transfer. -/
theorem returns_returned (fwver : ℚ) (packets : ℕ) (out : ℕ → UInt8) :
    Returns fwver packets out (returned fwver packets out) := by
  intro p hp i hi ch
  have hmem : (p, i) ∈ positions packets :=
    List.mem_product.mpr ⟨List.mem_range.mpr hp, List.mem_range.mpr hi⟩
  rw [inWord, returned]
  refine getWord_setWords ?_ (List.mem_flatMap.mpr ⟨_, hmem, ?_⟩) (getWord_lt _ _)
  · refine writes_apart id (fun x k => 2048 * x.1 + 2 * wordIndex fwver 4 x.2 k)
      (fun x hx => hx) (positions_nodup packets) (by decide : 0 ≠ 2) ?_ _ _
    intro x y hx hy l hl l' hl' hne
    simp only [List.mem_cons, List.not_mem_nil, or_false] at hl hl'
    exact inAddress_apart fwver hx hy (by omega) (by omega) hne
  · cases ch with
    | A => exact List.mem_cons_self
    | B => exact List.mem_cons_of_mem _ List.mem_cons_self

/-- The code of a channel among the two of a sample. -/
def codeOf (code : ℕ × ℕ) : Channel → ℕ
  | .A => code.1
  | .B => code.2

/-- **The device finds every code where it looks for it.** -/
theorem outWord_layOut (fwver : ℚ) {packets j : ℕ} {codes : List (ℕ × ℕ)} {code : ℕ × ℕ}
    (buffer : ℕ → UInt8) (hj : j < packets * chunk_size) (hcode : codes[j]? = some code)
    {ch : Channel} (hlt : codeOf code ch < 65536) :
    outWord fwver (layOut fwver packets codes buffer) (j / chunk_size) (j % chunk_size)
      (outStream ch) = codeOf code ch := by
  have hmem : ((j / chunk_size, j % chunk_size), code) ∈ (positions packets).zip codes := by
    refine List.mem_of_getElem? (i := j) ?_
    rw [List.getElem?_zip_eq_some]
    exact ⟨getElem?_positions hj, hcode⟩
  have haddr : ∀ p i k, 1024 * p + 2 * wordIndex fwver 2 i k =
      p * out_packet_size + outOffset fwver i k := by
    intro p i k
    simp only [wordIndex, outOffset, out_packet_size, chunk_size]
    split <;> omega
  rw [outWord, haddr, layOut]
  refine getWord_setWords (outWrites_apart _ _ _) (List.mem_flatMap.mpr ⟨_, hmem, ?_⟩) hlt
  cases ch with
  | A => exact List.mem_cons_self
  | B => exact List.mem_cons_of_mem _ List.mem_cons_self

/-! ### The samples that a transfer carries -/

section Carry

variable {α γ : Type*} {cap : ℕ} {N : ℕ}

/-- A channel that sources, with every unused sample counted as far as a run of `N` samples
counts. -/
structure Feeding (N : ℕ) (c : OutChannel α cap) : Prop where
  sourcing : c.m_mode.sourcing
  counted : N = 0 ∨ c.unused.length ≤ c.m_out_samples_avail
  avail_lt : c.m_out_samples_avail < 2 ^ 32

/-- One position that does not look ahead uses up the next sample and carries it. -/
theorem Feeding.encode_out {convert : Mode → Option α → γ} {v : γ} {c c' : OutChannel α cap}
    (h : Feeding N c) (hdone : c.encode_out convert N false = .done v c') :
    Feeding N c' ∧ c'.unused = c.unused.tail ∧ c'.m_mode = c.m_mode ∧
      ∀ x, c.unused.head? = some x → v = convert c.m_mode (some x) := by
  obtain ⟨val, hval, rfl⟩ := OutChannel.encode_out_eq_done_iff.mp hdone
  by_cases hcount : N = 0 ∨ c.m_out_samples_avail > 0
  · cases htake : c.takeNext with
    | none =>
        rw [OutChannel.encode_sample_of_unsupplied h.sourcing hcount htake] at hval
        cases hval
    | some r =>
        obtain ⟨x, q⟩ := r
        have hunused := OutChannel.unused_of_takeNext htake
        rw [OutChannel.encode_sample_of_counted h.sourcing hcount htake] at hval
        cases hval
        have htail : ∀ avail, (⟨c.m_mode, none, some x, q, avail⟩ : OutChannel α cap).unused =
            c.unused.tail := by
          intro avail
          rw [hunused]
          rfl
        refine ⟨⟨h.sourcing, ?_, Nat.mod_lt _ (Nat.two_pow_pos 32)⟩, htail _, rfl, ?_⟩
        · refine h.counted.imp id fun hle => ?_
          rw [hunused, List.length_cons] at hle
          have hpred := Counter.pred_of_pos (w := 32) (n := c.m_out_samples_avail) (by omega)
            h.avail_lt.le
          simp only [Bool.false_eq_true, if_false, htail, hunused, List.tail_cons, hpred]
          omega
        · intro y hy
          rw [hunused] at hy
          rw [Option.some.inj hy]
  · obtain ⟨hN, havail⟩ := not_or.mp hcount
    have hnil : c.unused = [] := by
      have := h.counted.resolve_left hN
      exact List.length_eq_zero_iff.mp (by omega)
    rw [OutChannel.encode_sample_of_uncounted h.sourcing hcount] at hval
    split at hval <;> cases hval
    refine ⟨h, by rw [hnil, List.tail_nil], rfl, ?_⟩
    intro y hy
    rw [hnil] at hy
    cases hy

variable {convert : Channel → Mode → Option α → γ} {ch : Channel}

/-- **A transfer carries the unused samples in order**, at the positions below `N`, and
uses them up. -/
theorem fillSamples_carries {k : ℕ} {r : Codes γ} {s t : OutState α cap}
    {buffer : List (Codes γ)} (hN : N < 2 ^ 64)
    (h : fillSamples convert N k r s = .filled t buffer) (hfeed : Feeding N (s.chan ch)) :
    (∀ j x, j < k → (s.chan ch).unused[j]? = some x → (N = 0 ∨ s.m_out_sampleno + j < N) →
      ∃ c, buffer[j]? = some c ∧
        c.chan ch = some (convert ch (s.chan ch).m_mode (some x))) ∧
      ((N = 0 ∨ s.m_out_sampleno + k ≤ N) → Feeding N (t.chan ch) ∧
        (t.chan ch).unused = (s.chan ch).unused.drop k ∧
        (t.chan ch).m_mode = (s.chan ch).m_mode ∧
        (N = 0 ∨ t.m_out_sampleno = s.m_out_sampleno + k)) := by
  induction k generalizing r s buffer with
  | zero =>
      cases h
      exact ⟨fun j x hj => absurd hj (Nat.not_lt_zero j),
        fun _ => ⟨hfeed, rfl, rfl, .inr rfl⟩⟩
  | succ k ih =>
      obtain ⟨c, u, rest, rfl, hrest, hno, hin, -⟩ := fillSamples_succ_eq_filled h
      -- below `N` the position does not look ahead
      have hnext : (N = 0 ∨ s.m_out_sampleno < N) →
          (N = 0 ∨ u.m_out_sampleno = s.m_out_sampleno + 1) ∧ Feeding N (u.chan ch) ∧
          (u.chan ch).unused = (s.chan ch).unused.tail ∧
          (u.chan ch).m_mode = (s.chan ch).m_mode ∧
          ∀ x, (s.chan ch).unused.head? = some x →
            c.chan ch = some (convert ch (s.chan ch).m_mode (some x)) := by
        intro hlt
        obtain ⟨v, hv, hdone⟩ := hin (by omega) ch
        rw [decide_eq_false (by omega)] at hdone
        obtain ⟨hfeed', hunused, hmode, hhead⟩ := hfeed.encode_out hdone
        refine ⟨?_, hfeed', hunused, hmode, fun x hx => ?_⟩
        · refine hlt.imp id fun hlt => ?_
          rw [hno, Counter.add_of_lt (by omega)]
        · rw [hv, hhead x hx]
      constructor
      · intro j x hj hx hjN
        obtain ⟨hno', hfeed', hunused, hmode, hhead⟩ := hnext (by omega)
        cases j with
        | zero => exact ⟨c, rfl, hhead x (by rw [List.head?_eq_getElem?, hx])⟩
        | succ j =>
            obtain ⟨d, hd, hdch⟩ := (ih hrest hfeed').1 j x (by omega)
              (by rw [hunused, List.getElem?_tail, hx]) (by omega)
            rw [hmode] at hdch
            exact ⟨d, hd, hdch⟩
      · intro hle
        obtain ⟨hno', hfeed', hunused, hmode, -⟩ := hnext (by omega)
        obtain ⟨hfeedt, hdrop, hmodet, hnot⟩ := (ih hrest hfeed').2 (by omega)
        refine ⟨hfeedt, ?_, hmodet.trans hmode, by omega⟩
        rw [hdrop, hunused, List.drop_tail]

/-- The transfers that `handle_out_transfer` fills one after the other. -/
def sends (convert : Channel → Mode → Option α → γ) (N S : ℕ) :
    ℕ → OutState α cap → Option (List (List (Codes γ)))
  | 0, _ => some []
  | T + 1, s =>
      match handle_out_transfer convert N S s with
      | .filled t codes => (sends convert N S T t).map fun transfers => codes :: transfers
      | .threw _ | .waits => none

/-- **Successive transfers carry the unused samples in order**, at the positions below
`N`. -/
theorem sends_carries {S T : ℕ} {s : OutState α cap} {transfers : List (List (Codes γ))}
    (hN : N < 2 ^ 64) (h : sends convert N S T s = some transfers)
    (hfeed : Feeding N (s.chan ch)) {i j : ℕ} (hi : i < T) (hj : j < S) {x : α}
    (hx : (s.chan ch).unused[i * S + j]? = some x)
    (hpos : N = 0 ∨ s.m_out_sampleno + (i * S + j) < N) :
    ∃ codes c, transfers[i]? = some codes ∧ codes[j]? = some c ∧
      c.chan ch = some (convert ch (s.chan ch).m_mode (some x)) := by
  induction T generalizing s transfers i with
  | zero => exact absurd hi (Nat.not_lt_zero i)
  | succ T ih =>
      rw [sends] at h
      split at h
      · rename_i t codes hfill
        obtain ⟨rest, hrest, rfl⟩ := Option.map_eq_some_iff.mp h
        obtain ⟨hcarry, hnext⟩ := fillSamples_carries hN hfill hfeed
        cases i with
        | zero =>
            rw [Nat.zero_mul, Nat.zero_add] at hx hpos
            obtain ⟨c, hc, hch⟩ := hcarry j x hj hx hpos
            exact ⟨codes, c, rfl, hc, hch⟩
        | succ i =>
            have hshift : (i + 1) * S + j = S + (i * S + j) := by ring
            rw [hshift] at hx hpos
            obtain ⟨hfeedt, hdrop, hmode, hno⟩ := hnext (by omega)
            have hiT : i < T := Nat.lt_of_succ_lt_succ hi
            obtain ⟨codes', c, hcodes, hc, hch⟩ := ih hrest hfeedt hiT
              (by rw [hdrop, List.getElem?_drop, hx]) (by omega)
            rw [hmode] at hch
            exact ⟨codes', c, hcodes, hc, hch⟩
      · cases h
      · cases h

end Carry

/-! ### Round trips -/

/-- The registers `a` and `b` of a position; one that was never set holds `unset`. -/
def registers (unset : ℕ) (c : Codes ℕ) : ℕ × ℕ := (c.a.getD unset, c.b.getD unset)

theorem codeOf_registers (unset : ℕ) {c : Codes ℕ} {ch : Channel} {v : ℕ}
    (h : c.chan ch = some v) : codeOf (registers unset c) ch = v := by
  cases ch with
  | A => exact congrArg (Option.getD · unset) h
  | B => exact congrArg (Option.getD · unset) h

/-- A returned code is decoded to the voltage it was made of. -/
theorem decode_returned {fwver : ℚ} {packets j : ℕ} {codes : List (Codes ℕ)} {c : Codes ℕ}
    {unset : ℕ} {out ins : ℕ → UInt8} {ch : Channel} {x : ℚ} (hlo : 0 ≤ x) (hhi : x ≤ 5)
    (hreturns : Returns fwver packets
      (layOut fwver packets (codes.map (registers unset)) out) ins)
    (hj : j < packets * chunk_size) (hcode : codes[j]? = some c)
    (hc : c.chan ch = some (encode .default ch .SVMI (some x))) :
    ∃ samples, ((⟨fwver, .default, 0⟩ : Decoder).samples packets ins)[j]? = some samples ∧
      |samples (voltageEntry ch) - x| ≤ 5 / 65536 := by
  have hj' : j / chunk_size < packets := Nat.div_lt_of_lt_mul (by rwa [Nat.mul_comm])
  have hreg := codeOf_registers unset hc
  have hcode' : (codes.map (registers unset))[j]? = some (registers unset c) := by
    rw [List.getElem?_map, hcode, Option.map_some]
  have hlt : codeOf (registers unset c) ch < 65536 := by
    rw [hreg]
    exact encode_lt _ _ _ _
  have hout := outWord_layOut fwver out hj hcode' hlt
  rw [hreg] at hout
  have hword : sampleWords fwver ins (j / chunk_size) (j % chunk_size) (voltageEntry ch) =
      encode .default ch .SVMI (some x) := by
    rw [sampleWords_eq_inWord, ← hout]
    exact hreturns _ hj' _ (Nat.mod_lt _ (by decide)) ch
  have hreading : (⟨fwver, .default, 0⟩ : Decoder).readings (voltageEntry ch) =
      .voltage ch := by
    rw [Decoder.readings]
    split <;> cases ch <;> rfl
  obtain ⟨before, hsample⟩ := Decoder.getElem?_decode_samples (d := ⟨fwver, .default, 0⟩)
    (fun _ => 0) (transferWords fwver packets ins) j
  rw [transferWords, List.getElem?_map, getElem?_positions hj, Option.map_some,
    Option.map_some] at hsample
  refine ⟨_, hsample, ?_⟩
  rw [Decoder.decode_sample, hreading, hword]
  exact abs_decode_encode_le ch hlo hhi fwver 0 _

/-- **Planar packets decode to what interleaved ones decode to** in mux mode 0, for any
calibration, when their words are the same. -/
theorem samples_of_same_words {fwver fwver' : ℚ} (hold : fwver < 2) (hnew : 2 ≤ fwver')
    (m_cal : EEPROM_cal) {packets : ℕ} {planar interleaved : ℕ → UInt8}
    (hwords : ∀ p < packets, ∀ i < 256, ∀ k < 4,
      inWord fwver planar p i k = inWord fwver' interleaved p i k) :
    (⟨fwver, m_cal, 0⟩ : Decoder).samples packets planar =
      (⟨fwver', m_cal, 0⟩ : Decoder).samples packets interleaved := by
  have hreadings : (⟨fwver, m_cal, 0⟩ : Decoder).readings =
      (⟨fwver', m_cal, 0⟩ : Decoder).readings := by
    rw [Decoder.readings, Decoder.readings, if_neg (not_le.mpr hold), if_pos hnew]
  have htransfer : transferWords fwver packets planar =
      transferWords fwver' packets interleaved := by
    refine List.map_congr_left ?_
    rintro ⟨p, i⟩ hx
    obtain ⟨hp, hi⟩ := List.mem_product.mp hx
    funext k
    rw [sampleWords_eq_inWord, sampleWords_eq_inWord]
    exact hwords p (List.mem_range.mp hp) i (List.mem_range.mp hi) k k.isLt
  rw [Decoder.samples, Decoder.samples, htransfer]
  exact Decoder.decode_samples_congr hreadings rfl _ _

/-- **Encoder and decoder agree in both layouts.** Voltages in range that are sourced on
both channels with the default calibration, sent in any number of transfers of any number
of packets, and returned by the device, are decoded in order, each on its own channel, to
within one LSB; and the two layouts of the input decode alike. -/
theorem loopback (fwver : ℚ) (packets : ℕ) :
    (∀ {cap N T : ℕ} {s : OutState ℚ cap} {transfers : List (List (Codes ℕ))} (unset : ℕ)
        (outs ins : ℕ → ℕ → UInt8), N < 2 ^ 64 →
      sends (encode .default) N (packets * chunk_size) T s = some transfers →
      (∀ ch, Feeding N (s.chan ch) ∧ (s.chan ch).m_mode = .SVMI) →
      (∀ ch, ∀ x ∈ (s.chan ch).unused, 0 ≤ x ∧ x ≤ 5) →
      (∀ i codes, transfers[i]? = some codes → Returns fwver packets
        (layOut fwver packets (codes.map (registers unset)) (outs i)) (ins i)) →
      ∀ i < T, ∀ j < packets * chunk_size, ∀ ch x,
        (s.chan ch).unused[i * (packets * chunk_size) + j]? = some x →
        (N = 0 ∨ s.m_out_sampleno + (i * (packets * chunk_size) + j) < N) →
        ∃ samples,
          ((⟨fwver, .default, 0⟩ : Decoder).samples packets (ins i))[j]? = some samples ∧
            |samples (voltageEntry ch) - x| ≤ 5 / 65536) ∧
      ∀ fwver', fwver < 2 → 2 ≤ fwver' → ∀ m_cal planar interleaved,
        (∀ p < packets, ∀ i < 256, ∀ k < 4,
          inWord fwver planar p i k = inWord fwver' interleaved p i k) →
        (⟨fwver, m_cal, 0⟩ : Decoder).samples packets planar =
          (⟨fwver', m_cal, 0⟩ : Decoder).samples packets interleaved := by
  constructor
  · intro cap N T s transfers unset outs ins hN hsends hfeed hvolts hreturns i hi j hj ch x hx
      hpos
    obtain ⟨codes, c, hcodes, hc, hch⟩ := sends_carries hN hsends (hfeed ch).1 hi hj hx hpos
    rw [(hfeed ch).2] at hch
    obtain ⟨hlo, hhi⟩ := hvolts ch x (List.mem_of_getElem? hx)
    exact decode_returned hlo hhi (hreturns i codes hcodes) hj hc hch
  · intro fwver' hold hnew m_cal planar interleaved hwords
    exact samples_of_same_words hold hnew m_cal hwords

/-- Three voltages on each channel. -/
def threeEach : OutState ℚ 3 where
  a := ⟨.SVMI, none, none, ⟨[5 / 2, 0, 1], Nat.le_refl 3⟩, 3⟩
  b := ⟨.SVMI, none, none, ⟨[4, 5, 1 / 2], Nat.le_refl 3⟩, 3⟩
  m_out_sampleno := 0

/-- All of them come back, in both layouts. -/
theorem loopback_three : ∀ fwver ∈ [(1 : ℚ), 217 / 100],
    ∃ codes, sends (encode .default) 3 (1 * chunk_size) 1 threeEach = some [codes] ∧
      ∀ (ch : Channel) (x : ℚ) (j : ℕ), (threeEach.chan ch).unused[j]? = some x → ∃ samples,
        ((⟨fwver, .default, 0⟩ : Decoder).samples 1
          (returned fwver 1 (layOut fwver 1 (codes.map (registers 0)) fun _ => 0)))[j]? =
            some samples ∧ |samples (voltageEntry ch) - x| ≤ 5 / 65536 := by
  intro fwver hfwver
  have hone : ((sends (encode .default) 3 (1 * chunk_size) 1 threeEach).map List.length) =
      some 1 := by decide +kernel
  obtain ⟨transfers, hsends, hlen⟩ := Option.map_eq_some_iff.mp hone
  obtain ⟨codes, rfl⟩ := List.length_eq_one_iff.mp hlen
  refine ⟨codes, hsends, fun ch x j hx => ?_⟩
  have hfed : ∀ ch, Feeding 3 (threeEach.chan ch) ∧ (threeEach.chan ch).m_mode = .SVMI := by
    intro ch
    cases ch with
    | A | B => exact ⟨⟨by decide, .inr (by decide), by decide⟩, rfl⟩
  have hvolts : ∀ ch, ∀ x ∈ (threeEach.chan ch).unused, 0 ≤ x ∧ x ≤ 5 := by
    intro ch
    cases ch with
    | A | B => decide +kernel
  have hj : j < 3 := by
    obtain ⟨hlt, -⟩ := List.getElem?_eq_some_iff.mp hx
    cases ch with
    | A | B => exact hlt
  have hpos : threeEach.m_out_sampleno + (0 * (1 * chunk_size) + j) < 3 := by
    rw [show threeEach.m_out_sampleno = 0 from rfl]
    omega
  refine (loopback fwver 1).1 0 (fun _ _ => 0)
    (fun _ => returned fwver 1 (layOut fwver 1 (codes.map (registers 0)) fun _ => 0))
    (by decide) hsends hfed hvolts ?_ 0 (by decide) j ?_ ch x ?_ (.inr hpos)
  · intro i codes' hcodes
    cases i with
    | zero =>
        obtain rfl := Option.some.inj hcodes
        exact returns_returned _ _ _
    | succ i => cases hcodes
  · rw [one_mul, chunk_size]
    omega
  · rw [zero_mul, zero_add]
    exact hx

end Libsmu
