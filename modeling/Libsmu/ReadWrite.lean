import Libsmu.GetSamples
import Libsmu.OutputRuns
import Libsmu.WireRoundTrip

/-!
# Writing, Running and Reading

What the user does with a device that is not streaming: samples are written to its channels,
the session is run for a number of samples, and what it has captured is read. A run sends the
transfers of the output (`OutputRuns`) and pushes the samples of as many transfers of the input
(`GetSamples`); then it is over. A device that returns what it is sent closes the circle.

`Usage` is any sequence of these calls, each run fitting what room the input queue has left.

## Main results

* `near_of_run`: a run captures what its transfers have carried.
* `noncontinuous_loopback`: what is read, or waits to be, are the samples written, in order,
  the last one over and over where no other is left, each within one LSB.
-/

namespace Libsmu

/-! ### A sample-and-hold that carries something -/

namespace Hold

variable {α : Type*} {P : α → Prop} {h : Hold α}

/-- The samples that a sample-and-hold may still carry have the property. -/
structure Among (P : α → Prop) (h : Hold α) : Prop where
  unused : ∀ x ∈ h.unused, P x
  last : ∀ x, h.last = some x → P x

/-- What is written is among them. -/
theorem Among.write (hP : h.Among P) {buf : List α} (hbuf : ∀ x ∈ buf, P x) :
    (h.write buf).Among P where
  unused x hx := (List.mem_append.mp hx).elim (hP.unused x) (hbuf x)
  last := hP.last

/-- What is taken leaves others of them. -/
theorem Among.next (hP : h.Among P) : h.next.2.Among P := by
  rw [Hold.next]
  split
  · rename_i x rest hunused
    refine ⟨fun y hy => hP.unused y (by rw [hunused]; exact List.mem_cons_of_mem _ hy), ?_⟩
    intro y hy
    rw [← Option.some.inj hy]
    exact hP.unused x (by rw [hunused]; exact List.mem_cons_self)
  · exact hP

/-- With a sample to carry it carries samples for ever. -/
theorem Among.emit (hP : h.Among P) (hgoing : h.unused ≠ [] ∨ h.last ≠ none) (n : ℕ) :
    ∀ y ∈ (emit Hold.next n h).1, ∃ x, y = some x ∧ P x := by
  have hstep : ∀ h : Hold α, h.Among P ∧ (h.unused ≠ [] ∨ h.last ≠ none) →
      (∃ x, h.next.1 = some x ∧ P x) ∧
        h.next.2.Among P ∧ (h.next.2.unused ≠ [] ∨ h.next.2.last ≠ none) := by
    rintro h ⟨hP, hgoing⟩
    refine ⟨?_, hP.next, ?_⟩
    · rw [Hold.next]
      split
      · rename_i x rest hunused
        exact ⟨x, rfl, hP.unused x (by rw [hunused]; exact List.mem_cons_self)⟩
      · rename_i hunused
        obtain ⟨x, hx⟩ := Option.ne_none_iff_exists'.mp (hgoing.resolve_left fun h => h hunused)
        exact ⟨x, hx, hP.last x hx⟩
    · rw [Hold.next]
      split
      · exact .inr (by simp)
      · exact hgoing
  exact (emit_forall hstep n ⟨hP, hgoing⟩).1

end Hold

namespace OutputRuns

variable {α γ : Type*} {cap S N : ℕ} {convert : Channel → Mode → Option α → γ} {ch : Channel}

/-- What is to be carried was written. -/
theorem ideal_among {P : α → Prop} {as : List (Act α)}
    (hP : ∀ buf, .write ch buf ∈ as → ∀ x ∈ buf, P x) : (ideal ch as).2.Among P := by
  induction as using List.reverseRecOn with
  | nil => exact ⟨fun x hx => absurd hx List.not_mem_nil, fun x hx => (by cases hx)⟩
  | append_singleton as a ih =>
      have hinit := ih fun buf hbuf => hP buf (List.mem_append_left _ hbuf)
      cases a with
      | write ch' buf =>
          rw [ideal_write]
          by_cases hch : ch' = ch
          · subst hch
            rw [if_pos rfl]
            exact hinit.write (hP buf (by simp))
          · rw [if_neg hch]
            exact hinit
      | run N =>
          rw [ideal_run]
          exact emit_invariant (fun _ (h : Hold α) => h.Among P) hinit fun _ _ _ h => h.next

/-- A run gets to its end only if each sourcing channel has something to carry. -/
theorem primed_of_runFills {k : ℕ} {s : OutState α cap} {r : OutState α cap × List (Codes γ)}
    (hN : 0 < N) (hS : 0 < S) (hzero : s.m_out_sampleno = 0)
    (h : runFills convert N S k s = some r) (hsrc : (s.chan ch).m_mode.sourcing) :
    (s.chan ch).Primed := by
  have hlt : s.m_out_sampleno < N := by omega
  obtain ⟨S, rfl⟩ := Nat.exists_eq_succ_of_ne_zero hS.ne'
  cases k with
  | zero =>
      rw [runFills, if_pos hlt] at h
      cases h
  | succ k =>
      rw [runFills, if_pos hlt] at h
      split at h
      · rename_i t buffer hfill
        obtain ⟨c, u, rest, -, -, -, hin, -⟩ := fillSamples_succ_eq_filled hfill
        obtain ⟨v, -, hdone⟩ := hin (.inr hlt.le) ch
        obtain ⟨val, hval, -⟩ := OutChannel.encode_out_eq_done_iff.mp hdone
        rcases Nat.eq_zero_or_pos (s.chan ch).m_out_samples_avail with havail | hpos
        · rw [OutChannel.encode_sample_of_uncounted hsrc (by omega)] at hval
          split at hval
          · rename_i x hx
            exact .inr (by rw [hx]; simp)
          · cases hval
        · exact .inl hpos
      · cases h
      · cases h

end OutputRuns

namespace ReadWrite

open InputFifo (Call callMachine streamed)
open OutputRuns (modeOf runFills fillsFor ideal Covered Agrees)

variable {cap m_queue_size packets N : ℕ} {fwver : ℚ} {modeA modeB : Mode} {ch : Channel}

/-! ### The calls -/

/-- The codes of transfer `i` of a run. -/
def transfer (packets i : ℕ) (codes : List (Codes ℕ)) : List (Codes ℕ) :=
  (codes.drop (i * (packets * chunk_size))).take (packets * chunk_size)

/-- The transfers of the input return those of the output, one for one. -/
def Returned (fwver : ℚ) (packets : ℕ) (codes : List (Codes ℕ)) (buffers : List (ℕ → UInt8)) :
    Prop :=
  ∀ i ins, buffers[i]? = some ins → ∃ unset out,
    Returns fwver packets
      (layOut fwver packets ((transfer packets i codes).map (registers unset)) out) ins

/-- What the user may have done so far, with the two sides of the device and what was read. The
calibration is the default, and the multiplexer in its first mode. -/
inductive Usage (fwver : ℚ) (packets : ℕ) (modeA modeB : Mode) :
    List (OutputRuns.Act ℚ) → OutputRuns.State ℚ ℕ cap →
      InputFifo.State (Fin 4 → ℚ) m_queue_size → List (Fin 4 → ℚ) → Prop
  | start : Usage fwver packets modeA modeB [] (.init ℚ ℕ cap modeA modeB) .init []
  | write {as : List (OutputRuns.Act ℚ)} {s s' : OutputRuns.State ℚ ℕ cap}
      {t : InputFifo.State (Fin 4 → ℚ) m_queue_size} {data : List (Fin 4 → ℚ)} {ch : Channel}
      {buf : List ℚ} (h : Usage fwver packets modeA modeB as s t data)
      (hstep : (OutputRuns.machine (encode .default) (packets * chunk_size) cap).step s
        (.write ch buf) = some s') :
      Usage fwver packets modeA modeB (as ++ [.write ch buf]) s' t data
  | run {as : List (OutputRuns.Act ℚ)} {s : OutputRuns.State ℚ ℕ cap}
      {t t' : InputFifo.State (Fin 4 → ℚ) m_queue_size} {data : List (Fin 4 → ℚ)} {N : ℕ}
      {r : OutState ℚ cap × List (Codes ℕ)} {buffers : List (ℕ → UInt8)}
      {bs : List (InputFifo.Act (Fin 4 → ℚ))}
      (h : Usage fwver packets modeA modeB as s t data) (hN : 0 < N ∧ N < 2 ^ 64)
      (hroom : t.m_in_samples_q.items.length + N ≤ m_queue_size)
      (hfills : runFills (encode .default) N (packets * chunk_size)
        (fillsFor (packets * chunk_size) N) { s.out with m_out_sampleno := 0 } = some r)
      (hlen : buffers.length = fillsFor (packets * chunk_size) N)
      (hreturned : Returned fwver packets r.2 buffers)
      (hbs : ∀ b ∈ bs, b.captures = true)
      (hstream : streamed bs =
        buffers.flatMap ((⟨fwver, .default, 0⟩ : Decoder).samples packets))
      (hin : (InputFifo.machine (Fin 4 → ℚ) m_queue_size N).run t.restart bs = some t')
      (husb : t'.usb = .outside) :
      Usage fwver packets modeA modeB (as ++ [.run N]) ⟨r.1, s.sent ++ r.2.take N⟩ t' data
  | read {as : List (OutputRuns.Act ℚ)} {s : OutputRuns.State ℚ ℕ cap}
      {t : InputFifo.State (Fin 4 → ℚ) m_queue_size} {data : List (Fin 4 → ℚ)} {n N : ℕ}
      {bs : List (InputFifo.Act (Fin 4 → ℚ))} {c : Call (Fin 4 → ℚ) m_queue_size}
      (h : Usage fwver packets modeA modeB as s t data) (hbs : ∀ b ∈ bs, b = .reader)
      (hread : (callMachine (Fin 4 → ℚ) m_queue_size N).run (.begin t n false) bs = some c)
      (hret : c.Returned) :
      Usage fwver packets modeA modeB as s c.toState (data ++ c.delivered)

variable {as : List (OutputRuns.Act ℚ)} {s : OutputRuns.State ℚ ℕ cap}
  {t : InputFifo.State (Fin 4 → ℚ) m_queue_size} {data : List (Fin 4 → ℚ)}

/-- A run is a step of the output. -/
theorem step_of_runFills {r : OutState ℚ cap × List (Codes ℕ)} {S : ℕ} (hN : 0 < N ∧ N < 2 ^ 64)
    (hfills : runFills (encode .default) N S (fillsFor S N) { s.out with m_out_sampleno := 0 } =
      some r) :
    (OutputRuns.machine (encode .default) S cap).step s (.run N) =
      some ⟨r.1, s.sent ++ r.2.take N⟩ := by
  simp only [OutputRuns.machine]
  rw [if_pos hN, hfills]
  rfl

/-- The output side is a history of `OutputRuns`. -/
theorem Usage.out (h : Usage fwver packets modeA modeB as s t data) :
    (OutputRuns.machine (encode .default) (packets * chunk_size) cap).run
      (.init ℚ ℕ cap modeA modeB) as = some s := by
  induction h with
  | start => rfl
  | write h hstep ih => exact (Machine.run_concat_eq_some_iff _).mpr ⟨_, ih, hstep⟩
  | run h hN hroom hfills hlen hreturned hbs hstream hin husb ih =>
      exact (Machine.run_concat_eq_some_iff _).mpr ⟨_, ih, step_of_runFills hN hfills⟩
  | read h hbs hread hret ih => exact ih

/-- The transfers of a run that the queue has room for carry fewer samples than `m_in_sampleno`
can count. -/
theorem length_streamed_lt (hsize : m_queue_size < 2 ^ 32)
    (hS : packets * chunk_size < 2 ^ 32) {n N : ℕ} (hroom : n + N ≤ m_queue_size) {d : Decoder}
    {buffers : List (ℕ → UInt8)} (hlen : buffers.length = fillsFor (packets * chunk_size) N)
    {bs : List (InputFifo.Act (Fin 4 → ℚ))}
    (hstream : streamed bs = buffers.flatMap (d.samples packets)) :
    (streamed bs).length < 2 ^ 64 := by
  have hle := Nat.div_mul_le_self (N + packets * chunk_size - 1) (packets * chunk_size)
  rw [hstream, InputStream.length_flatMap_samples, hlen, fillsFor]
  omega

/-- Between the calls nothing goes on at the input side. -/
theorem Usage.quiet (hsize : m_queue_size < 2 ^ 32) (hS : packets * chunk_size < 2 ^ 32)
    (h : Usage fwver packets modeA modeB as s t data) : t.Quiet ∧ t.usb = .outside := by
  induction h with
  | start => exact ⟨⟨rfl, rfl, rfl⟩, rfl⟩
  | write h hstep ih => exact ih
  | run h hN hroom hfills hlen hreturned hbs hstream hin husb ih =>
      have hlt := length_streamed_lt hsize hS hroom hlen hstream
      exact ⟨((InputFifo.captured_of_run hsize ih.1 ih.2 hbs hlt hin).done husb).1, husb⟩
  | read h hbs hread hret ih =>
      exact (InputFifo.read_split hsize ih.1 ih.2 hbs hread hret).2

/-! ### What a run captures -/

/-- A sample that was measured and one that was to be sourced. -/
def Near (ch : Channel) (v : Fin 4 → ℚ) (y : Option ℚ) : Prop :=
  ∃ x, y = some x ∧ |v (voltageEntry ch) - x| ≤ 5 / 65536

/-- Lists are related when they are of one length and related place by place. -/
theorem forall₂_of_getElem? {β γ : Type*} {R : β → γ → Prop} {xs : List β} {ys : List γ}
    (hlen : xs.length = ys.length)
    (h : ∀ (i : ℕ) x y, xs[i]? = some x → ys[i]? = some y → R x y) : List.Forall₂ R xs ys :=
  List.forall₂_iff_get.mpr ⟨hlen, fun i hx hy =>
    h i _ _ (List.getElem?_eq_getElem hx) (List.getElem?_eq_getElem hy)⟩

/-- The transfers of a run have room for its samples. -/
theorem le_fillsFor {S : ℕ} (hS : 0 < S) (N : ℕ) : N ≤ fillsFor S N * S := by
  have hdiv := Nat.div_add_mod (N + S - 1) S
  have hmod := Nat.mod_lt (N + S - 1) hS
  rw [fillsFor, Nat.mul_comm]
  omega

/-- **A run captures what its transfers carry.** The codes at its positions are those of the
samples `ys`, in range, and each comes back in its place. -/
theorem near_of_run (hpackets : 0 < packets) {codes : List (Codes ℕ)} {ys : List (Option ℚ)}
    {buffers : List (ℕ → UInt8)}
    (hcodes : (codes.take N).map (·.chan ch) = codesOf (encode .default) ch .SVMI ys)
    (hys : ys.length = N) (hrange : ∀ y ∈ ys, ∃ x, y = some x ∧ 0 ≤ x ∧ x ≤ 5)
    (hlen : buffers.length = fillsFor (packets * chunk_size) N)
    (hreturned : Returned fwver packets codes buffers) :
    List.Forall₂ (Near ch)
      ((buffers.flatMap ((⟨fwver, .default, 0⟩ : Decoder).samples packets)).take N) ys := by
  have hS : 0 < packets * chunk_size := Nat.mul_pos hpackets (by decide)
  have hsamples := InputStream.length_samples (⟨fwver, .default, 0⟩ : Decoder) packets
  refine forall₂_of_getElem? ?_ fun j v y hv hy => ?_
  · have htotal : (buffers.flatMap
        ((⟨fwver, .default, 0⟩ : Decoder).samples packets)).length =
        buffers.length * (packets * chunk_size) := by
      simp [List.length_flatMap, hsamples]
    rw [List.length_take, htotal, hlen, hys, Nat.min_eq_left (le_fillsFor hS N)]
  · have hj : j < N := by
      rw [← hys]
      exact (List.getElem?_eq_some_iff.mp hy).1
    rw [List.getElem?_take_of_lt hj, InputStream.getElem?_flatMap hsamples,
      Option.bind_eq_some_iff] at hv
    obtain ⟨ins, hins, hsample⟩ := hv
    obtain ⟨unset, out, hreturns⟩ := hreturned _ _ hins
    -- the code at the position is that of the sample
    obtain ⟨x, rfl, hlo, hhi⟩ := hrange y (List.mem_of_getElem? hy)
    have hcode := congrArg (·[j]?) hcodes
    simp only [codesOf, List.getElem?_map, hy, List.getElem?_take_of_lt hj] at hcode
    obtain ⟨c, hc, hchan⟩ := Option.map_eq_some_iff.mp hcode
    have hmod := Nat.mod_lt j hS
    have hplace : (transfer packets (j / (packets * chunk_size)) codes)[
        j % (packets * chunk_size)]? = some c := by
      rw [transfer, List.getElem?_take_of_lt hmod, List.getElem?_drop, Nat.mul_comm (_ / _),
        Nat.div_add_mod, hc]
    obtain ⟨v', hv', hclose⟩ := decode_returned hlo hhi hreturns hmod hplace hchan
    rw [hsample] at hv'
    rw [Option.some.inj hv']
    exact ⟨x, rfl, hclose⟩

/-- What can be carried by the code can be carried by the sample-and-hold. -/
theorem going_of_agrees (hagrees : Agrees (encode .default) ch (modeOf modeA modeB ch) as s)
    (hbacked : (s.out.chan ch).Backed) (hprimed : (s.out.chan ch).Primed) :
    (ideal ch as).2.unused ≠ [] ∨ (ideal ch as).2.last ≠ none := by
  obtain ⟨⟨-, hunused⟩, hlast⟩ := hagrees
  rw [← hunused]
  by_cases hnil : (s.out.chan ch).unused = []
  · have hle := hbacked.le_unused
    rw [hnil, List.length_nil] at hle
    rw [← hlast hnil]
    exact .inr (Option.isSome_iff_ne_none.mp (hprimed.resolve_left (by omega)))
  · exact .inl hnil

/-- **There and back in noncontinuous runs.** With the calibration that a device starts with,
samples are written to a channel that sources voltages, the session is run, and the samples
captured are read, in any order and any number of times. If each run finds its samples covered by
the counter of those to come, what was read and what waits to be are the voltages written, in order,
the last one for as long as no other was left, each within one LSB. -/
theorem noncontinuous_loopback (hcap : cap < 2 ^ 32) (hsize : m_queue_size < 2 ^ 32)
    (hpackets : 0 < packets) (hS : packets * chunk_size < 2 ^ 32)
    (h : Usage fwver packets modeA modeB as s t data) (hmode : modeOf modeA modeB ch = .SVMI)
    (hcov : (OutputRuns.machine (encode .default) (packets * chunk_size) cap).Meets (Covered ch)
      (.init ℚ ℕ cap modeA modeB) as)
    (hrange : ∀ buf, .write ch buf ∈ as → ∀ x ∈ buf, 0 ≤ x ∧ x ≤ 5) :
    List.Forall₂ (Near ch) (data ++ t.m_in_samples_q.items) (ideal ch as).1 := by
  have hS' : 0 < packets * chunk_size := Nat.mul_pos hpackets (by decide)
  have hsrc : (modeOf modeA modeB ch).sourcing := by rw [hmode]; decide
  induction h with
  | start => exact .nil
  | write h hstep ih =>
      rw [OutputRuns.ideal_write]
      exact ih (Machine.meets_append_iff.mp hcov).1 fun buf hbuf =>
        hrange buf (List.mem_append_left _ hbuf)
  | @run as s t t' data N r buffers bs h hN hroom hfills hlen hreturned hbs hstream hin husb ih =>
      obtain ⟨hmeets, hlast⟩ := Machine.meets_append_iff.mp hcov
      have hrange' : ∀ buf, .write ch buf ∈ as → ∀ x ∈ buf, 0 ≤ x ∧ x ≤ 5 := fun buf hbuf =>
        hrange buf (List.mem_append_left _ hbuf)
      -- the output goes on as it should
      have hagrees : Agrees (encode .default) ch (modeOf modeA modeB ch) as s :=
        ((OutputRuns.agrees_or_behind hcap hS' hS hsrc h.out).resolve_right
          fun hbehind => hbehind.1 hmeets).2
      obtain ⟨hmode', hbacked, -⟩ := OutputRuns.backed_of_run hcap h.out ch
      have hstep := step_of_runFills hN hfills
      have hnext := Agrees.run hcap hS' hS (by rwa [hmode']) hbacked (by rwa [hmode'])
        (hlast s h.out).1 hstep
      have hsent := hnext.1.1
      rw [OutputRuns.ideal_run, hmode', codesOf, List.map_append, List.map_append,
        hagrees.1.1, codesOf, List.append_right_inj, hmode] at hsent
      have hsame : ({ s.out with m_out_sampleno := 0 } : OutState ℚ cap).chan ch =
          s.out.chan ch := by
        cases ch <;> rfl
      have hprimed := OutputRuns.primed_of_runFills hN.1 hS' rfl hfills
        (by rwa [hsame, hmode'])
      rw [hsame] at hprimed
      have hgoing := going_of_agrees hagrees hbacked hprimed
      have hnear : List.Forall₂ (Near ch)
          ((buffers.flatMap ((⟨fwver, .default, 0⟩ : Decoder).samples packets)).take N)
          (emit Hold.next N (ideal ch as).2).1 :=
        near_of_run hpackets hsent (length_emit _ _ _)
          ((OutputRuns.ideal_among hrange').emit hgoing N) hlen hreturned
      -- and the queue takes all of it
      obtain ⟨hquiet, husb'⟩ := h.quiet hsize hS
      have hlt := length_streamed_lt hsize hS hroom hlen hstream
      obtain ⟨-, hitems, -⟩ :=
        (InputFifo.captured_of_run hsize hquiet husb' hbs hlt hin).done husb
      rw [InputFifo.cut, if_neg hN.1.ne', hstream, List.take_of_length_le] at hitems
      · rw [hitems, OutputRuns.ideal_run, ← List.append_assoc]
        exact List.rel_append (ih hmeets hrange') hnear
      · have hcount := hnear.length_eq
        rw [length_emit] at hcount
        rw [List.length_append, hcount]
        exact hroom
  | @read as s t data n N bs c h hbs hread hret ih =>
      obtain ⟨hquiet, husb⟩ := h.quiet hsize hS
      rw [List.append_assoc, (InputFifo.read_split hsize hquiet husb hbs hread hret).1]
      exact ih hcov hrange

/-- A run with something to carry on each channel comes to an end. -/
theorem Usage.exists_run (hcap : cap < 2 ^ 32) (hpackets : 0 < packets)
    (hS : packets * chunk_size < 2 ^ 32) (h : Usage fwver packets modeA modeB as s t data)
    (hN : 0 < N ∧ N < 2 ^ 64)
    (hfit : packets * chunk_size * fillsFor (packets * chunk_size) N < 2 ^ 64)
    (hroom : t.m_in_samples_q.items.length + N ≤ m_queue_size) (hsize : m_queue_size < 2 ^ 32)
    (hwritten : ∀ ch, (modeOf modeA modeB ch).sourcing → ∃ buf, buf ≠ [] ∧ .write ch buf ∈ as) :
    ∃ (s' : OutputRuns.State ℚ ℕ cap) (t' : InputFifo.State (Fin 4 → ℚ) m_queue_size),
      Usage fwver packets modeA modeB (as ++ [.run N]) s' t' data ∧
        t'.m_in_samples_q.items.length = t.m_in_samples_q.items.length + N := by
  have hS' : 0 < packets * chunk_size := Nat.mul_pos hpackets (by decide)
  have hsup : ∀ ch, (({ s.out with m_out_sampleno := 0 } : OutState ℚ cap).chan ch).Supplied := by
    intro ch
    obtain ⟨hmode, hbacked, hprimed⟩ := OutputRuns.backed_of_run hcap h.out ch
    have hsupplied : (s.out.chan ch).Supplied :=
      ⟨hbacked, fun hsrc => hprimed (hwritten ch (by rwa [← hmode]))⟩
    cases ch <;> exact hsupplied
  have hle := le_fillsFor hS' N
  have hfills : ∃ r, runFills (encode .default) N (packets * chunk_size)
      (fillsFor (packets * chunk_size) N) { s.out with m_out_sampleno := 0 } = some r :=
    OutputRuns.runFills_of_supplied hcap hN.1 hsup (by rw [Nat.mul_comm]; simpa using hle)
      (by simpa using hfit)
  obtain ⟨r, hr⟩ := hfills
  -- the device returns each transfer
  let buffers : List (ℕ → UInt8) := (List.range (fillsFor (packets * chunk_size) N)).map fun i =>
    returned fwver packets
      (layOut fwver packets ((transfer packets i r.2).map (registers 0)) fun _ => 0)
  have hlen : buffers.length = fillsFor (packets * chunk_size) N := by simp [buffers]
  have hreturned : Returned fwver packets r.2 buffers := by
    intro i ins hins
    have hi : i < fillsFor (packets * chunk_size) N := by
      rw [← hlen]
      exact (List.getElem?_eq_some_iff.mp hins).1
    rw [List.getElem?_map, List.getElem?_range hi, Option.map_some, Option.some.injEq] at hins
    rw [← hins]
    exact ⟨0, _, returns_returned _ _ _⟩
  obtain ⟨hquiet, husb⟩ := h.quiet hsize hS
  have hcapture : ∃ bs t', (∀ b ∈ bs, b.captures = true) ∧
      streamed bs = buffers.flatMap ((⟨fwver, .default, 0⟩ : Decoder).samples packets) ∧
      (InputFifo.machine (Fin 4 → ℚ) m_queue_size N).run t.restart bs = some t' ∧
      t'.usb = .outside :=
    InputFifo.exists_capture t.restart husb _
  obtain ⟨bs, t', hbs, hstream, hin, hout⟩ := hcapture
  refine ⟨_, t', h.run hN hroom hr hlen hreturned hbs hstream hin hout, ?_⟩
  have hlt := length_streamed_lt hsize hS hroom hlen hstream
  obtain ⟨-, hitems, -⟩ := (InputFifo.captured_of_run hsize hquiet husb hbs hlt hin).done hout
  have htotal : (streamed bs).length = fillsFor (packets * chunk_size) N *
      (packets * chunk_size) := by
    rw [hstream, InputStream.length_flatMap_samples, hlen]
  rw [hitems, InputFifo.cut, if_neg hN.1.ne', List.length_take, List.length_append,
    List.length_take]
  omega

/-- So does a read of no more than is queued. -/
theorem Usage.exists_read (hsize : m_queue_size < 2 ^ 32) (hS : packets * chunk_size < 2 ^ 32)
    (h : Usage fwver packets modeA modeB as s t data) {n : ℕ}
    (hle : n ≤ t.m_in_samples_q.items.length) :
    ∃ (t' : InputFifo.State (Fin 4 → ℚ) m_queue_size) (xs : List (Fin 4 → ℚ)),
      Usage fwver packets modeA modeB as s t' (data ++ xs) ∧ xs.length = n := by
  obtain ⟨hquiet, -⟩ := h.quiet hsize hS
  have hlen := t.m_in_samples_q.length_le
  have hread : ∃ bs c, (∀ b ∈ bs, b = .reader) ∧
      (callMachine (Fin 4 → ℚ) m_queue_size 0).run (.begin t n false) bs = some c ∧ c.Returned :=
    InputFifo.exists_read hsize hquiet hle
  obtain ⟨bs, c, hbs, hread, hret⟩ := hread
  exact ⟨_, _, h.read hbs hread hret,
    (InputFifo.read_returned hsize hquiet (by omega) hbs hread hret).2⟩

/-- One voltage is written, and three samples are captured and read: each is that voltage. -/
theorem noncontinuous_loopback_three : ∃ data : List (Fin 4 → ℚ), data.length = 3 ∧
    List.Forall₂ (Near .A) data [some (5 / 2), some (5 / 2), some (5 / 2)] := by
  have hwrite : ∃ s, (OutputRuns.machine (encode .default) (1 * chunk_size) 10).step
      (.init ℚ ℕ 10 .SVMI .HI_Z) (.write .A [5 / 2]) = some s ∧
      (s.out.chan .A).m_out_samples_avail = (s.out.chan .A).unused.length := ⟨_, rfl, rfl⟩
  obtain ⟨s, hs, hcounted⟩ := hwrite
  have hstart : Usage 2 1 .SVMI .HI_Z [.write .A [5 / 2]] s
      (.init : InputFifo.State (Fin 4 → ℚ) 10) [] := Usage.start.write hs
  obtain ⟨s', t, hrun, hlen⟩ := hstart.exists_run (N := 3) (by decide) (by decide) (by decide)
    (by decide) (by decide) (by decide) (by decide) fun ch hsrc => by
      cases ch with
      | A => exact ⟨[5 / 2], by simp, by simp⟩
      | B => exact absurd hsrc (by decide)
  obtain ⟨t', data, hread, hcount⟩ := hrun.exists_read (by decide) (by decide) hlen.ge
  refine ⟨data, hcount, ?_⟩
  have hmode : modeOf .SVMI .HI_Z .A = .SVMI := rfl
  have hfound := noncontinuous_loopback (by decide) (by decide) (by decide) (by decide) hread
    hmode ?_ ?_
  · have hideal : (ideal .A [.write .A [(5 / 2 : ℚ)], .run 3]).1 =
        [some (5 / 2), some (5 / 2), some (5 / 2)] := rfl
    have hall := hfound.length_eq
    rw [List.singleton_append, hideal, List.nil_append, List.length_append, hcount] at hall
    rw [List.eq_nil_of_length_eq_zero (Nat.add_eq_left.mp hall), List.append_nil,
      List.nil_append, List.singleton_append, hideal] at hfound
    exact hfound
  · refine ⟨trivial, fun u hu => ⟨.inr ?_, fun _ _ => trivial⟩⟩
    rw [← Option.some.inj (hs.symm.trans hu)]
    exact hcounted
  · intro buf hbuf x hx
    simp only [List.singleton_append, List.mem_cons, List.not_mem_nil, or_false, reduceCtorEq,
      OutputRuns.Act.write.injEq, true_and] at hbuf
    rw [hbuf, List.mem_singleton] at hx
    rw [hx]
    norm_num

end ReadWrite

end Libsmu
