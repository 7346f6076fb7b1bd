import Libsmu.Lib.BoundedQueue
import Libsmu.Lib.Counter

/-!
# Encoding the Output Samples

`handle_out_transfer` fills an OUT transfer position by position, asking `encode_out`
for the next code of channel A and then of channel B. `encode_out` takes its sample
from the look-ahead slot `m_next_output` when that is set and from the queue
`m_out_samples_q` otherwise, as long as the counter `m_out_samples_avail` promises one;
in a noncontinuous run it then falls back on `m_previous_output`.

A slot that holds `NaN` in the source is `none` here, and samples are never `NaN`. The
conversion of a sample to its 16-bit code (calibration, limits and scaling, or the
fixed code of a floating channel) is the parameter `convert`: which sample a position
carries does not depend on it.

## Main results

* `encode_sample_of_supplied`: a channel that is supplied neither throws nor waits, and
  stays supplied.
* `handle_out_transfer_eq_filled`: a transfer is filled whenever both channels are
  supplied.
-/

namespace Libsmu

/-- The two channels, `CHAN_A` and `CHAN_B`. -/
inductive Channel
  | A
  | B
  deriving DecidableEq

/-- The channel modes. -/
inductive Mode
  | HI_Z
  | SVMI
  | SIMV
  | HI_Z_SPLIT
  | SVMI_SPLIT
  | SIMV_SPLIT
  deriving DecidableEq

/-- The modes in which `encode_out` takes samples. -/
def Mode.sourcing (m : Mode) : Prop := m ≠ .HI_Z ∧ m ≠ .HI_Z_SPLIT

instance (m : Mode) : Decidable m.sourcing := inferInstanceAs (Decidable (_ ∧ _))

/-- What the device keeps for the output of one channel. -/
structure OutChannel (α : Type*) (cap : ℕ) where
  m_mode : Mode
  /-- the sample taken ahead of its position, if any -/
  m_next_output : Option α
  /-- the sample taken last, if any -/
  m_previous_output : Option α
  m_out_samples_q : BoundedQueue α cap
  /-- `std::atomic<uint32_t>` -/
  m_out_samples_avail : ℕ
  deriving DecidableEq

/-- What one call of `encode_out` comes to. -/
inductive Encoded (β α : Type*) (cap : ℕ)
  /-- it returns -/
  | done (v : β) (c : OutChannel α cap)
  /-- it throws `data write timeout, no available fallback sample` -/
  | noFallback
  /-- it stays in the loop around `pop` until a sample is queued -/
  | waits

namespace OutChannel

variable {α γ : Type*} {cap : ℕ}

/-- A channel before anything was written to it. -/
def fresh (m : Mode) : OutChannel α cap where
  m_mode := m
  m_next_output := none
  m_previous_output := none
  m_out_samples_q := .empty
  m_out_samples_avail := 0

/-- The sample `encode_out` takes when it counts on one: the look-ahead sample, else the
oldest queued one. -/
def takeNext (c : OutChannel α cap) : Option (α × BoundedQueue α cap) :=
  match c.m_next_output with
  | some val => some (val, c.m_out_samples_q)
  | none => c.m_out_samples_q.pop

/-- The first half of `encode_out`, which settles `val`; a floating channel leaves it
unset. -/
def encode_sample (m_sample_count : ℕ) (peek : Bool) (c : OutChannel α cap) :
    Encoded (Option α) α cap :=
  if c.m_mode.sourcing then
    if m_sample_count = 0 ∨ c.m_out_samples_avail > 0 then
      match c.takeNext with
      | some (val, q) =>
          .done (some val)
            { c with
              m_next_output := if peek then some val else none
              m_previous_output := some val
              m_out_samples_q := q
              m_out_samples_avail := Counter.pred 32 c.m_out_samples_avail }
      | none => .waits
    else
      match c.m_previous_output with
      | some val => .done (some val) c
      | none => .noFallback
  else .done none c

/-- `encode_out`: settle the sample, then convert it for the channel's mode. -/
def encode_out (convert : Mode → Option α → γ) (m_sample_count : ℕ) (peek : Bool)
    (c : OutChannel α cap) : Encoded γ α cap :=
  match c.encode_sample m_sample_count peek with
  | .done val c' => .done (convert c.m_mode val) c'
  | .noFallback => .noFallback
  | .waits => .waits

/-- The samples written and not yet carried by a position: the look-ahead sample, then
the queued ones. -/
def unused (c : OutChannel α cap) : List α :=
  c.m_next_output.toList ++ c.m_out_samples_q.items

/-! ### What one call does -/

variable {m_sample_count : ℕ} {peek : Bool} {c c' : OutChannel α cap} {val : Option α}

/-- Taking a sample takes the oldest unused one. -/
theorem unused_of_takeNext {x : α} {q : BoundedQueue α cap}
    (h : c.takeNext = some (x, q)) : c.unused = x :: q.items := by
  rw [takeNext] at h
  rw [unused]
  split at h
  · rename_i y hnext
    obtain ⟨rfl, rfl⟩ := Prod.mk.inj (Option.some.inj h)
    rw [hnext]
    rfl
  · rename_i hnext
    rw [hnext]
    exact BoundedQueue.pop_eq_some_iff.mp h

theorem takeNext_eq_none_iff : c.takeNext = none ↔ c.unused = [] := by
  rw [takeNext, unused]
  split
  · rename_i y hnext
    simp [hnext]
  · rename_i hnext
    rw [BoundedQueue.pop_eq_none_iff, hnext]
    rfl

/-- A floating channel takes no sample. -/
theorem encode_sample_of_floating (h : ¬c.m_mode.sourcing) :
    c.encode_sample m_sample_count peek = .done none c :=
  if_neg h

/-- A sourcing channel that counts on a sample takes it. -/
theorem encode_sample_of_counted (hsrc : c.m_mode.sourcing)
    (hcount : m_sample_count = 0 ∨ c.m_out_samples_avail > 0) {x : α}
    {q : BoundedQueue α cap} (h : c.takeNext = some (x, q)) :
    c.encode_sample m_sample_count peek = .done (some x)
      { c with
        m_next_output := if peek then some x else none
        m_previous_output := some x
        m_out_samples_q := q
        m_out_samples_avail := Counter.pred 32 c.m_out_samples_avail } := by
  rw [encode_sample]
  rw [if_pos hsrc, if_pos hcount, h]

/-- A sourcing channel that counts on a sample waits while there is none. -/
theorem encode_sample_of_unsupplied (hsrc : c.m_mode.sourcing)
    (hcount : m_sample_count = 0 ∨ c.m_out_samples_avail > 0) (h : c.takeNext = none) :
    c.encode_sample m_sample_count peek = .waits := by
  rw [encode_sample]
  rw [if_pos hsrc, if_pos hcount, h]

/-- A sourcing channel that counts on no sample repeats the previous one. -/
theorem encode_sample_of_uncounted (hsrc : c.m_mode.sourcing)
    (hcount : ¬(m_sample_count = 0 ∨ c.m_out_samples_avail > 0)) :
    c.encode_sample m_sample_count peek =
      match c.m_previous_output with
      | some x => .done (some x) c
      | none => .noFallback := by
  rw [encode_sample]
  rw [if_pos hsrc, if_neg hcount]

/-- No call changes the mode. -/
theorem m_mode_of_encode_sample (h : c.encode_sample m_sample_count peek = .done val c') :
    c'.m_mode = c.m_mode := by
  rw [encode_sample] at h
  split at h
  · split at h
    · split at h <;> cases h
      rfl
    · split at h <;> cases h
      rfl
  · cases h
    rfl

/-- `encode_out` returns exactly when its first half does, with the code of the sample. -/
theorem encode_out_eq_done_iff {convert : Mode → Option α → γ} {v : γ} :
    c.encode_out convert m_sample_count peek = .done v c' ↔
      ∃ val, c.encode_sample m_sample_count peek = .done val c' ∧
        v = convert c.m_mode val := by
  rw [encode_out]
  split
  · rename_i x d hx
    simp only [hx, Encoded.done.injEq]
    constructor
    · rintro ⟨rfl, rfl⟩
      exact ⟨x, ⟨rfl, rfl⟩, rfl⟩
    · rintro ⟨y, ⟨rfl, rfl⟩, rfl⟩
      exact ⟨rfl, rfl⟩
  · rename_i hx
    simp [hx]
  · rename_i hx
    simp [hx]

/-! ### Channels that never throw or wait -/

/-- The counter promises no more than is queued. -/
def Backed (c : OutChannel α cap) : Prop :=
  c.m_out_samples_avail ≤ c.m_out_samples_q.items.length

/-- A channel to which something was written: it counts on a sample or has one to
repeat. -/
def Primed (c : OutChannel α cap) : Prop :=
  0 < c.m_out_samples_avail ∨ c.m_previous_output.isSome

/-- A channel that can be asked for a code in a noncontinuous run. -/
def Supplied (c : OutChannel α cap) : Prop :=
  c.Backed ∧ (c.m_mode.sourcing → c.Primed)

/-- Counting off a sample of a backed channel is exact. -/
theorem Backed.pred (hcap : cap < 2 ^ 32) (h : c.Backed) (hpos : 0 < c.m_out_samples_avail) :
    Counter.pred 32 c.m_out_samples_avail = c.m_out_samples_avail - 1 := by
  have hle := c.m_out_samples_q.length_le
  rw [Backed] at h
  exact Counter.pred_of_pos hpos (by omega)

/-- The counter of a backed channel promises no more than there are unused samples. -/
theorem Backed.le_unused (h : c.Backed) : c.m_out_samples_avail ≤ c.unused.length := by
  rw [Backed] at h
  rw [unused]
  rw [List.length_append]
  omega

/-- **One call keeps a channel backed** in a noncontinuous run. -/
theorem Backed.encode_sample (hcap : cap < 2 ^ 32) (hN : 0 < m_sample_count)
    (h : c.Backed) (hdone : c.encode_sample m_sample_count peek = .done val c') :
    c'.Backed := by
  by_cases hsrc : c.m_mode.sourcing
  · by_cases hcount : m_sample_count = 0 ∨ c.m_out_samples_avail > 0
    · have hpos : 0 < c.m_out_samples_avail := by omega
      cases htake : c.takeNext with
      | none =>
          rw [encode_sample_of_unsupplied hsrc hcount htake] at hdone
          cases hdone
      | some r =>
          obtain ⟨x, q⟩ := r
          rw [encode_sample_of_counted hsrc hcount htake] at hdone
          cases hdone
          have hlen := congrArg List.length (unused_of_takeNext htake)
          rw [unused, List.length_append, List.length_cons] at hlen
          have hslot : c.m_next_output.toList.length ≤ 1 := by
            cases c.m_next_output <;> simp
          have hpred := h.pred hcap hpos
          rw [Backed] at h ⊢
          simp only [hpred]
          omega
    · rw [encode_sample_of_uncounted hsrc hcount] at hdone
      split at hdone <;> cases hdone
      exact h
  · rw [encode_sample_of_floating hsrc] at hdone
    cases hdone
    exact h

/-- One call leaves a channel primed. -/
theorem Primed.encode_out {convert : Mode → Option α → γ} {v : γ} (h : c.Primed)
    (hdone : c.encode_out convert m_sample_count peek = .done v c') : c'.Primed := by
  obtain ⟨val, hval, -⟩ := encode_out_eq_done_iff.mp hdone
  rw [encode_sample] at hval
  split at hval
  · split at hval
    · split at hval <;> cases hval
      exact .inr rfl
    · split at hval <;> cases hval
      exact h
  · cases hval
    exact h

/-- **A supplied channel neither throws nor waits**, and one call leaves it supplied. -/
theorem encode_sample_of_supplied (peek : Bool) (hcap : cap < 2 ^ 32)
    (hN : 0 < m_sample_count) (h : c.Supplied) :
    ∃ val c', c.encode_sample m_sample_count peek = .done val c' ∧ c'.Supplied := by
  obtain ⟨hbacked, hsupply⟩ := h
  by_cases hsrc : c.m_mode.sourcing
  · by_cases hcount : m_sample_count = 0 ∨ c.m_out_samples_avail > 0
    · cases htake : c.takeNext with
      | none =>
          have hle := hbacked.le_unused
          rw [takeNext_eq_none_iff.mp htake, List.length_nil] at hle
          omega
      | some r =>
          have hdone : c.encode_sample m_sample_count peek = _ :=
            encode_sample_of_counted hsrc hcount htake
          exact ⟨_, _, hdone, hbacked.encode_sample hcap hN hdone, fun _ => .inr rfl⟩
    · obtain ⟨x, hx⟩ := Option.isSome_iff_exists.mp
        ((hsupply hsrc).resolve_left fun hpos => hcount (.inr hpos))
      refine ⟨some x, c, ?_, hbacked, hsupply⟩
      rw [encode_sample_of_uncounted hsrc hcount, hx]
  · exact ⟨none, c, encode_sample_of_floating hsrc, hbacked, hsupply⟩

/-- The same of the whole call. -/
theorem encode_out_of_supplied (convert : Mode → Option α → γ) (peek : Bool)
    (hcap : cap < 2 ^ 32) (hN : 0 < m_sample_count) (h : c.Supplied) :
    ∃ v c', c.encode_out convert m_sample_count peek = .done v c' ∧ c'.Supplied := by
  obtain ⟨val, c', hdone, hsup⟩ := encode_sample_of_supplied peek hcap hN h
  exact ⟨_, c', encode_out_eq_done_iff.mpr ⟨val, hdone, rfl⟩, hsup⟩

end OutChannel

/-- The output side of the device during a run. -/
structure OutState (α : Type*) (cap : ℕ) where
  a : OutChannel α cap
  b : OutChannel α cap
  /-- `uint64_t` -/
  m_out_sampleno : ℕ
  deriving DecidableEq

/-- The channel `ch` of the device. -/
def OutState.chan {α : Type*} {cap : ℕ} (s : OutState α cap) : Channel → OutChannel α cap
  | .A => s.a
  | .B => s.b

/-- The code of a channel at one position of a transfer. It is `none` where the source
would send a register it has not set. -/
structure Codes (γ : Type*) where
  a : Option γ
  b : Option γ
  deriving DecidableEq

/-- The code of channel `ch` at the position. -/
def Codes.chan {γ : Type*} (x : Codes γ) : Channel → Option γ
  | .A => x.a
  | .B => x.b

/-- What filling a transfer comes to. -/
inductive Filled (γ α : Type*) (cap : ℕ)
  /-- every position is filled -/
  | filled (s : OutState α cap) (buffer : List (Codes γ))
  /-- an `encode_out` threw -/
  | threw (s : OutState α cap)
  /-- an `encode_out` waits for a sample -/
  | waits

/-- The positions before these are filled with `x`. -/
def Filled.cons {γ α : Type*} {cap : ℕ} (x : Codes γ) : Filled γ α cap → Filled γ α cap
  | .filled s buffer => .filled s (x :: buffer)
  | .threw s => .threw s
  | .waits => .waits

section Fill

variable {α γ : Type*} {cap : ℕ} (convert : Channel → Mode → Option α → γ)
  (m_sample_count : ℕ)

/-- The loop of `handle_out_transfer` over the positions still to be filled; `r` holds
the registers `a` and `b`. -/
def fillSamples : ℕ → Codes γ → OutState α cap → Filled γ α cap
  | 0, _, s => .filled s []
  | k + 1, r, s =>
      if m_sample_count = 0 ∨ s.m_out_sampleno ≤ m_sample_count then
        let peek := decide (m_sample_count > 0 ∧ s.m_out_sampleno = m_sample_count)
        match s.a.encode_out (convert .A) m_sample_count peek with
        | .done a ca =>
            match s.b.encode_out (convert .B) m_sample_count peek with
            | .done b cb =>
                (fillSamples k ⟨some a, some b⟩
                  ⟨ca, cb, Counter.add 64 s.m_out_sampleno 1⟩).cons ⟨some a, some b⟩
            | .noFallback => .threw { s with a := ca }
            | .waits => .waits
        | .noFallback => .threw s
        | .waits => .waits
      else
        (fillSamples k r
          { s with m_out_sampleno := Counter.add 64 s.m_out_sampleno 1 }).cons r

/-- `handle_out_transfer`: fill the `m_samples_per_transfer` positions of a transfer. The
registers start unset. -/
def handle_out_transfer (m_samples_per_transfer : ℕ) (s : OutState α cap) :
    Filled γ α cap :=
  fillSamples convert m_sample_count m_samples_per_transfer ⟨none, none⟩ s

/-! ### What a filled transfer looks like -/

variable {convert m_sample_count}

/-- One position of a transfer that is filled. -/
theorem fillSamples_succ_eq_filled {k : ℕ} {r : Codes γ} {s t : OutState α cap}
    {buffer : List (Codes γ)}
    (h : fillSamples convert m_sample_count (k + 1) r s = .filled t buffer) :
    ∃ x u rest, buffer = x :: rest ∧
      fillSamples convert m_sample_count k x u = .filled t rest ∧
      u.m_out_sampleno = Counter.add 64 s.m_out_sampleno 1 ∧
      ((m_sample_count = 0 ∨ s.m_out_sampleno ≤ m_sample_count) →
        ∀ ch, ∃ v, x.chan ch = some v ∧
          (s.chan ch).encode_out (convert ch) m_sample_count
            (decide (m_sample_count > 0 ∧ s.m_out_sampleno = m_sample_count)) =
            .done v (u.chan ch)) ∧
      (¬(m_sample_count = 0 ∨ s.m_out_sampleno ≤ m_sample_count) →
        ∀ ch, u.chan ch = s.chan ch) := by
  have hcons : ∀ (x : Codes γ) (f : Filled γ α cap), f.cons x = .filled t buffer →
      ∃ rest, buffer = x :: rest ∧ f = .filled t rest := by
    intro x f hf
    cases f with
    | filled u rest =>
        cases hf
        exact ⟨rest, rfl, rfl⟩
    | threw u => cases hf
    | waits => cases hf
  rw [fillSamples] at h
  split at h
  · rename_i hle
    simp only at h
    split at h
    · rename_i a ca hA
      split at h
      · rename_i b cb hB
        obtain ⟨rest, hbuf, hrest⟩ := hcons _ _ h
        refine ⟨_, _, rest, hbuf, hrest, rfl, ?_, fun hn => absurd hle hn⟩
        intro _ ch
        cases ch with
        | A => exact ⟨a, rfl, hA⟩
        | B => exact ⟨b, rfl, hB⟩
      · cases h
      · cases h
    · cases h
    · cases h
  · rename_i hgt
    obtain ⟨rest, hbuf, hrest⟩ := hcons _ _ h
    refine ⟨_, _, rest, hbuf, hrest, rfl, fun hn => absurd hn hgt, ?_⟩
    intro _ ch
    cases ch with
    | A => rfl
    | B => rfl

/-- Filling `k` positions gives `k` codes. -/
theorem length_of_fillSamples {k : ℕ} {r : Codes γ} {s t : OutState α cap}
    {buffer : List (Codes γ)}
    (h : fillSamples convert m_sample_count k r s = .filled t buffer) : buffer.length = k := by
  induction k generalizing r s buffer with
  | zero =>
      cases h
      rfl
  | succ k ih =>
      obtain ⟨x, u, rest, rfl, hrest, -⟩ := fillSamples_succ_eq_filled h
      rw [List.length_cons, ih hrest]

/-- Filling `k` positions counts them. -/
theorem fillSamples_counts {k : ℕ} {r : Codes γ} {s t : OutState α cap}
    {buffer : List (Codes γ)}
    (h : fillSamples convert m_sample_count k r s = .filled t buffer)
    (hlt : s.m_out_sampleno < 2 ^ 64) :
    buffer.length = k ∧ t.m_out_sampleno = Counter.add 64 s.m_out_sampleno k := by
  refine ⟨length_of_fillSamples h, ?_⟩
  induction k generalizing r s buffer with
  | zero =>
      cases h
      exact (Nat.mod_eq_of_lt hlt).symm
  | succ k ih =>
      obtain ⟨x, u, rest, rfl, hrest, hu, -, -⟩ := fillSamples_succ_eq_filled h
      rw [ih hrest (by rw [hu]; exact Counter.add_lt _ _ _), hu]
      simp only [Counter.add, Nat.mod_add_mod]
      congr 1
      omega

/-- **A transfer is filled whenever both channels are supplied**, which they then
still are. -/
theorem fillSamples_of_supplied (hcap : cap < 2 ^ 32) (hN : 0 < m_sample_count) (k : ℕ)
    (r : Codes γ) {s : OutState α cap} (h : ∀ ch, (s.chan ch).Supplied) :
    ∃ t buffer, fillSamples convert m_sample_count k r s = .filled t buffer ∧
      ∀ ch, (t.chan ch).Supplied := by
  induction k generalizing r s with
  | zero => exact ⟨s, [], rfl, h⟩
  | succ k ih =>
      rw [fillSamples]
      split
      · obtain ⟨a, ca, hA, ha⟩ := OutChannel.encode_out_of_supplied (convert .A)
          (decide (m_sample_count > 0 ∧ s.m_out_sampleno = m_sample_count)) hcap hN (h .A)
        obtain ⟨b, cb, hB, hb⟩ := OutChannel.encode_out_of_supplied (convert .B)
          (decide (m_sample_count > 0 ∧ s.m_out_sampleno = m_sample_count)) hcap hN (h .B)
        obtain ⟨t, rest, hrest, ht⟩ := ih ⟨some a, some b⟩
          (s := ⟨ca, cb, Counter.add 64 s.m_out_sampleno 1⟩) fun ch => by
            cases ch with
            | A => exact ha
            | B => exact hb
        refine ⟨t, ⟨some a, some b⟩ :: rest, ?_, ht⟩
        simp only [OutState.chan] at hA hB
        simp only [hA, hB, hrest, Filled.cons]
      · obtain ⟨t, rest, hrest, ht⟩ := ih r
          (s := { s with m_out_sampleno := Counter.add 64 s.m_out_sampleno 1 }) fun ch => by
            cases ch with
            | A => exact h .A
            | B => exact h .B
        refine ⟨t, r :: rest, ?_, ht⟩
        rw [hrest]
        rfl

end Fill

end Libsmu
