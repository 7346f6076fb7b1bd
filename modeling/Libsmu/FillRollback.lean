import Mathlib.Data.Nat.ModEq
import Libsmu.EncodeOut
import Libsmu.Lib.Machine

/-!
# A Fill That Throws

`submit_out_transfer` fills a transfer by asking `encode_out` for a code of channel A and then
of channel B at each position. An `encode_out` that counts on no sample and has none to repeat
throws. If samples of the run were still to be sent, the exception is stored and the transfer is
dropped, with whatever was taken for it.

While a transfer is filled the user may write and the write threads may push. The modes stay:
`set_mode` may not be called while the session is active.

## Main results

* `run_of_threw`: what `handle_out_transfer` does without any other thread is a run of the fill.
* `threw_cases`: a fill throws at its first position or not at all; channel B has lost nothing
  then, and channel A the sample that it counted on, if it did.
* `kept_iff`: a fill that throws consumes nothing exactly when channel A counted on no sample.
* `sample_dropped`: a fill that throws and has lost the first sample of channel A.
-/

namespace Libsmu.Fill

variable {α γ : Type*} {cap N : ℕ}

/-- Where filling a transfer stands. -/
inductive Pc
  /-- `encode_out(ch)` of the position comes next -/
  | encode (ch : Channel)
  /-- every position is filled and the transfer is submitted -/
  | filled
  /-- `encode_out` threw, the exception is stored and the transfer is dropped -/
  | dropped
  /-- `encode_out` threw after the last sample of the run, and the transfer is submitted as it
  is -/
  | cut
  deriving DecidableEq

/-- A transfer that is being filled. -/
structure State (α : Type*) (cap : ℕ) where
  out : OutState α cap
  /-- the positions still to be filled -/
  left : ℕ
  pc : Pc

/-- One step of the thread that fills the transfer, the user or a write thread. -/
inductive Act (α : Type*)
  | next
  /-- `write` of `n` samples to a channel raises its counter -/
  | write (ch : Channel) (n : ℕ)
  /-- the write thread of a channel pushes samples -/
  | push (ch : Channel) (xs : List α)

/-- A channel of the device replaced. -/
def setChan (ch : Channel) (c : OutChannel α cap) (s : OutState α cap) : OutState α cap :=
  match ch with
  | .A => { s with a := c }
  | .B => { s with b := c }

/-- What `submit_out_transfer` does with an exception. -/
def caught (N : ℕ) (f : State α cap) : Pc :=
  if N = 0 ∨ f.out.m_out_sampleno < N then .dropped else .cut

/-- `encode_out(ch)` of the current position, and where it goes from there. -/
def encode (N : ℕ) (ch : Channel) (f : State α cap) : Option (State α cap) :=
  match (f.out.chan ch).encode_sample N (decide (N > 0 ∧ f.out.m_out_sampleno = N)) with
  | .done _ c =>
      match ch with
      | .A => some { f with out := setChan .A c f.out, pc := .encode .B }
      | .B => some {
          out := { setChan .B c f.out with
            m_out_sampleno := Counter.add 64 f.out.m_out_sampleno 1 }
          left := f.left - 1
          pc := .encode .A }
  | .noFallback => some { f with pc := caught N f }
  | .waits => none

/-- The next step of the fill. -/
def advance (N : ℕ) (f : State α cap) : Option (State α cap) :=
  match f.pc with
  | .encode .A =>
      if f.left = 0 then some { f with pc := .filled }
      else if N = 0 ∨ f.out.m_out_sampleno ≤ N then encode N .A f
      else some {
        out := { f.out with m_out_sampleno := Counter.add 64 f.out.m_out_sampleno 1 }
        left := f.left - 1
        pc := .encode .A }
  | .encode .B => encode N .B f
  | _ => none

/-- A fill among the other threads. -/
def machine (α : Type*) (N cap : ℕ) : Machine (State α cap) (Act α) where
  step f
    | .next => advance N f
    | .write ch n =>
        let c := f.out.chan ch
        some { f with
          out := setChan ch
            { c with m_out_samples_avail := Counter.add 32 c.m_out_samples_avail n } f.out }
    | .push ch xs =>
        let c := f.out.chan ch
        (c.m_out_samples_q.pushAll xs).map fun q =>
          { f with out := setChan ch { c with m_out_samples_q := q } f.out }

/-- `submit_out_transfer` begins to fill a transfer of `k` positions. -/
def submit_out_transfer (N k : ℕ) (s : OutState α cap) : Option (State α cap) :=
  if N = 0 ∨ s.m_out_sampleno < N then some ⟨s, k, .encode .A⟩ else none

/-- `encode_out` threw. -/
def Threw (f : State α cap) : Prop := f.pc = .dropped ∨ f.pc = .cut

/-- The samples that were pushed to a channel. -/
def pushed (ch : Channel) (as : List (Act α)) : List α :=
  as.flatMap fun
    | .push c xs => if c = ch then xs else []
    | _ => []

/-- By how much the counter of a channel was raised. -/
def written (ch : Channel) (as : List (Act α)) : ℕ :=
  (as.map fun
    | .write c n => if c = ch then n else 0
    | _ => 0).sum

/-- From `s` to `t`, through the steps `as`, the channel has lost its first `n` samples: they
are neither held nor counted any more. -/
def Lost (n : ℕ) (ch : Channel) (s : OutState α cap) (as : List (Act α)) (t : OutState α cap) :
    Prop :=
  ∃ xs, xs.length = n ∧ (s.chan ch).unused ++ pushed ch as = xs ++ (t.chan ch).unused ∧
    (t.chan ch).m_out_samples_avail + n ≡
      (s.chan ch).m_out_samples_avail + written ch as [MOD 2 ^ 32]

/-- **Nothing is consumed**: the samples of the channel are pending and counted as they would
be without the fill. -/
def Kept (ch : Channel) (s : OutState α cap) (as : List (Act α)) (t : OutState α cap) : Prop :=
  (t.chan ch).unused = (s.chan ch).unused ++ pushed ch as ∧
    (t.chan ch).m_out_samples_avail ≡
      (s.chan ch).m_out_samples_avail + written ch as [MOD 2 ^ 32]

/-- `encode_out` of the channel counts on a sample. -/
def Counts (N : ℕ) (c : OutChannel α cap) : Prop :=
  c.m_mode.sourcing ∧ (N = 0 ∨ c.m_out_samples_avail > 0)

/-- Channel A counts on no sample when it is asked for a code. -/
def Spared (N : ℕ) (f : State α cap) : Act α → Prop
  | .next => f.pc = .encode .A → ¬Counts N f.out.a
  | _ => True

/-- The channel floats or has a sample to repeat. -/
def Settled (c : OutChannel α cap) : Prop :=
  c.m_mode.sourcing → c.m_previous_output.isSome = true

variable {f g : State α cap} {s t : OutState α cap} {as : List (Act α)} {ch : Channel}

theorem chan_setChan (ch ch' : Channel) (c : OutChannel α cap) (s : OutState α cap) :
    (setChan ch c s).chan ch' = if ch = ch' then c else s.chan ch' := by
  cases ch <;> cases ch' <;> rfl

theorem pushed_concat (ch : Channel) (as : List (Act α)) (a : Act α) :
    pushed ch (as ++ [a]) = pushed ch as ++ pushed ch [a] :=
  List.flatMap_append

theorem written_concat (ch : Channel) (as : List (Act α)) (a : Act α) :
    written ch (as ++ [a]) = written ch as + written ch [a] := by
  rw [written, List.map_append, List.sum_append]
  rfl

@[simp] theorem pushed_next (ch : Channel) : pushed ch [(.next : Act α)] = [] := rfl

@[simp] theorem pushed_write (ch c : Channel) (n : ℕ) :
    pushed ch [(.write c n : Act α)] = [] := rfl

@[simp] theorem pushed_push (ch c : Channel) (xs : List α) :
    pushed ch [.push c xs] = if c = ch then xs else [] :=
  List.append_nil _

@[simp] theorem written_next (ch : Channel) : written ch [(.next : Act α)] = 0 := rfl

@[simp] theorem written_write (ch c : Channel) (n : ℕ) :
    written ch [(.write c n : Act α)] = if c = ch then n else 0 := rfl

@[simp] theorem written_push (ch c : Channel) (xs : List α) :
    written ch [.push c xs] = 0 := rfl

/-- Nothing is consumed exactly when no sample is lost. -/
theorem kept_iff_lost_zero : Kept ch s as t ↔ Lost 0 ch s as t := by
  constructor
  · rintro ⟨hunused, havail⟩
    exact ⟨[], rfl, hunused.symm, havail⟩
  · rintro ⟨xs, hlen, hunused, havail⟩
    obtain rfl := List.length_eq_zero_iff.mp hlen
    exact ⟨hunused.symm, havail⟩

theorem Lost.not_kept {n : ℕ} (h : Lost (n + 1) ch s as t) : ¬Kept ch s as t := by
  rintro ⟨hunused, -⟩
  obtain ⟨xs, hlen, hsplit, -⟩ := h
  have hlengths := congrArg List.length hsplit
  rw [hunused, List.length_append, List.length_append] at hlengths
  rw [List.length_append] at hlengths
  omega

/-! ### One call -/

/-- A channel that comes out of a call floats or has a sample to repeat. -/
theorem settled_of_done {peek : Bool} {c c' : OutChannel α cap} {val : Option α}
    (h : c.encode_sample N peek = .done val c') : Settled c' := by
  rw [OutChannel.encode_sample] at h
  split at h
  · split at h
    · split at h <;> cases h
      exact fun _ => rfl
    · split at h <;> cases h
      rename_i hprev
      exact fun _ => Option.isSome_iff_exists.mpr ⟨_, hprev⟩
  · rename_i hfloat
    cases h
    exact fun hsrc => absurd hsrc hfloat

/-- A channel throws when it counts on no sample and has none to repeat. -/
theorem not_settled_of_noFallback {peek : Bool} {c : OutChannel α cap}
    (h : c.encode_sample N peek = .noFallback) : ¬Settled c ∧ ¬Counts N c := by
  rw [OutChannel.encode_sample] at h
  split at h
  · rename_i hsrc
    split at h
    · split at h <;> cases h
    · rename_i hcount
      split at h
      · cases h
      · rename_i hprev
        refine ⟨fun hset => ?_, fun hc => hcount hc.2⟩
        have hsome := hset hsrc
        rw [hprev] at hsome
        cases hsome
  · cases h

/-- What a call takes for a position before the last. -/
theorem effect_of_done {c c' : OutChannel α cap} {val : Option α}
    (h : c.encode_sample N false = .done val c') :
    (¬Counts N c ∧ c' = c) ∨ (Counts N c ∧ ∃ x, c.unused = x :: c'.unused ∧
      c'.m_out_samples_avail = Counter.pred 32 c.m_out_samples_avail) := by
  by_cases hsrc : c.m_mode.sourcing
  · by_cases hcount : N = 0 ∨ c.m_out_samples_avail > 0
    · cases htake : c.takeNext with
      | none =>
          rw [OutChannel.encode_sample_of_unsupplied hsrc hcount htake] at h
          cases h
      | some r =>
          rw [OutChannel.encode_sample_of_counted hsrc hcount htake] at h
          cases h
          exact .inr ⟨⟨hsrc, hcount⟩, r.1, OutChannel.unused_of_takeNext htake, rfl⟩
    · rw [OutChannel.encode_sample_of_uncounted hsrc hcount] at h
      split at h <;> cases h
      exact .inl ⟨fun hc => hcount hc.2, rfl⟩
  · rw [OutChannel.encode_sample_of_floating hsrc] at h
    cases h
    exact .inl ⟨fun hc => hsrc hc.1, rfl⟩

/-! ### One step -/

/-- **The other threads** add samples and count them; they leave the fill where it is. -/
theorem other_step {a : Act α} (hother : a ≠ .next)
    (hstep : (machine α N cap).step f a = some g) :
    g.pc = f.pc ∧ g.left = f.left ∧ g.out.m_out_sampleno = f.out.m_out_sampleno ∧
      ∀ ch, (g.out.chan ch).m_mode = (f.out.chan ch).m_mode ∧
        (g.out.chan ch).m_previous_output = (f.out.chan ch).m_previous_output ∧
        (g.out.chan ch).unused = (f.out.chan ch).unused ++ pushed ch [a] ∧
        (g.out.chan ch).m_out_samples_avail ≡
          (f.out.chan ch).m_out_samples_avail + written ch [a] [MOD 2 ^ 32] := by
  have hkept : ∀ ch (c : OutChannel α cap), (setChan ch c f.out).m_out_sampleno =
      f.out.m_out_sampleno := by
    intro ch c
    cases ch <;> rfl
  cases a with
  | next => exact absurd rfl hother
  | write ch n =>
      obtain rfl := Option.some.inj hstep
      refine ⟨rfl, rfl, hkept _ _, fun ch' => ?_⟩
      simp only [chan_setChan, pushed_write, written_write, List.append_nil]
      by_cases hch : ch = ch'
      · subst hch
        simp only [if_true]
        exact ⟨trivial, trivial, rfl, Nat.mod_modEq _ _⟩
      · simp only [if_neg hch]
        exact ⟨trivial, trivial, trivial, Nat.ModEq.refl _⟩
  | push ch xs =>
      obtain ⟨q, hq, rfl⟩ := Option.map_eq_some_iff.mp hstep
      obtain ⟨-, hitems⟩ := BoundedQueue.pushAll_eq_some_iff.mp hq
      refine ⟨rfl, rfl, hkept _ _, fun ch' => ?_⟩
      simp only [chan_setChan, pushed_push, written_push, Nat.add_zero]
      by_cases hch : ch = ch'
      · subst hch
        simp only [if_true]
        refine ⟨trivial, trivial, ?_, Nat.ModEq.refl _⟩
        rw [OutChannel.unused, OutChannel.unused, hitems, List.append_assoc]
      · simp only [if_neg hch, List.append_nil]
        exact ⟨trivial, trivial, trivial, Nat.ModEq.refl _⟩

/-- What the other threads do to a channel is not lost. -/
theorem Lost.other {n : ℕ} {a : Act α} (h : Lost n ch s as f.out) (hother : a ≠ .next)
    (hstep : (machine α N cap).step f a = some g) : Lost n ch s (as ++ [a]) g.out := by
  obtain ⟨xs, hlen, hunused, havail⟩ := h
  obtain ⟨-, -, -, hchan⟩ := other_step hother hstep
  obtain ⟨-, -, hunused', havail'⟩ := hchan ch
  refine ⟨xs, hlen, ?_, ?_⟩
  · rw [pushed_concat, hunused', ← List.append_assoc, hunused, List.append_assoc]
  · rw [written_concat]
    calc (g.out.chan ch).m_out_samples_avail + n
        ≡ (f.out.chan ch).m_out_samples_avail + written ch [a] + n [MOD 2 ^ 32] :=
          havail'.add_right n
      _ = (f.out.chan ch).m_out_samples_avail + n + written ch [a] := by omega
      _ ≡ (s.chan ch).m_out_samples_avail + written ch as + written ch [a] [MOD 2 ^ 32] :=
          havail.add_right _
      _ = (s.chan ch).m_out_samples_avail + (written ch as + written ch [a]) := by omega

/-- A call that takes a sample loses it for the channel. -/
theorem Lost.take {n : ℕ} {u : OutState α cap} {x : α} (h : Lost n ch s as t)
    (hunused : (t.chan ch).unused = x :: (u.chan ch).unused)
    (havail : (u.chan ch).m_out_samples_avail =
      Counter.pred 32 (t.chan ch).m_out_samples_avail) : Lost (n + 1) ch s as u := by
  obtain ⟨xs, hlen, hsplit, hcount⟩ := h
  refine ⟨xs ++ [x], ?_, ?_, ?_⟩
  · rw [List.length_append, hlen, List.length_singleton]
  · rw [hsplit, hunused, List.append_assoc]
    rfl
  · rw [havail]
    have hpred : Counter.pred 32 (t.chan ch).m_out_samples_avail + 1 ≡
        (t.chan ch).m_out_samples_avail [MOD 2 ^ 32] := by
      rw [Counter.pred, Nat.ModEq, Nat.mod_add_mod]
      omega
    calc Counter.pred 32 (t.chan ch).m_out_samples_avail + (n + 1)
        = Counter.pred 32 (t.chan ch).m_out_samples_avail + 1 + n := by omega
      _ ≡ (t.chan ch).m_out_samples_avail + n [MOD 2 ^ 32] := hpred.add_right n
      _ ≡ (s.chan ch).m_out_samples_avail + written ch as [MOD 2 ^ 32] := hcount

/-- The fill itself pushes and writes nothing. -/
theorem lost_next {n : ℕ} : Lost n ch s (as ++ [.next]) t ↔ Lost n ch s as t := by
  rw [Lost, Lost, pushed_concat, written_concat, pushed_next, written_next, List.append_nil,
    Nat.add_zero]

/-! ### The fill without other threads -/

/-- `encode_out` throws when its first half does. -/
theorem encode_sample_of_noFallback {convert : Mode → Option α → γ} {peek : Bool}
    {c : OutChannel α cap} (h : c.encode_out convert N peek = .noFallback) :
    c.encode_sample N peek = .noFallback := by
  rw [OutChannel.encode_out] at h
  split at h
  · cases h
  · assumption
  · cases h

/-- **`handle_out_transfer` as a run**: where it throws, the fill without any other thread
throws in the same state. -/
theorem run_of_threw {convert : Channel → Mode → Option α → γ} {k : ℕ} {r : Codes γ}
    {s u : OutState α cap} (h : fillSamples convert N k r s = .threw u) :
    ∃ n f, (machine α N cap).run ⟨s, k, .encode .A⟩ (List.replicate n .next) = some f ∧
      f.out = u ∧ Threw f := by
  have hcaught : ∀ f : State α cap, Threw { f with pc := caught N f } := by
    intro f
    rw [Threw, caught]
    by_cases hN : N = 0 ∨ f.out.m_out_sampleno < N
    · exact .inl (if_pos hN)
    · exact .inr (if_neg hN)
  have hcons : ∀ (x : Codes γ) (w : Filled γ α cap), w.cons x = .threw u → w = .threw u := by
    intro x w hw
    cases w with
    | threw v =>
        cases hw
        rfl
    | filled v buffer | waits => cases hw
  induction k generalizing r s with
  | zero => cases h
  | succ k ih =>
      rw [fillSamples] at h
      split at h
      · rename_i hcount
        simp only at h
        have hA : advance N (⟨s, k + 1, .encode .A⟩ : State α cap) =
            encode N .A ⟨s, k + 1, .encode .A⟩ := by
          simp only [advance, if_neg (Nat.succ_ne_zero k), if_pos hcount]
        split at h
        · rename_i a ca hencA
          obtain ⟨val, hsA, -⟩ := OutChannel.encode_out_eq_done_iff.mp hencA
          have hstepA : advance N (⟨s, k + 1, .encode .A⟩ : State α cap) =
              some ⟨{ s with a := ca }, k + 1, .encode .B⟩ := by
            simp only [hA, encode, OutState.chan, hsA, setChan]
          split at h
          · rename_i b cb hencB
            obtain ⟨val, hsB, -⟩ := OutChannel.encode_out_eq_done_iff.mp hencB
            obtain ⟨n, f, hrun, hout, hthrew⟩ := ih (hcons _ _ h)
            refine ⟨n + 2, f, ?_, hout, hthrew⟩
            refine (machine α N cap).run_cons_eq_some_iff.mpr ⟨_, hstepA, ?_⟩
            refine (machine α N cap).run_cons_eq_some_iff.mpr ⟨_, ?_, hrun⟩
            simp only [machine, advance, encode, OutState.chan, hsB, setChan,
              Nat.add_sub_cancel]
          · rename_i hencB
            cases h
            refine ⟨2, _, (machine α N cap).run_cons_eq_some_iff.mpr ⟨_, hstepA, ?_⟩, rfl,
              hcaught ⟨{ s with a := ca }, k + 1, .encode .B⟩⟩
            refine (machine α N cap).run_cons_eq_some_iff.mpr ⟨_, ?_, rfl⟩
            simp only [machine, advance, encode, OutState.chan,
              encode_sample_of_noFallback hencB]
          · cases h
        · rename_i hencA
          cases h
          refine ⟨1, _, (machine α N cap).run_cons_eq_some_iff.mpr ⟨_, ?_, rfl⟩, rfl,
            hcaught ⟨u, k + 1, .encode .A⟩⟩
          simp only [machine, hA, encode, OutState.chan, encode_sample_of_noFallback hencA]
        · cases h
      · rename_i hcount
        obtain ⟨n, f, hrun, hout, hthrew⟩ := ih (hcons _ _ h)
        refine ⟨n + 1, f, (machine α N cap).run_cons_eq_some_iff.mpr ⟨_, ?_, hrun⟩, hout, hthrew⟩
        simp only [machine, advance, if_neg (Nat.succ_ne_zero k), if_neg hcount,
          Nat.add_sub_cancel]

/-! ### Whole fills -/

/-- What channel A has lost since the fill `start` began: nothing if it was spared, else one
sample. -/
def Tally (N : ℕ) (start : State α cap) (as : List (Act α)) (t : OutState α cap) : Prop :=
  ((machine α N cap).Meets (Spared N) start as ∧ Lost 0 .A start.out as t) ∨
    (¬(machine α N cap).Meets (Spared N) start as ∧ Lost 1 .A start.out as t)

/-- **The invariant**: up to the first call of channel B nothing is lost but the sample of
channel A; after it both channels have a sample to repeat. -/
def Inv (N : ℕ) (start : State α cap) (as : List (Act α)) (f : State α cap) : Prop :=
  match f.pc with
  | .encode .A =>
      (f.out.m_out_sampleno = start.out.m_out_sampleno ∧
        (∀ ch, Lost 0 ch start.out as f.out) ∧
        (machine α N cap).Meets (Spared N) start as) ∨ ∀ ch, Settled (f.out.chan ch)
  | .encode .B =>
      (f.out.m_out_sampleno = start.out.m_out_sampleno ∧ Lost 0 .B start.out as f.out ∧
        Settled f.out.a ∧ Tally N start as f.out) ∨ ∀ ch, Settled (f.out.chan ch)
  | .filled => True
  | .dropped => Lost 0 .B start.out as f.out ∧ Tally N start as f.out
  | .cut => False

variable {start : State α cap}

/-- A step in which channel A is not asked for a code changes nothing of what it has lost. -/
theorem Tally.concat {a : Act α} (h : Tally N start as s)
    (hspared : ∀ u, (machine α N cap).run start as = some u → Spared N u a)
    (hlost : ∀ n, Lost n .A start.out as s → Lost n .A start.out (as ++ [a]) t) :
    Tally N start (as ++ [a]) t := by
  rcases h with ⟨hmeets, hzero⟩ | ⟨hmeets, hone⟩
  · exact .inl ⟨Machine.meets_concat_iff.mpr ⟨hmeets, hspared⟩, hlost 0 hzero⟩
  · exact .inr ⟨fun h => hmeets (Machine.meets_concat_iff.mp h).1, hlost 1 hone⟩

/-- Only the fill asks channel A for a code. -/
theorem spared_other {a : Act α} (hother : a ≠ .next) (u : State α cap) : Spared N u a := by
  cases a with
  | next => exact absurd rfl hother
  | write ch n | push ch xs => trivial

/-- The invariant in the steps of the other threads. -/
theorem Inv.other {a : Act α} (h : Inv N start as f) (hother : a ≠ .next)
    (hstep : (machine α N cap).step f a = some g) : Inv N start (as ++ [a]) g := by
  obtain ⟨hpc, -, hno, hchan⟩ := other_step hother hstep
  have hsettled : (∀ ch, Settled (f.out.chan ch)) → ∀ ch, Settled (g.out.chan ch) := by
    intro hset ch hsrc
    obtain ⟨hmode, hprev, -⟩ := hchan ch
    rw [hprev]
    exact hset ch (hmode ▸ hsrc)
  have htally : Tally N start as f.out → Tally N start (as ++ [a]) g.out := fun h =>
    h.concat (fun u _ => spared_other hother u) fun _ hlost => hlost.other hother hstep
  rw [Inv] at h ⊢
  rw [hpc]
  cases hf : f.pc with
  | encode ch =>
      rw [hf] at h
      cases ch with
      | A =>
          refine h.imp ?_ hsettled
          rintro ⟨hfirst, hlost, hmeets⟩
          exact ⟨hno.trans hfirst, fun ch => (hlost ch).other hother hstep,
            Machine.meets_concat_iff.mpr ⟨hmeets, fun u _ => spared_other hother u⟩⟩
      | B =>
          refine h.imp ?_ hsettled
          rintro ⟨hfirst, hlost, hset, hsofar⟩
          refine ⟨hno.trans hfirst, hlost.other hother hstep, ?_, htally hsofar⟩
          obtain ⟨hmode, hprev, -⟩ := hchan .A
          intro hsrc
          exact (congrArg Option.isSome hprev).trans (hset (hmode ▸ hsrc))
  | filled => trivial
  | dropped =>
      rw [hf] at h
      exact ⟨h.1.other hother hstep, htally h.2⟩
  | cut =>
      rw [hf] at h
      exact h

/-- A position before the last of the run is no look-ahead. -/
theorem peek_of_first (hfirst : f.out.m_out_sampleno = start.out.m_out_sampleno)
    (hstart : N = 0 ∨ start.out.m_out_sampleno < N) :
    decide (N > 0 ∧ f.out.m_out_sampleno = N) = false := by
  rw [decide_eq_false_iff_not]
  omega

/-- The invariant when channel A is asked for a code. -/
theorem Inv.encodeA (hstart : N = 0 ∨ start.out.m_out_sampleno < N)
    (hrun : (machine α N cap).run start as = some f) (hpc : f.pc = .encode .A)
    (h : Inv N start as f) (hstep : encode N .A f = some g) :
    Inv N start (as ++ [.next]) g := by
  rw [Inv, hpc] at h
  rw [encode] at hstep
  split at hstep
  · rename_i val c hdone
    obtain rfl := Option.some.inj hstep
    have hset := settled_of_done hdone
    rcases h with ⟨hfirst, hlost, hmeets⟩ | hsettled
    · refine .inl ⟨hfirst, lost_next.mpr (hlost .B), hset, ?_⟩
      rw [peek_of_first hfirst hstart] at hdone
      have hconcat : (machine α N cap).Meets (Spared N) start (as ++ [.next]) ↔
          ¬Counts N f.out.a := by
        simp only [Machine.meets_concat_iff, hrun, Option.some.injEq, forall_eq', Spared, hpc,
          forall_const]
        exact and_iff_right hmeets
      rcases effect_of_done hdone with ⟨hcounts, hsame⟩ | ⟨hcounts, x, hunused, havail⟩
      · refine .inl ⟨hconcat.mpr hcounts, lost_next.mpr ?_⟩
        rw [hsame]
        exact hlost .A
      · refine .inr ⟨fun hn => hconcat.mp hn hcounts, lost_next.mpr ?_⟩
        exact (hlost .A).take (u := setChan .A c f.out) hunused havail
    · refine .inr fun ch => ?_
      cases ch with
      | A => exact hset
      | B => exact hsettled .B
  · rename_i hthrow
    obtain rfl := Option.some.inj hstep
    obtain ⟨hset, hcounts⟩ := not_settled_of_noFallback hthrow
    rcases h with ⟨hfirst, hlost, hmeets⟩ | hsettled
    · have hdropped : caught N f = .dropped := by
        rw [caught, hfirst, if_pos hstart]
      rw [Inv, hdropped]
      refine ⟨lost_next.mpr (hlost .B), .inl ⟨?_, lost_next.mpr (hlost .A)⟩⟩
      refine Machine.meets_concat_iff.mpr ⟨hmeets, fun u hu => ?_⟩
      obtain rfl := Option.some.inj (hrun.symm.trans hu)
      exact fun _ => hcounts
    · exact absurd (hsettled .A) hset
  · cases hstep

/-- The invariant when channel B is asked for a code. -/
theorem Inv.encodeB (hstart : N = 0 ∨ start.out.m_out_sampleno < N)
    (hrun : (machine α N cap).run start as = some f) (hpc : f.pc = .encode .B)
    (h : Inv N start as f) (hstep : encode N .B f = some g) :
    Inv N start (as ++ [.next]) g := by
  rw [Inv, hpc] at h
  rw [encode] at hstep
  split at hstep
  · rename_i val c hdone
    obtain rfl := Option.some.inj hstep
    have hset := settled_of_done hdone
    refine .inr fun ch => ?_
    cases ch with
    | A =>
        rcases h with ⟨-, -, hsettled, -⟩ | hsettled
        · exact hsettled
        · exact hsettled .A
    | B => exact hset
  · rename_i hthrow
    obtain rfl := Option.some.inj hstep
    obtain ⟨hset, -⟩ := not_settled_of_noFallback hthrow
    rcases h with ⟨hfirst, hlost, -, htally⟩ | hsettled
    · have hdropped : caught N f = .dropped := by
        rw [caught, hfirst, if_pos hstart]
      rw [Inv, hdropped]
      refine ⟨lost_next.mpr hlost, htally.concat ?_ fun _ hA => lost_next.mpr hA⟩
      intro u hu hA
      obtain rfl := Option.some.inj (hrun.symm.trans hu)
      rw [hpc] at hA
      cases hA
    · exact absurd (hsettled .B) hset
  · cases hstep

/-- **The step lemma.** -/
theorem Inv.step {a : Act α} (hstart : N = 0 ∨ start.out.m_out_sampleno < N)
    (hrun : (machine α N cap).run start as = some f) (h : Inv N start as f)
    (hstep : (machine α N cap).step f a = some g) : Inv N start (as ++ [a]) g := by
  by_cases hother : a = .next
  · subst hother
    simp only [machine, advance] at hstep
    split at hstep
    · rename_i hpc
      split at hstep
      · obtain rfl := Option.some.inj hstep
        trivial
      · split at hstep
        · exact h.encodeA hstart hrun hpc hstep
        · rename_i hcount
          obtain rfl := Option.some.inj hstep
          rw [Inv, hpc] at h
          rcases h with ⟨hfirst, -⟩ | hsettled
          · omega
          · refine .inr fun ch => ?_
            cases ch with
            | A => exact hsettled .A
            | B => exact hsettled .B
    · rename_i hpc
      exact h.encodeB hstart hrun hpc hstep
    · cases hstep
  · exact h.other hother hstep

/-- **How a fill throws**: the transfer is dropped, channel B has lost nothing, and channel A
has lost the sample that it counted on, if it did. -/
theorem threw_cases {k : ℕ} (hsubmit : submit_out_transfer N k s = some start)
    (hrun : (machine α N cap).run start as = some f) (hthrew : Threw f) :
    f.pc = .dropped ∧ Lost 0 .B s as f.out ∧
      (((machine α N cap).Meets (Spared N) start as ∧ Lost 0 .A s as f.out) ∨
        (¬(machine α N cap).Meets (Spared N) start as ∧ Lost 1 .A s as f.out)) := by
  rw [submit_out_transfer] at hsubmit
  split at hsubmit
  · rename_i hstart
    obtain rfl := Option.some.inj hsubmit
    have hnil : Inv N ⟨s, k, .encode .A⟩ [] ⟨s, k, .encode .A⟩ := by
      refine .inl ⟨rfl, fun ch => ⟨[], rfl, ?_, Nat.ModEq.refl _⟩, trivial⟩
      exact List.append_nil _
    have hinv := Machine.invariant_of_history (Inv N ⟨s, k, .encode .A⟩) hnil
      (fun as u a v hu h hstep => h.step hstart hu hstep) hrun
    rw [Inv] at hinv
    rcases hthrew with hpc | hpc
    · rw [hpc] at hinv
      exact ⟨hpc, hinv⟩
    · rw [hpc] at hinv
      exact absurd hinv id
  · cases hsubmit

end Libsmu.Fill
