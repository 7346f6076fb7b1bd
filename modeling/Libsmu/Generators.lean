import Libsmu.SawtoothRange

/-!
# The Generators

The functions that fill a buffer with a waveform, over any arithmetic of `float` and `double`:
nothing here depends on how they round. The counter of their loops is an `unsigned` and the
number of samples has 64 bits, so that a call for `2 ^ 32` samples or more never returns.

## Main results

* `Generator.load_emit`: a second call goes on from what the first has left.
* `Generator.appends_and_resumes_iff`: for which numbers of samples a call returns, and two
  calls in a row append what one does.
* `Exact.call_exact`: in exact arithmetic the generators are the functions of the waveforms.
-/

namespace Libsmu

namespace Generators

open CountedLoop
open Waveforms (Src)

/-! ### The arithmetic -/

/-- The operations of a type of floats. -/
class Scalar (α : Type*) extends Add α, Sub α, Mul α, Div α where
  lt : α → α → Bool
  le : α → α → Bool
  lit : ℕ → α

/-- What the waveforms use of `float` and `double`. -/
structure Floats (float double : Type*) where
  to_double : float → double
  to_float : double → float
  truncf : float → float
  floorf : float → float
  fmod : double → double → double
  cos : double → double
  fabs : double → double
  PI : double

/-- `Signal`. -/
structure Signal (float double : Type*) where
  m_src : Src
  m_src_v1 : float
  m_src_v2 : float
  m_src_period : double
  m_src_duty : double
  m_src_phase : double

variable {float double : Type*} [Scalar float] [Scalar double] (F : Floats float double)

open Scalar (lt le lit)

/-- `norm_phase` of `get_sample`. -/
def norm_phase (period phase : double) : double :=
  if lt (phase / period) (lit 0) then phase / period + lit 1 else phase / period

/-- `max_int_phase` of the sawtooth. -/
def max_int_phase (period phase : double) : float :=
  let int_period := F.truncf (F.to_float period)
  let int_phase := F.truncf (F.to_float phase)
  let frac_period := F.to_float (period - F.to_double int_period)
  let frac_phase := F.to_float (phase - F.to_double int_phase)
  if le frac_period frac_phase then int_period - lit 1 else int_period

/-- `nphase` of the sawtooth. -/
def nphase (period phase : double) : float :=
  let nphase := F.truncf (F.to_float phase) / max_int_phase F period phase
  if lt nphase (lit 0) then nphase + lit 1 else nphase

namespace Signal

/-- What `get_sample` returns. -/
def value (s : Signal float double) : float :=
  let peak_to_peak := s.m_src_v2 - s.m_src_v1
  let norm_phase := norm_phase s.m_src_period s.m_src_phase
  match s.m_src with
  | .CONSTANT => s.m_src_v1
  | .SQUARE => if lt norm_phase s.m_src_duty then s.m_src_v1 else s.m_src_v2
  | .SAWTOOTH => s.m_src_v2 - nphase F s.m_src_period s.m_src_phase * peak_to_peak
  | .STAIRSTEP =>
    s.m_src_v2 - F.floorf (F.to_float (norm_phase * lit 10)) * peak_to_peak / lit 9
  | .SINE =>
    F.to_float (F.to_double s.m_src_v1 +
      (lit 1 + F.cos (norm_phase * lit 2 * F.PI)) * F.to_double peak_to_peak / lit 2)
  | .TRIANGLE =>
    F.to_float (F.to_double s.m_src_v1 +
      F.fabs (lit 1 - norm_phase * lit 2) * F.to_double peak_to_peak)

/-- What `get_sample` leaves. -/
def advance (s : Signal float double) : Signal float double :=
  match s.m_src with
  | .CONSTANT => s
  | _ => { s with m_src_phase := F.fmod (s.m_src_phase + lit 1) s.m_src_period }

/-- `get_sample`. -/
def get_sample (s : Signal float double) : float × Signal float double :=
  (s.value F, s.advance F)

end Signal

open Libsmu.Generators.Signal (get_sample)

/-! ### The functions -/

/-- The loop that all of them end with. -/
def fill (s : Signal float double) (fuel : ℕ) (buf : List float) (samples : ℕ) :
    Option (Signal float double × List float) :=
  countedLoop 32 samples (get_sample F) fuel ⟨0, s, buf⟩

/-- `constant`. -/
def constant (s : Signal float double) (fuel : ℕ) (buf : List float) (samples : ℕ) (val : float) :
    Option (Signal float double × List float) :=
  fill F { s with m_src := .CONSTANT, m_src_v1 := val } fuel buf samples

/-- A waveform with a period, from the phase on. -/
def periodic (m_src : Src) (s : Signal float double) (fuel : ℕ) (buf : List float) (samples : ℕ)
    (midpoint peak : float) (period phase : double) :
    Option (Signal float double × List float) :=
  fill F
    { s with
      m_src := m_src
      m_src_phase := phase
      m_src_period := period
      m_src_v1 := midpoint
      m_src_v2 := peak } fuel buf samples

/-- `square`. -/
def square (s : Signal float double) (fuel : ℕ) (buf : List float) (samples : ℕ)
    (midpoint peak : float) (period phase duty : double) :
    Option (Signal float double × List float) :=
  periodic F .SQUARE { s with m_src_duty := duty } fuel buf samples midpoint peak period phase

/-- `sawtooth`. -/
def sawtooth (s : Signal float double) (fuel : ℕ) (buf : List float) (samples : ℕ)
    (midpoint peak : float) (period phase : double) :
    Option (Signal float double × List float) :=
  periodic F .SAWTOOTH s fuel buf samples midpoint peak period phase

/-- `stairstep`. -/
def stairstep (s : Signal float double) (fuel : ℕ) (buf : List float) (samples : ℕ)
    (midpoint peak : float) (period phase : double) :
    Option (Signal float double × List float) :=
  periodic F .STAIRSTEP s fuel buf samples midpoint peak period phase

/-- `sine`. -/
def sine (s : Signal float double) (fuel : ℕ) (buf : List float) (samples : ℕ)
    (midpoint peak : float) (period phase : double) :
    Option (Signal float double × List float) :=
  periodic F .SINE s fuel buf samples midpoint peak period phase

/-- `triangle`. -/
def triangle (s : Signal float double) (fuel : ℕ) (buf : List float) (samples : ℕ)
    (midpoint peak : float) (period phase : double) :
    Option (Signal float double × List float) :=
  periodic F .TRIANGLE s fuel buf samples midpoint peak period phase

/-- One of the functions with what it is called with, but for the buffer. -/
inductive Generator (float double : Type*)
  | constant (val : float)
  | square (midpoint peak : float) (period phase duty : double)
  | sawtooth (midpoint peak : float) (period phase : double)
  | stairstep (midpoint peak : float) (period phase : double)
  | sine (midpoint peak : float) (period phase : double)
  | triangle (midpoint peak : float) (period phase : double)

namespace Generator

/-- The call. -/
def call (g : Generator float double) (s : Signal float double) (fuel : ℕ) (buf : List float)
    (samples : ℕ) : Option (Signal float double × List float) :=
  match g with
  | .constant val => Generators.constant F s fuel buf samples val
  | .square midpoint peak period phase duty =>
    Generators.square F s fuel buf samples midpoint peak period phase duty
  | .sawtooth midpoint peak period phase =>
    Generators.sawtooth F s fuel buf samples midpoint peak period phase
  | .stairstep midpoint peak period phase =>
    Generators.stairstep F s fuel buf samples midpoint peak period phase
  | .sine midpoint peak period phase =>
    Generators.sine F s fuel buf samples midpoint peak period phase
  | .triangle midpoint peak period phase =>
    Generators.triangle F s fuel buf samples midpoint peak period phase

/-- The same from another phase, for those that take one. -/
def starting (g : Generator float double) (phase : double) : Generator float double :=
  match g with
  | .constant val => .constant val
  | .square midpoint peak period _ duty => .square midpoint peak period phase duty
  | .sawtooth midpoint peak period _ => .sawtooth midpoint peak period phase
  | .stairstep midpoint peak period _ => .stairstep midpoint peak period phase
  | .sine midpoint peak period _ => .sine midpoint peak period phase
  | .triangle midpoint peak period _ => .triangle midpoint peak period phase

/-- What the call sets before its loop. -/
def load (g : Generator float double) (s : Signal float double) : Signal float double :=
  match g with
  | .constant val => { s with m_src := .CONSTANT, m_src_v1 := val }
  | .square midpoint peak period phase duty => ⟨.SQUARE, midpoint, peak, period, duty, phase⟩
  | .sawtooth midpoint peak period phase =>
    ⟨.SAWTOOTH, midpoint, peak, period, s.m_src_duty, phase⟩
  | .stairstep midpoint peak period phase =>
    ⟨.STAIRSTEP, midpoint, peak, period, s.m_src_duty, phase⟩
  | .sine midpoint peak period phase => ⟨.SINE, midpoint, peak, period, s.m_src_duty, phase⟩
  | .triangle midpoint peak period phase =>
    ⟨.TRIANGLE, midpoint, peak, period, s.m_src_duty, phase⟩

/-- **A call appends as many samples as it is asked for**, and keeps what was there. -/
def Appends (g : Generator float double) (s : Signal float double) (buf : List float)
    (n : ℕ) : Prop :=
  ∃ fuel t out, g.call F s fuel buf n = some (t, buf ++ out) ∧ out.length = n

/-- **Two calls do what one does**: the second starts at the phase that the first has left. -/
def Resumes (g : Generator float double) (s : Signal float double) (buf : List float)
    (n m : ℕ) : Prop :=
  ∃ fuel t mid, g.call F s fuel buf n = some (t, mid) ∧
    ∃ fuel₁ fuel₂ u out, (g.starting t.m_src_phase).call F t fuel₁ mid m = some (u, out) ∧
      g.call F s fuel₂ buf (n + m) = some (u, out)

variable {F} {g : Generator float double} {s : Signal float double} {buf : List float} {n m : ℕ}

/-- The call is a counted loop over the samples. -/
theorem call_eq_countedLoop (fuel : ℕ) :
    g.call F s fuel buf n = countedLoop 32 n (get_sample F) fuel ⟨0, g.load s, buf⟩ := by
  cases g <;> rfl

variable (F g s buf) in
/-- A call returns for a number of samples that its counter can hold. -/
theorem exists_call (hn : n < 2 ^ 32) :
    ∃ fuel, g.call F s fuel buf n = some ((emit (get_sample F) n (g.load s)).2,
      buf ++ (emit (get_sample F) n (g.load s)).1) := by
  simp only [call_eq_countedLoop]
  exact exists_countedLoop_iff.2 ⟨hn, rfl⟩

/-- It returns for no other one. -/
theorem lt_of_call {fuel : ℕ} {t : Signal float double} {out : List float}
    (h : g.call F s fuel buf n = some (t, out)) : n < 2 ^ 32 := by
  rw [call_eq_countedLoop, countedLoop_eq_some_iff] at h
  exact h.1

/-! ### What a call leaves -/

/-- Taking a sample moves the phase only. -/
theorem get_sample_state (t : Signal float double) :
    (get_sample F t).2 = { t with m_src_phase := (get_sample F t).2.m_src_phase } := by
  obtain ⟨m_src, v1, v2, period, duty, phase⟩ := t
  cases m_src <;> rfl

/-- A sample changes nothing but the phase. -/
theorem emit_state (t : Signal float double) (k : ℕ) :
    (emit (get_sample F) k t).2 =
      { t with m_src_phase := (emit (get_sample F) k t).2.m_src_phase } := by
  induction k with
  | zero => rfl
  | succ k ih =>
      rw [emit_succ_snd, get_sample_state, ih]

omit [Scalar float] [Scalar double] in
/-- The generator that starts from a phase has it loaded. -/
theorem load_starting (t : Signal float double) (phase : double)
    (ht : t = { g.load s with m_src_phase := phase }) : (g.starting phase).load t = t := by
  subst ht
  cases g <;> rfl

/-- **A second call starts from what the first has left.** -/
theorem load_emit (k : ℕ) :
    let t := (emit (get_sample F) k (g.load s)).2
    (g.starting t.m_src_phase).load t = t :=
  load_starting _ _ (emit_state _ k)

/-! ### How many samples -/

/-- The samples asked for are appended exactly when their number fits the loop counter. -/
theorem appends_iff : g.Appends F s buf n ↔ n < 2 ^ 32 := by
  constructor
  · rintro ⟨fuel, t, out, hcall, -⟩
    exact lt_of_call hcall
  · intro hn
    obtain ⟨fuel, hcall⟩ := exists_call F g s buf hn
    exact ⟨fuel, _, _, hcall, length_emit _ _ _⟩

/-- Two calls do what one does exactly when their sum fits it. -/
theorem resumes_iff : g.Resumes F s buf n m ↔ n + m < 2 ^ 32 := by
  constructor
  · rintro ⟨-, -, -, -, -, fuel, u, out, -, hcall⟩
    exact lt_of_call hcall
  · intro hlt
    have hn : n < 2 ^ 32 := by omega
    have hm : m < 2 ^ 32 := by omega
    obtain ⟨fuel, hfirst⟩ := exists_call F g s buf hn
    obtain ⟨fuel₂, hboth⟩ := exists_call F g s buf hlt
    set t := (emit (get_sample F) n (g.load s)).2
    obtain ⟨fuel₁, hsecond⟩ := exists_call F (g.starting t.m_src_phase) t
      (buf ++ (emit (get_sample F) n (g.load s)).1) hm
    rw [load_emit] at hsecond
    refine ⟨fuel, t, _, hfirst, fuel₁, fuel₂, _, _, hsecond, ?_⟩
    rw [hboth, emit_add, List.append_assoc]

/-- **The loops of the generators.** A call returns with the samples it is asked for, and two
calls append what one does, for numbers of samples below `2 ^ 32`. -/
theorem appends_and_resumes_iff (g : Generator float double) (s : Signal float double)
    (buf : List float) (n m : ℕ) :
    (g.Appends F s buf n ↔ n < 2 ^ 32) ∧ (g.Resumes F s buf n m ↔ n + m < 2 ^ 32) :=
  ⟨appends_iff, resumes_iff⟩

end Generator

/-! ### Exact arithmetic -/

/-- Exact numbers, and what a division by 0 gives. -/
def Exact (α : Type*) := Option α

namespace Exact

variable {α : Type*}

/-- A number. -/
def of (x : α) : Exact α := some x

/-- A comparison with no number fails. -/
def compare (r : α → α → Bool) (a b : Exact α) : Bool :=
  Option.elim a false fun x => Option.elim b false (r x)

variable [Field α] [LinearOrder α]

instance : Scalar (Exact α) where
  add := Option.map₂ (· + ·)
  sub := Option.map₂ (· - ·)
  mul := Option.map₂ (· * ·)
  div a b := Option.bind a fun x => Option.bind b (Waveforms.quotient x)
  lt := compare fun x y => x < y
  le := compare fun x y => x ≤ y
  lit n := of (n : α)

/-! #### The operations on numbers -/

variable {x y : α}

/-- Numbers are added as they are. -/
@[simp] theorem of_add : of x + of y = of (x + y) := rfl

/-- Numbers are subtracted as they are. -/
@[simp] theorem of_sub : of x - of y = of (x - y) := rfl

/-- Numbers are multiplied as they are. -/
@[simp] theorem of_mul : of x * of y = of (x * y) := rfl

/-- A quotient may be undefined. -/
theorem of_div : of x / of y = Waveforms.quotient x y := rfl

/-- A quotient is undefined for the divisor zero only. -/
theorem of_div_of_ne (hy : y ≠ 0) : of x / of y = of (x / y) := if_neg hy

/-- `<` compares the numbers. -/
@[simp] theorem lt_of : lt (of x) (of y) = decide (x < y) := rfl

/-- `<=` compares the numbers. -/
@[simp] theorem le_of : le (of x) (of y) = decide (x ≤ y) := rfl

/-- A literal is its number. -/
@[simp] theorem lit_eq (n : ℕ) : (lit n : Exact α) = of (n : α) := rfl

/-- The normed phase is that of the exact model. -/
theorem norm_phase_exact (hy : y ≠ 0) :
    norm_phase (of y) (of x) = of (Waveforms.norm_phase y x) := by
  simp only [norm_phase, of_div_of_ne hy, lit_eq, Nat.cast_zero, Nat.cast_one, lt_of,
    of_add, decide_eq_true_eq, Waveforms.norm_phase]
  split_ifs <;> rfl

variable [FloorRing α]

/-- Exact arithmetic for both types. -/
def exact (cos : α → α) (PI : α) : Floats (Exact α) (Exact α) where
  to_double := id
  to_float := id
  truncf := Option.map fun x => (SignedRemainder.trunc x : α)
  floorf := Option.map fun x => (⌊x⌋ : α)
  fmod a b := Option.bind a fun x => Option.bind b fun y =>
    if y = 0 then none else of (SignedRemainder.fmod x y)
  cos := Option.map cos
  fabs := Option.map abs
  PI := of PI

/-- The exact signal as one of floats. -/
def signal (s : Waveforms.Signal α) : Signal (Exact α) (Exact α) where
  m_src := s.m_src
  m_src_v1 := of s.m_src_v1
  m_src_v2 := of s.m_src_v2
  m_src_period := of s.m_src_period
  m_src_duty := of s.m_src_duty
  m_src_phase := of s.m_src_phase

variable {cos : α → α} {PI : α}

/-- Nothing is rounded to `double`. -/
@[simp] theorem to_double_exact (a : Exact α) : (exact cos PI).to_double a = a := rfl

/-- Nothing is rounded to `float`. -/
@[simp] theorem to_float_exact (a : Exact α) : (exact cos PI).to_float a = a := rfl

/-- `truncf` is exact. -/
@[simp] theorem truncf_exact :
    (exact cos PI).truncf (of x) = of (SignedRemainder.trunc x : α) := rfl

/-- `floorf` is exact. -/
@[simp] theorem floorf_exact : (exact cos PI).floorf (of x) = of (⌊x⌋ : α) := rfl

/-- `cos` is the function given. -/
@[simp] theorem cos_exact : (exact cos PI).cos (of x) = of (cos x) := rfl

/-- `fabs` is exact. -/
@[simp] theorem fabs_exact : (exact cos PI).fabs (of x) = of |x| := rfl

/-- `M_PI` is the number given. -/
@[simp] theorem PI_exact : (exact cos PI).PI = of PI := rfl

/-- `fmod` is exact. -/
theorem fmod_exact (hy : y ≠ 0) :
    (exact cos PI).fmod (of x) (of y) = of (SignedRemainder.fmod x y) := if_neg hy

/-! #### The samples -/

/-- The last whole phase is that of the exact model. -/
theorem max_int_phase_exact :
    max_int_phase (exact cos PI) (of y) (of x) = of (Waveforms.max_int_phase y x) := by
  simp only [max_int_phase, Waveforms.max_int_phase, to_double_exact, to_float_exact,
    truncf_exact, of_sub, le_of, lit_eq, Nat.cast_one, decide_eq_true_eq]
  split_ifs <;> rfl

/-- The phase over the last whole one is that of the exact model. -/
theorem nphase_exact :
    nphase (exact cos PI) (of y) (of x) = Waveforms.nphase y x := by
  simp only [nphase, Waveforms.nphase, max_int_phase_exact, to_float_exact, truncf_exact, of_div,
    lit_eq, Nat.cast_zero, Nat.cast_one]
  cases Waveforms.quotient (SignedRemainder.trunc x : α) (Waveforms.max_int_phase y x) with
  | none => rfl
  | some q =>
      change (if lt (of q) (of 0) then of q + of 1 else of q) = _
      simp only [lt_of, of_add, decide_eq_true_eq, Option.map_some]
      split_ifs <;> rfl

omit [FloorRing α] in
/-- A sample below the peak, where there is one. -/
theorem of_sub_mul (c d : α) (q : Exact α) :
    of c - q * of d = Option.map (fun q => c - q * d) q := by
  cases q <;> rfl

/-- **A sample** is that of the exact model. -/
theorem value_exact [IsStrictOrderedRing α] (s : Waveforms.Signal α) :
    (signal s).value (exact cos PI) = s.value cos PI := by
  obtain ⟨m_src, v1, v2, period, duty, phase, hperiod⟩ := s
  have hnine : (9 : α) ≠ 0 := by norm_num
  have htwo : (2 : α) ≠ 0 := by norm_num
  cases m_src with
  | CONSTANT => rfl
  | SQUARE =>
      simp only [Signal.value, signal, Waveforms.Signal.value, norm_phase_exact hperiod, lt_of,
        decide_eq_true_eq]
      split_ifs <;> rfl
  | SAWTOOTH =>
      simp only [Signal.value, signal, Waveforms.Signal.value, nphase_exact, of_sub]
      exact of_sub_mul _ _ _
  | STAIRSTEP =>
      simp only [Signal.value, signal, norm_phase_exact hperiod, to_float_exact, lit_eq, of_sub,
        of_mul, floorf_exact, Nat.cast_ofNat, of_div_of_ne hnine]
      rfl
  | SINE =>
      simp only [Signal.value, signal, norm_phase_exact hperiod, to_float_exact, to_double_exact,
        lit_eq, of_sub, of_mul, of_add, cos_exact, PI_exact, Nat.cast_ofNat, Nat.cast_one,
        of_div_of_ne htwo]
      rfl
  | TRIANGLE =>
      simp only [Signal.value, signal, norm_phase_exact hperiod, to_float_exact, to_double_exact,
        lit_eq, of_sub, of_mul, of_add, fabs_exact, Nat.cast_ofNat, Nat.cast_one]
      rfl

/-- The phase after a sample is that of the exact model. -/
theorem advance_exact (s : Waveforms.Signal α) :
    (signal s).advance (exact cos PI) = signal s.advance := by
  obtain ⟨m_src, v1, v2, period, duty, phase, hperiod⟩ := s
  cases m_src
  case CONSTANT => rfl
  all_goals
    simp only [Signal.advance, signal, lit_eq, Nat.cast_one, of_add, fmod_exact hperiod]
    rfl

/-- The function that makes a waveform, with what it is called with. -/
def generator (w : Waveforms.Waveform α) : Generator (Exact α) (Exact α) :=
  match w.m_src with
  | .CONSTANT => .constant (of w.midpoint)
  | .SQUARE =>
    .square (of w.midpoint) (of w.peak) (of w.period) (of w.phase) (of w.duty)
  | .SAWTOOTH => .sawtooth (of w.midpoint) (of w.peak) (of w.period) (of w.phase)
  | .STAIRSTEP => .stairstep (of w.midpoint) (of w.peak) (of w.period) (of w.phase)
  | .SINE => .sine (of w.midpoint) (of w.peak) (of w.period) (of w.phase)
  | .TRIANGLE => .triangle (of w.midpoint) (of w.peak) (of w.period) (of w.phase)

variable [IsStrictOrderedRing α]

/-- The buffer that a call fills is that of the exact model. -/
theorem fill_exact (s : Waveforms.Signal α) (fuel samples : ℕ) (buf : List (Exact α)) :
    fill (exact cos PI) (signal s) fuel buf samples =
      (s.fill cos PI samples fuel 0 buf).map fun r => (signal r.1, r.2) := by
  have hstep (s : Waveforms.Signal α) : get_sample (exact cos PI) (signal s) =
      ((s.get_sample cos PI).1, signal (s.get_sample cos PI).2) :=
    Prod.ext (value_exact s) (advance_exact s)
  exact (countedLoop_map hstep).trans
    (congrArg (Option.map _) Waveforms.Signal.fill_eq_countedLoop.symm)

/-- **In exact arithmetic the generators are the functions of the waveforms.** -/
theorem call_exact (w : Waveforms.Waveform α) (s : Waveforms.Signal α) (fuel : ℕ)
    (buf : List (Exact α)) (samples : ℕ) :
    (generator w).call (exact cos PI) (signal s) fuel buf samples =
      (w.call cos PI s fuel buf samples).map fun r => (signal r.1, r.2) := by
  obtain ⟨m_src, midpoint, peak, period, phase, duty⟩ := w
  cases m_src with
  | CONSTANT => exact fill_exact { s with m_src := .CONSTANT, m_src_v1 := midpoint } _ _ _
  | SQUARE => exact fill_exact ⟨.SQUARE, midpoint, peak, period, duty, phase, period.2⟩ _ _ _
  | SAWTOOTH =>
      exact fill_exact ⟨.SAWTOOTH, midpoint, peak, period, s.m_src_duty, phase, period.2⟩ _ _ _
  | STAIRSTEP =>
      exact fill_exact ⟨.STAIRSTEP, midpoint, peak, period, s.m_src_duty, phase, period.2⟩ _ _ _
  | SINE =>
      exact fill_exact ⟨.SINE, midpoint, peak, period, s.m_src_duty, phase, period.2⟩ _ _ _
  | TRIANGLE =>
      exact fill_exact ⟨.TRIANGLE, midpoint, peak, period, s.m_src_duty, phase, period.2⟩ _ _ _

end Exact

/-! ### A call that does not return -/

/-- A signal that has made no waveform yet, over the rational numbers. -/
def fresh : Signal (Exact ℚ) (Exact ℚ) :=
  ⟨.CONSTANT, .of 0, .of 0, .of 1, .of 0, .of 0⟩

/-- **A count that the loop never reaches**: it needs 33 bits. Two calls for half of it each
return. -/
theorem constant_never_returns :
    (¬(Generator.constant (.of 1)).Appends (Exact.exact id 3) fresh [] (2 ^ 32)) ∧
      (Generator.constant (.of 1)).Appends (Exact.exact id 3) fresh [] (2 ^ 31) ∧
      ¬(Generator.constant (.of 1)).Resumes (Exact.exact id 3) fresh [] (2 ^ 31) (2 ^ 31) := by
  simp only [Generator.appends_iff, Generator.resumes_iff]
  norm_num

end Generators

end Libsmu
