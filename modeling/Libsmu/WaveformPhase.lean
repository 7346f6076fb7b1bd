import Libsmu.Waveforms

/-!
# The Sawtooth, and where the Phase only Counts Modulo the Period

The sawtooth divides the whole part of its phase by the last whole part that the phase takes
in a cycle. For a phase below zero it takes the fractional part with its sign, and adds 1 to
the quotient, which is the place in the cycle for few phases only.

## Main results

* `nphase_eq_iff`: within one cycle before zero, the phases where the added 1 finds the place.
* `lawful_iff`: the phases from which a waveform depends on the place only.
-/

namespace Libsmu

namespace Waveforms

open SignedRemainder

namespace Waveform

variable {α : Type*} [Field α] [LinearOrder α] [FloorRing α]

variable {period phase x : α}

/-! ### The steps of a cycle -/

/-- A period of a sample or more has a whole sample. -/
theorem one_le_floor (hp : 1 ≤ period) : 1 ≤ ⌊period⌋ := Int.le_floor.2 (by exact_mod_cast hp)

/-- The rest of one fraction is another when the products across are equal. -/
theorem one_sub_div_eq_div_iff {a b l m : ℤ} (hl : l ≠ 0) (hm : m ≠ 0) :
    1 - (a : α) / m = b / l ↔ (m - a) * l = b * m := by
  rw [one_sub_div (Int.cast_ne_zero.2 hm),
    div_eq_div_iff (Int.cast_ne_zero.2 hm) (Int.cast_ne_zero.2 hl)]
  exact_mod_cast Iff.rfl

/-- Within the first step before zero nothing has fallen yet, where all has at the place. -/
theorem zero_ne_div_self {l : ℤ} (hl : l ≠ 0) : (0 : α) ≠ (l : α) / l := by
  rw [div_self (Int.cast_ne_zero.2 hl)]
  exact zero_ne_one

/-- The phase over the last whole one is a number unless that is zero. -/
theorem exists_nphase_iff : (∃ r, nphase period phase = some r) ↔
    max_int_phase period phase ≠ 0 := by
  rw [nphase, quotient]
  split_ifs with h <;> simp [h]

variable [IsStrictOrderedRing α]

/-- The last whole step is the floor of the period, or one less. -/
theorem lastStep_eq (period x : α) :
    lastStep period x =
      if Int.fract period ≤ Int.fract x then ⌊period⌋ - 1 else ⌊period⌋ := by
  have hperiod := Int.floor_add_fract period
  have h0 := Int.fract_nonneg period
  have h1 := Int.fract_lt_one period
  have hx0 := Int.fract_nonneg x
  have hx1 := Int.fract_lt_one x
  rw [lastStep, sub_eq_iff_eq_add]
  split_ifs with h
  · rw [Int.ceil_eq_iff]
    push_cast
    constructor <;> linarith
  · rw [Int.ceil_eq_iff]
    push_cast
    constructor <;> linarith

/-- The part of the fall that is done at a place. -/
def fallen (period x : α) : α := ⌊x⌋ / lastStep period x

/-- It is not below zero. -/
theorem lastStep_nonneg (hp : 1 ≤ period) (x : α) : 0 ≤ lastStep period x := by
  have hfloor := one_le_floor hp
  rw [lastStep_eq]
  split_ifs <;> omega

/-- A place is no later than the last step. -/
theorem floor_le_lastStep (hx : x < period) : ⌊x⌋ ≤ lastStep period x := by
  rw [lastStep_eq]
  split_ifs with h
  · have hlt : ((⌊x⌋ : ℤ) : α) < ⌊period⌋ := by
      linarith [Int.floor_add_fract x, Int.floor_add_fract period]
    have hlt' : ⌊x⌋ < ⌊period⌋ := by exact_mod_cast hlt
    omega
  · exact Int.floor_le_floor hx.le

/-- The part of the way that is gone is not negative. -/
theorem fallen_nonneg (hp : 1 ≤ period) (h0 : 0 ≤ x) : 0 ≤ fallen period x :=
  div_nonneg (by exact_mod_cast Int.floor_nonneg.2 h0)
    (by exact_mod_cast lastStep_nonneg hp x)

/-- It is not more than all of it. -/
theorem fallen_le_one (hp : 1 ≤ period) (hx : x < period) : fallen period x ≤ 1 :=
  div_le_one_of_le₀ (by exact_mod_cast floor_le_lastStep hx)
    (by exact_mod_cast lastStep_nonneg hp x)

/-! ### The quotient of the sawtooth -/

/-- From above zero the last whole phase is the last whole step. -/
theorem max_int_phase_of_nonneg (hp : 0 ≤ period) (h0 : 0 ≤ phase) :
    max_int_phase period phase = lastStep period phase := by
  simp only [lastStep_eq, max_int_phase, trunc_of_nonneg hp, trunc_of_nonneg h0,
    Int.self_sub_floor]
  split_ifs <;> simp

/-- Before zero the last step is taken too early by one only for whole numbers. -/
theorem max_int_phase_of_neg (hp : 0 ≤ period) (h0 : phase < 0) :
    max_int_phase period phase =
      ((if Int.fract period = 0 ∧ Int.fract (-phase) = 0 then ⌊period⌋ - 1 else ⌊period⌋ : ℤ) :
        α) := by
  have hfrac : phase - ((-⌊-phase⌋ : ℤ) : α) = -Int.fract (-phase) := by
    rw [Int.fract]
    push_cast
    ring
  have hiff : Int.fract period ≤ -Int.fract (-phase) ↔
      Int.fract period = 0 ∧ Int.fract (-phase) = 0 := by
    have h₁ := Int.fract_nonneg period
    have h₂ := Int.fract_nonneg (-phase)
    constructor
    · intro h
      constructor <;> linarith
    · rintro ⟨h₁, h₂⟩
      rw [h₁, h₂, neg_zero]
  rw [max_int_phase, trunc_of_nonneg hp, trunc_of_neg h0]
  simp only [Int.self_sub_floor, hfrac, hiff]
  split_ifs <;> simp

/-- From above zero the part of the way is that from the last whole step. -/
theorem nphase_of_nonneg (hp : 1 ≤ period) (h0 : 0 ≤ phase) :
    nphase period phase =
      if lastStep period phase = 0 then none else some (fallen period phase) := by
  have hquot : 0 ≤ fallen period phase :=
    div_nonneg (by exact_mod_cast Int.floor_nonneg.2 h0)
      (by exact_mod_cast lastStep_nonneg hp phase)
  rw [nphase, max_int_phase_of_nonneg (by linarith) h0, trunc_of_nonneg h0, quotient]
  simp only [Int.cast_eq_zero]
  split_ifs with h
  · rfl
  · rw [Option.map_some, ← fallen, if_neg hquot.not_gt]

/-- From below zero it is counted from the other side. -/
theorem nphase_of_neg {last : ℤ} (hlast : max_int_phase period phase = last) (hpos : 0 < last)
    (h0 : phase < 0) :
    nphase period phase = some (if ⌊-phase⌋ = 0 then 0 else 1 - (⌊-phase⌋ : α) / last) := by
  have hfloor : 0 ≤ ⌊-phase⌋ := Int.floor_nonneg.2 (by linarith)
  have hpos' : (0 : α) < last := by exact_mod_cast hpos
  rw [nphase, hlast, trunc_of_neg h0, quotient, if_neg hpos'.ne', Option.map_some]
  congr 1
  split_ifs with hneg hzero hzero
  · simp [hzero] at hneg
  · push_cast
    ring
  · simp [hzero]
  · have hlt : (0 : α) < ⌊-phase⌋ := by exact_mod_cast lt_of_le_of_ne hfloor (Ne.symm hzero)
    refine absurd ?_ hneg
    push_cast
    exact div_neg_of_neg_of_pos (by linarith) hpos'

/-! ### Where the quotient is that of the place -/

/-- From one period on it is above 1. -/
theorem one_lt_nphase (hp : 1 ≤ period) (hphase : period ≤ phase) {r : α}
    (hr : nphase period phase = some r) : 1 < r := by
  have h0 : 0 ≤ phase := by linarith
  rw [nphase_of_nonneg hp h0] at hr
  split_ifs at hr with hzero
  obtain rfl := Option.some.inj hr
  have hpos : 0 < lastStep period phase := lt_of_le_of_ne (lastStep_nonneg hp phase) (Ne.symm hzero)
  have hlt : lastStep period phase < ⌊phase⌋ := by
    have hfloor : ⌊period⌋ ≤ ⌊phase⌋ := Int.floor_le_floor hphase
    rw [lastStep_eq]
    split_ifs with hfract
    · omega
    · have hlt : ((⌊period⌋ : ℤ) : α) < ⌊phase⌋ := by
        linarith [Int.floor_add_fract phase, Int.floor_add_fract period]
      exact_mod_cast hlt
  rw [fallen, one_lt_div (by exact_mod_cast hpos)]
  exact_mod_cast hlt

/-- The floor of a whole number and a part of one. -/
theorem floor_add_of_mem (z : ℤ) {e : α} (h0 : 0 ≤ e) (h1 : e < 1) : ⌊(z : α) + e⌋ = z := by
  rw [Int.floor_intCast_add, Int.floor_eq_zero_iff.2 ⟨h0, h1⟩, add_zero]

/-- The fractional part of a whole number and a part of one. -/
theorem fract_add_of_mem (z : ℤ) {e : α} (h0 : 0 ≤ e) (h1 : e < 1) :
    Int.fract ((z : α) + e) = e := by
  rw [Int.fract_intCast_add, Int.fract_eq_self.2 ⟨h0, h1⟩]

/-- The place of a phase before zero, where the part of a step that it keeps is no larger than
that of the period. -/
theorem place_of_le (hle : Int.fract (-phase) ≤ Int.fract period) :
    ⌊phase + period⌋ = ⌊period⌋ - ⌊-phase⌋ ∧ lastStep period (phase + period) =
      if Int.fract (-phase) = 0 then ⌊period⌋ - 1 else ⌊period⌋ := by
  have hsplit : phase + period =
      ((⌊period⌋ - ⌊-phase⌋ : ℤ) : α) + (Int.fract period - Int.fract (-phase)) := by
    push_cast
    linarith [Int.floor_add_fract period, Int.floor_add_fract (-phase)]
  have hnonneg := Int.fract_nonneg (-phase)
  have hlt_one : Int.fract period - Int.fract (-phase) < 1 := by
    linarith [Int.fract_lt_one period]
  have hiff : Int.fract period ≤ Int.fract period - Int.fract (-phase) ↔
      Int.fract (-phase) = 0 := by
    constructor
    · intro h
      linarith
    · intro h
      rw [h, sub_zero]
  rw [hsplit, lastStep_eq, floor_add_of_mem _ (by linarith) hlt_one,
    fract_add_of_mem _ (by linarith) hlt_one]
  simp only [hiff, and_self]

/-- Otherwise the place is one step earlier. -/
theorem place_of_lt (hlt : Int.fract period < Int.fract (-phase)) :
    ⌊phase + period⌋ = ⌊period⌋ - ⌊-phase⌋ - 1 ∧
      lastStep period (phase + period) = ⌊period⌋ - 1 := by
  have hsplit : phase + period = ((⌊period⌋ - ⌊-phase⌋ - 1 : ℤ) : α) +
      (1 + Int.fract period - Int.fract (-phase)) := by
    push_cast
    linarith [Int.floor_add_fract period, Int.floor_add_fract (-phase)]
  have hlt_one := Int.fract_lt_one (-phase)
  have hnonneg := Int.fract_nonneg period
  rw [hsplit, lastStep_eq, floor_add_of_mem _ (by linarith) (by linarith),
    fract_add_of_mem _ (by linarith) (by linarith), if_pos (by linarith)]
  exact ⟨rfl, rfl⟩

/-- A whole phase before zero is at its place only at the begin of the cycle: the place takes
one step less than the period has. -/
theorem nphase_eq_iff_whole (hp : 1 ≤ period) (h0 : phase < 0) (hg : Int.fract (-phase) = 0)
    {r : α} (hr : nphase period phase = some r) (hlast : lastStep period (phase + period) ≠ 0) :
    r = fallen period (phase + period) ↔ ⌊-phase⌋ = ⌊period⌋ ∧ 0 < Int.fract period := by
  have hf0 := Int.fract_nonneg period
  have hp0 : 0 ≤ period := by linarith
  have hN := one_le_floor hp
  have hmax := max_int_phase_of_neg hp0 h0
  have hpos : 0 < ⌊-phase⌋ := by
    have hcast : (0 : α) < ⌊-phase⌋ := by linarith [Int.floor_add_fract (-phase)]
    exact_mod_cast hcast
  obtain ⟨hplace, hstep⟩ := place_of_le (hg.trans_le hf0)
  rw [if_pos hg] at hstep
  rw [hstep] at hlast
  rw [fallen, hplace, hstep]
  rcases hf0.eq_or_lt with hf | hf
  · rw [if_pos ⟨hf.symm, hg⟩] at hmax
    rw [nphase_of_neg hmax (by omega) h0, if_neg hpos.ne'] at hr
    obtain rfl := Option.some.inj hr
    rw [one_sub_div_eq_div_iff hlast hlast, mul_left_inj' hlast]
    refine iff_of_false (by omega) fun h => ?_
    exact h.2.ne hf
  · rw [if_neg fun h => hf.ne' h.1] at hmax
    rw [nphase_of_neg hmax (by omega) h0, if_neg hpos.ne'] at hr
    obtain rfl := Option.some.inj hr
    rw [one_sub_div_eq_div_iff hlast (by omega), and_iff_left hf]
    constructor
    · intro h
      linarith
    · intro h
      rw [h]
      ring

/-- A phase that keeps no more of a step before zero than the period does is at its place from
the second step before zero on. -/
theorem nphase_eq_iff_short (hp : 1 ≤ period) (h0 : phase < 0) (hg : 0 < Int.fract (-phase))
    (hle : Int.fract (-phase) ≤ Int.fract period) {r : α} (hr : nphase period phase = some r) :
    r = fallen period (phase + period) ↔ 1 ≤ ⌊-phase⌋ := by
  have hp0 : 0 ≤ period := by linarith
  have hN := one_le_floor hp
  have hN' : ⌊period⌋ ≠ 0 := by omega
  have hmax := max_int_phase_of_neg hp0 h0
  have hfloor : 0 ≤ ⌊-phase⌋ := Int.floor_nonneg.2 (by linarith)
  obtain ⟨hplace, hstep⟩ := place_of_le hle
  rw [if_neg fun h => hg.ne' h.2] at hmax
  rw [if_neg hg.ne'] at hstep
  rw [nphase_of_neg hmax (by omega) h0] at hr
  obtain rfl := Option.some.inj hr
  rw [fallen, hplace, hstep]
  split_ifs with hzero
  · rw [hzero, sub_zero]
    exact iff_of_false (zero_ne_div_self hN') (by omega)
  · rw [one_sub_div_eq_div_iff hN' hN']
    exact iff_of_true rfl (by omega)

/-- A phase that keeps more is never at its place. -/
theorem nphase_ne_of_long (hp : 1 ≤ period) (h0 : phase < 0)
    (hlt : Int.fract period < Int.fract (-phase)) {r : α} (hr : nphase period phase = some r)
    (hlast : lastStep period (phase + period) ≠ 0) : r ≠ fallen period (phase + period) := by
  have hp0 : 0 ≤ period := by linarith
  have hN := one_le_floor hp
  have hN' : ⌊period⌋ ≠ 0 := by omega
  have hg : 0 < Int.fract (-phase) := (Int.fract_nonneg period).trans_lt hlt
  have hmax := max_int_phase_of_neg hp0 h0
  obtain ⟨hplace, hstep⟩ := place_of_lt hlt
  rw [if_neg fun h => hg.ne' h.2] at hmax
  rw [nphase_of_neg hmax (by omega) h0] at hr
  obtain rfl := Option.some.inj hr
  rw [hstep] at hlast
  rw [fallen, hplace, hstep]
  split_ifs with hzero
  · rw [hzero, sub_zero]
    exact zero_ne_div_self hlast
  · rw [Ne, one_sub_div_eq_div_iff hlast hN']
    intro h
    exact hzero (by linarith)

/-- **Before zero the added 1 finds the place** for the phases that keep a part of a step
before zero which is no larger than that of the period, from the second step on, and for a
whole phase at the begin of the cycle. -/
theorem nphase_eq_iff (hp : 1 ≤ period) (h0 : phase < 0) {r : α}
    (hr : nphase period phase = some r) (hlast : lastStep period (phase + period) ≠ 0) :
    r = fallen period (phase + period) ↔
      (1 ≤ ⌊-phase⌋ ∧ 0 < Int.fract (-phase) ∧ Int.fract (-phase) ≤ Int.fract period) ∨
        (phase = -⌊period⌋ ∧ 0 < Int.fract period) := by
  have hphase := Int.floor_add_fract (-phase)
  rcases (Int.fract_nonneg (-phase)).eq_or_lt with hg | hg
  · have hwhole : phase = -⌊period⌋ ↔ ⌊-phase⌋ = ⌊period⌋ := by
      rw [← @Int.cast_inj α]
      constructor <;> intro h <;> linarith
    rw [nphase_eq_iff_whole hp h0 hg.symm hr hlast, hwhole]
    exact (or_iff_right fun h => h.2.1.ne hg).symm
  · have hwhole : phase ≠ -⌊period⌋ := by
      intro h
      rw [h, neg_neg, Int.fract_intCast] at hg
      exact lt_irrefl 0 hg
    rw [or_iff_left fun h => hwhole h.1]
    rcases le_or_gt (Int.fract (-phase)) (Int.fract period) with hle | hlt
    · rw [nphase_eq_iff_short hp h0 hg hle hr, and_iff_left ⟨hg, hle⟩]
    · exact iff_of_false (nphase_ne_of_long hp h0 hlt hr hlast) fun h => hlt.not_ge h.2.2

/-- The place of a phase in the first step before zero has begun to fall. -/
theorem fallen_ne_zero (hp : 1 ≤ period) (hlo : -1 < phase) (h0 : phase < 0)
    (hlast : lastStep period (phase + period) ≠ 0) : fallen period (phase + period) ≠ 0 := by
  have hN := one_le_floor hp
  have hfloor : ⌊-phase⌋ = 0 := Int.floor_eq_zero_iff.2 ⟨by linarith, by linarith⟩
  have hplace : ⌊phase + period⌋ ≠ 0 := by
    rcases le_or_gt (Int.fract (-phase)) (Int.fract period) with hle | hlt
    · rw [(place_of_le hle).1]
      omega
    · rw [(place_of_lt hlt).2] at hlast
      rw [(place_of_lt hlt).1]
      omega
  exact div_ne_zero (Int.cast_ne_zero.2 hplace) (Int.cast_ne_zero.2 hlast)

/-- Before the first cycle before zero the quotient is below 0, or 0 where the place has begun
to fall. -/
theorem nphase_ne_of_lt (hp : 1 ≤ period) (hphase : phase < -period) {r : α}
    (hr : nphase period phase = some r) (hlast : lastStep period (wrap phase period) ≠ 0) :
    r ≠ fallen period (wrap phase period) := by
  have hp0 : 0 < period := by linarith
  have h0 : phase < 0 := by linarith
  have hN := one_le_floor hp
  have hf := Int.floor_add_fract period
  have hg := Int.floor_add_fract (-phase)
  have hmax := max_int_phase_of_neg hp0.le h0
  have hle : ⌊period⌋ ≤ ⌊-phase⌋ := Int.floor_le_floor (by linarith)
  have hnonneg := fallen_nonneg hp (wrap_nonneg hp0 phase)
  have hneg : ∀ {m : ℤ}, 0 < m → m < ⌊-phase⌋ → 1 - (⌊-phase⌋ : α) / m < 0 := by
    intro m hm hlt
    have hone : 1 < (⌊-phase⌋ : α) / m := by
      rw [one_lt_div (by exact_mod_cast hm)]
      exact_mod_cast hlt
    linarith
  split_ifs at hmax with hwhole
  · rw [lastStep_eq, if_pos (hwhole.1.trans_le (Int.fract_nonneg _))] at hlast
    rw [nphase_of_neg hmax (by omega) h0, if_neg (by omega)] at hr
    obtain rfl := Option.some.inj hr
    exact ((hneg (by omega) (by omega)).trans_le hnonneg).ne
  · rw [nphase_of_neg hmax (by omega) h0, if_neg (by omega)] at hr
    obtain rfl := Option.some.inj hr
    rcases hle.eq_or_lt with heq | hlt
    · have hone : -1 < phase + period := by
        have heq' : (⌊period⌋ : α) = ⌊-phase⌋ := by rw [heq]
        linarith [Int.fract_lt_one (-phase), Int.fract_nonneg period]
      have hplace : wrap phase period = phase + period + period := by
        rw [← wrap_add_self hp0, wrap_of_neg (by linarith) (by linarith)]
      rw [hplace] at hlast ⊢
      rw [heq, div_self (by exact_mod_cast (show ⌊-phase⌋ ≠ 0 by omega)), sub_self]
      exact (fallen_ne_zero hp hone (by linarith) hlast).symm
    · exact ((hneg (by omega) hlt).trans_le hnonneg).ne

/-- The phases at which the quotient of the sawtooth is that of the place. -/
def AtPlace (period phase : α) : Prop :=
  (0 ≤ phase ∧ phase < period) ∨
    (-period ≤ phase ∧ phase < 0 ∧
      ((1 ≤ ⌊-phase⌋ ∧ 0 < Int.fract (-phase) ∧ Int.fract (-phase) ≤ Int.fract period) ∨
        (phase = -⌊period⌋ ∧ 0 < Int.fract period)))

/-- The part of the way is right exactly where the phase is in its place. -/
theorem atPlace_iff (hp : 1 ≤ period) {r : α} (hr : nphase period phase = some r)
    (hlast : lastStep period (wrap phase period) ≠ 0) :
    r = fallen period (wrap phase period) ↔ AtPlace period phase := by
  have hp0 : 0 < period := by linarith
  rcases lt_or_ge phase (-period) with hlt | hlo
  · refine iff_of_false (nphase_ne_of_lt hp hlt hr hlast) ?_
    rintro (⟨h, -⟩ | ⟨h, -⟩) <;> linarith
  rcases lt_or_ge phase 0 with h0 | h0
  · rw [wrap_of_neg hlo h0] at hlast ⊢
    have hnot : ¬(0 ≤ phase ∧ phase < period) := fun h => h.1.not_gt h0
    rw [nphase_eq_iff hp h0 hr hlast, AtPlace, or_iff_right hnot, and_iff_right hlo,
      and_iff_right h0]
  rcases lt_or_ge phase period with hlt | hge
  · rw [wrap_of_mem h0 hlt] at hlast ⊢
    rw [nphase_of_nonneg hp h0, if_neg hlast] at hr
    exact iff_of_true (Option.some.inj hr).symm (.inl ⟨h0, hlt⟩)
  · refine iff_of_false (fun h => ?_) ?_
    · exact (one_lt_nphase hp hge hr).not_ge (h.trans_le (fallen_le_one hp (wrap_lt hp0 phase)))
    · rintro (⟨-, h⟩ | ⟨-, h, -⟩) <;> linarith

/-! ### Where the sawtooth divides by 0 -/

/-- When there is a last whole step. -/
theorem lastStep_ne_zero_iff (hp : 1 ≤ period) (x : α) :
    lastStep period x ≠ 0 ↔ 2 ≤ ⌊period⌋ ∨ Int.fract x < Int.fract period := by
  have hN := one_le_floor hp
  rw [lastStep_eq]
  split_ifs with h
  · rw [or_iff_left h.not_gt]
    omega
  · exact iff_of_true (by omega) (.inr (not_le.1 h))

/-- The sawtooth divides at a phase and at its place for a period of two steps or where both
leave a last step. -/
theorem divides_iff (hp : 1 ≤ period) :
    max_int_phase period phase ≠ 0 ∧ lastStep period (wrap phase period) ≠ 0 ↔
      2 ≤ ⌊period⌋ ∨ ((0 ≤ phase → Int.fract phase < Int.fract period) ∧
        Int.fract (wrap phase period) < Int.fract period) := by
  have hN := one_le_floor hp
  rw [lastStep_ne_zero_iff hp]
  rcases le_or_gt 0 phase with h0 | h0
  · rw [max_int_phase_of_nonneg (by linarith) h0, Int.cast_ne_zero, lastStep_ne_zero_iff hp,
      ← or_and_left, forall_prop_of_true h0]
  · have hneg : ¬0 ≤ phase := h0.not_ge
    rw [max_int_phase_of_neg (by linarith) h0, Int.cast_ne_zero, forall_prop_of_false hneg,
      true_and, and_iff_right_iff_imp]
    rintro (htwo | hfract)
    · split_ifs <;> omega
    · have hpos : 0 < Int.fract period := (Int.fract_nonneg _).trans_lt hfract
      rw [if_neg fun h => hpos.ne' h.1]
      omega

/-! ### The sawtooth at a phase -/

section Law

variable {w : Waveform α} {cos : α → α} {PI : α}

/-- The sawtooth is right at a phase where both the phase and its place have a last step, and
the quotient at the phase is that at the place. -/
theorem good_sawtooth_iff (hsrc : w.m_src = .SAWTOOTH) (hp : 1 ≤ (w.period : α)) :
    w.Good cos PI phase ↔
      (∃ r, nphase (w.period : α) phase = some r ∧
        (w.midpoint = w.peak ∨ r = fallen (w.period : α) (wrap phase w.period))) ∧
      lastStep (w.period : α) (wrap phase w.period) ≠ 0 := by
  have hp0 : 0 < (w.period : α) := by linarith
  have hplace := nphase_of_nonneg hp (wrap_nonneg hp0 phase)
  simp only [Good, sample, Signal.value, cycle, hsrc, hplace]
  by_cases hlast : lastStep (w.period : α) (wrap phase w.period) = 0
  · simp [hlast]
  · rw [if_neg hlast, Option.map_eq_some_iff]
    refine and_congr (exists_congr fun r => and_congr_right' ?_) (iff_of_true rfl hlast)
    exact below_inj

/-- The same by phases: the sawtooth is right where it divides and is at its place. -/
theorem good_sawtooth_iff_atPlace (hsrc : w.m_src = .SAWTOOTH) (hp : 1 ≤ (w.period : α)) :
    w.Good cos PI phase ↔
      (2 ≤ ⌊(w.period : α)⌋ ∨ ((0 ≤ phase → Int.fract phase < Int.fract (w.period : α)) ∧
        Int.fract (wrap phase w.period) < Int.fract (w.period : α))) ∧
      (w.midpoint = w.peak ∨ AtPlace (w.period : α) phase) := by
  rw [good_sawtooth_iff hsrc hp, ← divides_iff hp, ← exists_nphase_iff]
  constructor
  · rintro ⟨⟨r, hr, hval⟩, hlast⟩
    exact ⟨⟨⟨r, hr⟩, hlast⟩, hval.imp_right (atPlace_iff hp hr hlast).1⟩
  · rintro ⟨⟨⟨r, hr⟩, hlast⟩, hval⟩
    exact ⟨⟨r, hr, hval.imp_right (atPlace_iff hp hr hlast).2⟩, hlast⟩

/-! ### What a waveform may be asked for -/

/-- The sawtooth never divides by 0. -/
def Divides (w : Waveform α) (samples : ℕ) : Prop :=
  2 ≤ ⌊(w.period : α)⌋ ∨
    ((0 ≤ w.phase → Int.fract w.phase < Int.fract (w.period : α)) ∧
      ∀ i < samples, Int.fract (wrap (w.phase + i) w.period) < Int.fract (w.period : α))

/-- The phase of a sawtooth is in its first cycle; or it is in the cycle before, where the
samples end before zero and the part of a step that the phase keeps is no larger than that of
the period; or the one sample is at the begin of that cycle, a whole number before zero. -/
def Falls (w : Waveform α) (samples : ℕ) : Prop :=
  (0 ≤ w.phase ∧ w.phase < w.period) ∨
    (-(w.period : α) ≤ w.phase ∧ w.phase + samples < 0 ∧ 0 < Int.fract (-w.phase) ∧
      Int.fract (-w.phase) ≤ Int.fract (w.period : α)) ∨
    (samples = 1 ∧ w.phase = -⌊(w.period : α)⌋ ∧ 0 < Int.fract (w.period : α))

/-- **The phases that a waveform can take as they stand**: a sine any; a square wave those in
the cycle before and after zero, and those where the duty does not come between the quotient
and the place; a stairstep and a triangle those in the two cycles; a sawtooth hardly any
before zero. A wave without height only has to divide. -/
def Fits (w : Waveform α) (samples : ℕ) : Prop :=
  match w.m_src with
  | .CONSTANT => True
  | .SQUARE => w.midpoint = w.peak ∨ (-(w.period : α) ≤ w.phase ∧ w.phase < w.period) ∨
      ((w.period : α) ≤ w.phase ∧
        (w.duty ≤ Int.fract (w.phase / w.period) ∨ w.phase / w.period < w.duty)) ∨
      (w.phase < -(w.period : α) ∧
        (w.duty ≤ w.phase / w.period + 1 ∨ Int.fract (w.phase / w.period) < w.duty))
  | .SAWTOOTH => w.Divides samples ∧ (w.midpoint = w.peak ∨ w.Falls samples)
  | .STAIRSTEP => w.midpoint = w.peak ∨ (-(w.period : α) ≤ w.phase ∧ w.phase < w.period)
  | .SINE => True
  | .TRIANGLE => w.midpoint = w.peak ∨ (-(w.period : α) ≤ w.phase ∧ w.phase ≤ w.period)

/-- No sample is divided by zero exactly when `Divides` holds. -/
theorem forall_divides_iff (hp : 1 ≤ (w.period : α)) {samples : ℕ} (hsamples : 0 < samples) :
    (∀ i < samples, 2 ≤ ⌊(w.period : α)⌋ ∨
      ((0 ≤ w.phaseAt i → Int.fract (w.phaseAt i) < Int.fract (w.period : α)) ∧
        Int.fract (wrap (w.phaseAt i) w.period) < Int.fract (w.period : α))) ↔
      w.Divides samples := by
  have hp0 : 0 < (w.period : α) := by linarith
  simp only [wrap_phaseAt hp0, Divides]
  by_cases htwo : 2 ≤ ⌊(w.period : α)⌋
  · simp [htwo]
  simp only [htwo, false_or]
  constructor
  · intro h
    exact ⟨(h 0 hsamples).1, fun i hi => (h i hi).2⟩
  · rintro ⟨hphase, hplace⟩ i hi
    refine ⟨fun h0 => ?_, hplace i hi⟩
    cases i with
    | zero => exact hphase h0
    | succ i =>
        rw [← wrap_of_mem h0 (iterate_succ_lt hp0 w.phase i), wrap_phaseAt hp0]
        exact hplace _ hi

/-- Phases that fall by a step each are in their places. -/
theorem atPlace_of_falls (hp : 1 ≤ (w.period : α)) {samples : ℕ} (h : w.Falls samples) {i : ℕ}
    (hi : i < samples) : AtPlace (w.period : α) (w.phaseAt i) := by
  have hp0 : 0 < (w.period : α) := by linarith
  rcases h with ⟨h0, hlt⟩ | ⟨hlo, hend, hkeep⟩ | ⟨rfl, hwhole, hfract⟩
  · cases i with
    | zero => exact .inl ⟨h0, hlt⟩
    | succ i => exact .inl ⟨iterate_nonneg hp0 h0 _, iterate_succ_lt hp0 w.phase i⟩
  · have hi' : (i : α) + 1 ≤ samples := by exact_mod_cast hi
    have hnonneg : (0 : α) ≤ i := i.cast_nonneg
    have hphase : w.phaseAt i = w.phase + i := iterate_of_neg hlo (by linarith)
    have hfract : Int.fract (-(w.phase + i)) = Int.fract (-w.phase) := by
      rw [neg_add', Int.fract_sub_natCast]
    rw [hphase]
    refine .inr ⟨by linarith, by linarith, .inl ⟨Int.le_floor.2 ?_, ?_⟩⟩
    · push_cast
      linarith
    · rw [hfract]
      exact hkeep
  · obtain rfl : i = 0 := by omega
    have hone : (1 : α) ≤ ⌊(w.period : α)⌋ := by exact_mod_cast one_le_floor hp
    have hphase : w.phaseAt 0 = -⌊(w.period : α)⌋ := hwhole
    rw [hphase]
    refine .inr ⟨neg_le_neg (Int.floor_le _), by linarith, .inr ⟨rfl, hfract⟩⟩

/-- The sample in the first step before zero is not at its place. -/
theorem not_atPlace_of_step (hp : 1 ≤ period) (hlo : -1 < phase) (h0 : phase < 0) :
    ¬AtPlace period phase := by
  have hfloor : ⌊-phase⌋ = 0 := Int.floor_eq_zero_iff.2 ⟨by linarith, by linarith⟩
  have hone : (1 : α) ≤ ⌊period⌋ := by exact_mod_cast one_le_floor hp
  rintro (⟨h, -⟩ | ⟨-, -, ⟨h, -⟩ | ⟨h, -⟩⟩)
  · linarith
  · omega
  · linarith

/-- A whole phase inside of the cycle before zero is not at its place either. -/
theorem not_atPlace_of_whole {n : ℤ} (hneg : n < 0) (hne : n ≠ -⌊period⌋) :
    ¬AtPlace period (n : α) := by
  have hcast : (n : α) < 0 := by exact_mod_cast hneg
  have hfract : Int.fract (-(n : α)) = 0 := by
    rw [← Int.cast_neg, Int.fract_intCast]
  rintro (⟨h, -⟩ | ⟨-, -, ⟨-, h, -⟩ | ⟨h, -⟩⟩)
  · linarith
  · exact h.ne' hfract
  · exact hne (by exact_mod_cast h)

/-- And phases in their places fall by a step each. -/
theorem falls_of_atPlace (hp : 1 ≤ (w.period : α)) {samples : ℕ} (hsamples : 0 < samples)
    (hdiv : w.Divides samples) (h : ∀ i < samples, AtPlace (w.period : α) (w.phaseAt i)) :
    w.Falls samples := by
  have hp0 : 0 < (w.period : α) := by linarith
  have hfirst : AtPlace (w.period : α) w.phase := h 0 hsamples
  rcases hfirst with hmem | ⟨hlo, h0, ⟨hstep, hkeep, hle⟩ | ⟨hwhole, hfract⟩⟩
  · exact .inl hmem
  · -- The samples do not reach the first step before zero.
    refine .inr (.inl ⟨hlo, ?_, hkeep, hle⟩)
    by_contra! hend
    obtain ⟨k, hk⟩ := Int.eq_ofNat_of_zero_le (zero_le_one.trans hstep)
    have hphase := Int.floor_add_fract (-w.phase)
    have hlt_one := Int.fract_lt_one (-w.phase)
    rw [hk, Int.cast_natCast] at hphase
    have hlt : (k : α) < samples := by linarith
    have hcount : w.phaseAt k = w.phase + k := iterate_of_neg hlo (by linarith)
    have hat := h k (by exact_mod_cast hlt)
    rw [hcount] at hat
    exact not_atPlace_of_step hp (by linarith) (by linarith) hat
  · -- The next sample would be a whole number before zero inside of the cycle.
    refine .inr (.inr ⟨?_, hwhole, hfract⟩)
    by_contra hne
    have htwo : 2 ≤ ⌊(w.period : α)⌋ := by
      rcases hdiv with hperiod | ⟨-, hplace⟩
      · exact hperiod
      · have hlast := hplace 0 hsamples
        rw [Nat.cast_zero, add_zero, wrap_of_neg hlo h0, hwhole, neg_add_eq_sub,
          Int.self_sub_floor, Int.fract_fract] at hlast
        exact absurd hlast (lt_irrefl _)
    have hcast : (2 : α) ≤ ⌊(w.period : α)⌋ := by exact_mod_cast htwo
    have hcount : w.phaseAt 1 = ((-⌊(w.period : α)⌋ + 1 : ℤ) : α) := by
      have hnext : w.phaseAt 1 = w.phase + (1 : ℕ) :=
        iterate_of_neg hlo (by push_cast; linarith)
      rw [hnext, hwhole]
      push_cast
      rfl
    have hat := h 1 (by omega)
    rw [hcount] at hat
    exact not_atPlace_of_whole (by omega) (by omega) hat

/-- **A sawtooth before zero.** -/
theorem forall_good_sawtooth_iff (hsrc : w.m_src = .SAWTOOTH) (hp : 1 ≤ (w.period : α))
    {samples : ℕ} (hsamples : 0 < samples) :
    (∀ i < samples, w.Good cos PI (w.phaseAt i)) ↔
      w.Divides samples ∧ (w.midpoint = w.peak ∨ w.Falls samples) := by
  rw [← forall_divides_iff hp hsamples]
  constructor
  · intro h
    have hgood := fun i hi => (good_sawtooth_iff_atPlace hsrc hp).1 (h i hi)
    refine ⟨fun i hi => (hgood i hi).1, ?_⟩
    by_cases heq : w.midpoint = w.peak
    · exact .inl heq
    · have hdiv := (forall_divides_iff hp hsamples).1 fun i hi => (hgood i hi).1
      exact .inr (falls_of_atPlace hp hsamples hdiv fun i hi => ((hgood i hi).2.resolve_left heq))
  · rintro ⟨hdiv, hfalls⟩ i hi
    exact (good_sawtooth_iff_atPlace hsrc hp).2
      ⟨hdiv i hi, hfalls.imp_right fun h => atPlace_of_falls hp h hi⟩

/-! ### The other waveforms -/

/-- Of a waveform other than the sawtooth only the first sample can be off: after that the
remainder keeps the phase within one cycle of zero. -/
theorem forall_good_iff (hsrc : w.m_src ≠ .SAWTOOTH) (hp : 0 < (w.period : α)) {samples : ℕ}
    (hsamples : 0 < samples) :
    (∀ i < samples, w.Good cos PI (w.phaseAt i)) ↔ w.Good cos PI w.phase := by
  constructor
  · intro h
    exact h 0 hsamples
  · intro h i hi
    cases i with
    | zero => exact h
    | succ i =>
        exact good_of_mem hp hsrc (neg_lt_iterate_succ hp w.phase i).le
          (iterate_succ_lt hp w.phase i)

omit [Field α] [FloorRing α] [IsStrictOrderedRing α] in
/-- Two numbers are on the same side of a third. -/
theorem same_side_iff {q r d : α} (h : q ≤ r) : (q < d ↔ r < d) ↔ d ≤ q ∨ r < d := by
  constructor
  · intro hside
    exact (le_or_gt d q).imp_right hside.1
  · rintro (hle | hlt)
    · exact iff_of_false hle.not_gt (hle.trans h).not_gt
    · exact iff_of_true (h.trans_lt hlt) hlt

/-- A square wave is right exactly when it fits its period. -/
theorem square_fits (hsrc : w.m_src = .SQUARE) (hp : 0 < (w.period : α)) (samples : ℕ) :
    w.Good cos PI w.phase ↔ w.Fits samples := by
  have hplace0 := place_div_nonneg hp w.phase
  have hplace1 := place_div_lt_one hp w.phase
  rw [good_square_iff hp hsrc]
  simp only [Fits, hsrc]
  refine or_congr_right ?_
  rcases lt_or_ge w.phase (-(w.period : α)) with hlt | hlo
  · have hnorm := norm_neg hp hlt
    rw [norm_of_neg hp (by linarith)] at hnorm ⊢
    rw [wrap_div hp] at hplace0 ⊢
    have h₁ : ¬(-(w.period : α) ≤ w.phase) := hlt.not_ge
    have h₂ : ¬((w.period : α) ≤ w.phase) := by linarith
    simp only [h₁, h₂, hlt, false_and, false_or, true_and]
    exact same_side_iff (by linarith)
  rcases lt_or_ge w.phase (w.period : α) with hlt | hge
  · rw [norm_of_mem hp hlo hlt]
    exact iff_of_true Iff.rfl (.inl ⟨hlo, hlt⟩)
  · have hnorm := one_le_norm hp hge
    rw [norm_of_nonneg hp (by linarith)] at hnorm ⊢
    rw [wrap_div hp] at hplace1 ⊢
    have h₁ : ¬(w.phase < (w.period : α)) := hge.not_gt
    have h₂ : ¬(w.phase < -(w.period : α)) := by linarith
    simp only [h₁, h₂, hge, and_false, false_and, false_or, or_false, true_and]
    exact Iff.comm.trans (same_side_iff (by linarith))

/-- A stairstep is right exactly when it fits its period. -/
theorem stairstep_fits (hsrc : w.m_src = .STAIRSTEP) (hp : 0 < (w.period : α)) (samples : ℕ) :
    w.Good cos PI w.phase ↔ w.Fits samples := by
  have hplace0 := place_div_nonneg hp w.phase
  have hplace1 := place_div_lt_one hp w.phase
  rw [good_stairstep_iff hp hsrc]
  simp only [Fits, hsrc]
  refine or_congr_right ⟨fun h => ?_, fun h => by rw [norm_of_mem hp h.1 h.2]⟩
  have hlo : 0 ≤ ⌊10 * (wrap w.phase w.period / (w.period : α))⌋ :=
    Int.floor_nonneg.2 (by linarith)
  have hhi : ⌊10 * (wrap w.phase w.period / (w.period : α))⌋ < 10 :=
    Int.floor_lt.2 (by push_cast; linarith)
  rw [← h] at hlo hhi
  constructor
  · by_contra! hlt
    have hnorm := norm_neg hp hlt
    have hfloor := Int.floor_nonneg.1 hlo
    linarith
  · by_contra! hge
    have hnorm := one_le_norm hp hge
    have hfloor := Int.floor_lt.1 hhi
    push_cast at hfloor
    linarith

/-- A triangle is right exactly when it fits its period. -/
theorem triangle_fits (hsrc : w.m_src = .TRIANGLE) (hp : 0 < (w.period : α)) (samples : ℕ) :
    w.Good cos PI w.phase ↔ w.Fits samples := by
  have hplace0 := place_div_nonneg hp w.phase
  have hplace1 := place_div_lt_one hp w.phase
  rw [good_triangle_iff hp hsrc]
  simp only [Fits, hsrc]
  refine or_congr_right ?_
  have hheight : |1 - 2 * (wrap w.phase w.period / (w.period : α))| ≤ 1 :=
    abs_le.2 ⟨by linarith, by linarith⟩
  constructor
  · intro h
    rw [← h, abs_le] at hheight
    constructor
    · by_contra! hlt
      have hnorm := norm_neg hp hlt
      linarith
    · by_contra! hgt
      have hnorm : 1 < norm_phase (w.period : α) w.phase := by
        rw [norm_of_nonneg hp (by linarith)]
        exact (one_lt_div hp).2 hgt
      linarith
  · rintro ⟨hlo, hle⟩
    rcases hle.eq_or_lt with heq | hlt
    · -- Both ends of the triangle have the peak.
      have hwrap : wrap w.phase w.period = 0 := by
        have hcycle := wrap_add_self hp 0
        rw [zero_add, wrap_of_mem le_rfl hp] at hcycle
        rw [heq, hcycle]
      rw [norm_of_nonneg hp (by linarith), hwrap, heq, div_self hp.ne', zero_div]
      norm_num
    · rw [norm_of_mem hp hlo hlt]

/-- **The law of the waveforms.** The samples depend on the place of the phase in its cycle
exactly where the phase fits. -/
theorem lawful_iff (hcos : Function.Periodic cos (2 * PI)) (w : Waveform α)
    (hp : 1 ≤ (w.period : α)) (s : Signal α) (buf : List (Option α)) (samples : ℕ) :
    (∃ out, w.Lawful cos PI s buf samples out) ↔
      samples < 2 ^ 32 ∧ (0 < samples → w.Fits samples) := by
  have hp0 : 0 < (w.period : α) := by linarith
  rw [exists_lawful_iff hp0]
  refine and_congr_right' ?_
  rcases Nat.eq_zero_or_pos samples with rfl | hsamples
  · simp
  rw [forall_prop_of_true hsamples]
  cases hsrc : w.m_src with
  | CONSTANT =>
      rw [forall_good_iff (by simp [hsrc]) hp0 hsamples]
      refine iff_of_true (good_constant hp0 hsrc _) ?_
      simp [Fits, hsrc]
  | SQUARE =>
      rw [forall_good_iff (by simp [hsrc]) hp0 hsamples]
      exact square_fits hsrc hp0 samples
  | SAWTOOTH =>
      rw [forall_good_sawtooth_iff hsrc hp hsamples]
      simp [Fits, hsrc]
  | STAIRSTEP =>
      rw [forall_good_iff (by simp [hsrc]) hp0 hsamples]
      exact stairstep_fits hsrc hp0 samples
  | SINE =>
      rw [forall_good_iff (by simp [hsrc]) hp0 hsamples]
      refine iff_of_true (good_sine hp0 hsrc hcos _) ?_
      simp [Fits, hsrc]
  | TRIANGLE =>
      rw [forall_good_iff (by simp [hsrc]) hp0 hsamples]
      exact triangle_fits hsrc hp0 samples

/-- A signal that has made no waveform yet. -/
noncomputable def fresh : Signal ℝ := ⟨.CONSTANT, 0, 0, 1, 0, 0, one_ne_zero⟩

/-- A sine from far before zero. -/
theorem lawful_iff_sine : ∃ out, (⟨.SINE, -5, 5, ⟨10, by norm_num⟩, -25, 0⟩ : Waveform ℝ).Lawful
    Real.cos Real.pi fresh [] 10001 out :=
  (lawful_iff Real.cos_periodic _ (by norm_num) fresh [] 10001).2
    ⟨by norm_num, fun _ => trivial⟩

/-- A sawtooth from a quarter of a cycle before zero. -/
noncomputable def quarterBefore : Waveform ℝ := ⟨.SAWTOOTH, 0, 99, ⟨100, by norm_num⟩, -25, 0⟩

/-- A stairstep from further before zero. -/
noncomputable def farBefore : Waveform ℝ := ⟨.STAIRSTEP, 0, 27, ⟨40, by norm_num⟩, -100, 0⟩

/-- **Phases that are told apart**: the sawtooth starts elsewhere than from the phase 75, and
the stairstep starts above its peak. -/
theorem phases_told_apart :
    (∃ fuel t, quarterBefore.call Real.cos Real.pi fresh fuel [] 1 = some (t, [some 25])) ∧
      (∃ fuel t, quarterBefore.reduced.call Real.cos Real.pi fresh fuel [] 1 =
        some (t, [some 24])) ∧
      (¬∃ out, quarterBefore.Lawful Real.cos Real.pi fresh [] 1 out) ∧
      (∃ fuel t, farBefore.call Real.cos Real.pi fresh fuel [] 1 = some (t, [some 72])) ∧
      ¬∃ out, farBefore.Lawful Real.cos Real.pi fresh [] 1 out := by
  refine ⟨?_, ?_, fun h => ?_, ?_, fun h => ?_⟩
  · rw [call_iff]
    norm_num [phaseAt, quarterBefore, sample, Signal.value, nphase, max_int_phase, trunc, quotient]
  · rw [call_iff]
    norm_num [phaseAt, quarterBefore, reduced, wrap, sample, Signal.value, nphase, max_int_phase,
      trunc, quotient]
  · have hpos : (0 : ℝ) < quarterBefore.period := by norm_num [quarterBefore]
    have hgood := ((exists_lawful_iff hpos).1 h).2 0 one_pos
    norm_num [Good, phaseAt, quarterBefore, wrap, sample, Signal.value, nphase, max_int_phase,
      trunc, quotient, cycle, lastStep] at hgood
  · rw [call_iff]
    norm_num [phaseAt, farBefore, sample, Signal.value, norm_phase]
  · have hpos : (0 : ℝ) < farBefore.period := by norm_num [farBefore]
    have hgood := ((exists_lawful_iff hpos).1 h).2 0 one_pos
    norm_num [Good, phaseAt, farBefore, wrap, sample, Signal.value, norm_phase, cycle] at hgood

end Law

end Waveform

end Waveforms

end Libsmu
