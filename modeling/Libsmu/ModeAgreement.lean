import Libsmu.DeviceControl
import Libsmu.OutputCodes

/-!
# The Mode of a Channel in Software and Hardware

`set_mode` sets the potentiometers of a channel and its mode, by the remainder of the mode
modulo 3, and throws the switch of a split mode; then it keeps the mode, by which `encode_out`
converts the samples. It looks at what the first two transfers return, but not at the third,
and it takes any number for a mode, where `encode_out` knows six.

`Moded` is a device with a record of the latest call for each channel.

## Main results

* `encodes_number`: `encode_out` treats a number as it treats the mode of that number.
* `good_iff`: software and hardware agree all along a sequence of calls exactly when no
  call that returns 0 was refused the switch or was for a mode beyond the six with a
  remainder.
-/

namespace Libsmu

namespace Board

/-! ### What a mode needs and stands for -/

/-- The request that throws the switch of a split mode. -/
def splitRequest (channel : ℕ) : Request :=
  ⟨0x40, 0x51, if channel = CHAN_A then 34 else 39, 0⟩

/-- The requests that a mode needs. -/
def neededRequests (channel mode : ℕ) : List Request :=
  modeRequests channel mode ++ if split_mode mode then [splitRequest channel] else []

/-- What `encode_out` converts the samples of a channel to; a channel that floats has its
fixed code. -/
def encodes (m_mode : ℕ) : Option Signal :=
  if m_mode = Mode.number .SVMI ∨ m_mode = Mode.number .SVMI_SPLIT then some .voltage
  else if m_mode = Mode.number .SIMV ∨ m_mode = Mode.number .SIMV_SPLIT then some .current
  else none

/-- What the hardware sources in a mode. -/
def drives : ℕ → Option Signal
  | 0 => none
  | 1 => some .voltage
  | _ => some .current

/-- The conversion of `encode_out` is that of the mode with the number. -/
theorem encodes_number (m : Mode) : encodes m.number = m.sources := by
  cases m <;> decide

/-- **Which numbers software and hardware take alike**: those of the six modes and those
without a remainder. -/
theorem encodes_eq_drives_iff (mode : ℕ) :
    encodes mode = drives (mode % 3) ↔ mode < 6 ∨ mode % 3 = 0 := by
  by_cases hlt : mode < 6
  · refine iff_of_true ?_ (.inl hlt)
    revert mode
    decide
  · have hnone : encodes mode = none := by
      rw [encodes, if_neg, if_neg]
      · simp only [Mode.number]
        omega
      · simp only [Mode.number]
        omega
    rw [hnone]
    have hmod : mode % 3 < 3 := Nat.mod_lt _ (by decide)
    have hdrives : ∀ n < 3, none = drives n ↔ n = 0 := by decide
    rw [hdrives _ hmod]
    exact (or_iff_right hlt).symm

end Board

/-- A device with a record of its latest calls. -/
structure Moded extends Board where
  /-- record: what the latest call for a channel returned, and whether the device accepted
  every request that its mode needs -/
  latest : ℕ → Option (ℤ × Bool)
  /-- record: what the last call returned -/
  ret : ℤ
  /-- record: `m_mode` before the last call -/
  before : ℕ → ℕ

namespace Moded

open Board

/-- A call of `set_mode(channel, mode, true)`, with the answers to its transfers. -/
structure Setting where
  channel : ℕ
  mode : ℕ
  answers : Request → ℤ

/-- A device on which no call was made yet. -/
def init (b : Board) : Moded where
  toBoard := b
  latest _ := none
  ret := 0
  before := b.m_mode

/-- The device among calls of `set_mode`. -/
def machine : Machine Moded Setting where
  step s a :=
    let r := s.set_mode a.answers a.channel a.mode true
    some
      { toBoard := r.1
        latest := Function.update s.latest a.channel
          (some (r.2, (firstFailure a.answers (neededRequests a.channel a.mode)).isNone))
        ret := r.2
        before := s.m_mode }

/-- **Software and hardware agree.** Where the latest call for a channel returned 0, the device
accepted all that the mode needs, and `encode_out` converts to what the hardware sources; and
a call that returned anything else has left `m_mode`. -/
structure Good (s : Moded) : Prop where
  agree : ∀ channel accepted, s.latest channel = some (0, accepted) →
    accepted = true ∧ encodes (s.m_mode channel) = drives (s.hardware.mode channel)
  kept : s.ret ≠ 0 → s.m_mode = s.before

/-- The condition on a call: if it is for a channel and its first two transfers work, the
switch of a split mode works too, and the mode is one of the six or leaves no remainder. -/
def Setting.Matches (a : Setting) : Prop :=
  IsChannel a.channel → firstFailure a.answers (modeRequests a.channel a.mode) = none →
    (split_mode a.mode → 0 ≤ a.answers (splitRequest a.channel)) ∧
      (a.mode < 6 ∨ a.mode % 3 = 0)

variable {s t : Moded} {a : Setting}

/-- The requests that a mode needs are all accepted when the first two and the switch are. -/
theorem needed_isNone_iff (h : firstFailure a.answers (modeRequests a.channel a.mode) = none) :
    (firstFailure a.answers (neededRequests a.channel a.mode)).isNone = true ↔
      (split_mode a.mode → 0 ≤ a.answers (splitRequest a.channel)) := by
  rw [neededRequests, firstFailure_append, h, Option.none_or]
  split
  · rename_i hsplit
    rw [firstFailure_cons, firstFailure_nil]
    split
    · rename_i hneg
      exact iff_of_false (fun h => nomatch h) fun hall => absurd (hall hsplit) (by omega)
    · rename_i hnonneg
      exact iff_of_true rfl fun _ => by omega
  · rename_i hsplit
    exact iff_of_true rfl fun h => absurd h hsplit

/-- What a call does: it returns 0 and sets the mode, or it returns something else and leaves
it. -/
theorem step_cases (h : machine.step s a = some t) :
    (IsChannel a.channel ∧ firstFailure a.answers (modeRequests a.channel a.mode) = none ∧
        t.ret = 0 ∧ t.m_mode = Function.update s.m_mode a.channel a.mode ∧
        t.hardware.mode = Function.update s.hardware.mode a.channel (a.mode % 3) ∧
        t.latest = Function.update s.latest a.channel
          (some (0, (firstFailure a.answers (neededRequests a.channel a.mode)).isNone))) ∨
      (¬(IsChannel a.channel ∧ firstFailure a.answers (modeRequests a.channel a.mode) = none) ∧
        t.m_mode = s.m_mode ∧ t.before = s.m_mode ∧ t.hardware.mode = s.hardware.mode ∧
        ∃ ret ≠ 0, ∃ accepted, t.latest = Function.update s.latest a.channel
          (some (ret, accepted))) := by
  obtain rfl := Option.some.inj h
  by_cases hchannel : IsChannel a.channel
  · rcases set_mode_cases a.answers s.toBoard a.mode true hchannel with
      ⟨hnone, heq⟩ | ⟨e, he, hsome, heq⟩
    · refine .inl ⟨hchannel, hnone, ?_⟩
      simp only [heq, if_true, and_self]
    · have hpos := libusb_to_errno_pos he
      refine .inr ⟨fun hnone => ?_, ?_⟩
      · rw [hsome] at hnone
        cases hnone.2
      · simp only [heq, true_and]
        exact ⟨_, by omega, _, rfl⟩
  · have hbad : s.set_mode a.answers a.channel a.mode true = (s.toBoard, -Session.ENODEV) := by
      rw [set_mode, if_pos (not_or.mp hchannel)]
    refine .inr ⟨fun hgood => hchannel hgood.1, ?_⟩
    simp only [hbad, true_and]
    exact ⟨_, by decide, _, rfl⟩

/-- A call that meets the condition keeps software and hardware in agreement. -/
theorem Good.step (hs : s.Good) (ha : a.Matches) (h : machine.step s a = some t) : t.Good := by
  rcases step_cases h with ⟨hchannel, hnone, hret, hmode, hhardware, hlatest⟩ |
    ⟨-, hmode, hbefore, hhardware, ret, hret, accepted, hlatest⟩
  · refine ⟨fun channel accepted hlast => ?_, fun hne => absurd hret hne⟩
    rw [hlatest] at hlast
    rw [hmode, hhardware]
    by_cases heq : channel = a.channel
    · subst heq
      rw [Function.update_self] at hlast ⊢
      rw [Function.update_self]
      obtain ⟨hsplit, hlow⟩ := ha hchannel hnone
      have hneeded := (needed_isNone_iff hnone).mpr hsplit
      rw [hneeded] at hlast
      cases hlast
      exact ⟨rfl, (encodes_eq_drives_iff a.mode).mpr hlow⟩
    · rw [Function.update_of_ne heq] at hlast ⊢
      rw [Function.update_of_ne heq]
      exact hs.agree channel accepted hlast
  · refine ⟨fun channel accepted hlast => ?_, fun _ => hmode.trans hbefore.symm⟩
    rw [hlatest] at hlast
    rw [hmode, hhardware]
    by_cases heq : channel = a.channel
    · subst heq
      rw [Function.update_self] at hlast
      cases hlast
      exact absurd rfl hret
    · rw [Function.update_of_ne heq] at hlast
      exact hs.agree channel accepted hlast

/-- One that does not leaves them apart. -/
theorem matches_of_good (ht : t.Good) (h : machine.step s a = some t) : a.Matches := by
  intro hchannel hnone
  rcases step_cases h with ⟨-, -, -, hmode, hhardware, hlatest⟩ | ⟨hbad, -⟩
  · obtain ⟨haccepted, hagree⟩ := ht.agree a.channel _ (by rw [hlatest, Function.update_self])
    rw [hmode, hhardware, Function.update_self, Function.update_self] at hagree
    exact ⟨(needed_isNone_iff hnone).mp haccepted, (encodes_eq_drives_iff a.mode).mp hagree⟩
  · exact absurd ⟨hchannel, hnone⟩ hbad

/-- **Software and hardware agree** after every call of a sequence exactly when every call meets
the condition. -/
theorem good_iff (b : Board) (as : List Setting) :
    (∀ bs v, bs <+: as → machine.run (init b) bs = some v → v.Good) ↔ ∀ a ∈ as, a.Matches := by
  have hinit : (init b).Good := ⟨fun _ _ h => (nomatch h), fun h => absurd rfl h⟩
  have htotal : ∀ s a, ∃ t, machine.step s a = some t := fun _ _ => ⟨_, rfl⟩
  obtain ⟨t, ht⟩ := Machine.exists_run htotal (init b) as
  rw [← Machine.meets_iff_forall htotal]
  exact (Machine.meets_iff_of_step (fun _ hs => hs) (fun _ _ _ hs ha h => hs.step ha h)
    (fun _ _ _ _ h hgood => matches_of_good hgood h) hinit ht).symm

/-- **Modes that disagree.** Mode 7 puts the hardware into SVMI, and `encode_out` takes the
channel to float; and SVMI_SPLIT is set although the switch was refused. -/
theorem modes_disagree :
    (∃ t, machine.run (init (Board.new (217 / 100))) [⟨CHAN_A, 7, fun _ => 0⟩] = some t ∧
        t.ret = 0 ∧ t.m_mode CHAN_A = 7 ∧ t.hardware.mode CHAN_A = 1 ∧
        encodes (t.m_mode CHAN_A) = none ∧ ¬t.Good) ∧
      ∃ t, machine.run (init (Board.new (217 / 100)))
          [⟨CHAN_A, 4, fun r => if r.bRequest = 0x51 then -9 else 0⟩] = some t ∧
        t.ret = 0 ∧ t.latest CHAN_A = some (0, false) ∧ ¬t.Good := by
  refine ⟨⟨_, rfl, by decide, by decide, by decide, by decide, fun h => ?_⟩,
    ⟨_, rfl, by decide, by decide, fun h => ?_⟩⟩
  · have hagree := (h.agree CHAN_A true (by decide)).2
    revert hagree
    decide
  · exact absurd (h.agree CHAN_A false (by decide)).1 (by decide)

end Moded

end Libsmu
