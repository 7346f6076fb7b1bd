import Libsmu.LiveSession

/-!
# Switching All Devices Off

`Session::end` goes through the devices and calls `off` for each. A device that is gone does
not stop the loop, since `ENODEV` is skipped. Any other error does, by a `break`, and so does
the exception that `off` throws when it finds one in `e_ptr` after a run of a number of
samples: the devices behind the one it came from are left as they are, sourcing and sampling.

## Main results

* `off_passes_iff`: the loop goes on after a device exactly when its first failing transfer
  for a mode, if there is one, says that it is gone, or else no exception is thrown and the
  transfer that stops the sampling works or says that the device is gone.
* `switched_off_iff`: all devices are switched off exactly when the loop goes on after each
  of them but the last.
* `second_left_on`: the first of two devices fails to be set to `HI_Z`, and the second is
  never told anything.
-/

namespace Libsmu

open Session (ENODEV)

namespace Board

/-- **The loop of `end` goes on** after a device whose run was of `m_sample_count` samples. -/
def Shutdown.Passes (env : Shutdown) (m_sample_count : ℕ) : Prop :=
  match firstFailure env.answers offRequests with
  | some e => e = LIBUSB_ERROR_NO_DEVICE
  | none =>
      ¬(env.e_ptr = true ∧ 0 < m_sample_count) ∧
        (0 ≤ env.answers (samplingRequest 0 0) ∨
          env.answers (samplingRequest 0 0) = LIBUSB_ERROR_NO_DEVICE)

instance (env : Shutdown) (m_sample_count : ℕ) : Decidable (env.Passes m_sample_count) := by
  rw [Shutdown.Passes]
  split
  · infer_instance
  · infer_instance

/-- What `off` returns for an error lets the loop go on exactly when the device is gone. -/
theorem error_passes_iff {e : ℤ} (he : e < 0) :
    (-libusb_to_errno e = 0 ∨ -libusb_to_errno e = -ENODEV) ↔ e = LIBUSB_ERROR_NO_DEVICE := by
  have hpos := libusb_to_errno_pos he
  rw [← libusb_to_errno_eq_ENODEV_iff he]
  omega

/-- **The loop goes on exactly when `off` returns 0 or `ENODEV`.** -/
theorem off_passes_iff (env : Shutdown) (b : Board) :
    (∃ ret, (b.off env).2 = .returned ret ∧ (ret = 0 ∨ ret = -ENODEV)) ↔
      env.Passes b.m_sample_count := by
  rw [Shutdown.Passes]
  rcases (off_cases env b).2 with ⟨e, he, hfail, hret⟩ | ⟨hnone, -, hret⟩
  · simp only [hfail, hret, Outcome.returned.injEq, exists_eq_left']
    exact error_passes_iff he
  · simp only [hnone, hret]
    by_cases hthrow : env.e_ptr = true ∧ 0 < b.m_sample_count
    · simp [hthrow]
    · rw [if_neg hthrow]
      simp only [Outcome.returned.injEq, exists_eq_left', hthrow, not_false_eq_true, true_and]
      rw [libusb_errno_or_zero]
      by_cases hstop : env.answers (samplingRequest 0 0) < 0
      · rw [if_pos hstop, error_passes_iff hstop]
        constructor
        · exact .inr
        · exact fun h => h.resolve_left (by omega)
      · rw [if_neg hstop]
        exact ⟨fun _ => .inl (by omega), fun _ => .inl rfl⟩

end Board

namespace Live

open Board (Shutdown)

variable {env : ℕ → Shutdown} {ds : List ℕ} {s : Live}

/-- The devices that the loop of `end` gets to: up to the first one that stops it. -/
def attempted (env : ℕ → Shutdown) (s : Live) : List ℕ → List ℕ
  | [] => []
  | d :: ds =>
      d :: if (env d).Passes (s.board d).m_sample_count then attempted env s ds else []

/-- Only the devices in the list matter. -/
theorem attempted_congr {t : Live} (hboard : ∀ d ∈ ds, t.board d = s.board d) :
    attempted env t ds = attempted env s ds := by
  induction ds with
  | nil => rfl
  | cons d ds ih =>
      rw [attempted, attempted, hboard d List.mem_cons_self,
        ih fun e he => hboard e (List.mem_cons_of_mem d he)]

theorem mem_of_mem_attempted {d : ℕ} (h : d ∈ attempted env s ds) : d ∈ ds := by
  induction ds with
  | nil => exact h
  | cons e ds ih =>
      rw [attempted] at h
      rcases List.mem_cons.mp h with rfl | h
      · exact List.mem_cons_self
      · split at h
        · exact List.mem_cons_of_mem e (ih h)
        · cases h

/-- A device that lets the loop go on. -/
theorem offFrom_cons_of_passes {d : ℕ} (h : (env d).Passes (s.board d).m_sample_count) (ret : ℤ) :
    offFrom env (d :: ds) s ret = offFrom env ds (s.offOne env d).1 0 := by
  obtain ⟨ret', hret', hgoes⟩ := (Board.off_passes_iff (env d) (s.board d)).mpr h
  have hsnd : (s.offOne env d).2 = .returned ret' := hret'
  rw [offFrom]
  simp only [hsnd]
  rcases hgoes with rfl | rfl
  · rw [if_neg (by decide), if_neg (by decide)]
  · rw [if_pos rfl]

/-- A device that stops the loop. -/
theorem offFrom_cons_of_not_passes {d : ℕ} (h : ¬(env d).Passes (s.board d).m_sample_count)
    (ret : ℤ) : offFrom env (d :: ds) s ret = s.offOne env d := by
  rw [offFrom]
  split
  · rfl
  · rename_i ret' hret'
    have hstops : ¬(ret' = 0 ∨ ret' = -ENODEV) :=
      fun hgoes => h ((Board.off_passes_iff _ _).mp ⟨ret', hret', hgoes⟩)
    rw [if_neg fun heq => hstops (.inr heq), if_pos fun heq => hstops (.inl heq)]

/-- **The loop of `end`** calls `off` for the devices that it gets to, and leaves the others
as they are. -/
theorem offFrom_board (hds : ds.Nodup) (s : Live) (ret : ℤ) (d : ℕ) :
    (offFrom env ds s ret).1.board d =
      if d ∈ attempted env s ds then ((s.board d).off (env d)).1 else s.board d := by
  induction ds generalizing s ret with
  | nil => rfl
  | cons e ds ih =>
      obtain ⟨he, hds⟩ := List.nodup_cons.mp hds
      have hother : ∀ d, d ≠ e → (s.offOne env e).1.board d = s.board d :=
        fun d hne => Function.update_of_ne hne _ _
      have hself : (s.offOne env e).1.board e = ((s.board e).off (env e)).1 :=
        Function.update_self _ _ _
      rw [attempted]
      by_cases hpasses : (env e).Passes (s.board e).m_sample_count
      · have hrest : attempted env (s.offOne env e).1 ds = attempted env s ds :=
          attempted_congr fun d hd => hother d fun heq => he (heq ▸ hd)
        rw [offFrom_cons_of_passes hpasses, ih hds, hrest, if_pos hpasses]
        by_cases hde : d = e
        · subst hde
          rw [if_neg fun h => he (mem_of_mem_attempted h), if_pos List.mem_cons_self, hself]
        · simp only [List.mem_cons, hde, false_or, hother d hde]
      · rw [offFrom_cons_of_not_passes hpasses, if_neg hpasses]
        by_cases hde : d = e
        · subst hde
          rw [if_pos List.mem_cons_self, hself]
        · rw [if_neg (by simpa using hde), hother d hde]

/-- The loop gets to every device exactly when it goes on after all but the last. -/
theorem forall_mem_attempted_iff (hds : ds.Nodup) :
    (∀ d ∈ ds, d ∈ attempted env s ds) ↔
      ∀ d ∈ ds.dropLast, (env d).Passes (s.board d).m_sample_count := by
  induction ds with
  | nil => simp
  | cons e ds ih =>
      obtain ⟨he, hds⟩ := List.nodup_cons.mp hds
      cases ds with
      | nil => simp [attempted]
      | cons f ds =>
          have hsplit : (∀ d ∈ e :: (f :: ds).dropLast, (env d).Passes (s.board d).m_sample_count) ↔
              _ := List.forall_mem_cons
          rw [List.dropLast_cons_cons, hsplit, ← ih hds, attempted]
          by_cases hpasses : (env e).Passes (s.board e).m_sample_count
          · rw [if_pos hpasses]
            constructor
            · refine fun h => ⟨hpasses, fun d hd => ?_⟩
              have hne : d ≠ e := fun heq => he (heq ▸ hd)
              exact (List.mem_cons.mp (h d (List.mem_cons_of_mem e hd))).resolve_left hne
            · rintro ⟨-, h⟩ d hd
              rcases List.mem_cons.mp hd with rfl | hd
              · exact List.mem_cons_self
              · exact List.mem_cons_of_mem e (h d hd)
          · rw [if_neg hpasses]
            constructor
            · intro h
              have hf := h f (by simp)
              rw [List.mem_singleton] at hf
              exact absurd (hf ▸ List.mem_cons_self) he
            · exact fun h => absurd h.1 hpasses

/-! ### All devices -/

/-- **All devices are switched off**: `off` was called for each of them, and those whose
control transfers work are off. -/
structure SwitchedOff (env : ℕ → Shutdown) (s t : Live) : Prop where
  attempted : ∀ d ∈ s.m_devices, (t.board d).offs = (s.board d).offs + 1
  off : ∀ d ∈ s.m_devices, (∀ r, 0 ≤ (env d).answers r) → (t.board d).Off

/-- **`end` switches every device off exactly when its loop goes on** after each of them but
the last: whether it then returns or throws, `off` was called for all, and each device whose
control transfers work is in `HI_Z`, has stopped sampling and has its write threads
paused. -/
theorem switched_off_iff (env : Ending) {s : Live} (hs : s.m_devices.Nodup) :
    SwitchedOff env.off s (s.end_ env).1 ↔
      ∀ d ∈ s.m_devices.dropLast, (env.off d).Passes (s.board d).m_sample_count := by
  obtain ⟨hboard, hdevices⟩ := wait_frame env s
  have hattempted : attempted env.off (s.wait env) s.m_devices =
      attempted env.off s s.m_devices := attempted_congr fun d _ => by rw [hboard]
  have hend : ∀ d, (s.end_ env).1.board d =
      if d ∈ attempted env.off s s.m_devices then ((s.board d).off (env.off d)).1
      else s.board d := by
    intro d
    rw [end_, offFrom_board (by rw [hdevices]; exact hs), hdevices, hattempted, hboard]
  rw [← forall_mem_attempted_iff hs]
  constructor
  · intro h d hd
    by_contra hnot
    have hoffs := h.attempted d hd
    rw [hend, if_neg hnot] at hoffs
    omega
  · intro h
    refine ⟨fun d hd => ?_, fun d hd hanswers => ?_⟩
    · rw [hend, if_pos (h d hd)]
      exact (Board.off_cases _ _).1
    · rw [hend, if_pos (h d hd)]
      rcases (Board.off_cases (env.off d) (s.board d)).2 with ⟨e, -, hfail, -⟩ | ⟨-, hoff, -⟩
      · rw [firstFailure_eq_none hanswers] at hfail
        cases hfail
      · exact hoff (hanswers _)

/-! ### Two devices -/

/-- Two devices after a run of 1000 samples, both still sourcing and sampling. -/
def twoSourcing : Live where
  toSession := { Session.init with m_devices := [0, 1] }
  board _ :=
    { Board.new (217 / 100) with
      m_sample_count := 1000
      hardware := { mode := fun _ => Mode.number .SVMI, sampling := true } }
  m_cancellation := 0
  streaming := []

/-- Nobody completes while `end` waits, and each device is switched off as given. -/
def quietly (off : ℕ → Shutdown) : Ending where
  cancel _ := 0
  completing := []
  off := off

/-- Two devices whose transfers all work, with no exception stored. -/
theorem switched_off_iff_two :
    twoSourcing.m_devices = [0, 1] ∧
      SwitchedOff (fun _ => ⟨fun _ => 0, 0, false⟩) twoSourcing
        (twoSourcing.end_ (quietly fun _ => ⟨fun _ => 0, 0, false⟩)).1 := by
  refine ⟨rfl, (switched_off_iff (quietly fun _ => ⟨fun _ => 0, 0, false⟩) ?_).mpr ?_⟩
  · decide
  · decide

/-- The first device fails to be set to a mode, with `LIBUSB_ERROR_IO`. -/
def failing (d : ℕ) : Shutdown := ⟨fun r => if d = 0 ∧ r.bRequest = 0x53 then -1 else 0, 0, false⟩

/-- All transfers work, and an exception is stored when the first device is switched off. -/
def throwing (d : ℕ) : Shutdown := ⟨fun _ => 0, 0, decide (d = 0)⟩

/-- **The second device is left on** when the first one fails and when its `off` throws. -/
theorem second_left_on :
    (¬SwitchedOff failing twoSourcing (twoSourcing.end_ (quietly failing)).1 ∧
        ((twoSourcing.end_ (quietly failing)).1.board 1).hardware.sampling = true) ∧
      ¬SwitchedOff throwing twoSourcing (twoSourcing.end_ (quietly throwing)).1 ∧
        ((twoSourcing.end_ (quietly throwing)).1.board 1).hardware.sampling = true := by
  have hleft : ∀ off : ℕ → Shutdown, ((twoSourcing.end_ (quietly off)).1.board 1).offs = 0 →
      ¬SwitchedOff off twoSourcing (twoSourcing.end_ (quietly off)).1 := by
    intro off hoffs h
    have hone := h.attempted 1 (by decide)
    rw [hoffs] at hone
    cases hone
  refine ⟨⟨hleft failing ?_, ?_⟩, hleft throwing ?_, ?_⟩
  · decide +kernel
  · decide +kernel
  · decide +kernel
  · decide +kernel

end Live

end Libsmu
