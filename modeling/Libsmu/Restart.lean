import Libsmu.LiveSession

/-!
# Starting an Active Session Again

Once a session is started, only `cancel` and `end` are allowed until it has stopped. The
calls that change the devices or the rate check `m_active_devices` for that, each for
itself. `start` does not: it starts the devices a second time and counts them again. `run`
refuses nothing but a number of samples in a continuous session.

`Live.machine` has every call as a step, with the transfers that complete or fail in
between. It says when the count is right, which is as long as no device is started twice.

## Main results

* `Counted.step`: a step keeps the devices that stream among those of the session, and the
  count equal to their number, if it starts only sessions that are not active.
* `not_restarted`: in every run of such steps at most as many devices are active as there
  are, and an active session is not restarted.
* `start_not_refused`: `start` never refuses, and counts on if the first device works.
* `restarted`: a session of one device, started twice, has two active devices.
-/

namespace Libsmu

open Session (EBUSY Transfers)

namespace Live

open Board (Launch Shutdown Outcome)

/-! ### Runs of a session -/

/-- A call of the session, or what transfers do between the calls. -/
inductive Act
  | books (call : Session.Act)
  | destroy (device : Option ℕ)
  | start (samples : ℕ) (mem : ℕ → Transfers) (env : ℕ → Launch)
  | run (samples : ℕ) (mem : ℕ → Transfers) (env : ℕ → Launch) (ending : Ending)
  | end_ (ending : Ending)
  | cancel (answers : ℕ → ℤ)
  /-- the last transfer of a device calls `completion` -/
  | completion (d : ℕ)
  /-- a transfer fails -/
  | handle_error (status : ℤ) (answers : ℕ → ℤ)
  /-- transfers advance the numbers of a device -/
  | transfers (d requested received sent : ℕ)

/-- A session with its devices as a machine. -/
def machine : Machine Live Act where
  step s
    | .books call =>
        if Session.Books call then
          (Session.machine.step s.toSession call).map fun t => { s with toSession := t }
        else none
    | .destroy device => some { s with toSession := (s.toSession.destroy device).1 }
    | .start samples mem env => some (s.start samples mem env).1
    | .run samples mem env ending => some (s.run samples mem env ending).1
    | .end_ ending => some (s.end_ ending).1
    | .cancel answers => some (s.cancel answers).1
    | .completion d => if d ∈ s.streaming then some (s.completion d) else none
    | .handle_error status answers => some (s.handle_error status answers)
    | .transfers d requested received sent =>
        if d ∈ s.streaming then
          some
            { s with
              board := Function.update s.board d
                { s.board d with
                  m_requested_sampleno := requested
                  m_in_sampleno := received
                  m_out_sampleno := sent } }
        else none

/-! ### The count of active devices -/

/-- **The count is right**: the devices that stream are devices of the session, each once,
and as many as are counted. -/
structure Counted (s : Live) : Prop where
  sorted : Session.Sorted s.m_devices
  nodup : s.streaming.Nodup
  subset : s.streaming ⊆ s.m_devices
  active : s.m_active_devices = s.streaming.length
  fits : s.m_active_devices < 2 ^ 32

theorem Counted.init (fwver : ℕ → ℚ) : Counted (init fwver) where
  sorted := List.Pairwise.nil
  nodup := List.nodup_nil
  subset := List.nil_subset _
  active := rfl
  fits := Nat.two_pow_pos 32

variable {s t : Live}

/-- No more devices are active than there are. -/
theorem Counted.active_le (h : Counted s) : s.m_active_devices ≤ s.m_devices.length := by
  rw [h.active]
  exact (List.subperm_of_subset h.nodup h.subset).length_le

theorem Counted.nodup_devices (h : Counted s) : s.m_devices.Nodup :=
  h.sorted.imp fun hlt => hlt.ne

/-- What the count is about. -/
structure SameCount (s t : Live) : Prop where
  devices : t.m_devices = s.m_devices
  active : t.m_active_devices = s.m_active_devices
  streaming : t.streaming = s.streaming

theorem Counted.of_same (h : Counted s) (hsame : SameCount s t) : Counted t where
  sorted := by rw [hsame.devices]; exact h.sorted
  nodup := by rw [hsame.streaming]; exact h.nodup
  subset := by rw [hsame.streaming, hsame.devices]; exact h.subset
  active := by rw [hsame.streaming, hsame.active]; exact h.active
  fits := by rw [hsame.active]; exact h.fits

/-- While no device is active none streams, whatever the devices are. -/
theorem Counted.of_kept (h : Counted s) {u : Session} (hkept : Session.Kept s.toSession u) :
    Counted { s with toSession := u } where
  sorted := hkept.sorted h.sorted
  nodup := h.nodup
  subset := by
    by_cases hidle : s.m_active_devices = 0
    · have hnil : s.streaming = [] := List.eq_nil_of_length_eq_zero (h.active.symm.trans hidle)
      rw [hnil]
      exact List.nil_subset _
    · rw [hkept.devices hidle]
      exact h.subset
  active := hkept.active.trans h.active
  fits := hkept.active ▸ h.fits

/-- A device that completes is counted no longer. -/
theorem Counted.completion (h : Counted s) (d : ℕ) : Counted (s.completion d) := by
  have hdevices := (completion_frame s d).2
  have hstreaming := completion_streaming s d
  have hactive : (s.completion d).m_active_devices = (s.completion d).streaming.length ∧
      (s.completion d).m_active_devices < 2 ^ 32 := by
    have hbooks := congrArg Session.m_active_devices (completion_toSession s d)
    rw [hbooks, hstreaming, List.length_erase]
    by_cases hd : d ∈ s.streaming
    · have hpos : 0 < s.m_active_devices := by
        rw [h.active]
        exact List.length_pos_of_mem hd
      rw [if_pos hd, if_pos hd]
      simp only
      rw [Counter.pred_of_pos hpos h.fits.le, ← h.active]
      exact ⟨rfl, lt_of_le_of_lt (Nat.sub_le _ _) h.fits⟩
    · rw [if_neg hd, if_neg hd]
      exact ⟨h.active, h.fits⟩
  exact
    { sorted := by rw [hdevices]; exact h.sorted
      nodup := by rw [hstreaming]; exact h.nodup.erase d
      subset := by
        rw [hdevices, hstreaming]
        exact fun e he => h.subset (List.mem_of_mem_erase he)
      active := hactive.1
      fits := hactive.2 }

/-- Starting a session that is not active. -/
theorem Counted.start (h : Counted s) (hidle : s.m_active_devices = 0)
    (hfew : s.m_devices.length < 2 ^ 32) (samples : ℕ) (mem : ℕ → Transfers)
    (env : ℕ → Launch) : Counted (s.start samples mem env).1 := by
  obtain ⟨⟨heap, rate, board, captures, heq, -⟩, -⟩ := start_cases samples mem env h.nodup_devices
  have hnil : s.streaming = [] := List.eq_nil_of_length_eq_zero (h.active.symm.trans hidle)
  have hsub : (started env s s.m_devices).Sublist s.m_devices := List.takeWhile_sublist _
  have hlen : (started env s s.m_devices).length < 2 ^ 32 := lt_of_le_of_lt hsub.length_le hfew
  have hcount : (fun n => Counter.add 32 n 1)^[(started env s s.m_devices).length]
      s.m_active_devices = (started env s s.m_devices).length := by
    rw [hidle, Counter.iterate_add_one (Nat.two_pow_pos 32),
      Counter.add_of_lt (by rw [Nat.zero_add]; exact hlen), Nat.zero_add]
  rw [heq, hcount, hnil]
  exact
    { sorted := h.sorted
      nodup := h.nodup_devices.sublist hsub
      subset := fun d hd => hsub.subset hd
      active := rfl
      fits := hlen }

theorem Counted.end_ (h : Counted s) (env : Ending) : Counted (s.end_ env).1 := by
  have hwait : Counted (s.wait env) := by
    have hall : ∀ (ds : List ℕ) (t : Live), Counted t → Counted (ds.foldl Live.completion t) := by
      intro ds
      induction ds with
      | nil => exact fun t ht => ht
      | cons d ds ih => exact fun t ht => ih _ (ht.completion d)
    simp only [wait]
    split
    · exact hall _ _ (h.of_same ⟨rfl, rfl, rfl⟩)
    · exact hall _ _ h
  obtain ⟨board, heq⟩ := offFrom_frame env.off (s.wait env).m_devices (s.wait env) 0
  rw [Live.end_, heq]
  exact hwait.of_same ⟨rfl, rfl, rfl⟩

/-! ### Orderly runs -/

/-- **A session is started only while it is not active**, and with fewer devices than the
count can hold; a `run` may also be one that is refused. -/
def Orderly (s : Live) : Act → Prop
  | .start _ _ _ => s.m_active_devices = 0 ∧ s.m_devices.length < 2 ^ 32
  | .run samples _ _ _ =>
      (0 < samples ∧ s.m_continuous = true) ∨
        s.m_active_devices = 0 ∧ s.m_devices.length < 2 ^ 32
  | .books _ | .destroy _ | .end_ _ | .cancel _ | .completion _ | .handle_error _ _
  | .transfers _ _ _ _ => True

instance (s : Live) : (a : Act) → Decidable (Orderly s a)
  | .start _ _ _ => inferInstanceAs (Decidable (_ ∧ _))
  | .run _ _ _ _ => inferInstanceAs (Decidable (_ ∧ _ ∨ _ ∧ _))
  | .books _ | .destroy _ | .end_ _ | .cancel _ | .completion _ | .handle_error _ _
  | .transfers _ _ _ _ => isTrue trivial

/-- **The step lemma**: an orderly step keeps the count right. -/
theorem Counted.step {a : Act} (h : Counted s) (hok : Orderly s a)
    (hstep : machine.step s a = some t) : Counted t := by
  cases a with
  | books call =>
      simp only [machine] at hstep
      split at hstep
      · rename_i hbooks
        obtain ⟨u, hu, rfl⟩ := Option.map_eq_some_iff.mp hstep
        exact h.of_kept (.step hbooks hu)
      · cases hstep
  | destroy device =>
      obtain rfl := Option.some.inj hstep
      refine h.of_kept ?_
      rw [Session.destroy.eq_def]
      split
      · exact .refl _
      · cases device with
        | none => exact .refl _
        | some d =>
            simp only
            split
            · exact ⟨id, rfl, fun _ => rfl⟩
            · exact .refl _
  | start samples mem env =>
      obtain rfl := Option.some.inj hstep
      exact h.start hok.1 hok.2 samples mem env
  | run samples mem env ending =>
      obtain rfl := Option.some.inj hstep
      rw [run]
      by_cases hrefused : 0 < samples ∧ s.m_continuous = true
      · rw [if_pos hrefused]
        exact h
      · obtain ⟨hidle, hfew⟩ := hok.resolve_left hrefused
        have hstart := h.start hidle hfew samples mem env
        rw [if_neg hrefused]
        simp only
        split
        · exact hstart
        · exact hstart.end_ ending
  | end_ ending =>
      obtain rfl := Option.some.inj hstep
      exact h.end_ ending
  | cancel answers =>
      obtain rfl := Option.some.inj hstep
      exact h.of_same ⟨rfl, rfl, rfl⟩
  | completion d =>
      simp only [machine] at hstep
      split at hstep
      · obtain rfl := Option.some.inj hstep
        exact h.completion d
      · cases hstep
  | handle_error status answers =>
      obtain rfl := Option.some.inj hstep
      rw [handle_error]
      split
      · exact h.of_same ⟨rfl, rfl, rfl⟩
      · exact h
  | transfers d requested received sent =>
      simp only [machine] at hstep
      split at hstep
      · obtain rfl := Option.some.inj hstep
        exact h.of_same ⟨rfl, rfl, rfl⟩
      · cases hstep

/-! ### Restarting -/

/-- **A call that is refused**: it returns `EBUSY`, and the counters of the devices, the
cancellation, the kind of the session and the number of active devices are unchanged. -/
structure Unchanged (s t : Live) : Prop where
  counters : ∀ d, (t.board d).counters = (s.board d).counters
  cancellation : t.m_cancellation = s.m_cancellation
  continuous : t.m_continuous = s.m_continuous
  active : t.m_active_devices = s.m_active_devices

/-- **An active session is not restarted** by a step: a `start` or `run` is refused. -/
def NotRestarted (s : Live) : Act → Prop
  | .start samples mem env =>
      0 < s.m_active_devices →
        (s.start samples mem env).2 = -EBUSY ∧ Unchanged s (s.start samples mem env).1
  | .run samples mem env ending =>
      0 < s.m_active_devices →
        (s.run samples mem env ending).2 = .returned (-EBUSY) ∧
          Unchanged s (s.run samples mem env ending).1
  | .books _ | .destroy _ | .end_ _ | .cancel _ | .completion _ | .handle_error _ _
  | .transfers _ _ _ _ => True

theorem Orderly.notRestarted {a : Act} (h : Orderly s a) : NotRestarted s a := by
  cases a with
  | start samples mem env =>
      intro hactive
      exact absurd h.1 hactive.ne'
  | run samples mem env ending =>
      intro hactive
      have hrefused := h.resolve_right fun hidle => hactive.ne' hidle.1
      rw [run, if_pos hrefused]
      exact ⟨rfl, fun d => rfl, rfl, rfl, rfl⟩
  | books call | destroy device | end_ ending | cancel answers | completion d
  | handle_error status answers | transfers d requested received sent => trivial

/-- **The active devices of a session**: in every run that starts only sessions that are not
active, no more devices are active than there are, and an active session is not
restarted. -/
theorem not_restarted {fwver : ℕ → ℚ} {as : List Act} {s : Live}
    (hok : machine.Meets Orderly (init fwver) as) (hrun : machine.run (init fwver) as = some s) :
    s.m_active_devices ≤ s.m_devices.length ∧ machine.Meets NotRestarted (init fwver) as := by
  have hcounted : Counted s :=
    Machine.invariant_of_meets (fun _ _ _ hs hok hstep => hs.step hok hstep)
      (Counted.init fwver) hok hrun
  exact ⟨hcounted.active_le, hok.imp fun _ _ => Orderly.notRestarted⟩

/-- What a start finds where all is well. -/
def working (_ : ℕ) : Launch where
  alt_setting := 0
  on _ := 0
  sync := 0
  microframe := 0
  run := 0

/-- A session of one device: it is started, refuses another device, and ends. -/
def orderlyRun : List Act :=
  [.books (.add_all (.ok [.probed 1 "2.17" "a"]) fun _ => 0), .start 0 plenty working,
    .books (.add (some 1) 0), .completion 1,
    .end_ ⟨fun _ => 0, [], fun _ => ⟨fun _ => 0, 0, false⟩⟩]

/-- One device is started and completes. -/
theorem not_restarted_one : ∃ s,
    machine.run (init fun _ => 217 / 100) orderlyRun = some s ∧
      s.m_active_devices ≤ s.m_devices.length ∧
      machine.Meets NotRestarted (init fun _ => 217 / 100) orderlyRun := by
  have hok : machine.Meets Orderly (init fun _ => 217 / 100) orderlyRun := by decide +kernel
  have hrun : (machine.run (init fun _ => 217 / 100) orderlyRun).isSome := by decide +kernel
  obtain ⟨s, hs⟩ := Option.isSome_iff_exists.mp hrun
  exact ⟨s, hs, not_restarted hok hs⟩

/-- **`start` never refuses**: if the first device works it is counted once more, whether or
not the session is active. -/
theorem start_not_refused {d : ℕ} {ds : List ℕ} {samples : ℕ} {mem : ℕ → Transfers}
    {env : ℕ → Launch} (hdevices : s.m_devices = d :: ds) (hnodup : s.m_devices.Nodup)
    (hfew : s.m_devices.length < 2 ^ 32) (hfits : s.m_active_devices < 2 ^ 32)
    (hworks : (env d).Works (Synchronized s.toSession) (s.board d))
    (hactive : 0 < s.m_active_devices) : ¬NotRestarted s (.start samples mem env) := by
  intro h
  obtain ⟨⟨heap, rate, board, captures, heq, -⟩, -⟩ := start_cases samples mem env hnodup
  have hsub : (started env s s.m_devices).length ≤ s.m_devices.length :=
    (List.takeWhile_sublist _).length_le
  have hpos : 0 < (started env s s.m_devices).length := by
    have hcons : started env s (d :: ds) = d :: started env s ds :=
      List.takeWhile_cons_of_pos (decide_eq_true hworks)
    rw [hdevices, hcons]
    exact Nat.succ_pos _
  have hsame := (h hactive).2.active
  rw [heq, Counter.iterate_add_one hfits, Counter.add] at hsame
  simp only at hsame
  omega

/-- **A session is restarted**: a device that is running is started once more. The session
then has two active devices of one, and the numbers of the device are those of a new run. -/
theorem restarted : ∃ s,
    machine.run (init fun _ => 217 / 100)
        [.books (.add_all (.ok [.probed 1 "2.17" "a"]) fun _ => 0), .start 0 plenty working,
          .transfers 1 512 256 512, .start 0 plenty working] = some s ∧
      s.m_devices = [1] ∧ s.m_active_devices = 2 ∧ (s.board 1).counters = (0, 0, 0, 0) := by
  have hrun : ((machine.run (init fun _ => 217 / 100)
      [.books (.add_all (.ok [.probed 1 "2.17" "a"]) fun _ => 0), .start 0 plenty working,
        .transfers 1 512 256 512, .start 0 plenty working]).map fun s =>
          (s.m_devices, s.m_active_devices, (s.board 1).counters)) =
        some ([1], 2, (0, 0, 0, 0)) := by
    decide +kernel
  obtain ⟨s, hs, hout⟩ := Option.map_eq_some_iff.mp hrun
  exact ⟨s, hs, congrArg Prod.fst hout, congrArg (fun x => x.2.1) hout,
    congrArg (fun x => x.2.2) hout⟩

end Live

end Libsmu
