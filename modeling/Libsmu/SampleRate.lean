import Libsmu.Session

/-!
# The Sample Rate of a Session

`Session::start` does not ask whether a device is configured, and `m_sample_rate` only says
what the last device made of the last `configure` that went well. The devices are at that
rate as long as nothing comes between: a device that was not configured with the others, a
`configure` that fails half way, or clocks that make different rates of one request.

## Main results

* `configured_of_steady`: as long as every device that is added is configured for the rate
  of the session, or the session has none yet, and every `configure` gets its memory and
  finds clocks that make one rate of what it is asked for, `start` runs only devices
  configured for `m_sample_rate`.
* `added_after_configure`: a device added once the session is configured is run without
  transfers.
* `runs_unconfigured_of_not_steady`: after any other step, too, there is a device that the
  next `start` runs unconfigured.
-/

namespace Libsmu

namespace Session

/-! ### Steady steps -/

/-- A device may join: the session has no rate yet, or the device is configured for it. -/
def Fits (s : Session) (d : ℕ) : Prop :=
  s.m_sample_rate = 0 ∨ Configured (s.heap d) s.m_sample_rate

/-- Every device gets its memory, and the clocks make one rate of the rate requested. -/
def Agreed (s : Session) (sampleRate : ℕ) (mem : ℕ → Transfers) : Prop :=
  (∀ d ∈ s.m_devices, (mem d).Granted) ∧
    ∀ d ∈ s.m_devices, ∀ e ∈ s.m_devices,
      (s.heap d).rate (s.requested sampleRate) = (s.heap e).rate (s.requested sampleRate)

/-- Some device does not get its memory. -/
def Starved (s : Session) (mem : ℕ → Transfers) : Prop :=
  ∃ d ∈ s.m_devices, ¬(mem d).Granted

/-- If `start` has to configure the session, all goes well, or the first device is not run
either. -/
def SteadyStart (s : Session) (mem : ℕ → Transfers) (answers : ℕ → Answers) : Prop :=
  s.m_sample_rate = 0 → s.Agreed 0 mem ∨
    s.Starved mem ∧ ∀ d ∈ s.m_devices.head?, ¬(answers d).Runs s.m_devices.length

/-- **Steady steps**: a device joins only if it fits, and a `configure` of all devices goes
well or, in a session without a rate, returns an error. -/
def Steady (s : Session) : Act → Prop
  | .add device claim => s.m_active_devices = 0 → claim = 0 → ∀ d ∈ device, s.Fits d
  | .add_all bus claims =>
      s.m_active_devices = 0 →
        ∀ d ∈ (s.scan bus).1.m_available_devices.takeWhile (claims · = 0),
          (s.scan bus).1.Fits d
  | .configure sampleRate mem =>
      s.m_active_devices = 0 →
        s.Agreed sampleRate mem ∨ s.m_sample_rate = 0 ∧ s.Starved mem
  | .start _ mem answers => s.SteadyStart mem answers
  | .run samples mem answers =>
      (0 < samples ∧ s.m_continuous) ∨ s.SteadyStart mem answers
  | .remove _ _ _ | .end_ | .scan _ | .completion => True

/-- **Prepared**: once the session has a rate its devices are configured for it, and those
that were run were configured for the rate of their time. -/
structure Prepared (s : Session) : Prop where
  known : ∀ d ∈ s.m_devices, d ∈ s.created
  available : ∀ d ∈ s.m_available_devices, d ∈ s.created
  positive : ∀ d rate, Configured (s.heap d) rate → 0 < rate
  idle : s.m_sample_rate = 0 → s.captures = [] ∧ s.m_active_devices = 0
  devices : s.m_sample_rate ≠ 0 → ∀ d ∈ s.m_devices, Configured (s.heap d) s.m_sample_rate
  captures : ∀ c ∈ s.captures, Configured c.device c.m_sample_rate

theorem Prepared.init : Prepared init where
  known _ h := nomatch h
  available _ h := nomatch h
  positive _ rate h := absurd h (not_configured_new "" "" rate)
  idle _ := ⟨rfl, rfl⟩
  devices h := absurd rfl h
  captures _ h := nomatch h

/-- Whether the run is continuous does not matter. -/
theorem Prepared.setContinuous {s : Session} (hs : Prepared s) (m_continuous : Bool) :
    Prepared { s with m_continuous := m_continuous } where
  known := hs.known
  available := hs.available
  positive := hs.positive
  idle := hs.idle
  devices := hs.devices
  captures := hs.captures

/-! ### Devices come and go -/

theorem mem_insertAddress {d e : ℕ} {ds : List ℕ} :
    e ∈ insertAddress d ds ↔ e = d ∨ e ∈ ds := by
  induction ds with
  | nil => simp [insertAddress]
  | cons f ds ih =>
      rw [insertAddress]
      split
      · exact List.mem_cons
      · split
        · rename_i heq
          subst heq
          simp
        · rw [List.mem_cons, ih, List.mem_cons, or_left_comm]

theorem mem_of_mem_eraseSerial {heap : ℕ → Device} {serial : String} {ds : List ℕ} {e : ℕ}
    (h : e ∈ eraseSerial heap serial ds) : e ∈ ds :=
  List.mem_of_mem_eraseP h

/-- What `add` does: a refusal changes nothing, and otherwise the device joins. -/
theorem add_cases (device : Option ℕ) (claim : ℤ) (s : Session) :
    (s.add device claim).1 = s ∨
      s.m_active_devices = 0 ∧ claim = 0 ∧ (s.add device claim).2 = 0 ∧
        ∃ d ds, device = some d ∧ (∀ e ∈ ds, e ∈ s.m_devices) ∧
          (s.add device claim).1 = { s with m_devices := insertAddress d ds } := by
  simp only [add]
  split
  · exact .inl rfl
  · rename_i hactive
    cases device with
    | none => exact .inl rfl
    | some d =>
        simp only
        split
        · rename_i hclaim
          exact .inr ⟨not_not.mp hactive, hclaim, hclaim, d, _, rfl,
            fun e he => mem_of_mem_eraseSerial he, rfl⟩
        · exact .inl rfl

/-- What `remove` does: a refusal changes nothing, and otherwise the device leaves. -/
theorem remove_cases (device : Option ℕ) (detached : Bool) (release : ℤ) (s : Session) :
    (s.remove device detached release).1 = s ∨
      s.m_active_devices = 0 ∧ ∃ d, device = some d ∧
        (s.remove device detached release).1 = { s with m_devices := s.m_devices.erase d } := by
  rw [Session.remove.eq_def]
  split
  · exact .inl rfl
  · rename_i hactive
    cases device with
    | none => exact .inl rfl
    | some d =>
        simp only
        generalize (if detached = true ∧ release = -ENODEV then 0 else release) = ret
        split
        · exact .inr ⟨not_not.mp hactive, d, rfl, rfl⟩
        · exact .inl rfl

/-- A device that fits may join. -/
theorem Prepared.insert {s : Session} (hs : Prepared s) {d : ℕ} (hd : d ∈ s.created)
    (hfits : s.Fits d) {ds : List ℕ} (hds : ∀ e ∈ ds, e ∈ s.m_devices) :
    Prepared { s with m_devices := insertAddress d ds } where
  known e he := by
    rcases mem_insertAddress.mp he with rfl | he
    · exact hd
    · exact hs.known e (hds e he)
  available := hs.available
  positive := hs.positive
  idle := hs.idle
  devices hrate e he := by
    rcases mem_insertAddress.mp he with rfl | he
    · exact hfits.resolve_left hrate
    · exact hs.devices hrate e (hds e he)
  captures := hs.captures

theorem Prepared.add {s : Session} (hs : Prepared s) {device : Option ℕ} {claim : ℤ}
    (hd : ∀ d ∈ device, d ∈ s.created) (hok : s.Steady (.add device claim)) :
    Prepared (s.add device claim).1 := by
  rcases add_cases device claim s with heq | ⟨hactive, hclaim, -, d, ds, rfl, hds, heq⟩
  · rw [heq]
    exact hs
  · rw [heq]
    exact hs.insert (hd d rfl) (hok hactive hclaim d rfl) hds

/-- `add` returns 0 only for a device that was claimed. -/
theorem claim_of_add_eq_zero {d : ℕ} {claim : ℤ} {s : Session}
    (h : (s.add (some d) claim).2 = 0) : claim = 0 := by
  by_contra hclaim
  rw [add] at h
  by_cases hactive : s.m_active_devices ≠ 0
  · rw [if_pos hactive] at h
    exact absurd (show -EBUSY = 0 from h) (by decide)
  · rw [if_neg hactive] at h
    simp only at h
    rw [if_neg hclaim] at h
    exact hclaim h

/-- The loop of `add_all` keeps a session prepared while the devices that it gets to fit. -/
theorem Prepared.addFrom {s : Session} (hs : Prepared s) {claims : ℕ → ℤ} {ds : List ℕ}
    {num_devices : ℕ} (hds : ∀ d ∈ ds, d ∈ s.created)
    (hfits : ∀ d ∈ ds.takeWhile (claims · = 0), s.Fits d) :
    Prepared (addFrom claims ds s num_devices).1 := by
  induction ds generalizing s num_devices with
  | nil => exact hs
  | cons d ds ih =>
      have hhead : s.Steady (.add (some d) (claims d)) := by
        rintro - hclaim e he
        obtain rfl := Option.some.inj he
        refine hfits d ?_
        rw [List.takeWhile_cons_of_pos (by simpa using hclaim)]
        exact List.mem_cons_self
      have hcreated : ∀ e ∈ some d, e ∈ s.created := fun e he => by
        obtain rfl := Option.some.inj he
        exact hds d List.mem_cons_self
      have hjoin := hs.add hcreated hhead
      have hsame : (s.add (some d) (claims d)).1.created = s.created ∧
          ∀ e, (s.add (some d) (claims d)).1.Fits e ↔ s.Fits e := by
        rcases add_cases (some d) (claims d) s with heq | ⟨-, -, -, _, _, -, -, heq⟩
        · rw [heq]
          exact ⟨rfl, fun e => Iff.rfl⟩
        · rw [heq]
          exact ⟨rfl, fun e => Iff.rfl⟩
      rw [Session.addFrom]
      split
      · exact hjoin
      · rename_i hret
        have hclaim := claim_of_add_eq_zero (not_not.mp hret)
        rw [List.takeWhile_cons_of_pos (by simpa using hclaim)] at hfits
        refine ih hjoin ?_ ?_
        · intro e he
          rw [hsame.1]
          exact hds e (List.mem_cons_of_mem d he)
        · intro e he
          rw [hsame.2]
          exact hfits e (List.mem_cons_of_mem d he)

theorem Prepared.make_available {s : Session} (hs : Prepared s) {f : Found} (hknown : s.Known f)
    (hnew : ∀ d ∈ newObjects [f], d ∉ s.created) : Prepared (s.make_available f) := by
  cases f with
  | existing d =>
      refine ⟨hs.known, ?_, hs.positive, hs.idle, hs.devices, hs.captures⟩
      intro e he
      rcases List.mem_append.mp he with he | he
      · exact hs.available e he
      · rw [List.mem_singleton.mp he]
        exact hs.known d hknown
  | probed d fwver serial =>
      have hd : d ∉ s.created := hnew d (List.mem_singleton_self d)
      refine ⟨fun e he => List.mem_cons_of_mem d (hs.known e he), ?_,
        ?_, hs.idle, ?_, hs.captures⟩
      · intro e he
        rcases List.mem_append.mp he with he | he
        · exact List.mem_cons_of_mem d (hs.available e he)
        · rw [List.mem_singleton.mp he]
          exact List.mem_cons_self
      · intro e rate h
        by_cases hed : e = d
        · subst hed
          simp only [Session.make_available, Function.update_self] at h
          exact absurd h (not_configured_new fwver serial rate)
        · simp only [Session.make_available, Function.update_of_ne hed] at h
          exact hs.positive e rate h
      · intro hrate e he
        have hed : e ≠ d := by
          rintro rfl
          exact hd (hs.known e he)
        simp only [Session.make_available, Function.update_of_ne hed]
        exact hs.devices hrate e he

theorem Prepared.scanned {s : Session} (hs : Prepared s) {found : List Found}
    (hfound : s.Plausible (.ok found)) : Prepared (found.foldl Session.make_available s) := by
  obtain ⟨hknown, hnodup, hnew⟩ := hfound
  induction found generalizing s with
  | nil => exact hs
  | cons f found ih =>
      rw [List.foldl_cons]
      have hmembers : ∀ g ∈ found, (s.make_available f).Known g := by
        intro g hg
        have hg := hknown g (List.mem_cons_of_mem f hg)
        cases f <;> cases g <;> exact hg
      cases f with
      | existing d =>
          have hstep := hs.make_available (hknown _ List.mem_cons_self) fun d hd => (nomatch hd)
          exact ih hstep hmembers hnodup hnew
      | probed d fwver serial =>
          obtain ⟨hd, hnodup⟩ := List.nodup_cons.mp hnodup
          have hstep := hs.make_available (f := .probed d fwver serial) trivial fun e he => by
            rw [List.mem_singleton.mp he]
            exact hnew d List.mem_cons_self
          refine ih hstep hmembers hnodup ?_
          intro e he hmem
          rcases List.mem_cons.mp hmem with rfl | hmem
          · exact hd he
          · exact hnew e (List.mem_cons_of_mem d he) hmem

theorem Prepared.scan {s : Session} (hs : Prepared s) {bus : Except ℕ (List Found)}
    (hbus : s.Plausible bus) : Prepared (s.scan bus).1 := by
  have hempty : Prepared { s with m_available_devices := [] } :=
    ⟨hs.known, fun _ h => (nomatch h), hs.positive, hs.idle, hs.devices, hs.captures⟩
  cases bus with
  | error errno => exact hempty
  | ok found =>
      refine hempty.scanned ⟨?_, hbus.2⟩
      intro f hf
      have hf := hbus.1 f hf
      cases f <;> exact hf

theorem Prepared.add_all {s : Session} (hs : Prepared s) {bus : Except ℕ (List Found)}
    {claims : ℕ → ℤ} (hbus : s.Plausible bus) (hok : s.Steady (.add_all bus claims)) :
    Prepared (s.add_all bus claims).1 := by
  rw [Session.add_all]
  split
  · exact hs
  · rename_i hactive
    simp only
    split
    · exact hs.scan hbus
    · exact (hs.scan hbus).addFrom (hs.scan hbus).available (hok (not_not.mp hactive))

theorem Prepared.remove {s : Session} (hs : Prepared s) (device : Option ℕ) (detached : Bool)
    (release : ℤ) : Prepared (s.remove device detached release).1 := by
  rcases remove_cases device detached release s with heq | ⟨-, d, -, heq⟩
  · rw [heq]
    exact hs
  · rw [heq]
    exact ⟨fun e he => hs.known e (List.mem_of_mem_erase he), hs.available, hs.positive, hs.idle,
      fun hrate e he => hs.devices hrate e (List.mem_of_mem_erase he), hs.captures⟩

/-! ### The loop of `configure` -/

variable {sampleRate : ℕ} {mem : ℕ → Transfers} {ds : List ℕ} {heap : ℕ → Device} {ret : ℤ}

/-- Only the devices of the loop change. -/
theorem configureFrom_of_notMem {e : ℕ} (he : e ∉ ds) :
    (configureFrom sampleRate mem ds heap ret).1 e = heap e := by
  induction ds generalizing heap ret with
  | nil => rfl
  | cons d ds ih =>
      rw [List.mem_cons, not_or] at he
      rw [configureFrom]
      split
      · exact Function.update_of_ne he.1 _ heap
      · rw [ih he.2]
        exact Function.update_of_ne he.1 _ heap

/-- **The loop of `configure` with all its memory**: every device is configured for the rate
its clock makes of the rate requested, and the loop returns the rate of one of them. -/
theorem configureFrom_of_granted (sampleRate : ℕ) (heap : ℕ → Device) (ret : ℤ)
    (hmem : ∀ d ∈ ds, (mem d).Granted) :
    (∀ d ∈ ds, Configured ((configureFrom sampleRate mem ds heap ret).1 d)
        ((heap d).rate sampleRate)) ∧
      (ds = [] ∧ (configureFrom sampleRate mem ds heap ret).2 = ret ∨
        ∃ d ∈ ds, (configureFrom sampleRate mem ds heap ret).2 = (heap d).rate sampleRate) := by
  induction ds generalizing heap ret with
  | nil => exact ⟨fun d hd => (nomatch hd), .inl ⟨rfl, rfl⟩⟩
  | cons d ds ih =>
      obtain ⟨hins, houts⟩ := hmem d List.mem_cons_self
      obtain ⟨hret, hconf⟩ := configure_of_granted sampleRate (heap d) hins houts
      have hpos := (heap d).rate_pos sampleRate
      have hrate : ∀ e, (Function.update heap d
          ((heap d).configure sampleRate (mem d).ins (mem d).outs).1 e).rate sampleRate =
            (heap e).rate sampleRate := by
        intro e
        by_cases hed : e = d
        · subst hed
          rw [Function.update_self, Device.configure_rate]
        · rw [Function.update_of_ne hed]
      rw [configureFrom]
      rw [if_neg (by omega)]
      obtain ⟨hall, hlast⟩ := ih
        (Function.update heap d ((heap d).configure sampleRate (mem d).ins (mem d).outs).1)
        ((heap d).configure sampleRate (mem d).ins (mem d).outs).2
        fun e he => hmem e (List.mem_cons_of_mem d he)
      simp only [hrate] at hall hlast
      constructor
      · intro e he
        by_cases hmember : e ∈ ds
        · exact hall e hmember
        · obtain rfl : e = d := (List.mem_cons.mp he).resolve_right hmember
          rw [configureFrom_of_notMem hmember, Function.update_self]
          exact hconf
      · refine .inr ?_
        rcases hlast with ⟨-, hlast⟩ | ⟨e, he, hlast⟩
        · exact ⟨d, List.mem_cons_self, hlast.trans hret⟩
        · exact ⟨e, List.mem_cons_of_mem d he, hlast⟩

/-- **Without all its memory the loop of `configure` fails**, and some device is left without
a configuration. -/
theorem configureFrom_of_starved (sampleRate : ℕ) (heap : ℕ → Device) (ret : ℤ)
    (hstarved : ∃ d ∈ ds, ¬(mem d).Granted) :
    (configureFrom sampleRate mem ds heap ret).2 < 0 ∧
      ∃ d ∈ ds, ∀ rate, ¬Configured ((configureFrom sampleRate mem ds heap ret).1 d) rate := by
  induction ds generalizing heap ret with
  | nil =>
      obtain ⟨d, hd, -⟩ := hstarved
      exact nomatch hd
  | cons d ds ih =>
      rw [configureFrom]
      by_cases hmem : (mem d).Granted
      · have hret := (configure_of_granted sampleRate (heap d) hmem.1 hmem.2).1
        have hpos := (heap d).rate_pos sampleRate
        rw [if_neg (by omega)]
        obtain ⟨e, he, hnot⟩ := hstarved
        rcases List.mem_cons.mp he with rfl | he
        · exact absurd hmem hnot
        · obtain ⟨hlast, f, hf, hconf⟩ := ih _ _ ⟨e, he, hnot⟩
          exact ⟨hlast, f, List.mem_cons_of_mem d hf, hconf⟩
      · obtain ⟨hret, hconf⟩ := configure_of_not_granted sampleRate (heap d) hmem
        rw [if_pos hret]
        refine ⟨hret, d, List.mem_cons_self, ?_⟩
        simp only [Function.update_self]
        exact hconf

/-- No configuration is for a rate that is not positive. -/
theorem configureFrom_positive (hpos : ∀ d rate, Configured (heap d) rate → 0 < rate) (d : ℕ)
    {rate : ℤ} (h : Configured ((configureFrom sampleRate mem ds heap ret).1 d) rate) :
    0 < rate := by
  induction ds generalizing heap ret with
  | nil => exact hpos d rate h
  | cons e ds ih =>
      have hupdate : ∀ f rate, Configured (Function.update heap e
          ((heap e).configure sampleRate (mem e).ins (mem e).outs).1 f) rate → 0 < rate := by
        intro f rate hf
        by_cases hfe : f = e
        · subst hfe
          rw [Function.update_self] at hf
          by_cases hmem : (mem f).Granted
          · have hconf := (configure_of_granted sampleRate (heap f) hmem.1 hmem.2).2
            rw [hf.rate_unique hconf]
            exact (heap f).rate_pos sampleRate
          · exact absurd hf ((configure_of_not_granted sampleRate (heap f) hmem).2 rate)
        · rw [Function.update_of_ne hfe] at hf
          exact hpos f rate hf
      rw [configureFrom] at h
      split at h
      · exact hupdate d rate h
      · exact ih hupdate h

/-! ### `configure` and `start` -/

/-- **`configure` in a prepared session.** It is refused, or returns an error and leaves the
session prepared if that has no rate, or the devices agree and the session takes their
rate. -/
theorem Prepared.configure {s : Session} (hs : Prepared s) (sampleRate : ℕ)
    (hactive : s.m_active_devices = 0)
    (hok : s.Agreed sampleRate mem ∨ s.m_sample_rate = 0 ∧ s.Starved mem) :
    Prepared (s.configure sampleRate mem).1 ∧
      (s.Agreed sampleRate mem → s.m_devices ≠ [] →
        (s.configure sampleRate mem).1.m_sample_rate ≠ 0) := by
  rw [Session.configure]
  rw [if_neg (not_not.mpr hactive)]
  split
  · rename_i hempty
    exact ⟨hs, fun _ hne => absurd (List.length_eq_zero_iff.mp hempty) hne⟩
  · rename_i hne
    simp only
    rcases hok with ⟨hmem, hagree⟩ | ⟨hrate, hstarved⟩
    · obtain ⟨hall, ⟨hempty, -⟩ | ⟨d, hd, hret⟩⟩ :=
        configureFrom_of_granted (s.requested sampleRate) s.heap 0 hmem
      · exact absurd (List.length_eq_zero_iff.mpr hempty) hne
      · have hpos := (s.heap d).rate_pos (s.requested sampleRate)
        rw [if_pos (by omega), hret]
        refine ⟨⟨hs.known, hs.available, ?_, ?_,
          ?_, hs.captures⟩, fun _ _ => ne_of_gt hpos⟩
        · intro e rate h
          exact configureFrom_positive hs.positive e h
        · intro hzero
          exact absurd hzero (ne_of_gt hpos)
        · intro _ e he
          simp only
          rw [hagree d hd e he]
          exact hall e he
    · obtain ⟨hret, -⟩ :=
        configureFrom_of_starved (s.requested sampleRate) s.heap 0 hstarved
      rw [if_neg (by omega)]
      refine ⟨⟨hs.known, hs.available, fun e rate h => configureFrom_positive hs.positive e h,
        hs.idle, fun hne => absurd hrate hne, hs.captures⟩, ?_⟩
      intro hagreed
      obtain ⟨d, hd, hnot⟩ := hstarved
      exact absurd (hagreed.1 d hd) hnot

/-- Nothing is run when the first device is not. -/
theorem startFrom_of_not_runs {answers : ℕ → Answers} {s : Session}
    (h : ∀ d ∈ ds.head?, ¬(answers d).Runs s.m_devices.length) :
    (startFrom answers ds s).1 = s := by
  cases ds with
  | nil => rfl
  | cons d ds =>
      have hnot := h d rfl
      rw [startFrom]
      split
      · rfl
      · rename_i hon
        split
        · rfl
        · rename_i hsync
          refine absurd ⟨not_not.mp hon, ?_⟩ hnot
          intro hlen
          by_contra hne
          exact hsync ⟨hlen, hne⟩

/-- **The loop of `start` in a session with a rate** runs configured devices only. -/
theorem Prepared.startFrom {answers : ℕ → Answers} {s : Session} (hs : Prepared s)
    (hrate : s.m_sample_rate ≠ 0) (hds : ∀ d ∈ ds, d ∈ s.m_devices) :
    Prepared (startFrom answers ds s).1 := by
  induction ds generalizing s with
  | nil => exact hs
  | cons d ds ih =>
      have hcapture : ∀ c ∈ s.captures ++ [⟨s.heap d, s.m_sample_rate⟩],
          Configured c.device c.m_sample_rate := by
        intro c hc
        rcases List.mem_append.mp hc with hc | hc
        · exact hs.captures c hc
        · rw [List.mem_singleton.mp hc]
          exact hs.devices hrate d (hds d List.mem_cons_self)
      rw [Session.startFrom]
      split
      · exact hs
      · split
        · exact hs
        · simp only
          split
          · exact ⟨hs.known, hs.available, hs.positive, fun h => absurd h hrate, hs.devices,
              hcapture⟩
          · exact ih ⟨hs.known, hs.available, hs.positive, fun h => absurd h hrate,
              hs.devices, hcapture⟩ hrate fun e he => hds e (List.mem_cons_of_mem d he)

theorem configure_m_devices (sampleRate : ℕ) (mem : ℕ → Transfers) (s : Session) :
    (s.configure sampleRate mem).1.m_devices = s.m_devices := by
  rw [Session.configure]
  split
  · rfl
  · split
    · rfl
    · simp only
      split <;> rfl

theorem Prepared.start {s : Session} (hs : Prepared s) (samples : ℕ) {answers : ℕ → Answers}
    (hok : s.SteadyStart mem answers) : Prepared (s.start samples mem answers).1 := by
  have hs' := hs.setContinuous (decide (samples = 0))
  rw [Session.start]
  simp only
  by_cases hrate : s.m_sample_rate = 0
  · rw [if_pos hrate]
    have hactive := (hs.idle hrate).2
    rcases hok hrate with hagreed | ⟨hstarved, hnot⟩
    · obtain ⟨hconf, hne⟩ := hs'.configure 0 hactive (.inl hagreed)
      by_cases hempty : s.m_devices = []
      · rw [startFrom_of_not_runs]
        · exact hconf
        · rw [configure_m_devices, hempty]
          exact fun d hd => (nomatch hd)
      · exact hconf.startFrom (hne hagreed hempty) fun d hd => hd
    · obtain ⟨hconf, -⟩ :=
        hs'.configure 0 hactive (.inr ⟨hrate, hstarved⟩)
      rw [startFrom_of_not_runs]
      · exact hconf
      · rw [configure_m_devices]
        exact hnot
  · rw [if_neg hrate]
    exact hs'.startFrom hrate fun d hd => hd

theorem Prepared.end_ {s : Session} (hs : Prepared s) : Prepared s.end_ :=
  hs.setContinuous false

theorem Prepared.run {s : Session} (hs : Prepared s) {samples : ℕ} {answers : ℕ → Answers}
    (hok : s.Steady (.run samples mem answers)) : Prepared (s.run samples mem answers) := by
  rw [Session.run]
  split
  · exact hs
  · rename_i hguard
    have hstart := hs.start samples (hok.resolve_left hguard)
    simp only
    split
    · exact hstart
    · exact hstart.end_

/-! ### Whole runs -/

/-- A device that can be run. -/
def Answers.fine : Answers := ⟨0, 0, 0⟩

/-- **The step lemma.** -/
theorem Prepared.step {s t : Session} {a : Act} (hs : Prepared s) (hok : s.Steady a)
    (h : machine.step s a = some t) : Prepared t := by
  cases a with
  | add device claim =>
      obtain ⟨hd, h⟩ := Option.ite_none_right_eq_some.mp h
      obtain rfl := Option.some.inj h
      exact hs.add hd hok
  | add_all bus claims =>
      obtain ⟨hbus, h⟩ := Option.ite_none_right_eq_some.mp h
      obtain rfl := Option.some.inj h
      exact hs.add_all hbus hok
  | remove device detached release =>
      obtain rfl := Option.some.inj h
      exact hs.remove device detached release
  | configure sampleRate mem =>
      obtain rfl := Option.some.inj h
      by_cases hactive : s.m_active_devices = 0
      · exact (hs.configure sampleRate hactive (hok hactive)).1
      · rw [Session.configure, if_pos hactive]
        exact hs
  | start samples mem answers =>
      obtain rfl := Option.some.inj h
      exact hs.start samples hok
  | run samples mem answers =>
      obtain rfl := Option.some.inj h
      exact hs.run hok
  | end_ =>
      obtain rfl := Option.some.inj h
      exact hs.end_
  | scan bus =>
      obtain ⟨hbus, h⟩ := Option.ite_none_right_eq_some.mp h
      obtain rfl := Option.some.inj h
      exact hs.scan hbus
  | completion =>
      obtain ⟨hran, h⟩ := Option.ite_none_right_eq_some.mp h
      obtain rfl := Option.some.inj h
      exact ⟨hs.known, hs.available, hs.positive, fun hrate => absurd (hs.idle hrate).1 hran,
        hs.devices, hs.captures⟩

/-- **Devices run as configured, while all steps are steady.** Whatever a session has been
asked for, each device that `start` ran was configured for the rate of the session at that
time. -/
theorem configured_of_steady {as : List Act} {s : Session} (hok : machine.Meets Steady init as)
    (hrun : machine.run init as = some s) :
    ∀ c ∈ s.captures, Configured c.device c.m_sample_rate :=
  (Machine.invariant_of_meets (fun _ _ _ hs hok h => Prepared.step hs hok h) Prepared.init hok
    hrun).captures

/-- Two devices are added, configured for 50 kHz and run. -/
def addedBefore : List Act :=
  [.scan (.ok [.probed 0 "2.17" "A", .probed 1 "2.17" "B"]), .add (some 0) 0, .add (some 1) 0,
    .configure 50000 fun _ => .plenty, .start 1000 (fun _ => .plenty) fun _ => .fine]

/-- Both run as configured. -/
theorem configured_of_steady_two : ∃ s : Session, machine.run init addedBefore = some s ∧
    s.captures.map (·.m_sample_rate) = [50000, 50000] ∧
      ∀ c ∈ s.captures, Configured c.device c.m_sample_rate := by
  have hrun : (machine.run init addedBefore).map (fun s => s.captures.map (·.m_sample_rate)) =
      some [50000, 50000] := by
    decide +kernel
  obtain ⟨s, hs, hrates⟩ := Option.map_eq_some_iff.mp hrun
  refine ⟨s, hs, hrates, configured_of_steady ?_ hs⟩
  -- they are added before there is a rate, have the same clock, and the rate is there at the start
  have hplenty : Transfers.plenty.Granted := by decide
  refine ⟨trivial, fun t ht => ⟨fun _ _ _ _ => .inl ?_, fun u hu => ⟨fun _ _ _ _ => .inl ?_,
    fun v hv => ⟨fun _ => .inl ⟨fun _ _ => hplenty, ?_⟩, fun x hx =>
      ⟨fun hrate => absurd hrate ?_, fun _ _ => trivial⟩⟩⟩⟩⟩
  · obtain rfl := Option.some.inj ht
    decide +kernel
  · obtain rfl := Option.some.inj ht
    obtain rfl := Option.some.inj hu
    decide +kernel
  · obtain rfl := Option.some.inj ht
    obtain rfl := Option.some.inj hu
    obtain rfl := Option.some.inj hv
    decide +kernel
  · obtain rfl := Option.some.inj ht
    obtain rfl := Option.some.inj hu
    obtain rfl := Option.some.inj hv
    obtain rfl := Option.some.inj hx
    decide +kernel

/-- **A device added after `configure`.** The session is configured with one device, a second
is added, and `start` runs the second as it is, without transfers or timer period. -/
theorem added_after_configure :
    ∃ (as : List Act) (s : Session), machine.run init as = some s ∧
      ∃ c ∈ s.captures, c.m_sample_rate = 100000 ∧ c.device.m_packets_per_transfer = none ∧
        ¬Configured c.device c.m_sample_rate := by
  have hcaptures : (machine.run init
      [.scan (.ok [.probed 0 "2.17" "A", .probed 1 "2.17" "B"]), .add (some 0) 0,
        .configure 100000 fun _ => .plenty, .add (some 1) 0,
        .start 1000 (fun _ => .plenty) fun _ => .fine]).map (fun s => s.captures.drop 1) =
      some [⟨.new "2.17" "B", 100000⟩] := by
    decide +kernel
  obtain ⟨s, hs, hdrop⟩ := Option.map_eq_some_iff.mp hcaptures
  refine ⟨_, s, hs, ⟨.new "2.17" "B", 100000⟩, ?_, rfl, rfl, not_configured_new _ _ _⟩
  refine List.mem_of_mem_drop (i := 1) ?_
  rw [hdrop]
  exact List.mem_singleton_self _

/-! ### After a step that is not steady -/

/-- A device is ahead that `start` runs unconfigured, or was run so already. -/
def Unprepared (s : Session) : Prop :=
  (∃ c ∈ s.captures, ¬Configured c.device c.m_sample_rate) ∨
    s.m_sample_rate ≠ 0 ∧ ∃ d ∈ s.m_devices, ¬Configured (s.heap d) s.m_sample_rate

/-- The loop of `start` changes the record and the count of devices only. -/
theorem startFrom_frame (answers : ℕ → Answers) (ds : List ℕ) (s : Session) :
    (startFrom answers ds s).1.heap = s.heap ∧
      (startFrom answers ds s).1.m_devices = s.m_devices ∧
      (startFrom answers ds s).1.m_sample_rate = s.m_sample_rate ∧
      ∀ c ∈ s.captures, c ∈ (startFrom answers ds s).1.captures := by
  induction ds generalizing s with
  | nil => exact ⟨rfl, rfl, rfl, fun c hc => hc⟩
  | cons d ds ih =>
      rw [startFrom]
      split
      · exact ⟨rfl, rfl, rfl, fun c hc => hc⟩
      · split
        · exact ⟨rfl, rfl, rfl, fun c hc => hc⟩
        · simp only
          split
          · exact ⟨rfl, rfl, rfl, fun c hc => List.mem_append_left _ hc⟩
          · obtain ⟨hheap, hdevices, hrate, hcaptures⟩ := ih
              { s with
                captures := s.captures ++ [⟨s.heap d, s.m_sample_rate⟩]
                m_active_devices := Counter.add 32 s.m_active_devices 1 }
            exact ⟨hheap, hdevices, hrate,
              fun c hc => hcaptures c (List.mem_append_left _ hc)⟩

theorem Unprepared.startFrom {s : Session} (hs : Unprepared s) (answers : ℕ → Answers) :
    Unprepared (startFrom answers ds s).1 := by
  obtain ⟨hheap, hdevices, hrate, hcaptures⟩ := startFrom_frame answers ds s
  rcases hs with ⟨c, hc, hnot⟩ | hs
  · exact .inl ⟨c, hcaptures c hc, hnot⟩
  · refine .inr ?_
    rw [hheap, hdevices, hrate]
    exact hs

/-- The loop of `start` runs the first device if that lets it. -/
theorem mem_captures_of_runs {answers : ℕ → Answers} {s : Session} {d : ℕ}
    (hruns : (answers d).Runs s.m_devices.length) :
    ⟨s.heap d, s.m_sample_rate⟩ ∈ (startFrom answers (d :: ds) s).1.captures := by
  rw [startFrom, if_neg (not_not.mpr hruns.1),
    if_neg (fun hsync => hsync.2 (hruns.2 hsync.1))]
  simp only
  split
  · exact List.mem_append_right _ (List.mem_singleton_self _)
  · exact (startFrom_frame _ _ _).2.2.2 _
      (List.mem_append_right _ (List.mem_singleton_self _))

/-- When every device can be run, the loop of `start` runs them all. -/
theorem mem_captures_of_fine {s : Session} {d : ℕ} (hd : d ∈ ds) :
    ⟨s.heap d, s.m_sample_rate⟩ ∈ (startFrom (fun _ => .fine) ds s).1.captures := by
  induction ds generalizing s with
  | nil => exact nomatch hd
  | cons e ds ih =>
      rcases List.mem_cons.mp hd with rfl | hd
      · exact mem_captures_of_runs ⟨rfl, fun _ => rfl⟩
      · have hon : ¬Answers.fine.on ≠ 0 := not_not.mpr rfl
        have hsync : ¬(1 < s.m_devices.length ∧ Answers.fine.sync ≠ 0) := fun h => h.2 rfl
        have hrun : ¬Answers.fine.run ≠ 0 := not_not.mpr rfl
        rw [startFrom, if_neg hon, if_neg hsync]
        simp only
        rw [if_neg hrun]
        exact ih hd

theorem configure_captures (s : Session) :
    (s.configure sampleRate mem).1.captures = s.captures := by
  rw [Session.configure]
  split
  · rfl
  · split
    · rfl
    · simp only
      split <;> rfl

/-- A `configure` that does not get its memory leaves the rate of the session. -/
theorem configure_of_starved {s : Session} (hstarved : s.Starved mem) :
    (s.configure sampleRate mem).1.m_sample_rate = s.m_sample_rate := by
  obtain ⟨hret, -⟩ := configureFrom_of_starved (s.requested sampleRate) s.heap 0 hstarved
  rw [Session.configure]
  split
  · rfl
  · split
    · rfl
    · simp only
      rw [if_neg (by omega)]

/-- An unprepared session needs one more `start` to run a device unconfigured. -/
theorem Unprepared.exists_unconfigured {s : Session} (hs : Unprepared s) :
    ∃ c ∈ (s.start 0 (fun _ => .plenty) fun _ => .fine).1.captures,
      ¬Configured c.device c.m_sample_rate := by
  rw [Session.start]
  rcases hs with ⟨c, hc, hnot⟩ | ⟨hrate, d, hd, hnot⟩
  · refine ⟨c, (startFrom_frame _ _ _).2.2.2 c ?_, hnot⟩
    split
    · rw [configure_captures]
      exact hc
    · exact hc
  · simp only
    rw [if_neg hrate]
    exact ⟨_, mem_captures_of_fine hd, hnot⟩

/-- A `configure` that neither goes well nor leaves the session without a rate leaves a
device behind. -/
theorem Prepared.configure_unprepared {s : Session} (hactive : s.m_active_devices = 0)
    (hagreed : ¬s.Agreed sampleRate mem) (hstarved : s.Starved mem → s.m_sample_rate ≠ 0) :
    Unprepared (s.configure sampleRate mem).1 := by
  have hne : s.m_devices.length ≠ 0 := by
    intro hlen
    refine hagreed ⟨fun d hd => ?_, fun d hd => ?_⟩ <;>
    · rw [List.length_eq_zero_iff.mp hlen] at hd
      exact nomatch hd
  rw [Session.configure]
  rw [if_neg (not_not.mpr hactive), if_neg hne]
  simp only
  refine .inr ?_
  by_cases hmem : ∀ d ∈ s.m_devices, (mem d).Granted
  · obtain ⟨hall, ⟨hempty, -⟩ | ⟨f, hf, hret⟩⟩ :=
      configureFrom_of_granted (s.requested sampleRate) s.heap 0 hmem
    · exact absurd (List.length_eq_zero_iff.mpr hempty) hne
    · have hpos := (s.heap f).rate_pos (s.requested sampleRate)
      rw [if_pos (by omega), hret]
      refine ⟨ne_of_gt hpos, ?_⟩
      -- all devices at the rate of `f` would agree
      by_contra hnone
      have hrate : ∀ d ∈ s.m_devices, (s.heap d).rate (s.requested sampleRate) =
          (s.heap f).rate (s.requested sampleRate) := by
        intro d hd
        by_contra hdiff
        exact hnone ⟨d, hd, fun h => hdiff ((hall d hd).rate_unique h)⟩
      exact hagreed ⟨hmem, fun d hd e he => (hrate d hd).trans (hrate e he).symm⟩
  · have hex : s.Starved mem := by
      by_contra hnone
      exact hmem fun d hd => by
        by_contra hnot
        exact hnone ⟨d, hd, hnot⟩
    obtain ⟨hret, d, hd, hnot⟩ :=
      configureFrom_of_starved (s.requested sampleRate) s.heap 0 hex
    rw [if_neg (by omega)]
    exact ⟨hstarved hex, d, hd, hnot _⟩

/-- A `start` that configures the session, but not well, runs a device unconfigured or leaves
one so. -/
theorem Prepared.configure_start_unprepared {s : Session} (hs : Prepared s)
    {answers : ℕ → Answers} (hrate : s.m_sample_rate = 0) (hagreed : ¬s.Agreed 0 mem)
    (hstarved : s.Starved mem →
      ¬∀ d ∈ s.m_devices.head?, ¬(answers d).Runs s.m_devices.length) :
    Unprepared (Session.startFrom answers (s.configure 0 mem).1.m_devices
      (s.configure 0 mem).1).1 := by
  have hactive := (hs.idle hrate).2
  by_cases hex : s.Starved mem
  · -- the rate stays 0, and the first device is run all the same
    have hhead := hstarved hex
    obtain ⟨d, hd, hruns⟩ : ∃ d ∈ s.m_devices.head?, (answers d).Runs s.m_devices.length := by
      by_contra hnone
      exact hhead fun d hd hruns => hnone ⟨d, hd, hruns⟩
    obtain ⟨ds, hds⟩ := List.head?_eq_some_iff.mp hd
    obtain ⟨hconf, -⟩ :=
      hs.configure 0 hactive (.inr ⟨hrate, hex⟩)
    have hlen := configure_m_devices 0 mem s
    have hzero : (s.configure 0 mem).1.m_sample_rate = 0 :=
      (configure_of_starved hex).trans hrate
    refine .inl ⟨⟨(s.configure 0 mem).1.heap d, (s.configure 0 mem).1.m_sample_rate⟩, ?_, ?_⟩
    · rw [hlen, hds]
      refine mem_captures_of_runs ?_
      rw [hlen]
      exact hruns
    · intro h
      have hpos := hconf.positive d _ h
      simp only [hzero] at hpos
      exact absurd hpos (lt_irrefl 0)
  · exact (Prepared.configure_unprepared hactive hagreed fun h => absurd h hex).startFrom answers

theorem Prepared.start_unprepared {s : Session} (hs : Prepared s) (samples : ℕ)
    {answers : ℕ → Answers} (hnot : ¬s.SteadyStart mem answers) :
    Unprepared (s.start samples mem answers).1 := by
  rw [SteadyStart] at hnot
  rw [Classical.not_imp, not_or, not_and] at hnot
  obtain ⟨hrate, hagreed, hstarved⟩ := hnot
  have hs' := hs.setContinuous (decide (samples = 0))
  rw [Session.start]
  simp only
  rw [if_pos hrate]
  exact hs'.configure_start_unprepared hrate hagreed hstarved

/-- **No weaker condition on the steps will do**: after a step that is not steady, other than
an `add_all`, a `start` for which there is memory and every device is ready runs one that is
not configured for the rate of the session, unless one was run so already. -/
theorem runs_unconfigured_of_not_steady {s t : Session} {a : Act} (hs : Prepared s)
    (hall : ∀ bus claims, a ≠ .add_all bus claims) (hnot : ¬s.Steady a)
    (h : machine.step s a = some t) :
    ∃ c ∈ (t.start 0 (fun _ => .plenty) fun _ => .fine).1.captures,
      ¬Configured c.device c.m_sample_rate := by
  refine Unprepared.exists_unconfigured ?_
  cases a with
  | add device claim =>
      obtain ⟨-, h⟩ := Option.ite_none_right_eq_some.mp h
      obtain rfl := Option.some.inj h
      rw [Steady] at hnot
      rw [Classical.not_imp, Classical.not_imp] at hnot
      obtain ⟨hactive, hclaim, hnot⟩ := hnot
      cases device with
      | none => exact absurd (fun d hd => (nomatch hd)) hnot
      | some d =>
          have hfits : ¬s.Fits d := fun hfits => hnot fun e he => by
            obtain rfl := Option.some.inj he
            exact hfits
          rw [Fits] at hfits
          rw [not_or] at hfits
          rw [Session.add]
          rw [if_neg (not_not.mpr hactive)]
          simp only
          rw [if_pos hclaim]
          exact .inr ⟨hfits.1, d, mem_insertAddress.mpr (.inl rfl), hfits.2⟩
  | add_all bus claims => exact absurd rfl (hall bus claims)
  | configure sampleRate mem =>
      obtain rfl := Option.some.inj h
      rw [Steady] at hnot
      rw [Classical.not_imp, not_or, not_and] at hnot
      obtain ⟨hactive, hagreed, hstarved⟩ := hnot
      exact Prepared.configure_unprepared hactive hagreed fun hex hrate => hstarved hrate hex
  | start samples mem answers =>
      obtain rfl := Option.some.inj h
      exact hs.start_unprepared samples hnot
  | run samples mem answers =>
      obtain rfl := Option.some.inj h
      rw [Steady] at hnot
      rw [not_or] at hnot
      have hstart := hs.start_unprepared samples hnot.2
      rw [Session.run]
      rw [if_neg hnot.1]
      simp only
      split
      · exact hstart
      · exact hstart
  | remove device detached release => exact absurd trivial hnot
  | end_ => exact absurd trivial hnot
  | scan bus => exact absurd trivial hnot
  | completion => exact absurd trivial hnot

end Session

end Libsmu
