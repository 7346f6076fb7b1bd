import Libsmu.SampleRate

/-!
# The Devices of a Session

What the calls of a session do to its two collections of devices: `m_devices`, which is a
set, and `m_available_devices`. Devices come in by `scan`, which makes objects, and by
`add`; no other call puts one there.

## Main results

* `Kept.step`: the calls that keep the books leave the devices of an active session alone.
* `sorted_of_step`: every call keeps `m_devices` in order, each device once.
* `forall_of_step`: what holds of the devices of a session, of the one handed over and of
  the new ones holds of all devices of the session after a call.
-/

namespace Libsmu

namespace Session

/-! ### The devices as a set -/

/-- In the order of the addresses, each once. -/
abbrev Sorted (ds : List ℕ) : Prop := ds.Pairwise (· < ·)

/-- Inserting an address keeps the set sorted. -/
theorem Sorted.insertAddress {ds : List ℕ} (h : Sorted ds) (d : ℕ) :
    Sorted (insertAddress d ds) := by
  induction ds with
  | nil => exact List.pairwise_singleton _ _
  | cons e ds ih =>
      obtain ⟨he, hds⟩ := List.pairwise_cons.mp h
      rw [Session.insertAddress]
      split
      · rename_i hlt
        refine List.pairwise_cons.mpr ⟨fun f hf => ?_, h⟩
        rcases List.mem_cons.mp hf with rfl | hf
        · exact hlt
        · exact hlt.trans (he f hf)
      · split
        · exact h
        · refine List.pairwise_cons.mpr ⟨fun f hf => ?_, ih hds⟩
          rcases mem_insertAddress.mp hf with rfl | hf
          · omega
          · exact he f hf

/-- `configure` changes the objects and the rate. -/
theorem configure_frame (sampleRate : ℕ) (mem : ℕ → Transfers) (s : Session) :
    ∃ heap rate, (s.configure sampleRate mem).1 =
      { s with heap := heap, m_sample_rate := rate } := by
  rw [Session.configure]
  split
  · exact ⟨s.heap, s.m_sample_rate, rfl⟩
  · split
    · exact ⟨s.heap, s.m_sample_rate, rfl⟩
    · simp only
      split
      · exact ⟨_, _, rfl⟩
      · exact ⟨_, s.m_sample_rate, rfl⟩

/-- The calls that keep the books only, and do not run the devices. -/
def Books : Act → Bool
  | .start _ _ _ | .run _ _ _ | .end_ | .completion => false
  | .add _ _ | .add_all _ _ | .remove _ _ _ | .configure _ _ | .scan _ => true

/-- What keeping the books leaves of a session: the count, and in an active session the
devices. -/
structure Kept (s t : Session) : Prop where
  sorted : Sorted s.m_devices → Sorted t.m_devices
  active : t.m_active_devices = s.m_active_devices
  devices : s.m_active_devices ≠ 0 → t.m_devices = s.m_devices

/-- A session that stays as it is keeps its set. -/
theorem Kept.refl (s : Session) : Kept s s := ⟨id, rfl, fun _ => rfl⟩

/-- What is kept twice is kept. -/
theorem Kept.trans {s t u : Session} (h : Kept s t) (h' : Kept t u) : Kept s u where
  sorted hs := h'.sorted (h.sorted hs)
  active := h'.active.trans h.active
  devices hs := (h'.devices (h.active ▸ hs)).trans (h.devices hs)

/-- `add` keeps the set. -/
theorem Kept.add (device : Option ℕ) (claim : ℤ) (s : Session) :
    Kept s (s.add device claim).1 := by
  rw [Session.add.eq_def]
  split
  · exact .refl s
  · rename_i hidle
    cases device with
    | none => exact .refl s
    | some d =>
        simp only
        split
        · exact ⟨fun hs => Sorted.insertAddress (hs.sublist List.eraseP_sublist) d, rfl,
            fun hactive => absurd hactive hidle⟩
        · exact .refl s

/-- `scan` does not touch it. -/
theorem Kept.scan (bus : Except ℕ (List Found)) (s : Session) : Kept s (s.scan bus).1 := by
  have hfound : ∀ (found : List Found) (t : Session), Kept t (found.foldl make_available t) := by
    intro found
    induction found with
    | nil => exact fun t => .refl t
    | cons f found ih =>
        intro t
        refine Kept.trans ?_ (ih _)
        cases f with
        | existing d => exact ⟨id, rfl, fun _ => rfl⟩
        | probed d fwver serial => exact ⟨id, rfl, fun _ => rfl⟩
  rw [Session.scan.eq_def]
  cases bus with
  | error errno => exact ⟨id, rfl, fun _ => rfl⟩
  | ok found =>
      have hclear : Kept s { s with m_available_devices := [] } := ⟨id, rfl, fun _ => rfl⟩
      exact hclear.trans (hfound found _)

/-- The loop of `add_all` keeps it. -/
theorem Kept.addFrom (claims : ℕ → ℤ) (ds : List ℕ) (s : Session) (num_devices : ℕ) :
    Kept s (addFrom claims ds s num_devices).1 := by
  induction ds generalizing s num_devices with
  | nil => exact .refl s
  | cons d ds ih =>
      rw [Session.addFrom]
      split
      · exact .add _ _ s
      · exact Kept.trans (.add _ _ s) (ih _ _)

/-- So does `add_all`. -/
theorem Kept.add_all (bus : Except ℕ (List Found)) (claims : ℕ → ℤ) (s : Session) :
    Kept s (s.add_all bus claims).1 := by
  rw [Session.add_all]
  split
  · exact .refl s
  · simp only
    split
    · exact .scan bus s
    · exact Kept.trans (.scan bus s) (.addFrom claims _ _ 0)

/-- `remove` keeps it. -/
theorem Kept.remove (device : Option ℕ) (detached : Bool) (release : ℤ) (s : Session) :
    Kept s (s.remove device detached release).1 := by
  rcases remove_cases device detached release s with heq | ⟨hidle, d, -, heq⟩
  · rw [heq]
    exact .refl s
  · rw [heq]
    exact ⟨fun hs => hs.sublist List.erase_sublist, rfl, fun hactive => absurd hidle hactive⟩

/-- **The calls that keep the books leave an active session as it is.** -/
theorem Kept.step {s t : Session} {a : Act} (hbooks : Books a = true)
    (hstep : machine.step s a = some t) : Kept s t := by
  cases a with
  | add device claim =>
      simp only [machine] at hstep
      split at hstep
      · obtain rfl := Option.some.inj hstep
        exact .add device claim s
      · cases hstep
  | add_all bus claims =>
      simp only [machine] at hstep
      split at hstep
      · obtain rfl := Option.some.inj hstep
        exact .add_all bus claims s
      · cases hstep
  | remove device detached release =>
      obtain rfl := Option.some.inj hstep
      exact .remove device detached release s
  | configure sampleRate mem =>
      obtain rfl := Option.some.inj hstep
      obtain ⟨heap, rate, heq⟩ := configure_frame sampleRate mem s
      rw [heq]
      exact ⟨id, rfl, fun _ => rfl⟩
  | scan bus =>
      simp only [machine] at hstep
      split at hstep
      · obtain rfl := Option.some.inj hstep
        exact .scan bus s
      · cases hstep
  | start samples mem answers | run samples mem answers | end_ | completion => cases hbooks

/-! ### Every call -/

/-- The collections of devices are as they were, and so are the objects there are. -/
structure SameDevices (s t : Session) : Prop where
  created : t.created = s.created
  available : t.m_available_devices = s.m_available_devices
  devices : t.m_devices = s.m_devices

/-- What two steps leave the same stays the same. -/
theorem SameDevices.trans {s t u : Session} (h : SameDevices s t) (h' : SameDevices t u) :
    SameDevices s u where
  created := h'.created.trans h.created
  available := h'.available.trans h.available
  devices := h'.devices.trans h.devices

/-- The loop of `start` leaves the collections. -/
theorem SameDevices.startFrom (answers : ℕ → Answers) (ds : List ℕ) (s : Session) :
    SameDevices s (startFrom answers ds s).1 := by
  induction ds generalizing s with
  | nil => exact ⟨rfl, rfl, rfl⟩
  | cons d ds ih =>
      rw [Session.startFrom]
      split
      · exact ⟨rfl, rfl, rfl⟩
      · split
        · exact ⟨rfl, rfl, rfl⟩
        · simp only
          split
          · exact ⟨rfl, rfl, rfl⟩
          · refine SameDevices.trans ?_ (ih _)
            exact ⟨rfl, rfl, rfl⟩

/-- So does `start`. -/
theorem SameDevices.start (samples : ℕ) (mem : ℕ → Transfers) (answers : ℕ → Answers)
    (s : Session) : SameDevices s (s.start samples mem answers).1 := by
  rw [Session.start]
  simp only
  split
  · obtain ⟨heap, rate, heq⟩ := configure_frame 0 mem
      { s with m_continuous := decide (samples = 0) }
    rw [heq]
    refine SameDevices.trans ?_ (.startFrom answers _ _)
    exact ⟨rfl, rfl, rfl⟩
  · refine SameDevices.trans ?_ (.startFrom answers _ _)
    exact ⟨rfl, rfl, rfl⟩

/-- The other calls leave the devices alone. -/
theorem SameDevices.step {s t : Session} {a : Act} (hbooks : Books a = false)
    (hstep : machine.step s a = some t) : SameDevices s t := by
  cases a with
  | start samples mem answers =>
      obtain rfl := Option.some.inj hstep
      exact .start samples mem answers s
  | run samples mem answers =>
      obtain rfl := Option.some.inj hstep
      rw [Session.run]
      split
      · exact ⟨rfl, rfl, rfl⟩
      · have hstart := SameDevices.start samples mem answers s
        simp only
        split
        · exact hstart
        · exact hstart.trans ⟨rfl, rfl, rfl⟩
  | end_ =>
      obtain rfl := Option.some.inj hstep
      exact ⟨rfl, rfl, rfl⟩
  | completion =>
      simp only [machine] at hstep
      split at hstep
      · obtain rfl := Option.some.inj hstep
        exact ⟨rfl, rfl, rfl⟩
      · cases hstep
  | add device claim | add_all bus claims | remove device detached release
  | configure sampleRate mem | scan bus => cases hbooks

/-- **`m_devices` stays a set.** -/
theorem sorted_of_step {s t : Session} {a : Act} (hs : Sorted s.m_devices)
    (hstep : machine.step s a = some t) : Sorted t.m_devices := by
  cases hbooks : Books a with
  | true => exact (Kept.step hbooks hstep).sorted hs
  | false =>
      rw [(SameDevices.step hbooks hstep).devices]
      exact hs

/-- The device that is handed over to a call. -/
def Act.argument : Act → Option ℕ
  | .add device _ | .remove device _ _ => device
  | .add_all _ _ | .configure _ _ | .start _ _ _ | .run _ _ _ | .end_ | .scan _
  | .completion => none

/-- All devices of a session have a property. -/
def AllDevices (P : ℕ → Prop) (s : Session) : Prop :=
  (∀ d ∈ s.m_devices, P d) ∧ ∀ d ∈ s.m_available_devices, P d

/-- `add` makes a device that has the property a member. -/
theorem AllDevices.add {P : ℕ → Prop} {s : Session} (h : AllDevices P s) {device : Option ℕ}
    (hdevice : ∀ d ∈ device, P d) (claim : ℤ) :
    AllDevices P (s.add device claim).1 ∧ (s.add device claim).1.created = s.created := by
  rcases add_cases device claim s with hsame | ⟨-, -, -, d, ds, rfl, hds, heq⟩
  · rw [hsame]
    exact ⟨h, rfl⟩
  · rw [heq]
    refine ⟨⟨fun e he => ?_, h.2⟩, rfl⟩
    rcases mem_insertAddress.mp he with rfl | he
    · exact hdevice e rfl
    · exact h.1 e (hds e he)

/-- The loop of `add_all` does, with devices that have it. -/
theorem AllDevices.addFrom {P : ℕ → Prop} {s : Session} (h : AllDevices P s) (claims : ℕ → ℤ)
    {ds : List ℕ} (hds : ∀ d ∈ ds, P d) (num_devices : ℕ) :
    AllDevices P (addFrom claims ds s num_devices).1 ∧
      (addFrom claims ds s num_devices).1.created = s.created := by
  induction ds generalizing s num_devices with
  | nil => exact ⟨h, rfl⟩
  | cons d ds ih =>
      have hdevice : ∀ e ∈ some d, P e := by
        intro e he
        obtain rfl := Option.some.inj he
        exact hds d List.mem_cons_self
      obtain ⟨hadd, hcreated⟩ := h.add hdevice (claims d)
      rw [Session.addFrom]
      split
      · exact ⟨hadd, hcreated⟩
      · obtain ⟨hrest, hcreated'⟩ :=
          ih hadd (fun e he => hds e (List.mem_cons_of_mem d he)) (num_devices + 1)
        exact ⟨hrest, hcreated'.trans hcreated⟩

/-- The device that was found. -/
def Found.address : Found → ℕ
  | .existing d => d
  | .probed d _ _ => d

/-- What making devices available does. -/
theorem foldl_make_available (found : List Found) (s : Session) :
    (found.foldl make_available s).m_devices = s.m_devices ∧
      (found.foldl make_available s).created = (newObjects found).reverse ++ s.created ∧
      (found.foldl make_available s).m_available_devices =
        s.m_available_devices ++ found.map Found.address := by
  induction found generalizing s with
  | nil => exact ⟨rfl, rfl, (List.append_nil _).symm⟩
  | cons f found ih =>
      rw [List.foldl_cons]
      obtain ⟨hdevices, hcreated, havailable⟩ := ih (s.make_available f)
      rw [hdevices, hcreated, havailable]
      cases f with
      | existing d =>
          refine ⟨rfl, rfl, ?_⟩
          simp only [make_available, List.append_assoc, List.map_cons, Found.address]
          rfl
      | probed d fwver serial =>
          refine ⟨rfl, ?_, ?_⟩
          · simp only [make_available, newObjects, List.reverse_cons, List.append_assoc]
            rfl
          · simp only [make_available, List.append_assoc, List.map_cons, Found.address]
            rfl

/-- A device that was found is one that the session had, or a new one. -/
theorem address_cases {f : Found} {found : List Found} (hf : f ∈ found) :
    f = .existing f.address ∨ f.address ∈ newObjects found := by
  induction found with
  | nil => cases hf
  | cons g found ih =>
      rcases List.mem_cons.mp hf with rfl | hf
      · cases f with
        | existing d => exact .inl rfl
        | probed d fwver serial => exact .inr List.mem_cons_self
      · refine (ih hf).imp_right fun hnew => ?_
        cases g with
        | existing d => exact hnew
        | probed d fwver serial => exact List.mem_cons_of_mem d hnew

/-- A scan puts devices of the session and new ones on the list. -/
theorem AllDevices.scan {P : ℕ → Prop} {s : Session} (h : AllDevices P s)
    {bus : Except ℕ (List Found)} (hbus : s.Plausible bus)
    (hnew : ∀ d ∈ (s.scan bus).1.created, d ∉ s.created → P d) :
    AllDevices P (s.scan bus).1 ∧ s.created ⊆ (s.scan bus).1.created := by
  cases bus with
  | error errno => exact ⟨⟨h.1, fun d hd => by cases hd⟩, List.Subset.refl _⟩
  | ok found =>
      obtain ⟨hknown, -, hfresh⟩ := hbus
      obtain ⟨hdevices, hcreated, havailable⟩ :=
        foldl_make_available found { s with m_available_devices := [] }
      have hscan : (s.scan (.ok found)).1 =
          found.foldl make_available { s with m_available_devices := [] } := rfl
      rw [hscan, hcreated] at hnew
      rw [hscan, AllDevices, hdevices, havailable, hcreated]
      refine ⟨⟨h.1, fun d hd => ?_⟩, List.subset_append_right _ _⟩
      obtain ⟨f, hf, rfl⟩ := List.mem_map.mp hd
      rcases address_cases hf with hexisting | hfound
      · have hmem := hknown f hf
        rw [hexisting] at hmem
        exact h.1 _ hmem
      · exact hnew _ (List.mem_append_left _ (List.mem_reverse.mpr hfound)) (hfresh _ hfound)

/-- `add_all` adds what its scan finds. -/
theorem AllDevices.add_all {P : ℕ → Prop} {s : Session} (h : AllDevices P s)
    {bus : Except ℕ (List Found)} (claims : ℕ → ℤ) (hbus : s.Plausible bus)
    (hnew : ∀ d ∈ (s.add_all bus claims).1.created, d ∉ s.created → P d) :
    AllDevices P (s.add_all bus claims).1 ∧ s.created ⊆ (s.add_all bus claims).1.created := by
  rw [Session.add_all] at hnew ⊢
  split
  · exact ⟨h, List.Subset.refl _⟩
  · rename_i hidle
    rw [if_neg hidle] at hnew
    simp only at hnew ⊢
    split
    · rename_i herror
      rw [if_pos herror] at hnew
      exact h.scan hbus hnew
    · rename_i hscanned
      rw [if_neg hscanned] at hnew
      have hcreated : (Session.addFrom claims (s.scan bus).1.m_available_devices
          (s.scan bus).1 0).1.created = (s.scan bus).1.created :=
        (AllDevices.addFrom (P := fun _ => True) ⟨fun _ _ => trivial, fun _ _ => trivial⟩
          claims (fun _ _ => trivial) 0).2
      rw [hcreated] at hnew ⊢
      obtain ⟨hscan, hsub⟩ := h.scan hbus hnew
      exact ⟨(hscan.addFrom claims hscan.2 0).1, hsub⟩

/-- `remove` makes none. -/
theorem AllDevices.remove {P : ℕ → Prop} {s : Session} (h : AllDevices P s)
    (device : Option ℕ) (detached : Bool) (release : ℤ) :
    AllDevices P (s.remove device detached release).1 ∧
      (s.remove device detached release).1.created = s.created := by
  rcases remove_cases device detached release s with heq | ⟨-, d, -, heq⟩
  · rw [heq]
    exact ⟨h, rfl⟩
  · rw [heq]
    exact ⟨⟨fun e he => h.1 e (List.mem_of_mem_erase he), h.2⟩, rfl⟩

/-- **What holds of all devices of a session** holds after a call, if it holds of the device
handed over and of the new objects. -/
theorem forall_of_step {P : ℕ → Prop} {s t : Session} {a : Act} (h : AllDevices P s)
    (hargument : ∀ d ∈ a.argument, P d) (hnew : ∀ d ∈ t.created, d ∉ s.created → P d)
    (hstep : machine.step s a = some t) : AllDevices P t ∧ s.created ⊆ t.created := by
  have hsame : ∀ {u : Session}, SameDevices s u → AllDevices P u ∧ s.created ⊆ u.created := by
    intro u hu
    rw [AllDevices, hu.devices, hu.available, hu.created]
    exact ⟨h, List.Subset.refl _⟩
  cases a with
  | add device claim =>
      simp only [machine] at hstep
      split at hstep
      · obtain rfl := Option.some.inj hstep
        obtain ⟨hadd, hcreated⟩ := h.add hargument claim
        exact ⟨hadd, hcreated ▸ List.Subset.refl _⟩
      · cases hstep
  | add_all bus claims =>
      simp only [machine] at hstep
      split at hstep
      · rename_i hbus
        obtain rfl := Option.some.inj hstep
        exact h.add_all claims hbus hnew
      · cases hstep
  | scan bus =>
      simp only [machine] at hstep
      split at hstep
      · rename_i hbus
        obtain rfl := Option.some.inj hstep
        exact h.scan hbus hnew
      · cases hstep
  | remove device detached release =>
      obtain rfl := Option.some.inj hstep
      obtain ⟨hremove, hcreated⟩ := h.remove device detached release
      exact ⟨hremove, hcreated ▸ List.Subset.refl _⟩
  | configure sampleRate mem =>
      obtain rfl := Option.some.inj hstep
      obtain ⟨heap, rate, heq⟩ := configure_frame sampleRate mem s
      rw [heq]
      exact hsame ⟨rfl, rfl, rfl⟩
  | start _ _ _ | run _ _ _ | end_ | completion => exact hsame (.step rfl hstep)

end Session

end Libsmu
