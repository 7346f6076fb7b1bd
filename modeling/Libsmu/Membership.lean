import Libsmu.DeviceSet
import Mathlib.Data.Finset.Basic

/-!
# Members of a Session and their Interfaces

`add` claims the interface of a device before the device joins the session, and `remove`
releases it before the device leaves. A device that joins takes the place of one with the same
serial number, which leaves without being released.

`Claiming` is a session together with the devices whose interface it has claimed and not
released. The claim of a device that has been detached ends with the device: there `remove`
takes the error for success.

## Main results

* `callKeeps`: a call of `add` that works keeps all devices with other serial numbers, and a
  call of `add` or `remove` that fails keeps all devices.
* `Members.step`: a call that replaces no device keeps the claimed devices and the members
  the same.
* `membership_iff`: the members of a session are the devices it has claimed, in every state of
  a run, exactly when no call of the run replaces a device by another one.
-/

namespace Libsmu

namespace Session

/-- A session and the devices it holds. -/
structure Claiming extends Session where
  /-- record: the devices whose interface is claimed and not released -/
  claimed : Finset ℕ

namespace Claiming

/-- A session without devices. -/
def init : Claiming where
  toSession := Session.init
  claimed := ∅

/-- `Session::add`; the interface is claimed when the call works. -/
def add (device : Option ℕ) (claim : ℤ) (s : Claiming) : Claiming × ℤ :=
  let r := s.toSession.add device claim
  let claimed := match device with
    | some d => if r.2 = 0 then insert d s.claimed else s.claimed
    | none => s.claimed
  ({ toSession := r.1, claimed := claimed }, r.2)

/-- The loop of `Session::add_all`. -/
def addFrom (claims : ℕ → ℤ) : List ℕ → Claiming → ℕ → Claiming × ℤ
  | [], s, num_devices => (s, num_devices)
  | d :: ds, s, num_devices =>
      let r := s.add (some d) (claims d)
      if r.2 ≠ 0 then (r.1, if r.2 < 0 then r.2 else num_devices)
      else addFrom claims ds r.1 (num_devices + 1)

/-- `Session::scan`, which claims nothing. -/
def scan (bus : Except ℕ (List Found)) (s : Claiming) : Claiming × ℤ :=
  let r := s.toSession.scan bus
  ({ s with toSession := r.1 }, r.2)

/-- `Session::add_all`. -/
def add_all (bus : Except ℕ (List Found)) (claims : ℕ → ℤ) (s : Claiming) : Claiming × ℤ :=
  if s.m_active_devices ≠ 0 then (s, -EBUSY)
  else
    let r := s.scan bus
    if r.2 < 0 then r else addFrom claims r.1.m_available_devices r.1 0

/-- `Session::remove`; the claim ends when the call works. -/
def remove (device : Option ℕ) (detached : Bool) (release : ℤ) (s : Claiming) : Claiming × ℤ :=
  let r := s.toSession.remove device detached release
  let claimed := match device with
    | some d => if r.2 = 0 then s.claimed.erase d else s.claimed
    | none => s.claimed
  ({ toSession := r.1, claimed := claimed }, r.2)

/-- The session as a machine; the other calls claim and release nothing. -/
def machine : Machine Claiming Act where
  step s
    | .add device claim =>
        if ∀ d ∈ device, d ∈ s.created then some (s.add device claim).1 else none
    | .add_all bus claims => if s.Plausible bus then some (s.add_all bus claims).1 else none
    | .remove device detached release => some (s.remove device detached release).1
    | a => (Session.machine.step s.toSession a).map fun t => { s with toSession := t }

/-! ### What is claimed here and what is a member there -/

/-- The loop does with the session what it does without the record. -/
theorem addFrom_toSession (claims : ℕ → ℤ) (ds : List ℕ) (s : Claiming) (num_devices : ℕ) :
    (addFrom claims ds s num_devices).1.toSession =
        (Session.addFrom claims ds s.toSession num_devices).1 ∧
      (addFrom claims ds s num_devices).2 =
        (Session.addFrom claims ds s.toSession num_devices).2 := by
  induction ds generalizing s num_devices with
  | nil => exact ⟨rfl, rfl⟩
  | cons d ds ih =>
      rw [addFrom, Session.addFrom]
      have hsame : (s.add (some d) (claims d)).2 = (s.toSession.add (some d) (claims d)).2 := rfl
      by_cases hret : (s.toSession.add (some d) (claims d)).2 = 0
      · rw [if_neg (not_not.mpr hret), if_neg (not_not.mpr (hsame.trans hret))]
        exact ih _ _
      · rw [if_pos hret, if_pos (hsame ▸ hret)]
        exact ⟨rfl, rfl⟩

theorem add_all_toSession (bus : Except ℕ (List Found)) (claims : ℕ → ℤ) (s : Claiming) :
    (s.add_all bus claims).1.toSession = (s.toSession.add_all bus claims).1 := by
  by_cases hactive : s.m_active_devices = 0
  · have hleft : s.add_all bus claims = if (s.toSession.scan bus).2 < 0 then s.scan bus else
        addFrom claims (s.scan bus).1.m_available_devices (s.scan bus).1 0 :=
      if_neg (not_not.mpr hactive)
    have hright : s.toSession.add_all bus claims =
        if (s.toSession.scan bus).2 < 0 then s.toSession.scan bus else
          Session.addFrom claims (s.toSession.scan bus).1.m_available_devices
            (s.toSession.scan bus).1 0 :=
      if_neg (not_not.mpr hactive)
    rw [hleft, hright]
    split
    · rfl
    · exact (addFrom_toSession claims _ _ 0).1
  · rw [Claiming.add_all, Session.add_all, if_pos hactive, if_pos hactive]

/-- **The record changes nothing** about the session. -/
theorem step_toSession {s t : Claiming} {a : Act} (h : machine.step s a = some t) :
    Session.machine.step s.toSession a = some t.toSession := by
  cases a with
  | add device claim =>
      simp only [machine, Session.machine] at h ⊢
      split at h
      · rename_i hcreated
        obtain rfl := Option.some.inj h
        exact if_pos hcreated
      · cases h
  | add_all bus claims =>
      simp only [machine, Session.machine] at h ⊢
      split at h
      · rename_i hbus
        obtain rfl := Option.some.inj h
        rw [if_pos hbus, add_all_toSession]
      · cases h
  | remove device detached release =>
      obtain rfl := Option.some.inj h
      rfl
  | configure _ _ | start _ _ _ | run _ _ _ | end_ | scan _ | completion =>
      simp only [machine] at h
      obtain ⟨u, hu, rfl⟩ := Option.map_eq_some_iff.mp h
      exact hu

end Claiming

/-! ### Serial numbers -/

theorem configureFrom_m_serial (sampleRate : ℕ) (mem : ℕ → Transfers) (ds : List ℕ)
    (heap : ℕ → Device) (ret : ℤ) (d : ℕ) :
    ((configureFrom sampleRate mem ds heap ret).1 d).m_serial = (heap d).m_serial := by
  have hdevice : ∀ (heap : ℕ → Device) (e : ℕ), (Function.update heap e
      ((heap e).configure sampleRate (mem e).ins (mem e).outs).1 d).m_serial =
        (heap d).m_serial := by
    intro heap e
    rcases eq_or_ne d e with rfl | hne
    · rw [Function.update_self, Device.configure_m_serial]
    · rw [Function.update_of_ne hne]
  induction ds generalizing heap ret with
  | nil => rfl
  | cons e ds ih =>
      rw [configureFrom]
      split
      · exact hdevice heap e
      · rw [ih]
        exact hdevice heap e

theorem configure_m_serial (sampleRate : ℕ) (mem : ℕ → Transfers) (s : Session) (d : ℕ) :
    ((s.configure sampleRate mem).1.heap d).m_serial = (s.heap d).m_serial := by
  rw [Session.configure]
  split
  · rfl
  · split
    · rfl
    · simp only
      split
      · exact configureFrom_m_serial _ _ _ _ _ d
      · exact configureFrom_m_serial _ _ _ _ _ d

theorem start_m_serial (samples : ℕ) (mem : ℕ → Transfers) (answers : ℕ → Answers) (s : Session)
    (d : ℕ) : ((s.start samples mem answers).1.heap d).m_serial = (s.heap d).m_serial := by
  rw [Session.start]
  simp only
  rw [(startFrom_frame answers _ _).1]
  split
  · exact configure_m_serial 0 mem _ d
  · rfl

/-- A scan makes new objects and leaves the others. -/
theorem scan_heap {s : Session} {bus : Except ℕ (List Found)} (hbus : s.Plausible bus) {d : ℕ}
    (hd : d ∈ s.created) : (s.scan bus).1.heap d = s.heap d := by
  have hfound : ∀ (found : List Found) (t : Session), d ∉ newObjects found →
      (found.foldl make_available t).heap d = t.heap d := by
    intro found
    induction found with
    | nil => exact fun t _ => rfl
    | cons f found ih =>
        rintro t hnew
        cases f with
        | existing e => exact ih _ hnew
        | probed e fwver serial =>
            rw [newObjects, List.mem_cons, not_or] at hnew
            exact (ih _ hnew.2).trans (Function.update_of_ne hnew.1 _ _)
  cases bus with
  | error errno => rfl
  | ok found => exact hfound found _ fun hnew => hbus.2.2 d hnew hd

/-- What does not depend on the members is left by the loop of `add_all`. -/
theorem addFrom_field {β : Type*} (f : Session → β)
    (hf : ∀ (s : Session) (ds : List ℕ), f { s with m_devices := ds } = f s) (claims : ℕ → ℤ)
    (ds : List ℕ) (s : Session) (num_devices : ℕ) :
    f (addFrom claims ds s num_devices).1 = f s := by
  have hadd : ∀ (d : ℕ) (s : Session), f (s.add (some d) (claims d)).1 = f s := by
    intro d s
    rcases add_cases (some d) (claims d) s with heq | ⟨-, -, -, e, ds, -, -, heq⟩
    · rw [heq]
    · rw [heq, hf]
  induction ds generalizing s num_devices with
  | nil => rfl
  | cons d ds ih =>
      rw [Session.addFrom]
      split
      · exact hadd d s
      · exact (ih _ _).trans (hadd d s)

theorem addFrom_heap (claims : ℕ → ℤ) (ds : List ℕ) (s : Session) (num_devices : ℕ) :
    (addFrom claims ds s num_devices).1.heap = s.heap :=
  addFrom_field Session.heap (fun _ _ => rfl) claims ds s num_devices

theorem scan_frame (bus : Except ℕ (List Found)) (s : Session) :
    (s.scan bus).1.m_devices = s.m_devices ∧
      (s.scan bus).1.m_active_devices = s.m_active_devices := by
  refine ⟨?_, (Kept.scan bus s).active⟩
  cases bus with
  | error errno => rfl
  | ok found => exact (foldl_make_available found _).1

/-- Only `add`, `add_all` and `remove` change which devices are members. -/
theorem m_devices_of_step {s t : Session} {a : Act}
    (ha : ∀ device claim bus claims detached release, a ≠ .add device claim ∧
      a ≠ .add_all bus claims ∧ a ≠ .remove device detached release)
    (hstep : machine.step s a = some t) : t.m_devices = s.m_devices := by
  cases a with
  | add device claim => exact absurd rfl (ha device claim (.ok []) (fun _ => 0) false 0).1
  | add_all bus claims => exact absurd rfl (ha none 0 bus claims false 0).2.1
  | remove device detached release =>
      exact absurd rfl (ha device 0 (.ok []) (fun _ => 0) detached release).2.2
  | configure sampleRate mem =>
      obtain rfl := Option.some.inj hstep
      obtain ⟨heap, rate, heq⟩ := configure_frame sampleRate mem s
      rw [heq]
  | scan bus =>
      simp only [machine] at hstep
      split at hstep
      · obtain rfl := Option.some.inj hstep
        exact (scan_frame bus s).1
      · cases hstep
  | start _ _ _ | run _ _ _ | end_ | completion => exact (SameDevices.step rfl hstep).devices

/-- **No call changes the serial number of an object.** -/
theorem m_serial_of_step {s t : Session} {a : Act} (hstep : machine.step s a = some t) {d : ℕ}
    (hd : d ∈ s.created) : (t.heap d).m_serial = (s.heap d).m_serial := by
  cases a with
  | add device claim =>
      simp only [machine] at hstep
      split at hstep
      · obtain rfl := Option.some.inj hstep
        rcases add_cases device claim s with heq | ⟨-, -, -, e, ds, -, -, heq⟩
        · rw [heq]
        · rw [heq]
      · cases hstep
  | add_all bus claims =>
      simp only [machine] at hstep
      split at hstep
      · rename_i hbus
        obtain rfl := Option.some.inj hstep
        rw [Session.add_all]
        split
        · rfl
        · simp only
          split
          · rw [scan_heap hbus hd]
          · rw [addFrom_heap, scan_heap hbus hd]
      · cases hstep
  | remove device detached release =>
      obtain rfl := Option.some.inj hstep
      rcases remove_cases device detached release s with heq | ⟨-, e, -, heq⟩
      · rw [heq]
      · rw [heq]
  | configure sampleRate mem =>
      obtain rfl := Option.some.inj hstep
      exact configure_m_serial sampleRate mem s d
  | start samples mem answers =>
      obtain rfl := Option.some.inj hstep
      exact start_m_serial samples mem answers s d
  | run samples mem answers =>
      obtain rfl := Option.some.inj hstep
      rw [Session.run]
      split
      · rfl
      · simp only
        split
        · exact start_m_serial samples mem answers s d
        · exact start_m_serial samples mem answers s d
  | end_ =>
      obtain rfl := Option.some.inj hstep
      rfl
  | scan bus =>
      simp only [machine] at hstep
      split at hstep
      · rename_i hbus
        obtain rfl := Option.some.inj hstep
        rw [scan_heap hbus hd]
      · cases hstep
  | completion =>
      simp only [machine] at hstep
      split at hstep
      · obtain rfl := Option.some.inj hstep
        rfl
      · cases hstep

/-- **The devices of a session are objects that there are.** -/
theorem created_of_step {s t : Session} {a : Act} (h : AllDevices (· ∈ s.created) s)
    (hstep : machine.step s a = some t) : AllDevices (· ∈ t.created) t := by
  have hsub : s.created ⊆ t.created :=
    (forall_of_step (P := fun _ => True) ⟨fun _ _ => trivial, fun _ _ => trivial⟩
      (fun _ _ => trivial) (fun _ _ _ => trivial) hstep).2
  have hmono : AllDevices (· ∈ t.created) s :=
    ⟨fun d hd => hsub (h.1 d hd), fun d hd => hsub (h.2 d hd)⟩
  cases a with
  | add device claim =>
      refine (forall_of_step hmono (fun d hd => hsub ?_) (fun d hd _ => hd) hstep).1
      simp only [machine] at hstep
      split at hstep
      · rename_i hcreated
        exact hcreated d hd
      · cases hstep
  | remove device detached release =>
      obtain rfl := Option.some.inj hstep
      exact (hmono.remove device detached release).1
  | add_all _ _ | configure _ _ | start _ _ _ | run _ _ _ | end_ | scan _ | completion =>
      refine (forall_of_step hmono (fun d hd => ?_) (fun d hd _ => hd) hstep).1
      cases hd

namespace Claiming

/-! ### Members -/

/-- The members have serial numbers of their own, and they are the devices that are
claimed. -/
structure Members (s : Claiming) : Prop where
  serials : ∀ d ∈ s.m_devices, ∀ e ∈ s.m_devices,
    (s.heap d).m_serial = (s.heap e).m_serial → d = e
  claimed : ∀ d, d ∈ s.claimed ↔ d ∈ s.m_devices

/-- The devices that the loop of `add_all` claims: those before the first one that it cannot
claim. -/
def taken (claims : ℕ → ℤ) (ds : List ℕ) : List ℕ := ds.takeWhile fun d => claims d = 0

theorem taken_of_claimed {claims : ℕ → ℤ} {d : ℕ} (h : claims d = 0) (ds : List ℕ) :
    taken claims (d :: ds) = d :: taken claims ds := by
  simp only [taken, List.takeWhile_cons, h, decide_true, if_true]

theorem taken_of_refused {claims : ℕ → ℤ} {d : ℕ} (h : claims d ≠ 0) (ds : List ℕ) :
    taken claims (d :: ds) = [] := by
  simp only [taken, List.takeWhile_cons, h, decide_false, Bool.false_eq_true, if_false]

/-- The devices that a call claims, in order. -/
def joining (s : Claiming) : Act → List ℕ
  | .add (some d) claim => if s.m_active_devices = 0 ∧ claim = 0 then [d] else []
  | .add_all bus claims =>
      if s.m_active_devices = 0 then
        taken claims (s.toSession.scan bus).1.m_available_devices
      else []
  | _ => []

/-- The objects when a call claims its devices. -/
def objects (s : Claiming) : Act → ℕ → Device
  | .add_all bus _ => (s.toSession.scan bus).1.heap
  | _ => s.heap

/-- No device that joins has the serial number of another one, of the session or of those that
join with it. -/
def NoReplacement (s : Claiming) (a : Act) : Prop :=
  ∀ d ∈ s.joining a, ∀ e ∈ s.m_devices ++ s.joining a,
    (s.objects a e).m_serial = (s.objects a d).m_serial → e = d

instance (s : Claiming) (a : Act) : Decidable (s.NoReplacement a) :=
  inferInstanceAs (Decidable (∀ d ∈ s.joining a, ∀ e ∈ s.m_devices ++ s.joining a, _ → _))

/-- A device that is claimed joins the session. -/
theorem add_of_claimed {s : Claiming} (hidle : s.m_active_devices = 0) (d : ℕ) :
    s.add (some d) 0 =
      ({ s with
          m_devices := insertAddress d (eraseSerial s.heap (s.heap d).m_serial s.m_devices)
          claimed := insert d s.claimed }, 0) := by
  simp only [add, Session.add, hidle, ne_eq, not_true_eq_false, if_false, if_true]

/-- A call of `add` fails and changes nothing, or it claims the device. -/
theorem add_cases (device : Option ℕ) (claim : ℤ) (s : Claiming) :
    (s.add device claim).1 = s ∧ (s.add device claim).2 ≠ 0 ∨
      s.m_active_devices = 0 ∧ claim = 0 ∧ ∃ d, device = some d := by
  by_cases hidle : s.m_active_devices = 0
  · cases device with
    | none =>
        left
        simp only [add, Session.add, hidle, ne_eq, not_true_eq_false, if_false]
        exact ⟨trivial, by omega⟩
    | some d =>
        by_cases hclaim : claim = 0
        · exact Or.inr ⟨hidle, hclaim, d, rfl⟩
        · left
          simp only [add, Session.add, hidle, hclaim, ne_eq, not_true_eq_false, if_false]
          exact ⟨trivial, not_false⟩
  · left
    simp only [add, Session.add, hidle, ne_eq, not_false_eq_true, if_true, EBUSY]
    cases device with
    | none => exact ⟨rfl, by omega⟩
    | some d => exact ⟨rfl, by omega⟩

/-- Erasing a serial number keeps the devices with other ones. -/
theorem mem_eraseSerial_of_ne {heap : ℕ → Device} {serial : String} {ds : List ℕ} {e : ℕ}
    (h : (heap e).m_serial ≠ serial) : e ∈ eraseSerial heap serial ds ↔ e ∈ ds :=
  List.mem_eraseP_of_neg (by rw [decide_eq_true_eq]; exact h)

/-- **A device that replaces no other one** makes the session one member larger. -/
theorem Members.add {s : Claiming} (h : s.Members) (hidle : s.m_active_devices = 0) {d : ℕ}
    (hno : ∀ e ∈ s.m_devices, (s.heap e).m_serial = (s.heap d).m_serial → e = d) :
    (s.add (some d) 0).1.Members ∧
      ∀ e, e ∈ (s.add (some d) 0).1.m_devices ↔ e = d ∨ e ∈ s.m_devices := by
  have hmem : ∀ e, e ∈ insertAddress d (eraseSerial s.heap (s.heap d).m_serial s.m_devices) ↔
      e = d ∨ e ∈ s.m_devices := by
    rintro e
    rw [mem_insertAddress]
    rcases eq_or_ne e d with rfl | hne
    · simp only [true_or]
    · refine or_congr_right ⟨mem_of_mem_eraseSerial, fun he => ?_⟩
      exact (mem_eraseSerial_of_ne fun hserial => hne (hno e he hserial)).mpr he
  rw [add_of_claimed hidle]
  refine ⟨⟨?_, ?_⟩, hmem⟩
  · rintro e he f hf hserial
    rcases (hmem e).mp he with rfl | he'
    · rcases (hmem f).mp hf with rfl | hf'
      · rfl
      · exact (hno f hf' hserial.symm).symm
    · rcases (hmem f).mp hf with rfl | hf'
      · exact hno e he' hserial
      · exact h.serials e he' f hf' hserial
  · rintro e
    rw [Finset.mem_insert, h.claimed, hmem]

/-- The loop goes on behind a device that is claimed. -/
theorem addFrom_of_claimed {claims : ℕ → ℤ} {s : Claiming} (hidle : s.m_active_devices = 0)
    {d : ℕ} (hclaim : claims d = 0) (ds : List ℕ) (num_devices : ℕ) :
    addFrom claims (d :: ds) s num_devices =
      addFrom claims ds (s.add (some d) 0).1 (num_devices + 1) := by
  have hret : (s.add (some d) 0).2 = 0 := by rw [add_of_claimed hidle]
  rw [addFrom, hclaim, if_neg (not_not.mpr hret)]

/-- The loop ends at a device that is not claimed. -/
theorem addFrom_of_refused {claims : ℕ → ℤ} {s : Claiming} {d : ℕ} (hclaim : claims d ≠ 0)
    (ds : List ℕ) (num_devices : ℕ) : (addFrom claims (d :: ds) s num_devices).1 = s := by
  rcases s.add_cases (some d) (claims d) with ⟨hsame, hret⟩ | ⟨-, hzero, -⟩
  · rw [addFrom, if_pos hret]
    exact hsame
  · exact absurd hzero hclaim

/-- What the loop of `add_all` claims, and that it leaves the objects. -/
theorem addFrom_claimed (claims : ℕ → ℤ) (ds : List ℕ) {s : Claiming}
    (hidle : s.m_active_devices = 0) (num_devices : ℕ) :
    (∀ d, d ∈ (addFrom claims ds s num_devices).1.claimed ↔
        d ∈ s.claimed ∨ d ∈ taken claims ds) ∧
      (addFrom claims ds s num_devices).1.heap = s.heap := by
  induction ds generalizing s num_devices with
  | nil => exact ⟨fun d => (by simp [addFrom, taken]), rfl⟩
  | cons d ds ih =>
      by_cases hclaim : claims d = 0
      · have hidle' : (s.add (some d) 0).1.m_active_devices = 0 := by
          rw [add_of_claimed hidle]
          exact hidle
        obtain ⟨hclaimed, hheap⟩ := ih hidle' (num_devices + 1)
        rw [addFrom_of_claimed hidle hclaim]
        refine ⟨fun e => ?_, hheap.trans (by rw [add_of_claimed hidle])⟩
        rw [hclaimed, taken_of_claimed hclaim, List.mem_cons, add_of_claimed hidle,
          Finset.mem_insert, or_assoc, or_left_comm]
      · rw [addFrom_of_refused hclaim, taken_of_refused hclaim]
        exact ⟨fun e => (by simp), rfl⟩

/-- The loop of `add_all` keeps the members when it replaces none. -/
theorem Members.addFrom {claims : ℕ → ℤ} (ds : List ℕ) {s : Claiming} (h : s.Members)
    (hidle : s.m_active_devices = 0)
    (hno : ∀ d ∈ taken claims ds, ∀ e ∈ s.m_devices ++ taken claims ds,
      (s.heap e).m_serial = (s.heap d).m_serial → e = d) (num_devices : ℕ) :
    (addFrom claims ds s num_devices).1.Members := by
  induction ds generalizing s num_devices with
  | nil => exact h
  | cons d ds ih =>
      by_cases hclaim : claims d = 0
      · rw [addFrom_of_claimed hidle hclaim]
        rw [taken_of_claimed hclaim] at hno
        obtain ⟨hadd, hmem⟩ := h.add hidle fun e he =>
          hno d List.mem_cons_self e (List.mem_append_left _ he)
        refine ih hadd (by rw [add_of_claimed hidle]; exact hidle) ?_ (num_devices + 1)
        rintro d' hd' e he
        have hsub : e ∈ s.m_devices ++ d :: taken claims ds := by
          rcases List.mem_append.mp he with hmember | hjoins
          · rcases (hmem e).mp hmember with rfl | hmember
            · exact List.mem_append_right _ List.mem_cons_self
            · exact List.mem_append_left _ hmember
          · exact List.mem_append_right _ (List.mem_cons_of_mem _ hjoins)
        have hheap : (s.add (some d) 0).1.heap = s.heap := by rw [add_of_claimed hidle]
        rw [hheap]
        exact hno d' (List.mem_cons_of_mem _ hd') e hsub
      · rw [addFrom_of_refused hclaim]
        exact h

/-- A call that keeps the collections and the serial numbers of the members. -/
theorem Members.of_same {s t : Claiming} (h : s.Members) (hdevices : t.m_devices = s.m_devices)
    (hclaimed : t.claimed = s.claimed)
    (hserials : ∀ d ∈ s.m_devices, (t.heap d).m_serial = (s.heap d).m_serial) : t.Members where
  serials d hd e he hserial := by
    rw [hdevices] at hd he
    rw [hserials d hd, hserials e he] at hserial
    exact h.serials d hd e he hserial
  claimed d := by rw [hclaimed, hdevices, h.claimed]

/-- What holds of a session and of the devices it holds in every state of a run. -/
structure Inv (s : Claiming) : Prop where
  members : s.Members
  sorted : Sorted s.m_devices
  created : AllDevices (· ∈ s.created) s.toSession

/-- The loop of `add_all` starts from a session whose scan has worked. -/
theorem add_all_cases (bus : Except ℕ (List Found)) (claims : ℕ → ℤ) (s : Claiming) :
    s.m_active_devices ≠ 0 ∧ (s.add_all bus claims).1 = s ∨
      s.m_active_devices = 0 ∧ ∃ ds n, (s.toSession.scan bus).1.m_available_devices = ds ∧
        (s.add_all bus claims).1 = (addFrom claims ds (s.scan bus).1 n).1 := by
  by_cases hidle : s.m_active_devices = 0
  · refine Or.inr ⟨hidle, _, 0, rfl, ?_⟩
    rw [add_all, if_neg (not_not.mpr hidle)]
    cases bus with
    | error errno =>
        simp only
        split
        · rfl
        · rfl
    | ok found =>
        have hpos : ¬(s.scan (.ok found)).2 < 0 := by
          simp only [scan, Session.scan]
          omega
        rw [if_neg hpos]
        rfl
  · refine Or.inl ⟨hidle, ?_⟩
    rw [add_all, if_pos hidle]

/-- A call of `remove` fails and changes nothing, or it releases the device. -/
theorem remove_cases (device : Option ℕ) (detached : Bool) (release : ℤ) (s : Claiming) :
    (s.remove device detached release).1 = s ∧ (s.remove device detached release).2 ≠ 0 ∨
      (s.remove device detached release).2 = 0 ∧
        ∃ d, device = some d ∧ (s.remove device detached release).1 =
          { s with m_devices := s.m_devices.erase d, claimed := s.claimed.erase d } := by
  by_cases hidle : s.m_active_devices = 0
  · cases device with
    | none =>
        left
        simp only [remove, Session.remove, hidle, ne_eq, not_true_eq_false, if_false]
        exact ⟨trivial, by omega⟩
    | some d =>
        simp only [remove, Session.remove, hidle, ne_eq, not_true_eq_false, if_false]
        generalize (if detached = true ∧ release = -ENODEV then 0 else release) = ret
        by_cases hret : ret = 0
        · right
          simp only [hret, if_true]
          exact ⟨trivial, d, rfl, rfl⟩
        · left
          simp only [hret, if_false]
          exact ⟨trivial, not_false⟩
  · left
    simp only [remove, Session.remove, hidle, ne_eq, not_false_eq_true, if_true, EBUSY]
    cases device with
    | none => exact ⟨rfl, by omega⟩
    | some d => exact ⟨rfl, by omega⟩

/-- A device that leaves is neither a member nor claimed. -/
theorem Members.remove {s : Claiming} (h : s.Members) (hsorted : Sorted s.m_devices)
    (device : Option ℕ) (detached : Bool) (release : ℤ) :
    (s.remove device detached release).1.Members := by
  rcases s.remove_cases device detached release with ⟨hsame, -⟩ | ⟨-, d, -, heq⟩
  · rw [hsame]
    exact h
  · rw [heq]
    have hnodup : s.m_devices.Nodup := hsorted.imp fun hlt => hlt.ne
    refine ⟨fun e he f hf => ?_, fun e => ?_⟩
    · exact h.serials e (List.mem_of_mem_erase he) f (List.mem_of_mem_erase hf)
    · rw [Finset.mem_erase, hnodup.mem_erase_iff, h.claimed]

/-- A scan leaves the members and the claimed devices alone. -/
theorem Inv.scan {s : Claiming} (hs : s.Inv) {bus : Except ℕ (List Found)}
    (hbus : s.Plausible bus) : (s.scan bus).1.Members :=
  hs.members.of_same (scan_frame bus s.toSession).1 rfl fun d hd =>
    congrArg Device.m_serial (scan_heap hbus (hs.created.1 d hd))

/-- **A call that replaces no device** keeps the members and the claimed devices the same. -/
theorem Inv.step {s t : Claiming} {a : Act} (hs : s.Inv) (hok : s.NoReplacement a)
    (hstep : machine.step s a = some t) : t.Inv := by
  have hsession := step_toSession hstep
  refine ⟨?_, sorted_of_step hs.sorted hsession, created_of_step hs.created hsession⟩
  have hserials : ∀ d ∈ s.m_devices, (t.heap d).m_serial = (s.heap d).m_serial := fun d hd =>
    m_serial_of_step hsession (hs.created.1 d hd)
  cases a with
  | add device claim =>
      simp only [machine] at hstep
      split at hstep
      · obtain rfl := Option.some.inj hstep
        rcases s.add_cases device claim with ⟨hsame, -⟩ | ⟨hidle, rfl, d, rfl⟩
        · rw [hsame]
          exact hs.members
        · have hjoins : s.joining (.add (some d) 0) = [d] := if_pos ⟨hidle, rfl⟩
          refine (hs.members.add hidle fun e he => ?_).1
          exact hok d (by rw [hjoins]; exact List.mem_cons_self) e (List.mem_append_left _ he)
      · cases hstep
  | add_all bus claims =>
      simp only [machine] at hstep
      split at hstep
      · rename_i hbus
        obtain rfl := Option.some.inj hstep
        rcases s.add_all_cases bus claims with ⟨-, hsame⟩ | ⟨hidle, ds, n, rfl, heq⟩
        · rw [hsame]
          exact hs.members
        · have hjoins : s.joining (.add_all bus claims) =
              taken claims (s.toSession.scan bus).1.m_available_devices := if_pos hidle
          rw [NoReplacement, hjoins] at hok
          rw [heq]
          refine (hs.scan hbus).addFrom _ ((scan_frame bus s.toSession).2.trans hidle) ?_ n
          rintro d hd e he
          exact hok d hd e ((scan_frame bus s.toSession).1 ▸ he)
      · cases hstep
  | remove device detached release =>
      obtain rfl := Option.some.inj hstep
      exact hs.members.remove hs.sorted device detached release
  | configure _ _ | start _ _ _ | run _ _ _ | end_ | scan _ | completion =>
      have hdevices := m_devices_of_step (by simp) hsession
      simp only [machine] at hstep
      obtain ⟨u, hu, rfl⟩ := Option.map_eq_some_iff.mp hstep
      exact hs.members.of_same hdevices rfl hserials

/-- What joins and what was there is claimed together, so that two devices of one serial number
are not both members. -/
theorem noReplacement_of_claimed {s t : Claiming} {a : Act} (hs : s.Members) (ht : t.Members)
    (hheap : t.heap = s.objects a)
    (hclaimed : ∀ d, d ∈ t.claimed ↔ d ∈ s.claimed ∨ d ∈ s.joining a) : s.NoReplacement a := by
  rintro d hd e he hserial
  have hmem : ∀ f ∈ s.m_devices ++ s.joining a, f ∈ t.m_devices := by
    rintro f hf
    rw [← ht.claimed, hclaimed, hs.claimed]
    exact List.mem_append.mp hf
  refine ht.serials e (hmem e he) d (hmem d (List.mem_append_right _ hd)) ?_
  rw [hheap]
  exact hserial

/-- **A call that replaces a device** leaves it claimed. -/
theorem Inv.noReplacement {s t : Claiming} {a : Act} (hs : s.Inv)
    (hstep : machine.step s a = some t) (ht : t.Members) : s.NoReplacement a := by
  cases a with
  | add device claim =>
      simp only [machine] at hstep
      split at hstep
      · obtain rfl := Option.some.inj hstep
        cases device with
        | none => exact fun d hd => absurd hd List.not_mem_nil
        | some d =>
            by_cases hclaims : s.m_active_devices = 0 ∧ claim = 0
            · obtain ⟨hidle, rfl⟩ := hclaims
              have hjoins : s.joining (.add (some d) 0) = [d] := if_pos ⟨hidle, rfl⟩
              refine noReplacement_of_claimed hs.members ht ?_ fun e => ?_
              · rw [add_of_claimed hidle]
                rfl
              · rw [add_of_claimed hidle, hjoins, Finset.mem_insert, List.mem_singleton,
                  or_comm]
            · have hjoins : s.joining (.add (some d) claim) = [] := if_neg hclaims
              rw [NoReplacement, hjoins]
              exact fun d hd => absurd hd List.not_mem_nil
      · cases hstep
  | add_all bus claims =>
      simp only [machine] at hstep
      split at hstep
      · obtain rfl := Option.some.inj hstep
        rcases s.add_all_cases bus claims with ⟨hactive, -⟩ | ⟨hidle, ds, n, rfl, heq⟩
        · have hjoins : s.joining (.add_all bus claims) = [] := if_neg hactive
          rw [NoReplacement, hjoins]
          exact fun d hd => absurd hd List.not_mem_nil
        · have hjoins : s.joining (.add_all bus claims) =
              taken claims (s.toSession.scan bus).1.m_available_devices := if_pos hidle
          have hidle' : (s.scan bus).1.m_active_devices = 0 :=
            (scan_frame bus s.toSession).2.trans hidle
          obtain ⟨hclaimed, hheap⟩ := addFrom_claimed claims
            (s.toSession.scan bus).1.m_available_devices hidle' n
          refine noReplacement_of_claimed hs.members ht ?_ fun d => ?_
          · rw [heq, hheap]
            rfl
          · rw [heq, hclaimed, hjoins]
            rfl
      · cases hstep
  | remove _ _ _ | configure _ _ | start _ _ _ | run _ _ _ | end_ | scan _ | completion =>
      exact fun d hd => absurd hd List.not_mem_nil

/-! ### Whole runs -/

/-- What a call keeps, in every state: `add` that works leaves its device in the session and
keeps all devices of other serial numbers, and a call that fails keeps all devices. -/
def CallKeeps (s : Claiming) : Act → Prop
  | .add device claim =>
      let r := s.add device claim
      (r.2 = 0 → ∀ d ∈ device, d ∈ r.1.m_devices ∧
          ∀ e ∈ s.m_devices, (s.heap e).m_serial ≠ (s.heap d).m_serial → e ∈ r.1.m_devices) ∧
        (r.2 ≠ 0 → r.1.m_devices = s.m_devices)
  | .remove device detached release =>
      let r := s.remove device detached release
      r.2 ≠ 0 → r.1.m_devices = s.m_devices
  | _ => True

theorem callKeeps (s : Claiming) (a : Act) : s.CallKeeps a := by
  cases a with
  | add device claim =>
      rcases s.add_cases device claim with ⟨hsame, hret⟩ | ⟨hidle, rfl, d, rfl⟩
      · exact ⟨fun hzero => absurd hzero hret, fun _ => by rw [hsame]⟩
      · rw [CallKeeps, add_of_claimed hidle]
        refine ⟨fun _ e he => ?_, fun hne => absurd rfl hne⟩
        obtain rfl := Option.some.inj he
        refine ⟨mem_insertAddress.mpr (Or.inl rfl), fun f hf hserial => ?_⟩
        exact mem_insertAddress.mpr (Or.inr ((mem_eraseSerial_of_ne hserial).mpr hf))
  | remove device detached release =>
      rintro hret
      rcases s.remove_cases device detached release with ⟨hsame, -⟩ | ⟨hzero, -⟩
      · rw [hsame]
      · exact absurd hzero hret
  | add_all _ _ | configure _ _ | start _ _ _ | run _ _ _ | end_ | scan _ | completion => trivial

/-- **Session membership.** In every state of a run the members are the devices that the session
has claimed, with serial numbers of their own, and every call keeps what it should, exactly when
no call of the run replaces a device by another one of its serial number. -/
theorem membership_iff {as : List Act} {u : Claiming} (hrun : machine.run init as = some u) :
    (∀ bs v, bs <+: as → machine.run init bs = some v → v.Members ∧ ∀ a, v.CallKeeps a) ↔
      machine.Meets NoReplacement init as := by
  have hinit : init.Inv := by
    refine ⟨⟨fun d hd => absurd hd List.not_mem_nil, fun d => ?_⟩, List.Pairwise.nil,
      fun d hd => absurd hd List.not_mem_nil, fun d hd => absurd hd List.not_mem_nil⟩
    exact iff_of_false (Finset.notMem_empty d) List.not_mem_nil
  have hexact : machine.Meets NoReplacement init as ↔
      ∀ bs v, bs <+: as → machine.run init bs = some v → v.Members :=
    Machine.meets_iff_of_step (fun s hs => Inv.members hs)
      (fun s a t hs hok hstep => Inv.step hs hok hstep)
      (fun s a t hs hstep ht => Inv.noReplacement hs hstep ht) hinit hrun
  rw [hexact]
  constructor
  · rintro h bs v hbs hv
    exact (h bs v hbs hv).1
  · rintro h bs v hbs hv
    exact ⟨h bs v hbs hv, v.callKeeps⟩

/-- A scan that finds two boards. -/
def twoBoards (serial serial' : String) : Act :=
  .scan (.ok [.probed 1 "2.17" serial, .probed 2 "2.17" serial'])

/-- **Two boards of one serial number**: the second takes the place of the first one, whose
interface stays claimed. -/
theorem replaced_board_stays_claimed :
    ¬∀ (as : List Act) (u : Claiming), machine.run init as = some u →
      ∀ bs v, bs <+: as → machine.run init bs = some v → v.Members ∧ ∀ a, v.CallKeeps a := by
  intro h
  have hrun : (machine.run init [twoBoards "1" "1", .add (some 1) 0, .add (some 2) 0]).map
      (fun u => (u.claimed, u.m_devices)) = some ({1, 2}, [2]) := by decide +kernel
  obtain ⟨u, hu, hpair⟩ := Option.map_eq_some_iff.mp hrun
  obtain ⟨hclaimed, hdevices⟩ := Prod.mk.inj hpair
  have hmembers := (h _ u hu _ u (List.prefix_refl _) hu).1
  have hone := (hmembers.claimed 1).mp (by rw [hclaimed]; decide)
  rw [hdevices] at hone
  exact absurd hone (by decide)

/-- Boards of different serial numbers that join and leave. -/
theorem membership_two_boards :
    ∃ u, machine.run init [twoBoards "1" "2", .add (some 1) 0, .add (some 2) 0,
        .remove (some 1) true (-ENODEV)] = some u ∧ u.Members ∧ u.m_devices = [2] := by
  have hrun : (machine.run init [twoBoards "1" "2", .add (some 1) 0, .add (some 2) 0,
      .remove (some 1) true (-ENODEV)]).map (fun u => u.m_devices) = some [2] := by
    decide +kernel
  obtain ⟨u, hu, hdevices⟩ := Option.map_eq_some_iff.mp hrun
  exact ⟨u, hu, ((membership_iff hu).mpr (by decide +kernel) _ u (List.prefix_refl _) hu).1,
    hdevices⟩

end Claiming
end Session
end Libsmu
