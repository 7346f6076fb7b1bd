import Libsmu.DeviceControl
import Libsmu.Membership
import Libsmu.SerialNumbers
import Mathlib.Data.List.Find
import Mathlib.Data.List.Nodup

/-!
# What a Scan Reports

`scan` goes through the devices on the bus and makes an object for each supported one that it
can open and that answers its requests, with the serial number that was read. A device at the
address of a member of the session is not asked: the member stands for it, with the serial
number it was made with.

`Enumeration` is a session together with the bus: devices are plugged and unplugged, and an
address that has become free is given to the next device. `set_serial` has the firmware store
the serial number and then scans.

## Main results

* `entries_of_scan`: the entries a scan makes, device by device.
* `faithful_iff`: a scan reports the devices as they are exactly when every member at the
  address of a device has its serial number and the device answers, and every other serial
  number can be read back.
* `told_iff`: the scans of a run report the devices as they are, and every `set_serial` that
  returns 0 is followed by its number, exactly when this holds of all scans of the run and every
  string that is stored is stored whole.
* `member_keeps_serial`: a device of the session that is given another serial number.
-/

namespace Libsmu

open Session (EBUSY Found)

/-- What a device answers during a scan. -/
structure Replies where
  /-- `libusb_get_device_descriptor` -/
  descriptor : ℤ
  /-- `libusb_open` -/
  opened : ℤ
  /-- whether the serial number is answered -/
  serial : Bool
  /-- whether the hardware version is answered -/
  hwver : Bool
  /-- whether the firmware version is answered -/
  fwver : Bool

/-- What a scan is answered. -/
structure Answered where
  /-- `libusb_get_device_list`, which is negative if it fails -/
  device_count : ℤ
  /-- what the device answers -/
  replies : ℕ → Replies
  /-- where the object for the device would be -/
  object : ℕ → ℕ

/-- A session and the bus. -/
structure Enumeration extends Session where
  m_usb_addr : ℕ → ℕ × ℕ
  /-- the device that the object was made for -/
  m_usb_dev : ℕ → ℕ
  /-- the devices that a handle is kept for -/
  m_deviceHandles : List ℕ
  /-- the devices on the bus, in the order they are listed -/
  attached : List UsbDevice

namespace Enumeration

/-- A session without devices, and a bus without any. -/
def init : Enumeration where
  toSession := Session.init
  m_usb_addr _ := (0, 0)
  m_usb_dev _ := 0
  m_deviceHandles := []
  attached := []

/-- `LIBUSB_ERROR_ACCESS`. -/
def LIBUSB_ERROR_ACCESS : ℤ := -3

/-- The first device of the session at the address of a device on the bus. -/
def member (s : Enumeration) (p : UsbDevice) : Option ℕ :=
  s.m_devices.find? fun d => decide (s.m_usb_addr d = p.address)

/-- `Session::probe_device`: the handles that are kept afterwards, and the device. There is no
return if a handle is used that is `NULL`, and none to a place where an object is. -/
def probe_device (w : Answered) (p : UsbDevice) (s : Enumeration) :
    Option (List ℕ × Option Found) :=
  let r := w.replies p.id
  if r.descriptor ≠ 0 then some (s.m_deviceHandles, none)
  else if p.device_id ∉ SUPPORTED_DEVICES then some (s.m_deviceHandles, none)
  else if r.opened ≠ 0 ∧ r.opened ≠ LIBUSB_ERROR_ACCESS then some (s.m_deviceHandles, none)
  else
    match s.member p with
    | some d => some (s.m_deviceHandles, some (.existing d))
    | none =>
        if r.opened ≠ 0 ∧ p.id ∉ s.m_deviceHandles then none
        else
          let handles := p.id :: s.m_deviceHandles
          let serial := string_descriptor_ascii 32 p.serial
          if r.serial = false ∨ serial = [] then some (handles, none)
          else if r.hwver = false ∨ p.hwver = [] then some (handles, none)
          else if r.fwver = false ∨ p.fwver = [] then some (handles, none)
          else if w.object p.id ∈ s.created then none
          else some (handles, some (.probed (w.object p.id) (.ofList p.fwver) (.ofList serial)))

/-- The device that was probed is put on the list of available ones. -/
def place (p : UsbDevice) (handles : List ℕ) (found : Option Found) (s : Enumeration) :
    Enumeration :=
  match found with
  | none => { s with m_deviceHandles := handles }
  | some (.existing d) =>
      { s with
        toSession := s.make_available (.existing d)
        m_deviceHandles := handles }
  | some (.probed d fwver serial) =>
      { s with
        toSession := s.make_available (.probed d fwver serial)
        m_usb_addr := Function.update s.m_usb_addr d p.address
        m_usb_dev := Function.update s.m_usb_dev d p.id
        m_deviceHandles := handles }

/-- The loop of `Session::scan`; `devices_found` were found before. -/
def scanFrom (w : Answered) : List UsbDevice → Enumeration → ℕ → Option (Enumeration × ℕ)
  | [], s, devices_found => some (s, devices_found)
  | p :: ps, s, devices_found =>
      match s.probe_device w p with
      | none => none
      | some (handles, found) =>
          scanFrom w ps (s.place p handles found)
            (if found.isSome then devices_found + 1 else devices_found)

/-- `Session::scan`. -/
def scan (w : Answered) (s : Enumeration) : Option (Enumeration × ℤ) :=
  let s := { s with m_available_devices := [] }
  if w.device_count < 0 then some (s, -libusb_to_errno w.device_count)
  else (scanFrom w s.attached s 0).map fun r => (r.1, r.2)

/-- The bus after the firmware of a device has stored a serial number. -/
def stored (id : ℕ) (data : SerialData) (s : Enumeration) : Enumeration :=
  { s with attached := s.attached.map fun p => if p.id = id then p.store data else p }

/-- `M1000_Device::set_serial`, where `ret` is what the control transfer returns; it does not
get to a device that is detached. -/
def set_serial (atof : String → ℚ) (d : ℕ) (serial : List Char) (memory : ℕ → Char) (ret : ℤ)
    (w : Answered) (s : Enumeration) : Option (Enumeration × ℤ) :=
  if s.m_active_devices ≠ 0 then some (s, -EBUSY)
  else if atof (s.heap d).m_fwver < 2.10 then some (s, -1)
  else if ret < 0 then some (s, -libusb_to_errno ret)
  else if s.attached.any fun p => p.id = s.m_usb_dev d then
    ((s.stored (s.m_usb_dev d) (serial_data serial memory)).scan w).map fun r =>
      (r.1, if r.2 < 0 then r.2 else 0)
  else none

/-- What happens to a session and its bus. -/
inductive Act
  /-- a device is attached, and listed behind `i` others -/
  | plug (i : ℕ) (p : UsbDevice)
  | unplug (id : ℕ)
  /-- any other call of the session; the scan of `add_all` is one of its own -/
  | call (a : Session.Act)
  | scan (w : Answered)
  | set_serial (d : ℕ) (serial : List Char) (memory : ℕ → Char) (ret : ℤ) (w : Answered)

/-- The bus has room for the device: its address is free, and no object is left of another
device that had its `libusb_device`. -/
def Free (s : Enumeration) (p : UsbDevice) : Prop :=
  (∀ q ∈ s.attached, q.address ≠ p.address ∧ q.id ≠ p.id) ∧
    ∀ d ∈ s.created, s.m_usb_dev d ≠ p.id

instance (s : Enumeration) (p : UsbDevice) : Decidable (s.Free p) :=
  inferInstanceAs (Decidable (_ ∧ _))

/-- A call of the session that does not look at the bus. -/
def Offline : Session.Act → Bool
  | .scan _ | .add_all _ _ => false
  | _ => true

/-- The session and its bus as a machine. -/
def machine (atof : String → ℚ) : Machine Enumeration Act where
  step s
    | .plug i p =>
        if s.Free p then some { s with attached := s.attached.take i ++ p :: s.attached.drop i }
        else none
    | .unplug id => some { s with attached := s.attached.filter fun p => p.id ≠ id }
    | .call a =>
        if Offline a then
          (Session.machine.step s.toSession a).map fun t => { s with toSession := t }
        else none
    | .scan w => (s.scan w).map Prod.fst
    | .set_serial d serial memory ret w =>
        if d ∈ s.created then (s.set_serial atof d serial memory ret w).map Prod.fst else none

/-! ### What a scan should report -/

/-- The device is supported and can be opened. -/
def Opens (w : Answered) (p : UsbDevice) : Prop :=
  (w.replies p.id).descriptor = 0 ∧ p.device_id ∈ SUPPORTED_DEVICES ∧
    ((w.replies p.id).opened = 0 ∨ (w.replies p.id).opened = LIBUSB_ERROR_ACCESS)

/-- The device answers, and has versions to answer with. -/
def Responds (w : Answered) (p : UsbDevice) : Prop :=
  (w.replies p.id).serial = true ∧ ((w.replies p.id).hwver = true ∧ p.hwver ≠ []) ∧
    (w.replies p.id).fwver = true ∧ p.fwver ≠ []

instance (w : Answered) (p : UsbDevice) : Decidable (Opens w p) :=
  inferInstanceAs (Decidable (_ ∧ _ ∧ _))

instance (w : Answered) (p : UsbDevice) : Decidable (Responds w p) :=
  inferInstanceAs (Decidable (_ ∧ _ ∧ _))

/-- The entries of `m_available_devices`. -/
def entries (s : Enumeration) : List ((ℕ × ℕ) × String) :=
  s.m_available_devices.map fun d => (s.m_usb_addr d, (s.heap d).m_serial)

/-- The device as it should be reported: it is supported, and answers its requests. -/
def actual (w : Answered) (p : UsbDevice) : Option ((ℕ × ℕ) × String) :=
  if Opens w p ∧ Responds w p ∧ p.serial ≠ [] then some (p.address, .ofList p.serial) else none

/-- **The devices are reported as they are**: one entry for each device that answers. -/
def Faithful (w : Answered) (t : Enumeration) : Prop :=
  t.entries.Perm (t.attached.filterMap (actual w))

/-- The serial number of an object is the one that a device has. -/
def SameSerial (s : Enumeration) (d : ℕ) (p : UsbDevice) : Prop :=
  p.serial ≠ [] ∧ (s.heap d).m_serial = .ofList p.serial

/-- What a scan needs of a device: the member at its address has its serial number, and the
device answers; if there is none, the serial number has at most 31 bytes of ASCII. -/
def CurrentFor (w : Answered) (s : Enumeration) (p : UsbDevice) : Option ℕ → Prop
  | some d => Responds w p ∧ s.SameSerial d p
  | none => Responds w p → p.serial.length ≤ 31 ∧ ∀ c ∈ p.serial, c.toNat < 128

instance (w : Answered) (s : Enumeration) (p : UsbDevice) :
    (d : Option ℕ) → Decidable (CurrentFor w s p d)
  | some _ => inferInstanceAs (Decidable (_ ∧ _ ∧ _))
  | none =>
      have : Decidable (∀ c ∈ p.serial, c.toNat < 128) := List.decidableBAll _ _
      inferInstanceAs (Decidable (_ → _ ∧ _))

/-- **A scan finds the members current.** -/
def Current (w : Answered) (s : Enumeration) : Prop :=
  ∀ p ∈ s.attached, Opens w p → CurrentFor w s p (s.member p)

instance (w : Answered) (s : Enumeration) : Decidable (Current w s) :=
  inferInstanceAs (Decidable (∀ p ∈ s.attached, _ → _))

/-- The entry that a scan makes for a device. -/
def entry (w : Answered) (s : Enumeration) (p : UsbDevice) : Option ((ℕ × ℕ) × String) :=
  if Opens w p then
    match s.member p with
    | some d => some (s.m_usb_addr d, (s.heap d).m_serial)
    | none =>
        if Responds w p ∧ p.serial ≠ [] then
          some (p.address, .ofList (string_descriptor_ascii 32 p.serial))
        else none
  else none

/-- The entry of the device that an object was made for has the serial number `set_serial` was
asked for, if the device answers. -/
def Carries (w : Answered) (d : ℕ) (serial : List Char) (t : Enumeration) : Prop :=
  ∀ p ∈ t.attached, p.id = t.m_usb_dev d → Opens w p → Responds w p →
    (p.address, String.ofList (p.requested serial)) ∈ t.entries

/-- The string is stored whole, and there is a serial number afterwards. -/
def StoredWhole (w : Answered) (d : ℕ) (serial : List Char) (s : Enumeration) : Prop :=
  ∀ p ∈ s.attached, p.id = s.m_usb_dev d → Opens w p → Responds w p →
    serial.length ≤ 32 ∧ (∀ c ∈ serial, c ≠ '\x00') ∧ p.requested serial ≠ []

instance (w : Answered) (d : ℕ) (serial : List Char) (s : Enumeration) :
    Decidable (StoredWhole w d serial s) :=
  have : Decidable (∀ c ∈ serial, c ≠ '\x00') := List.decidableBAll _ _
  inferInstanceAs (Decidable (∀ p ∈ s.attached, _ → _ → _ → _ ∧ _ ∧ _))

/-- **What the user is told**: a scan that does not fail reports the devices as they are, and
returns their number; after a `set_serial` that returns 0 the device carries its number. -/
def Told (atof : String → ℚ) (s : Enumeration) : Act → Prop
  | .scan w =>
      ∀ t n, s.scan w = some (t, n) → 0 ≤ n → n = t.m_available_devices.length ∧ Faithful w t
  | .set_serial d serial memory ret w =>
      ∀ t, s.set_serial atof d serial memory ret w = some (t, 0) →
        Faithful w t ∧ Carries w d serial t
  | _ => True

/-- **What that needs**: every scan that does not fail finds the members of the session current,
and every string that is stored is stored whole. -/
def UpToDate (atof : String → ℚ) (s : Enumeration) : Act → Prop
  | .scan w => 0 ≤ w.device_count → Current w s
  | .set_serial d serial memory ret w =>
      s.m_active_devices = 0 → ¬atof (s.heap d).m_fwver < 2.10 → 0 ≤ ret →
        0 ≤ w.device_count →
        Current w (s.stored (s.m_usb_dev d) (serial_data serial memory)) ∧
          StoredWhole w d serial s
  | _ => True

instance (atof : String → ℚ) (s : Enumeration) (a : Act) : Decidable (UpToDate atof s a) :=
  match a with
  | .scan _ => inferInstanceAs (Decidable (_ → _))
  | .set_serial _ _ _ _ _ => inferInstanceAs (Decidable (_ → _ → _ → _ → _ ∧ _))
  | .plug _ _ | .unplug _ | .call _ => isTrue trivial

variable {w : Answered} {s t u : Enumeration} {p : UsbDevice}

/-! ### One device -/

/-- The member that stands for a device is at its address. -/
theorem member_spec {d : ℕ} (h : s.member p = some d) :
    d ∈ s.m_devices ∧ s.m_usb_addr d = p.address := by
  rw [member] at h
  have haddr := List.find?_some h
  exact ⟨List.mem_of_find?_eq_some h, of_decide_eq_true haddr⟩

/-- What `probe_device` returns is the entry for the device. -/
theorem probe_device_cases {handles : List ℕ} {found : Option Found}
    (h : s.probe_device w p = some (handles, found)) :
    (found = none ∧ entry w s p = none) ∨
      (∃ d ∈ s.m_devices, found = some (.existing d) ∧
        entry w s p = some (s.m_usb_addr d, (s.heap d).m_serial)) ∨
      ∃ d fwver serial, d ∉ s.created ∧ found = some (.probed d fwver serial) ∧
        entry w s p = some (p.address, serial) := by
  rw [probe_device] at h
  simp only at h
  split at h
  · rename_i hdescriptor
    cases h
    exact .inl ⟨rfl, if_neg fun hopens => hdescriptor hopens.1⟩
  rename_i hdescriptor
  split at h
  · rename_i hsupported
    cases h
    exact .inl ⟨rfl, if_neg fun hopens => hsupported hopens.2.1⟩
  rename_i hsupported
  split at h
  · rename_i hopened
    cases h
    exact .inl ⟨rfl, if_neg fun hopens => hopens.2.2.elim hopened.1 hopened.2⟩
  rename_i hopened
  have hopens : Opens w p := by
    refine ⟨not_not.mp hdescriptor, not_not.mp hsupported, ?_⟩
    by_contra hneither
    exact hopened (not_or.mp hneither)
  rw [entry, if_pos hopens]
  split at h
  · rename_i d hmember
    cases h
    exact .inr (.inl ⟨d, (member_spec hmember).1, rfl, rfl⟩)
  -- the strings are read one after the other
  split at h
  · cases h
  have hread : string_descriptor_ascii 32 p.serial = [] ↔ p.serial = [] :=
    string_descriptor_ascii_eq_nil_iff (by decide)
  split at h
  · rename_i hserial
    cases h
    refine .inl ⟨rfl, if_neg ?_⟩
    rintro ⟨hresponds, hne⟩
    rw [hread, hresponds.1] at hserial
    exact hserial.elim (fun h => nomatch h) hne
  rename_i hserial
  split at h
  · rename_i hhwver
    cases h
    refine .inl ⟨rfl, if_neg ?_⟩
    rintro ⟨hresponds, -⟩
    rw [hresponds.2.1.1] at hhwver
    exact hhwver.elim (fun h => nomatch h) hresponds.2.1.2
  rename_i hhwver
  split at h
  · rename_i hfwver
    cases h
    refine .inl ⟨rfl, if_neg ?_⟩
    rintro ⟨hresponds, -⟩
    rw [hresponds.2.2.1] at hfwver
    exact hfwver.elim (fun h => nomatch h) hresponds.2.2.2
  rename_i hfwver
  split at h
  · cases h
  rename_i hfree
  cases h
  rw [hread] at hserial
  obtain ⟨hanswers, hne⟩ := not_or.mp hserial
  obtain ⟨hhwver, hhwver'⟩ := not_or.mp hhwver
  obtain ⟨hfwver, hfwver'⟩ := not_or.mp hfwver
  have hresponds : Responds w p :=
    ⟨eq_true_of_ne_false hanswers, ⟨eq_true_of_ne_false hhwver, hhwver'⟩,
      eq_true_of_ne_false hfwver, hfwver'⟩
  exact .inr (.inr ⟨_, _, _, hfree, rfl, if_pos ⟨hresponds, hne⟩⟩)

/-! ### One scan -/

/-- What a scan leaves as it is: the members of the session and the bus, and all objects there
were. -/
structure Extends (s t : Enumeration) : Prop where
  devices : t.m_devices = s.m_devices
  active : t.m_active_devices = s.m_active_devices
  attached : t.attached = s.attached
  created : s.created ⊆ t.created
  old : ∀ d ∈ s.created, t.heap d = s.heap d ∧ t.m_usb_addr d = s.m_usb_addr d ∧
    t.m_usb_dev d = s.m_usb_dev d

theorem Extends.refl (s : Enumeration) : Extends s s :=
  ⟨rfl, rfl, rfl, List.Subset.refl _, fun _ _ => ⟨rfl, rfl, rfl⟩⟩

/-- The lists that a scan keeps are not part of it. -/
theorem Extends.relisted (s : Enumeration) (available handles : List ℕ) :
    Extends s { s with m_available_devices := available, m_deviceHandles := handles } :=
  ⟨rfl, rfl, rfl, List.Subset.refl _, fun _ _ => ⟨rfl, rfl, rfl⟩⟩

theorem Extends.trans (h : Extends s t) (h' : Extends t u) : Extends s u where
  devices := h'.devices.trans h.devices
  active := h'.active.trans h.active
  attached := h'.attached.trans h.attached
  created := fun _ hd => h'.created (h.created hd)
  old := fun d hd => by
    obtain ⟨hheap, haddr, hdev⟩ := h.old d hd
    obtain ⟨hheap', haddr', hdev'⟩ := h'.old d (h.created hd)
    exact ⟨hheap'.trans hheap, haddr'.trans haddr, hdev'.trans hdev⟩

/-- The entry for a device depends on the members of the session only. -/
theorem entry_of_extends (h : Extends s t) (hdevices : ∀ d ∈ s.m_devices, d ∈ s.created)
    (w : Answered) (p : UsbDevice) : entry w t p = entry w s p := by
  have hmember : t.member p = s.member p := by
    rw [member, member, h.devices]
    refine List.find?_congr fun d hd => ?_
    rw [(h.old d (hdevices d hd)).2.1]
  rw [entry, entry, hmember]
  split
  · split
    · rename_i d hd
      obtain ⟨hheap, haddr, -⟩ := h.old d (hdevices d (member_spec hd).1)
      rw [hheap, haddr]
    · rfl
  · rfl

/-- **Putting a device on the list** adds the entry for it. -/
theorem place_spec (hdevices : ∀ d ∈ s.m_devices, d ∈ s.created)
    (havailable : ∀ d ∈ s.m_available_devices, d ∈ s.created) {handles : List ℕ}
    {found : Option Found} (h : s.probe_device w p = some (handles, found)) :
    Extends s (s.place p handles found) ∧
      (∀ d ∈ (s.place p handles found).m_available_devices,
        d ∈ (s.place p handles found).created) ∧
      (s.place p handles found).entries = s.entries ++ (entry w s p).toList ∧
      found.isSome = (entry w s p).isSome := by
  rcases probe_device_cases h with ⟨rfl, hentry⟩ | ⟨d, hd, rfl, hentry⟩ |
    ⟨d, fwver, serial, hd, rfl, hentry⟩
  · rw [hentry]
    exact ⟨Extends.relisted s _ _, havailable, (List.append_nil _).symm, rfl⟩
  · rw [hentry]
    refine ⟨Extends.relisted s _ _, fun e he => ?_, ?_, rfl⟩
    · rcases List.mem_append.mp he with he | he
      · exact havailable e he
      · rw [List.mem_singleton.mp he]
        exact hdevices d hd
    · exact List.map_append
  · rw [hentry]
    have hother : ∀ e ∈ s.created, e ≠ d := fun e he heq => hd (heq ▸ he)
    refine ⟨⟨rfl, rfl, rfl, List.subset_cons_self _ _, fun e he => ?_⟩, fun e he => ?_, ?_, rfl⟩
    · exact ⟨Function.update_of_ne (hother e he) _ _, Function.update_of_ne (hother e he) _ _,
        Function.update_of_ne (hother e he) _ _⟩
    · rcases List.mem_append.mp he with he | he
      · exact List.mem_cons_of_mem _ (havailable e he)
      · rw [List.mem_singleton.mp he]
        exact List.mem_cons_self
    · simp only [entries, place, Session.make_available, List.map_append, List.map_cons,
        List.map_nil, Function.update_self, Option.toList_some]
      refine congrArg₂ _ (List.map_congr_left fun e he => ?_) rfl
      rw [Function.update_of_ne (hother e (havailable e he)),
        Function.update_of_ne (hother e (havailable e he))]

/-- **The loop of a scan** adds the entries for the devices on the bus. -/
theorem scanFrom_spec (ps : List UsbDevice) (hdevices : ∀ d ∈ s.m_devices, d ∈ s.created)
    (havailable : ∀ d ∈ s.m_available_devices, d ∈ s.created) {k n : ℕ}
    (h : scanFrom w ps s k = some (t, n)) :
    Extends s t ∧ (∀ d ∈ t.m_available_devices, d ∈ t.created) ∧
      t.entries = s.entries ++ ps.filterMap (entry w s) ∧
      n = k + (ps.filterMap (entry w s)).length := by
  induction ps generalizing s k with
  | nil =>
      cases h
      exact ⟨Extends.refl _, havailable, (List.append_nil _).symm, rfl⟩
  | cons p ps ih =>
      rw [scanFrom] at h
      split at h
      · cases h
      · rename_i handles found hprobe
        obtain ⟨hext, hplaced, hentries, hfound⟩ := place_spec hdevices havailable hprobe
        obtain ⟨hext', havailable', hrest, hn⟩ := ih (fun d hd => hext.created
          (hdevices d (hext.devices ▸ hd))) hplaced h
        have hsame : entry w (s.place p handles found) = entry w s :=
          funext fun q => entry_of_extends hext hdevices w q
        rw [hsame] at hrest hn
        refine ⟨hext.trans hext', havailable', ?_, ?_⟩
        · rw [hrest, hentries, List.append_assoc]
          cases hentry : entry w s p with
          | none => rw [List.filterMap_cons_none hentry]; rfl
          | some x => rw [List.filterMap_cons_some hentry]; rfl
        · rw [hn, hfound]
          cases hentry : entry w s p with
          | none =>
              rw [List.filterMap_cons_none hentry]
              rfl
          | some x =>
              rw [List.filterMap_cons_some hentry, List.length_cons]
              simp only [Option.isSome_some, if_true]
              omega

/-- **The entries of a scan**, device by device, and their number. -/
theorem entries_of_scan (hdevices : ∀ d ∈ s.m_devices, d ∈ s.created) {n : ℤ}
    (h : s.scan w = some (t, n)) :
    Extends s t ∧ (∀ d ∈ t.m_available_devices, d ∈ t.created) ∧
      ((w.device_count < 0 ∧ n < 0) ∨
        (0 ≤ w.device_count ∧ n = t.m_available_devices.length ∧
          t.entries = s.attached.filterMap (entry w s))) := by
  rw [scan] at h
  simp only at h
  split at h
  · rename_i hfailed
    cases h
    refine ⟨Extends.relisted s _ _, fun d hd => absurd hd List.not_mem_nil, .inl ⟨hfailed, ?_⟩⟩
    exact neg_neg_of_pos (libusb_to_errno_pos hfailed)
  · rename_i hworks
    obtain ⟨⟨t', k⟩, hloop, heq⟩ := Option.map_eq_some_iff.mp h
    cases heq
    obtain ⟨hext, havailable, hentries, hk⟩ := scanFrom_spec
      (s := { s with m_available_devices := [] }) _ hdevices
      (fun d hd => absurd hd List.not_mem_nil) hloop
    have hlist : t'.entries = s.attached.filterMap (entry w s) := hentries
    refine ⟨(Extends.relisted s _ _).trans hext, havailable,
      .inr ⟨not_lt.mp hworks, ?_, hlist⟩⟩
    have hlength := congrArg List.length hlist
    rw [entries, List.length_map] at hlength
    rw [hlength, hk, Nat.zero_add]
    rfl

/-! ### Faithful scans -/

/-- Two ways to make items, each with the key of what it is made from, make the same items of a
list without repeated keys exactly when they do so one by one. -/
theorem filterMap_perm_iff {β γ κ : Type*} {f g : β → Option γ} {key : β → κ} (key' : γ → κ)
    {l : List β} (hkeys : (l.map key).Nodup) (hf : ∀ p x, f p = some x → key' x = key p)
    (hg : ∀ p x, g p = some x → key' x = key p) :
    (l.filterMap f).Perm (l.filterMap g) ↔ ∀ p ∈ l, f p = g p := by
  have htransfer : ∀ {f g : β → Option γ}, (∀ p x, f p = some x → key' x = key p) →
      (∀ p x, g p = some x → key' x = key p) → (l.filterMap f).Perm (l.filterMap g) →
      ∀ p ∈ l, ∀ x, f p = some x → g p = some x := by
    intro f g hf hg hperm p hp x hx
    obtain ⟨q, hq, hgq⟩ :=
      List.mem_filterMap.mp (hperm.mem_iff.mp (List.mem_filterMap.mpr ⟨p, hp, hx⟩))
    have hsame : key q = key p := (hg q x hgq).symm.trans (hf p x hx)
    rw [← List.inj_on_of_nodup_map hkeys hq hp hsame]
    exact hgq
  constructor
  · intro hperm p hp
    refine Option.ext fun x => ?_
    exact ⟨htransfer hf hg hperm p hp x, htransfer hg hf hperm.symm p hp x⟩
  · intro hsame
    rw [List.filterMap_congr hsame]

/-- An entry has the address of the device it is for. -/
theorem address_of_entry {x : (ℕ × ℕ) × String} (h : entry w s p = some x) :
    x.1 = p.address := by
  rw [entry] at h
  split at h
  · split at h
    · rename_i d hd
      obtain rfl := Option.some.inj h
      exact (member_spec hd).2
    · split at h
      · obtain rfl := Option.some.inj h
        rfl
      · cases h
  · cases h

theorem address_of_actual {x : (ℕ × ℕ) × String} (h : actual w p = some x) :
    x.1 = p.address := by
  rw [actual] at h
  split at h
  · obtain rfl := Option.some.inj h
    rfl
  · cases h

/-- **One device**: the entry for it is right exactly when its member is current, or its serial
number can be read back. -/
theorem entry_eq_actual_iff :
    entry w s p = actual w p ↔ (Opens w p → CurrentFor w s p (s.member p)) := by
  rw [entry, actual]
  by_cases hopens : Opens w p
  · rw [if_pos hopens]
    simp only [hopens, true_and, true_implies]
    cases hmember : s.member p with
    | some d =>
        simp only
        have haddr := (member_spec hmember).2
        by_cases hanswers : Responds w p ∧ p.serial ≠ []
        · rw [if_pos hanswers, haddr, Option.some.injEq, Prod.mk.injEq]
          exact ⟨fun h => ⟨hanswers.1, hanswers.2, h.2⟩, fun h => ⟨rfl, h.2.2⟩⟩
        · rw [if_neg hanswers]
          refine iff_of_false (fun h => nomatch h) ?_
          rintro ⟨hresponds, hne, -⟩
          exact hanswers ⟨hresponds, hne⟩
    | none =>
        simp only
        by_cases hanswers : Responds w p ∧ p.serial ≠ []
        · rw [if_pos hanswers, if_pos hanswers, Option.some.injEq, Prod.mk.injEq,
            String.ofList_inj, string_descriptor_ascii_eq_self_iff]
          exact ⟨fun h _ => h.2, fun h => ⟨rfl, h hanswers.1⟩⟩
        · rw [if_neg hanswers, if_neg hanswers]
          refine iff_of_true rfl fun hresponds => ?_
          have hnil : p.serial = [] := by
            by_contra hne
            exact hanswers ⟨hresponds, hne⟩
          rw [hnil]
          exact ⟨Nat.zero_le _, fun c hc => absurd hc List.not_mem_nil⟩
  · rw [if_neg hopens, if_neg fun h => hopens h.1]
    exact iff_of_true rfl fun h => absurd h hopens

/-- What holds of a session and its bus in every state of a run. -/
structure Inv (s : Enumeration) : Prop where
  created : Session.AllDevices (· ∈ s.created) s.toSession
  addresses : (s.attached.map UsbDevice.address).Nodup

/-- **A scan that does not fail** returns the number of its entries, and reports the devices as
they are exactly when it finds the members current. -/
theorem faithful_iff (hs : s.Inv) {n : ℤ} (h : s.scan w = some (t, n)) (hn : 0 ≤ n) :
    n = t.m_available_devices.length ∧ (Faithful w t ↔ Current w s) := by
  obtain ⟨hext, -, ⟨-, hneg⟩ | ⟨-, hlength, hentries⟩⟩ := entries_of_scan hs.created.1 h
  · omega
  · refine ⟨hlength, ?_⟩
    rw [Faithful, hentries, hext.attached, filterMap_perm_iff Prod.fst hs.addresses
      (fun p x hx => address_of_entry hx) fun p x hx => address_of_actual hx]
    exact forall₂_congr fun p _ => entry_eq_actual_iff

/-! ### Storing a serial number -/

/-- Storing a serial number changes nothing that is not the serial number. -/
theorem Inv.stored (hs : s.Inv) (id : ℕ) (data : SerialData) : (s.stored id data).Inv := by
  refine ⟨hs.created, ?_⟩
  have hsame : (s.stored id data).attached.map UsbDevice.address =
      s.attached.map UsbDevice.address := by
    simp only [Enumeration.stored, List.map_map]
    refine List.map_congr_left fun p _ => ?_
    simp only [Function.comp_apply]
    split <;> rfl
  rw [hsame]
  exact hs.addresses

/-- What `set_serial` does when it returns 0. -/
theorem set_serial_eq_zero_iff {atof : String → ℚ} {d : ℕ} {serial : List Char}
    {memory : ℕ → Char} {ret : ℤ} :
    s.set_serial atof d serial memory ret w = some (t, 0) ↔
      s.m_active_devices = 0 ∧ ¬atof (s.heap d).m_fwver < 2.10 ∧ 0 ≤ ret ∧
        (s.attached.any fun p => p.id = s.m_usb_dev d) = true ∧
        ∃ n, 0 ≤ n ∧
          (s.stored (s.m_usb_dev d) (serial_data serial memory)).scan w = some (t, n) := by
  rw [set_serial]
  split
  · rename_i hactive
    refine iff_of_false (fun h => ?_) fun h => hactive h.1
    cases h
  rename_i hidle
  split
  · rename_i hold
    refine iff_of_false (fun h => ?_) fun h => h.2.1 hold
    cases h
  rename_i hnew
  split
  · rename_i hfailed
    have hpos := libusb_to_errno_pos hfailed
    refine iff_of_false (fun h => ?_) fun h => absurd h.2.2.1 (not_le.mpr hfailed)
    have hzero := (Prod.mk.inj (Option.some.inj h)).2
    omega
  rename_i hworks
  split
  · rename_i hattached
    simp only [not_not.mp hidle, hnew, not_lt.mp hworks, hattached, Option.map_eq_some_iff,
      Prod.mk.injEq, Prod.exists, not_false_eq_true, true_and]
    constructor
    · rintro ⟨t', n, hscan, rfl, hzero⟩
      split at hzero
      · omega
      · rename_i hn
        exact ⟨n, not_lt.mp hn, hscan⟩
    · rintro ⟨n, hn, hscan⟩
      exact ⟨t, n, hscan, rfl, if_neg (not_lt.mpr hn)⟩
  · rename_i hdetached
    refine iff_of_false (fun h => nomatch h) ?_
    exact fun h => hdetached h.2.2.2.1

/-- Where no address is repeated, a faithful list has one entry with the address of a device:
the device as it should be reported. -/
theorem Faithful.mem_entries_iff (h : Faithful w t)
    (haddresses : (t.attached.map UsbDevice.address).Nodup) (hp : p ∈ t.attached)
    {serial : String} :
    (p.address, serial) ∈ t.entries ↔ actual w p = some (p.address, serial) := by
  rw [h.mem_iff, List.mem_filterMap]
  constructor
  · rintro ⟨q, hq, hactual⟩
    have haddr : q.address = p.address := (address_of_actual hactual).symm
    obtain rfl := List.inj_on_of_nodup_map haddresses hq hp haddr
    exact hactual
  · intro hactual
    exact ⟨p, hp, hactual⟩

/-- A device that has been sent a string should be reported with the number it was asked for
exactly when the string was stored whole. -/
theorem actual_store_iff {serial : List Char} {memory : ℕ → Char} (hopens : Opens w p)
    (hresponds : Responds w p) :
    actual w (p.store (serial_data serial memory)) =
        some (p.address, String.ofList (p.requested serial)) ↔
      serial.length ≤ 32 ∧ (∀ c ∈ serial, c ≠ '\x00') ∧ p.requested serial ≠ [] := by
  have hsent : (p.store (serial_data serial memory)).serial = p.requested serial ↔
      serial.length ≤ 32 ∧ ∀ c ∈ serial, c ≠ '\x00' := serial_store_eq_requested_iff
  have hanswers : (Opens w (p.store (serial_data serial memory)) ∧
      Responds w (p.store (serial_data serial memory)) ∧
      (p.store (serial_data serial memory)).serial ≠ []) ↔
        (p.store (serial_data serial memory)).serial ≠ [] :=
    ⟨fun h => h.2.2, fun h => ⟨hopens, hresponds, h⟩⟩
  rw [actual, if_congr hanswers rfl rfl, ← and_assoc, ← hsent]
  by_cases hne : (p.store (serial_data serial memory)).serial ≠ []
  · rw [if_pos hne, Option.some.injEq, Prod.mk.injEq, String.ofList_inj]
    exact ⟨fun h => ⟨h.2, h.2 ▸ hne⟩, fun h => ⟨rfl, h.1⟩⟩
  · rw [if_neg hne]
    refine iff_of_false (fun h => nomatch h) fun h => hne ?_
    rw [h.1]
    exact h.2

/-- **The device carries its number** exactly when the string was stored whole. -/
theorem carries_iff (hs : s.Inv) {d : ℕ} (hd : d ∈ s.created) {serial : List Char}
    {memory : ℕ → Char} {n : ℤ}
    (h : (s.stored (s.m_usb_dev d) (serial_data serial memory)).scan w = some (t, n))
    (hfaithful : Faithful w t) : Carries w d serial t ↔ StoredWhole w d serial s := by
  obtain ⟨hext, -⟩ := entries_of_scan (hs.stored _ _).created.1 h
  have hdev : t.m_usb_dev d = s.m_usb_dev d := (hext.old d hd).2.2
  have hmem : ∀ p ∈ s.attached, p.id = s.m_usb_dev d →
      p.store (serial_data serial memory) ∈ t.attached := by
    intro p hp hid
    rw [hext.attached]
    exact List.mem_map.mpr ⟨p, hp, if_pos hid⟩
  have hone : ∀ p ∈ s.attached, p.id = s.m_usb_dev d → Opens w p → Responds w p →
      ((p.address, String.ofList (p.requested serial)) ∈ t.entries ↔
        serial.length ≤ 32 ∧ (∀ c ∈ serial, c ≠ '\x00') ∧ p.requested serial ≠ []) := by
    intro p hp hid hopens hresponds
    have haddresses : (t.attached.map UsbDevice.address).Nodup := by
      rw [hext.attached]
      exact (hs.stored _ _).addresses
    exact (hfaithful.mem_entries_iff haddresses (hmem p hp hid)).trans
      (actual_store_iff hopens hresponds)
  constructor
  · intro hcarries p hp hid hopens hresponds
    exact (hone p hp hid hopens hresponds).mp
      (hcarries (p.store (serial_data serial memory)) (hmem p hp hid) (hid.trans hdev.symm)
        hopens hresponds)
  · intro hwhole p hp hid hopens hresponds
    rw [hext.attached] at hp
    obtain ⟨q, hq, rfl⟩ := List.mem_map.mp hp
    have hqid : q.id = s.m_usb_dev d := by
      by_contra hother
      rw [if_neg hother] at hid
      exact hother (hid.trans hdev)
    rw [if_pos hqid] at hopens hresponds ⊢
    exact (hone q hq hqid hopens hresponds).mpr (hwhole q hq hqid hopens hresponds)

/-! ### Whole runs -/

/-- A scan keeps what holds in every state. -/
theorem Inv.scan (hs : s.Inv) {n : ℤ} (h : s.scan w = some (t, n)) : t.Inv := by
  obtain ⟨hext, havailable, -⟩ := entries_of_scan hs.created.1 h
  refine ⟨⟨fun d hd => ?_, havailable⟩, ?_⟩
  · rw [hext.devices] at hd
    exact hext.created (hs.created.1 d hd)
  · rw [hext.attached]
    exact hs.addresses

/-- **The step lemma.** -/
theorem Inv.step {atof : String → ℚ} {a : Act} (hs : s.Inv)
    (hstep : (machine atof).step s a = some t) : t.Inv := by
  cases a with
  | plug i p =>
      simp only [machine] at hstep
      split at hstep
      · rename_i hfree
        obtain rfl := Option.some.inj hstep
        refine ⟨hs.created, ?_⟩
        simp only [List.map_append, List.map_cons]
        rw [List.nodup_middle, ← List.map_append, List.take_append_drop, List.nodup_cons]
        refine ⟨fun hmem => ?_, hs.addresses⟩
        obtain ⟨q, hq, haddr⟩ := List.mem_map.mp hmem
        exact (hfree.1 q hq).1 haddr
      · cases hstep
  | unplug id =>
      obtain rfl := Option.some.inj hstep
      exact ⟨hs.created, hs.addresses.sublist (List.filter_sublist.map _)⟩
  | call a =>
      simp only [machine] at hstep
      split at hstep
      · obtain ⟨u, hu, rfl⟩ := Option.map_eq_some_iff.mp hstep
        exact ⟨Session.created_of_step hs.created hu, hs.addresses⟩
      · cases hstep
  | scan w =>
      obtain ⟨⟨u, n⟩, hu, rfl⟩ := Option.map_eq_some_iff.mp hstep
      exact hs.scan hu
  | set_serial d serial memory ret w =>
      simp only [machine] at hstep
      split at hstep
      · obtain ⟨⟨u, n⟩, hu, rfl⟩ := Option.map_eq_some_iff.mp hstep
        rw [set_serial] at hu
        split at hu
        · cases hu
          exact hs
        split at hu
        · cases hu
          exact hs
        split at hu
        · cases hu
          exact hs
        split at hu
        · obtain ⟨⟨v, k⟩, hv, heq⟩ := Option.map_eq_some_iff.mp hu
          cases heq
          exact (hs.stored _ _).scan hv
        · cases hu
      · cases hstep

/-- A scan of a bus that can be listed does not fail. -/
theorem scan_nonneg (hs : s.Inv) {n : ℤ} (h : s.scan w = some (t, n)) :
    0 ≤ w.device_count ↔ 0 ≤ n := by
  obtain ⟨-, -, ⟨hcount, hn⟩ | ⟨hcount, hn, -⟩⟩ := entries_of_scan hs.created.1 h
  · omega
  · exact iff_of_true hcount (hn ▸ Int.natCast_nonneg _)

/-- A `set_serial` that gets to the firmware and can list the bus returns 0. -/
theorem set_serial_returns_zero (hs : s.Inv) {atof : String → ℚ} {d : ℕ} {serial : List Char}
    {memory : ℕ → Char} {ret r : ℤ}
    (h : s.set_serial atof d serial memory ret w = some (t, r)) (hidle : s.m_active_devices = 0)
    (hnew : ¬atof (s.heap d).m_fwver < 2.10) (hret : 0 ≤ ret) (hcount : 0 ≤ w.device_count) :
    r = 0 := by
  rw [set_serial, if_neg (not_not.mpr hidle), if_neg hnew, if_neg (not_lt.mpr hret)] at h
  split at h
  · obtain ⟨⟨v, n⟩, hv, heq⟩ := Option.map_eq_some_iff.mp h
    obtain ⟨-, rfl⟩ := Prod.mk.inj heq
    exact if_neg (not_lt.mpr ((scan_nonneg (hs.stored _ _) hv).mp hcount))
  · cases h

/-- **One step**: the user is told what is right exactly when everything is up to date. -/
theorem told_iff_upToDate {atof : String → ℚ} {a : Act} (hs : s.Inv)
    (hstep : (machine atof).step s a = some t) : s.Told atof a ↔ s.UpToDate atof a := by
  cases a with
  | scan w =>
      obtain ⟨⟨u, n⟩, hscan, -⟩ := Option.map_eq_some_iff.mp hstep
      simp only [Told, UpToDate, scan_nonneg hs hscan]
      constructor
      · intro htold hn
        exact (faithful_iff hs hscan hn).2.mp (htold u n hscan hn).2
      · intro hcurrent u' n' hscan' hn
        obtain ⟨rfl, rfl⟩ := Prod.mk.inj (Option.some.inj (hscan.symm.trans hscan'))
        obtain ⟨hlength, hfaithful⟩ := faithful_iff hs hscan hn
        exact ⟨hlength, hfaithful.mpr (hcurrent hn)⟩
  | set_serial d serial memory ret w =>
      simp only [machine] at hstep
      split at hstep
      · rename_i hd
        have hstored := hs.stored (s.m_usb_dev d) (serial_data serial memory)
        simp only [Told, UpToDate]
        constructor
        · intro htold hidle hnew hret hcount
          obtain ⟨⟨u, r⟩, hu, -⟩ := Option.map_eq_some_iff.mp hstep
          obtain rfl := set_serial_returns_zero hs hu hidle hnew hret hcount
          obtain ⟨hfaithful, hcarries⟩ := htold u hu
          obtain ⟨-, -, -, -, n, hn, hscan⟩ := set_serial_eq_zero_iff.mp hu
          exact ⟨(faithful_iff hstored hscan hn).2.mp hfaithful,
            (carries_iff hs hd hscan hfaithful).mp hcarries⟩
        · intro hupToDate u hu
          obtain ⟨hidle, hnew, hret, -, n, hn, hscan⟩ := set_serial_eq_zero_iff.mp hu
          obtain ⟨hcurrent, hwhole⟩ :=
            hupToDate hidle hnew hret ((scan_nonneg hstored hscan).mpr hn)
          have hfaithful := (faithful_iff hstored hscan hn).2.mpr hcurrent
          exact ⟨hfaithful, (carries_iff hs hd hscan hfaithful).mpr hwhole⟩
      · cases hstep
  | plug i p | unplug id | call a => exact Iff.rfl

/-- **The scans of a run** report the devices as they are, and every `set_serial` that returns 0
is followed by its number, exactly when every scan finds the members of the session current and
every string that is stored is stored whole. -/
theorem told_iff {atof : String → ℚ} {as : List Act}
    (hrun : (machine atof).run init as = some u) :
    (machine atof).Meets (Told atof) init as ↔ (machine atof).Meets (UpToDate atof) init as := by
  have hinit : init.Inv :=
    ⟨⟨fun d hd => absurd hd List.not_mem_nil, fun d hd => absurd hd List.not_mem_nil⟩,
      List.nodup_nil⟩
  exact Machine.meets_congr (fun s a t hs hstep => Inv.step hs hstep)
    (fun s a t hs hstep => told_iff_upToDate hs hstep) hinit hrun

/-- A board with the serial number `A`. -/
def board : UsbDevice where
  id := 1
  address := (1, 7)
  device_id := (0x064b, 0x784c)
  builtin := ['A']
  custom := none
  hwver := ['F']
  fwver := ['2', '.', '1', '7']

/-- Everything is answered, and the objects are made at `object`. -/
def answered (object : ℕ) : Answered where
  device_count := 1
  replies _ := ⟨0, 0, true, true, true⟩
  object _ := object

/-- A board is given a serial number before it joins the session. -/
def renamed : List Act :=
  [.plug 0 board, .scan (answered 1), .set_serial 1 ['B'] (fun _ => 'x') 36 (answered 2),
    .call (.add (some 2) 0), .scan (answered 3)]

/-- The board is reported as it is. -/
theorem told_iff_renamed : ∃ u, (machine fun _ => 2.17).run init renamed = some u ∧
    (machine fun _ => 2.17).Meets (Told fun _ => 2.17) init renamed := by
  obtain ⟨u, hu⟩ := Option.isSome_iff_exists.mp
    (show ((machine fun _ => 2.17).run init renamed).isSome = true by decide +kernel)
  exact ⟨u, hu, (told_iff hu).mpr (by decide +kernel)⟩

/-- **A member keeps its serial number.** The board joins the session and is given the serial
number `B`; the call returns 0, the board reports `B`, and the entry for it says `A`. -/
theorem member_keeps_serial : ∃ s t,
    (machine fun _ => 2.17).run init
        [.plug 0 board, .scan (answered 1), .call (.add (some 1) 0)] = some s ∧
      s.set_serial (fun _ => 2.17) 1 ['B'] (fun _ => 'x') 36 (answered 2) =
        some (t, 0) ∧
      t.entries = [((1, 7), "A")] ∧ t.attached.map UsbDevice.serial = [['B']] ∧
      ¬s.Told (fun _ => 2.17)
        (.set_serial 1 ['B'] (fun _ => 'x') 36 (answered 2)) := by
  have hout : ((machine fun _ => 2.17).run init
      [.plug 0 board, .scan (answered 1), .call (.add (some 1) 0)]).bind (fun s =>
        (s.set_serial (fun _ => 2.17) 1 ['B'] (fun _ => 'x') 36 (answered 2)).map
          fun r => decide (r.2 = 0 ∧ r.1.entries = [((1, 7), "A")] ∧
            r.1.attached.map UsbDevice.serial = [['B']] ∧
            r.1.attached.filterMap (actual (answered 2)) = [((1, 7), "B")])) = some true := by
    decide +kernel
  obtain ⟨s, hs, hout⟩ := Option.bind_eq_some_iff.mp hout
  obtain ⟨⟨t, r⟩, ht, hout⟩ := Option.map_eq_some_iff.mp hout
  obtain ⟨rfl, hentries, hserials, hactual⟩ := of_decide_eq_true hout
  refine ⟨s, t, hs, ht, hentries, hserials, fun htold => ?_⟩
  have hfaithful := (htold t ht).1
  rw [Faithful, hentries, hactual] at hfaithful
  exact absurd (List.perm_singleton.mp hfaithful) (by decide)

end Enumeration

end Libsmu
