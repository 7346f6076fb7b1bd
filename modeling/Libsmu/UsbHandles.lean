import Libsmu.Lib.Ledger
import Libsmu.ScanReport

/-!
# USB Handles

`probe_device` opens the device it looks at, and the object it makes keeps the handle until it is
deleted. Where opening a device a second time is answered with `LIBUSB_ERROR_ACCESS`, the handle
that `m_deviceHandles` has for it is taken instead; it stays there when the object that has it is
deleted, too. A device that a member of the session stands for is opened like any other, and the
handle is forgotten.

The handles are numbered in the order in which `libusb_open` gives them out. The calls of the
session other than `scan` are those of `Enumeration`, and `add`, `remove`, `start`, `run` and `end`
use the handles of the objects that they get to; `end` gets to the first device, the others that it
turns off are steps of their own. So are the other uses, by `cancel`, the USB thread or the user of
a device; `set_serial` is one of them, stores a serial number and scans. Devices are deleted as
`flash_firmware` does it. A deleted object may be left in a collection, or with the user: it is
called, and deleted, like any other, with the handle that it had.

## Main results

* `probe_device_frame`: the devices whose handle is kept.
* `State.Inv.scan`, `ready_of_scan`: a scan uses open handles exactly when the devices that cannot
  be opened again have one that is open.
* `handles_safe_iff`: every object has an open handle, and no handle is used or closed after it was
  closed, exactly when this holds of all scans, no object is deleted that shares its handle, and a
  deleted one is neither called nor deleted again.
* `open_iff`: which handles are open where no opening is refused.
-/

namespace Libsmu

namespace UsbHandles

open Enumeration (Opens)

/-- A session, its bus and the handles. -/
structure State extends Enumeration where
  /-- the values of `m_deviceHandles` -/
  kept : ℕ → Option ℕ
  /-- `m_usb` of the objects -/
  m_usb : ℕ → ℕ
  /-- record: the handles that were opened, those that are open, and those that were closed -/
  handles : Ledger
  /-- record: the objects that were deleted -/
  deleted : List ℕ
  /-- record: a handle was used after it was closed -/
  misused : Bool

/-- No devices and no handles. -/
def init : State where
  toEnumeration := .init
  kept _ := none
  m_usb _ := 0
  handles := .empty
  deleted := []
  misused := false

/-- The object is not deleted. -/
def State.Alive (s : State) (d : ℕ) : Prop := d ∈ s.created ∧ d ∉ s.deleted

instance (s : State) (d : ℕ) : Decidable (s.Alive d) := inferInstanceAs (Decidable (_ ∧ _))

/-! ### Opening and closing -/

/-- `libusb_open`. -/
def State.opened (w : Answered) (p : UsbDevice) (s : State) : Ledger :=
  if (w.replies p.id).opened = 0 then s.handles.acquire 1 else s.handles

/-- `usb_handle` of `probe_device`. -/
def State.usb_handle (w : Answered) (p : UsbDevice) (s : State) : Option ℕ :=
  if (w.replies p.id).opened = 0 then some s.handles.obtained else s.kept p.id

/-- `m_usb` of the objects after a device was probed with a handle. -/
def State.holding (s : State) (h : ℕ) : Option Session.Found → ℕ → ℕ
  | some (.probed d _ _) => Function.update s.m_usb d h
  | _ => s.m_usb

/-- `probe_device` and the list of available devices. The strings are read with the handle, which
becomes that of the new object; where a member stands for the device it is forgotten. -/
def probe (w : Answered) (p : UsbDevice) (s : State) : Option State :=
  (s.probe_device w p).map fun r =>
    let t : State := { s with toEnumeration := s.place p r.1 r.2 }
    if Opens w p then
      match s.member p, s.usb_handle w p with
      | none, some h =>
          { t with
            kept := Function.update s.kept p.id (some h)
            m_usb := s.holding h r.2
            handles := s.opened w p
            misused := s.misused || decide (h ∉ (s.opened w p).owned) }
      | _, _ => { t with handles := s.opened w p }
    else t

/-- The loop of `scan`. -/
def scanFrom (w : Answered) : List UsbDevice → State → Option State
  | [], s => some s
  | p :: ps, s => (probe w p s).bind (scanFrom w ps)

/-- `scan`. -/
def scan (w : Answered) (s : State) : Option State :=
  let s : State := { s with m_available_devices := [] }
  if w.device_count < 0 then some s else scanFrom w s.attached s

/-- `remove` and `delete`, which closes the handle of the object. -/
def delete (d : ℕ) (release : ℤ) (s : State) : State :=
  { s with
    toSession := (s.remove (some d) false release).1
    handles := s.handles.release (s.m_usb d)
    deleted := d :: s.deleted
    misused := s.misused || decide (s.m_usb d ∉ s.handles.owned) }

/-- The devices that the loop of `start` gets to. -/
def started (answers : ℕ → Session.Answers) (devices : ℕ) : List ℕ → List ℕ
  | [] => []
  | d :: ds =>
      if (answers d).Runs devices ∧ (answers d).run = 0 then d :: started answers devices ds
      else [d]

/-- The objects whose handles a call is sure to use. `end` gets to the first device. -/
def uses (s : Session) : Session.Act → List ℕ
  | .add (some d) _ | .remove (some d) _ _ => if s.m_active_devices ≠ 0 then [] else [d]
  | .start _ _ answers => started answers s.m_devices.length s.m_devices
  | .run samples _ answers =>
      if 0 < samples ∧ s.m_continuous then []
      else started answers s.m_devices.length s.m_devices
  | .end_ => s.m_devices.take 1
  | _ => []

/-- The handles of these objects are used. -/
def State.use (s : State) (ds : List ℕ) : State :=
  { s with misused := s.misused || ds.any fun d => decide (s.m_usb d ∉ s.handles.owned) }

/-- What happens to a session and its bus. -/
inductive Act
  | plug (i : ℕ) (p : UsbDevice)
  | unplug (id : ℕ)
  /-- a device stores a serial number -/
  | store (id : ℕ) (data : SerialData)
  | call (a : Session.Act)
  | scan (w : Answered)
  /-- a method of an object uses its handle -/
  | use (d : ℕ)
  | delete (d : ℕ) (release : ℤ)

/-- The session, its bus and the handles as a machine. -/
def machine : Machine State Act where
  step s
    | .plug i p => ((Enumeration.machine fun _ => 0).step s.toEnumeration (.plug i p)).map
        fun t => { s with toEnumeration := t }
    | .unplug id => ((Enumeration.machine fun _ => 0).step s.toEnumeration (.unplug id)).map
        fun t => { s with toEnumeration := t }
    | .store id data => some { s with toEnumeration := s.stored id data }
    | .call a =>
        if ∀ d ∈ uses s.toSession a, d ∈ s.created then
          ((Enumeration.machine fun _ => 0).step s.toEnumeration (.call a)).map
            fun t => { s.use (uses s.toSession a) with toEnumeration := t }
        else none
    | .scan w => UsbHandles.scan w s
    | .use d => if d ∈ s.created then some (s.use [d]) else none
    | .delete d release => if d ∈ s.created then some (UsbHandles.delete d release s) else none

/-! ### What is asked for -/

/-- **The handles are in order**: every object has an open one, none was closed twice, and none
was used after that. -/
structure Safe (s : State) : Prop where
  open_ : ∀ d, s.Alive d → s.m_usb d ∈ s.handles.owned
  once : s.handles.released.Nodup
  used : s.misused = false

/-- A device without a member can be opened, or has an open handle. -/
def Ready (w : Answered) (s : State) (p : UsbDevice) : Prop :=
  Opens w p → s.member p = none →
    (w.replies p.id).opened = 0 ∨ ∃ h ∈ s.handles.owned, s.kept p.id = some h

/-- A scan finds the devices ready, and an object is deleted once, and only if it shares its handle
with no other. -/
def Careful (s : State) : Act → Prop
  | .scan w => 0 ≤ w.device_count → ∀ p ∈ s.attached, Ready w s p
  | .delete d _ => d ∉ s.deleted ∧ ∀ e, s.Alive e → e ≠ d → s.m_usb e ≠ s.m_usb d
  | _ => True

/-- No deleted object is called. -/
def Sparing (s : State) : Act → Prop
  | .call a => ∀ d ∈ uses s.toSession a, d ∉ s.deleted
  | .use d => d ∉ s.deleted
  | _ => True

/-- **What that needs.** -/
def Proper (s : State) (a : Act) : Prop := Careful s a ∧ Sparing s a

instance (w : Answered) (s : State) (p : UsbDevice) : Decidable (Ready w s p) :=
  inferInstanceAs (Decidable (_ → _ → _ ∨ _))

instance (s : State) (a : Act) : Decidable (Careful s a) :=
  match a with
  | .scan _ => inferInstanceAs (Decidable (_ → ∀ p ∈ s.attached, _))
  | .delete d _ =>
      decidable_of_iff
        (d ∉ s.deleted ∧ ∀ e ∈ s.created, e ∉ s.deleted → e ≠ d → s.m_usb e ≠ s.m_usb d)
        (and_congr_right' ⟨fun h e he => h e he.1 he.2, fun h e he hdeleted => h e ⟨he, hdeleted⟩⟩)
  | .plug _ _ | .unplug _ | .store _ _ | .call _ | .use _ => isTrue trivial

instance (s : State) (a : Act) : Decidable (Sparing s a) :=
  match a with
  | .call a => inferInstanceAs (Decidable (∀ d ∈ uses s.toSession a, d ∉ s.deleted))
  | .use d => inferInstanceAs (Decidable (d ∉ s.deleted))
  | .plug _ _ | .unplug _ | .store _ _ | .scan _ | .delete _ _ => isTrue trivial

instance (s : State) (a : Act) : Decidable (Proper s a) := inferInstanceAs (Decidable (_ ∧ _))

/-- What holds in every state of a run in which no handle is closed twice. -/
structure State.Inv (s : State) : Prop where
  open_ : ∀ d, s.Alive d → s.m_usb d ∈ s.handles.owned
  bus : s.toEnumeration.Inv
  ids : (s.attached.map UsbDevice.id).Nodup
  keys : ∀ i, i ∈ s.m_deviceHandles ↔ (s.kept i).isSome
  balanced : s.handles.Balanced
  kept_lt : ∀ i h, s.kept i = some h → h < s.handles.obtained
  gone : ∀ d ∈ s.deleted, d ∈ s.created ∧ s.m_usb d ∈ s.handles.released

variable {w : Answered} {p : UsbDevice} {s t : State}

/-- Without misuse the handles are in order. -/
theorem State.Inv.safe (hs : s.Inv) (hused : s.misused = false) : Safe s :=
  ⟨hs.open_, hs.balanced.nodup.of_append_right, hused⟩

/-- A handle that is open belongs to no deleted object. -/
theorem State.Inv.owned_iff (hs : s.Inv) {d : ℕ} (hd : d ∈ s.created) :
    s.m_usb d ∈ s.handles.owned ↔ d ∉ s.deleted :=
  ⟨fun howned hdeleted => hs.balanced.nodup.disjoint howned (hs.gone d hdeleted).2,
    fun hdeleted => hs.open_ d ⟨hd, hdeleted⟩⟩

/-- **Handles are used after they were closed** exactly when it is deleted objects that use
them. -/
theorem State.Inv.misused_use_iff (hs : s.Inv) {ds : List ℕ} (hds : ∀ d ∈ ds, d ∈ s.created) :
    (s.use ds).misused = false ↔ s.misused = false ∧ ∀ d ∈ ds, d ∉ s.deleted := by
  simp only [State.use, Bool.or_eq_false_iff, List.any_eq_false, decide_eq_true_eq, not_not]
  exact and_congr_right' (forall₂_congr fun d hd => hs.owned_iff (hds d hd))

/-! ### One device -/

/-- **The handle of a device is kept** where no member stands for it, and is there where the device
cannot be opened again. New objects are made for such devices only. -/
theorem probe_device_frame {e : Enumeration} {handles : List ℕ} {found : Option Session.Found}
    (h : e.probe_device w p = some (handles, found)) :
    (handles = if Opens w p ∧ e.member p = none then p.id :: e.m_deviceHandles
      else e.m_deviceHandles) ∧
    (Opens w p → e.member p = none → (w.replies p.id).opened ≠ 0 → p.id ∈ e.m_deviceHandles) ∧
    ∀ d fwver serial, found = some (.probed d fwver serial) →
      (Opens w p ∧ e.member p = none) ∧ d ∉ e.created := by
  rw [Enumeration.probe_device] at h
  simp only at h
  by_cases hopens : Opens w p
  · rw [if_neg (not_not.mpr hopens.1), if_neg (not_not.mpr hopens.2.1),
      if_neg fun hne => hopens.2.2.elim hne.1 hne.2] at h
    split at h
    · rename_i d hmember
      cases h
      have hsome : e.member p ≠ none := by rw [hmember]; exact Option.some_ne_none d
      exact ⟨(if_neg fun hboth => hsome hboth.2).symm, fun _ hnone => absurd hnone hsome,
        fun _ _ _ hfound => by cases hfound⟩
    rename_i hmember
    split at h
    · cases h
    rename_i hnull
    have hkept : (w.replies p.id).opened ≠ 0 → p.id ∈ e.m_deviceHandles := fun hne => by
      by_contra hmissing
      exact hnull ⟨hne, hmissing⟩
    -- the strings decide about the object only
    have hstrings : handles = p.id :: e.m_deviceHandles ∧
        ∀ d fwver serial, found = some (.probed d fwver serial) → d ∉ e.created := by
      split at h
      · cases h
        exact ⟨rfl, fun _ _ _ hfound => by cases hfound⟩
      split at h
      · cases h
        exact ⟨rfl, fun _ _ _ hfound => by cases hfound⟩
      split at h
      · cases h
        exact ⟨rfl, fun _ _ _ hfound => by cases hfound⟩
      split at h
      · cases h
      rename_i hfree
      cases h
      refine ⟨rfl, fun d fwver serial hfound => ?_⟩
      cases hfound
      exact hfree
    obtain ⟨rfl, hfree⟩ := hstrings
    exact ⟨(if_pos ⟨hopens, hmember⟩).symm, fun _ _ => hkept, fun d fwver serial hfound =>
      ⟨⟨hopens, hmember⟩, hfree d fwver serial hfound⟩⟩
  · have hfailed : some (e.m_deviceHandles, none) = some (handles, found) := by
      split at h
      · exact h
      rename_i hdescriptor
      split at h
      · exact h
      rename_i hsupported
      split at h
      · exact h
      rename_i hopened
      refine absurd ⟨not_not.mp hdescriptor, not_not.mp hsupported, ?_⟩ hopens
      by_contra hneither
      exact hopened (not_or.mp hneither)
    cases hfailed
    exact ⟨(if_neg fun hboth => hopens hboth.1).symm, fun hyes => absurd hyes hopens,
      fun _ _ _ hfound => by cases hfound⟩

/-- **Probing one device**: it is not opened, or not needed, or its handle is taken. -/
theorem probe_cases (hkeys : ∀ i, i ∈ s.m_deviceHandles ↔ (s.kept i).isSome)
    (h : probe w p s = some t) :
    ∃ handles found, s.probe_device w p = some (handles, found) ∧
      ((¬(Opens w p ∧ s.member p = none) ∧ handles = s.m_deviceHandles ∧
          (∀ d fwver serial, found ≠ some (.probed d fwver serial)) ∧
          t = { s with
            toEnumeration := s.place p handles found
            handles := if Opens w p then s.opened w p else s.handles }) ∨
        ∃ h, (Opens w p ∧ s.member p = none) ∧ handles = p.id :: s.m_deviceHandles ∧
          s.usb_handle w p = some h ∧
          t = { s with
            toEnumeration := s.place p handles found
            kept := Function.update s.kept p.id (some h)
            m_usb := s.holding h found
            handles := s.opened w p
            misused := s.misused || decide (h ∉ (s.opened w p).owned) }) := by
  obtain ⟨⟨handles, found⟩, hprobe, rfl⟩ := Option.map_eq_some_iff.mp h
  obtain ⟨hhandles, hkept, hnew⟩ := probe_device_frame hprobe
  refine ⟨handles, found, hprobe, ?_⟩
  by_cases htakes : Opens w p ∧ s.member p = none
  · obtain ⟨hopens, hmember⟩ := htakes
    rw [if_pos ⟨hopens, hmember⟩] at hhandles
    have husb : ∃ h, s.usb_handle w p = some h := by
      rw [State.usb_handle]
      split
      · exact ⟨_, rfl⟩
      · rename_i hopened
        exact Option.isSome_iff_exists.mp ((hkeys _).mp (hkept hopens hmember hopened))
    obtain ⟨h, husb⟩ := husb
    refine .inr ⟨h, ⟨hopens, hmember⟩, hhandles, husb, ?_⟩
    simp only [if_pos hopens, hmember, husb]
  · rw [if_neg htakes] at hhandles
    refine .inl ⟨htakes, hhandles, fun d fwver serial hfound => ?_, ?_⟩
    · exact htakes (hnew d fwver serial hfound).1
    · by_cases hopens : Opens w p
      · cases hmember : s.member p with
        | none => exact absurd ⟨hopens, hmember⟩ htakes
        | some d => simp only [if_pos hopens]
      · simp only [if_neg hopens]

/-- The handles that are open stay open while devices are opened. -/
theorem mem_opened {h : ℕ} : h ∈ (s.opened w p).owned ↔
    h ∈ s.handles.owned ∨ ((w.replies p.id).opened = 0 ∧ h = s.handles.obtained) := by
  rw [State.opened]
  split
  · rename_i hopened
    simp [Ledger.acquire, hopened]
  · rename_i hopened
    simp [hopened]

/-- Opening a device keeps the handles balanced. -/
theorem balanced_opened (h : s.handles.Balanced) : (s.opened w p).Balanced := by
  rw [State.opened]
  split
  · exact h.acquire 1
  · exact h

/-- Opening a device closes nothing. -/
theorem released_opened : (s.opened w p).released = s.handles.released := by
  rw [State.opened]
  split
  · rfl
  · rfl

/-- Opening a device may give a further handle. -/
theorem obtained_le_opened : s.handles.obtained ≤ (s.opened w p).obtained := by
  rw [State.opened]
  split
  · exact Nat.le_succ _
  · exact Nat.le_refl _

/-- The objects there are after a device was put on the list. -/
theorem mem_created_place {e : Enumeration} {handles : List ℕ} {found : Option Session.Found}
    {d : ℕ} : d ∈ (e.place p handles found).created ↔
      d ∈ e.created ∨ ∃ fwver serial, found = some (.probed d fwver serial) := by
  rcases found with - | ⟨d'⟩ | ⟨d', fwver, serial⟩
  · simp [Enumeration.place]
  · simp [Enumeration.place, Session.make_available]
  · simp [Enumeration.place, Session.make_available, or_comm, eq_comm]

/-- The handles that are kept after a device was put on the list. -/
theorem m_deviceHandles_place {e : Enumeration} {handles : List ℕ} {found : Option Session.Found} :
    (e.place p handles found).m_deviceHandles = handles := by
  rcases found with - | ⟨d'⟩ | ⟨d', fwver, serial⟩
  · rfl
  · rfl
  · rfl

/-- The bus and the collections are in order after a device was put on the list. -/
theorem inv_place {e : Enumeration} (he : e.Inv) {handles : List ℕ}
    {found : Option Session.Found} (h : e.probe_device w p = some (handles, found)) :
    (e.place p handles found).Inv := by
  obtain ⟨hext, havailable, -⟩ := Enumeration.place_spec he.created.1 he.created.2 h
  refine ⟨⟨fun d hd => ?_, havailable⟩, ?_⟩
  · rw [hext.devices] at hd
    exact hext.created (he.created.1 d hd)
  · rw [hext.attached]
    exact he.addresses

/-- What probing a device leaves for the others. -/
structure Passes (p : UsbDevice) (s t : State) : Prop where
  attached : t.attached = s.attached
  member : ∀ q, t.member q = s.member q
  kept : ∀ i, i ≠ p.id → t.kept i = s.kept i
  owned : ∀ h, h < s.handles.obtained → (h ∈ t.handles.owned ↔ h ∈ s.handles.owned)
  used : t.misused = false → s.misused = false
  bus : t.toEnumeration.Inv
  keys : ∀ i, i ∈ t.m_deviceHandles ↔ (t.kept i).isSome

/-- The members are found where they were, behind new objects, too. -/
theorem member_of_extends {e f : Enumeration} (h : Enumeration.Extends e f)
    (hdevices : ∀ d ∈ e.m_devices, d ∈ e.created) (q : UsbDevice) : f.member q = e.member q := by
  rw [Enumeration.member, Enumeration.member, h.devices]
  refine List.find?_congr fun d hd => ?_
  rw [(h.old d (hdevices d hd)).2.1]

/-- Probing a device leaves the others. -/
theorem passes_of_probe (hbus : s.toEnumeration.Inv)
    (hkeys : ∀ i, i ∈ s.m_deviceHandles ↔ (s.kept i).isSome) (h : probe w p s = some t) :
    Passes p s t := by
  obtain ⟨handles, found, hprobe, hcases⟩ := probe_cases hkeys h
  obtain ⟨hext, -⟩ := Enumeration.place_spec hbus.created.1 hbus.created.2 hprobe
  have hmember := member_of_extends hext hbus.created.1
  have howned : ∀ k, k < s.handles.obtained → (k ∈ (s.opened w p).owned ↔ k ∈ s.handles.owned) := by
    intro k hlt
    rw [mem_opened]
    exact or_iff_left fun hnew => Nat.ne_of_lt hlt hnew.2
  rcases hcases with ⟨-, hhandles, -, rfl⟩ | ⟨h, -, hhandles, -, rfl⟩
  · refine ⟨hext.attached, hmember, fun _ _ => rfl, fun k hlt => ?_, id, inv_place hbus hprobe,
      fun i => ?_⟩
    · simp only
      split
      · exact howned k hlt
      · rfl
    · rw [m_deviceHandles_place, hhandles]
      exact hkeys i
  · refine ⟨hext.attached, hmember, fun i hi => Function.update_of_ne hi _ _, howned,
      fun hused => (Bool.or_eq_false_iff.mp hused).1, inv_place hbus hprobe, fun i => ?_⟩
    rw [m_deviceHandles_place, hhandles, List.mem_cons, hkeys]
    simp only
    by_cases hi : i = p.id
    · simp [hi]
    · simp [hi]

/-- Being ready does not depend on the devices probed before. -/
theorem Passes.ready_iff {q : UsbDevice} (h : Passes p s t) (hs : s.Inv) (hq : q.id ≠ p.id) :
    Ready w t q ↔ Ready w s q := by
  simp only [Ready, h.member, h.kept _ hq]
  refine forall₂_congr fun _ _ => or_congr_right (exists_congr fun k => ?_)
  constructor
  · rintro ⟨howned, hkept⟩
    exact ⟨(h.owned k (hs.kept_lt _ _ hkept)).mp howned, hkept⟩
  · rintro ⟨howned, hkept⟩
    exact ⟨(h.owned k (hs.kept_lt _ _ hkept)).mpr howned, hkept⟩

/-- A device that is ready is looked at with an open handle. -/
theorem Ready.mem_opened {h : ℕ} (hready : Ready w s p)
    (htakes : Opens w p ∧ s.member p = none) (husb : s.usb_handle w p = some h) :
    h ∈ (s.opened w p).owned := by
  rw [UsbHandles.mem_opened]
  rw [State.usb_handle] at husb
  split at husb
  · rename_i hopened
    exact .inr ⟨hopened, (Option.some.inj husb).symm⟩
  · rename_i hopened
    obtain ⟨k, howned, hkept⟩ := (hready htakes.1 htakes.2).resolve_left hopened
    obtain rfl := Option.some.inj (hkept.symm.trans husb)
    exact .inl howned

/-- **Probing a device that is ready** keeps the handles in order. -/
theorem State.Inv.probe (hs : s.Inv) (hready : Ready w s p) (h : probe w p s = some t) :
    t.Inv := by
  have hpasses := passes_of_probe hs.bus hs.keys h
  have hids : (t.attached.map UsbDevice.id).Nodup := by rw [hpasses.attached]; exact hs.ids
  obtain ⟨handles, found, hprobe, hcases⟩ := probe_cases hs.keys h
  rcases hcases with ⟨-, -, hold, rfl⟩ | ⟨h, htakes, -, husb, rfl⟩
  · have hbalanced : (if Opens w p then s.opened w p else s.handles).Balanced := by
      split
      · exact balanced_opened hs.balanced
      · exact hs.balanced
    have howned : ∀ k ∈ s.handles.owned,
        k ∈ (if Opens w p then s.opened w p else s.handles).owned := by
      intro k hk
      split
      · exact mem_opened.mpr (.inl hk)
      · exact hk
    refine ⟨fun d hd => ?_, hpasses.bus, hids, hpasses.keys, hbalanced, fun i k hk => ?_,
      fun d hd => ?_⟩
    · obtain ⟨hcreated, hdeleted⟩ := hd
      have hcreated := (mem_created_place.mp hcreated).resolve_right fun hnew => by
        obtain ⟨fwver, serial, hfound⟩ := hnew
        exact hold _ _ _ hfound
      exact howned _ (hs.open_ d ⟨hcreated, hdeleted⟩)
    · refine (hs.kept_lt i k hk).trans_le ?_
      simp only
      split
      · exact obtained_le_opened
      · exact Nat.le_refl _
    · obtain ⟨hcreated, hreleased⟩ := hs.gone d hd
      refine ⟨mem_created_place.mpr (.inl hcreated), ?_⟩
      simp only
      split
      · rw [released_opened]
        exact hreleased
      · exact hreleased
  · have hbalanced : (s.opened w p).Balanced := balanced_opened hs.balanced
    have hopen := hready.mem_opened htakes husb
    refine ⟨fun d hd => ?_, hpasses.bus, hids, hpasses.keys, hbalanced, fun i k hk => ?_,
      fun d hd => ?_⟩
    · obtain ⟨hcreated, hdeleted⟩ := hd
      have hkept : d ∈ s.created → s.m_usb d ∈ (s.opened w p).owned := fun hcreated =>
        mem_opened.mpr (.inl (hs.open_ d ⟨hcreated, hdeleted⟩))
      rcases found with - | ⟨d'⟩ | ⟨d', fwver, serial⟩
      · exact hkept ((mem_created_place.mp hcreated).resolve_right (by rintro ⟨_, _, h⟩; cases h))
      · exact hkept ((mem_created_place.mp hcreated).resolve_right (by rintro ⟨_, _, h⟩; cases h))
      · simp only [State.holding]
        by_cases hd : d = d'
        · subst hd
          rw [Function.update_self]
          exact hopen
        · rw [Function.update_of_ne hd]
          refine hkept ((mem_created_place.mp hcreated).resolve_right ?_)
          rintro ⟨_, _, hfound⟩
          cases hfound
          exact hd rfl
    · simp only at hk ⊢
      by_cases hi : i = p.id
      · subst hi
        rw [Function.update_self] at hk
        obtain rfl := Option.some.inj hk
        exact hbalanced.lt_obtained hopen
      · rw [Function.update_of_ne hi] at hk
        exact (hs.kept_lt i k hk).trans_le obtained_le_opened
    · obtain ⟨hcreated, hreleased⟩ := hs.gone d hd
      refine ⟨mem_created_place.mpr (.inl hcreated), ?_⟩
      rw [released_opened]
      rcases found with - | ⟨d'⟩ | ⟨d', fwver, serial⟩
      · exact hreleased
      · exact hreleased
      · have hne : d ≠ d' := by
          rintro rfl
          exact ((probe_device_frame hprobe).2.2 _ _ _ rfl).2 hcreated
        simp only [State.holding]
        rw [Function.update_of_ne hne]
        exact hreleased

/-- A device that is ready is probed without misuse. -/
theorem Ready.misused_eq (hready : Ready w s p)
    (hkeys : ∀ i, i ∈ s.m_deviceHandles ↔ (s.kept i).isSome) (h : probe w p s = some t) :
    t.misused = s.misused := by
  obtain ⟨handles, found, -, hcases⟩ := probe_cases hkeys h
  rcases hcases with ⟨-, -, -, rfl⟩ | ⟨k, htakes, -, husb, rfl⟩
  · rfl
  · have hopen := hready.mem_opened htakes husb
    simp only [hopen, not_true_eq_false, decide_false, Bool.or_false]

/-- A device that was probed without misuse was ready. -/
theorem ready_of_probe (hs : s.Inv) (h : probe w p s = some t) (hused : t.misused = false) :
    Ready w s p := by
  obtain ⟨handles, found, -, hcases⟩ := probe_cases hs.keys h
  intro hopens hmember
  rcases hcases with ⟨hnot, -⟩ | ⟨k, -, -, husb, rfl⟩
  · exact absurd ⟨hopens, hmember⟩ hnot
  · have hmem := (Bool.or_eq_false_iff.mp hused).2
    rw [decide_eq_false_iff_not, not_not, mem_opened] at hmem
    rw [State.usb_handle] at husb
    split at husb
    · rename_i hopened
      exact .inl hopened
    · rename_i hopened
      exact .inr ⟨k, hmem.resolve_right fun hnew => hopened hnew.1, husb⟩

/-! ### One scan -/

/-- **The loop of a scan** keeps the handles in order if all devices are ready. -/
theorem State.Inv.scanFrom {ps : List UsbDevice} (hs : s.Inv) (hids : (ps.map UsbDevice.id).Nodup)
    (hready : ∀ q ∈ ps, Ready w s q) (h : scanFrom w ps s = some t) :
    t.Inv ∧ t.misused = s.misused := by
  induction ps generalizing s with
  | nil =>
      obtain rfl := Option.some.inj h
      exact ⟨hs, rfl⟩
  | cons q ps ih =>
      obtain ⟨u, hu, hrest⟩ := Option.bind_eq_some_iff.mp h
      have hpasses := passes_of_probe hs.bus hs.keys hu
      obtain ⟨hnew, hids⟩ := List.nodup_cons.mp hids
      have hfirst := hready q List.mem_cons_self
      have hothers : ∀ r ∈ ps, Ready w u r := by
        intro r hr
        have hne : r.id ≠ q.id := fun heq => hnew (heq ▸ List.mem_map_of_mem hr)
        exact (hpasses.ready_iff hs hne).mpr (hready r (List.mem_cons_of_mem _ hr))
      obtain ⟨ht, hmisused⟩ := ih (hs.probe hfirst hu) hids hothers hrest
      exact ⟨ht, hmisused.trans (hfirst.misused_eq hs.keys hu)⟩

/-- A misuse is not forgotten. -/
theorem used_of_scanFrom {ps : List UsbDevice} (hbus : s.toEnumeration.Inv)
    (hkeys : ∀ i, i ∈ s.m_deviceHandles ↔ (s.kept i).isSome) (h : scanFrom w ps s = some t)
    (hused : t.misused = false) : s.misused = false := by
  induction ps generalizing s with
  | nil =>
      obtain rfl := Option.some.inj h
      exact hused
  | cons q ps ih =>
      obtain ⟨u, hu, hrest⟩ := Option.bind_eq_some_iff.mp h
      have hpasses := passes_of_probe hbus hkeys hu
      exact hpasses.used (ih hpasses.bus hpasses.keys hrest)

/-- **A scan without misuse** found all devices ready. -/
theorem ready_of_scanFrom {ps : List UsbDevice} (hs : s.Inv)
    (hids : (ps.map UsbDevice.id).Nodup) (h : scanFrom w ps s = some t)
    (hused : t.misused = false) : ∀ q ∈ ps, Ready w s q := by
  induction ps generalizing s with
  | nil => exact fun q hq => absurd hq List.not_mem_nil
  | cons q ps ih =>
      obtain ⟨u, hu, hrest⟩ := Option.bind_eq_some_iff.mp h
      have hpasses := passes_of_probe hs.bus hs.keys hu
      obtain ⟨hnew, hids⟩ := List.nodup_cons.mp hids
      have hfirst : Ready w s q :=
        ready_of_probe hs hu (used_of_scanFrom hpasses.bus hpasses.keys hrest hused)
      intro r hr
      rcases List.mem_cons.mp hr with rfl | hr
      · exact hfirst
      · have hne : r.id ≠ q.id := fun heq => hnew (heq ▸ List.mem_map_of_mem hr)
        exact (hpasses.ready_iff hs hne).mp (ih (hs.probe hfirst hu) hids hrest r hr)

/-- A scan starts with an empty list. -/
theorem State.Inv.relisted (hs : s.Inv) : State.Inv { s with m_available_devices := [] } :=
  ⟨hs.open_, ⟨⟨hs.bus.created.1, nofun⟩, hs.bus.addresses⟩, hs.ids, hs.keys, hs.balanced,
    hs.kept_lt, hs.gone⟩

/-- **A scan** keeps the handles in order if all devices are ready. -/
theorem State.Inv.scan (hs : s.Inv) (hready : 0 ≤ w.device_count → ∀ q ∈ s.attached, Ready w s q)
    (h : scan w s = some t) : t.Inv ∧ t.misused = s.misused := by
  rw [UsbHandles.scan] at h
  simp only at h
  split at h
  · obtain rfl := Option.some.inj h
    exact ⟨hs.relisted, rfl⟩
  · rename_i hcount
    exact hs.relisted.scanFrom hs.ids (hready (not_lt.mp hcount)) h

/-- **A scan without misuse** found all devices ready, whatever list there was. -/
theorem ready_of_scan (hs : s.Inv) (h : scan w s = some t) (hused : t.misused = false)
    (hcount : 0 ≤ w.device_count) : ∀ q ∈ s.attached, Ready w s q := by
  rw [scan, if_neg (not_lt.mpr hcount)] at h
  intro q hq
  exact ready_of_scanFrom hs.relisted hs.ids h hused q hq

/-! ### The other steps -/

/-- What changes the bus or the session only, and makes no object, keeps the handles in order. -/
theorem State.Inv.onBus (hs : s.Inv) {e : Enumeration} (hbus : e.Inv)
    (hids : (e.attached.map UsbDevice.id).Nodup) (hkeys : e.m_deviceHandles = s.m_deviceHandles)
    (hcreated : e.created = s.created) : State.Inv { s with toEnumeration := e } := by
  refine ⟨fun d hd => hs.open_ d ⟨hcreated ▸ hd.1, hd.2⟩, hbus, hids, fun i => ?_, hs.balanced,
    hs.kept_lt, fun d hd => ⟨?_, (hs.gone d hd).2⟩⟩
  · simp only [hkeys]
    exact hs.keys i
  · exact (congrArg (d ∈ ·) hcreated).mpr (hs.gone d hd).1

/-- A handle that is used stays as it is. -/
theorem State.Inv.use (hs : s.Inv) (ds : List ℕ) : (s.use ds).Inv :=
  ⟨hs.open_, hs.bus, hs.ids, hs.keys, hs.balanced, hs.kept_lt, hs.gone⟩

/-- Calls that do not scan make no object. -/
theorem created_of_offline {e f : Session} {a : Session.Act} (ha : Enumeration.Offline a = true)
    (h : Session.machine.step e a = some f) : f.created = e.created := by
  have hall : Session.AllDevices (fun _ => True) e := ⟨fun _ _ => trivial, fun _ _ => trivial⟩
  cases a with
  | add device claim =>
      simp only [Session.machine] at h
      split at h
      · obtain rfl := Option.some.inj h
        exact (hall.add (fun _ _ => trivial) claim).2
      · cases h
  | remove device detached release =>
      obtain rfl := Option.some.inj h
      exact (hall.remove device detached release).2
  | configure sampleRate mem =>
      obtain rfl := Option.some.inj h
      obtain ⟨heap, rate, heq⟩ := Session.configure_frame sampleRate mem e
      rw [heq]
  | start _ _ _ | run _ _ _ | end_ | completion => exact (Session.SameDevices.step rfl h).created
  | scan _ | add_all _ _ => cases ha

/-- The objects there are, and those that are alive, after one was deleted. -/
theorem created_delete (hs : s.Inv) (d : ℕ) (release : ℤ) :
    (UsbHandles.delete d release s).created = s.created :=
  (hs.bus.created.remove (some d) false release).2

/-- All but the deleted object stay alive. -/
theorem alive_delete_iff (hs : s.Inv) {d : ℕ} {release : ℤ} {e : ℕ} :
    (UsbHandles.delete d release s).Alive e ↔ s.Alive e ∧ e ≠ d := by
  rw [State.Alive, State.Alive, created_delete hs]
  simp only [UsbHandles.delete, List.mem_cons, not_or]
  tauto

/-- **Deleting an object** that shares its handle with no other keeps the handles in order. -/
theorem State.Inv.delete (hs : s.Inv) {d : ℕ} {release : ℤ} (hd : s.Alive d)
    (hunshared : ∀ e, s.Alive e → e ≠ d → s.m_usb e ≠ s.m_usb d) :
    (UsbHandles.delete d release s).Inv := by
  have hbalanced := hs.balanced.release (hs.open_ d hd)
  have hcreated := created_delete hs d release
  have hdevices := (hs.bus.created.remove (some d) false release).1
  refine ⟨fun e he => ?_, ⟨⟨fun e he => ?_, fun e he => ?_⟩, hs.bus.addresses⟩, hs.ids, hs.keys,
    hbalanced, hs.kept_lt, fun e he => ?_⟩
  · obtain ⟨halive, hne⟩ := (alive_delete_iff hs).mp he
    exact (List.mem_erase_of_ne (hunshared e halive hne)).mpr (hs.open_ e halive)
  · exact hcreated ▸ hdevices.1 e he
  · exact hcreated ▸ hdevices.2 e he
  · rw [hcreated]
    rcases List.mem_cons.mp he with rfl | he
    · exact ⟨hd.1, List.mem_append_right _ List.mem_cons_self⟩
    · exact ⟨(hs.gone e he).1, List.mem_append_left _ (hs.gone e he).2⟩

/-- Deleting an object uses its handle. -/
theorem State.Inv.misused_delete_iff (hs : s.Inv) {d : ℕ} {release : ℤ} (hd : d ∈ s.created) :
    (UsbHandles.delete d release s).misused = false ↔ s.misused = false ∧ d ∉ s.deleted := by
  simp only [UsbHandles.delete, Bool.or_eq_false_iff, decide_eq_false_iff_not, not_not,
    hs.owned_iff hd]

/-- An object that shares its handle is left without an open one. -/
theorem unshared_of_delete (hs : s.Inv) {d : ℕ} {release : ℤ}
    (hsafe : Safe (UsbHandles.delete d release s)) (e : ℕ) (he : s.Alive e) (hne : e ≠ d) :
    s.m_usb e ≠ s.m_usb d := by
  intro hshared
  have hopen : s.m_usb e ∈ s.handles.owned.erase (s.m_usb d) :=
    hsafe.open_ e ((alive_delete_iff hs).mpr ⟨he, hne⟩)
  rw [hshared] at hopen
  exact hs.balanced.nodup.of_append_left.not_mem_erase hopen

/-- What a call does. -/
theorem call_cases {a : Session.Act} (h : machine.step s (.call a) = some t) :
    (∀ d ∈ uses s.toSession a, d ∈ s.created) ∧
      ∃ e, (Enumeration.machine fun _ => 0).step s.toEnumeration (.call a) = some e ∧
        e.created = s.created ∧ e.attached = s.attached ∧ e.m_deviceHandles = s.m_deviceHandles ∧
        t = { s.use (uses s.toSession a) with toEnumeration := e } := by
  simp only [machine] at h
  split at h
  · rename_i huses
    obtain ⟨e, he, rfl⟩ := Option.map_eq_some_iff.mp h
    refine ⟨huses, e, he, ?_⟩
    simp only [Enumeration.machine] at he
    split at he
    · rename_i ha
      obtain ⟨f, hf, rfl⟩ := Option.map_eq_some_iff.mp he
      exact ⟨created_of_offline ha hf, rfl, rfl, rfl⟩
    · cases he
  · cases h

/-- What a use does. -/
theorem use_cases {d : ℕ} (h : machine.step s (.use d) = some t) :
    d ∈ s.created ∧ t = s.use [d] := by
  obtain ⟨hd, h⟩ := Option.ite_none_right_eq_some.mp h
  exact ⟨hd, (Option.some.inj h).symm⟩

/-- What deleting an object does. -/
theorem delete_cases {d : ℕ} {release : ℤ} (h : machine.step s (.delete d release) = some t) :
    d ∈ s.created ∧ t = UsbHandles.delete d release s := by
  obtain ⟨hd, h⟩ := Option.ite_none_right_eq_some.mp h
  exact ⟨hd, (Option.some.inj h).symm⟩

/-! ### Whole runs -/

/-- **The step lemma**: the handles of the objects stay open. -/
theorem State.Inv.step (hs : s.Inv) {a : Act} (hok : Careful s a)
    (h : machine.step s a = some t) : t.Inv := by
  cases a with
  | plug i p =>
      obtain ⟨e, he, rfl⟩ := Option.map_eq_some_iff.mp h
      have hbus := hs.bus.step he
      simp only [Enumeration.machine] at he
      split at he
      · rename_i hfree
        obtain rfl := Option.some.inj he
        refine hs.onBus hbus ?_ rfl rfl
        simp only [List.map_append, List.map_cons]
        rw [List.nodup_middle, ← List.map_append, List.take_append_drop, List.nodup_cons]
        refine ⟨fun hmem => ?_, hs.ids⟩
        obtain ⟨q, hq, hid⟩ := List.mem_map.mp hmem
        exact (hfree.1 q hq).2 hid
      · cases he
  | unplug id =>
      obtain rfl := Option.some.inj h
      have hbus : Enumeration.Inv { s.toEnumeration with
          attached := s.attached.filter fun p => p.id ≠ id } :=
        ⟨hs.bus.created, hs.bus.addresses.sublist (List.filter_sublist.map _)⟩
      exact hs.onBus hbus (hs.ids.sublist (List.filter_sublist.map _)) rfl rfl
  | store id data =>
      obtain rfl := Option.some.inj h
      refine hs.onBus (hs.bus.stored id data) ?_ rfl rfl
      have hsame : (s.stored id data).attached.map UsbDevice.id =
          s.attached.map UsbDevice.id := by
        simp only [Enumeration.stored, List.map_map]
        refine List.map_congr_left fun p _ => ?_
        simp only [Function.comp_apply]
        split
        · rfl
        · rfl
      rw [hsame]
      exact hs.ids
  | call a =>
      obtain ⟨-, e, he, hcreated, hattached, hkeys, rfl⟩ := call_cases h
      exact (hs.use _).onBus (hs.bus.step he) (hattached ▸ hs.ids) hkeys hcreated
  | scan w => exact (hs.scan hok h).1
  | use d =>
      obtain ⟨-, rfl⟩ := use_cases h
      exact hs.use [d]
  | delete d release =>
      obtain ⟨hd, rfl⟩ := delete_cases h
      exact hs.delete ⟨hd, hok.1⟩ hok.2

/-- No handle is used after it was closed. -/
theorem State.Inv.used_of_step (hs : s.Inv) {a : Act} (hok : Proper s a)
    (hused : s.misused = false) (h : machine.step s a = some t) : t.misused = false := by
  cases a with
  | plug i p =>
      obtain ⟨e, -, rfl⟩ := Option.map_eq_some_iff.mp h
      exact hused
  | unplug id | store id data =>
      obtain rfl := Option.some.inj h
      exact hused
  | call a =>
      obtain ⟨huses, e, -, -, -, -, rfl⟩ := call_cases h
      exact (hs.misused_use_iff huses).mpr ⟨hused, hok.2⟩
  | scan w => exact (hs.scan hok.1 h).2.trans hused
  | use d =>
      obtain ⟨hd, rfl⟩ := use_cases h
      exact (hs.misused_use_iff (List.forall_mem_singleton.mpr hd)).mpr
        ⟨hused, List.forall_mem_singleton.mpr hok.2⟩
  | delete d release =>
      obtain ⟨hd, rfl⟩ := delete_cases h
      exact (hs.misused_delete_iff hd).mpr ⟨hused, hok.1.1⟩

/-- A step that leaves the handles in order was proper. -/
theorem proper_of_step (hs : s.Inv) {a : Act} (h : machine.step s a = some t)
    (hsafe : Safe t) : Proper s a := by
  cases a with
  | plug i p | unplug id | store id data => exact ⟨trivial, trivial⟩
  | call a =>
      obtain ⟨huses, e, -, -, -, -, rfl⟩ := call_cases h
      exact ⟨trivial, ((hs.misused_use_iff huses).mp hsafe.used).2⟩
  | scan w => exact ⟨ready_of_scan hs h hsafe.used, trivial⟩
  | use d =>
      obtain ⟨hd, rfl⟩ := use_cases h
      have hused := (hs.misused_use_iff (List.forall_mem_singleton.mpr hd)).mp hsafe.used
      exact ⟨trivial, hused.2 d List.mem_cons_self⟩
  | delete d release =>
      obtain ⟨hd, rfl⟩ := delete_cases h
      have hthere := ((hs.misused_delete_iff hd).mp hsafe.used).2
      exact ⟨⟨hthere, unshared_of_delete hs hsafe⟩, trivial⟩

/-- No device was found yet. -/
theorem inv_init : init.Inv := by
  refine ⟨fun d hd => absurd hd.1 List.not_mem_nil, ⟨⟨nofun, nofun⟩, List.nodup_nil⟩,
    List.nodup_nil, fun i => ?_, Ledger.balanced_empty, nofun, nofun⟩
  exact iff_of_false List.not_mem_nil Bool.false_ne_true

/-- **The handles are in order** in every state of a run, exactly when every scan finds the devices
that cannot be opened again with an open handle, no object is deleted while another one has its
handle, and none is called or deleted again after that. -/
theorem handles_safe_iff {as : List Act} (hrun : machine.run init as = some s) :
    machine.Meets Proper init as ↔
      ∀ bs t, bs <+: as → machine.run init bs = some t → Safe t :=
  Machine.meets_iff_of_step (fun s (hs : s.Inv ∧ s.misused = false) => hs.1.safe hs.2)
    (fun _ _ _ hs hok hstep => ⟨hs.1.step hok.1 hstep, hs.1.used_of_step hok hs.2 hstep⟩)
    (fun _ _ _ hs hstep hsafe => proper_of_step hs.1 hstep hsafe) ⟨inv_init, rfl⟩ hrun

/-- A board is scanned, and cannot be opened again in the next scan; the new object joins the
session. -/
def refused : List Act :=
  [.plug 0 Enumeration.board, .scan (Enumeration.answered 1),
    .scan { Enumeration.answered 2 with replies := fun _ => ⟨0, -3, true, true, true⟩ },
    .call (.add (some 2) 0)]

/-- Both objects have the handle, and it is open. -/
theorem handles_safe_iff_refused : ∃ s, machine.run init refused = some s ∧
    ∀ bs t, bs <+: refused → machine.run init bs = some t → Safe t := by
  obtain ⟨s, hs⟩ := Option.isSome_iff_exists.mp
    (show (machine.run init refused).isSome = true by decide +kernel)
  exact ⟨s, hs, (handles_safe_iff hs).mp (by decide +kernel)⟩

/-- `remove` is refused, so that the object of the board is still a member when it is deleted. -/
example : (machine.run init [.plug 0 Enumeration.board, .scan (Enumeration.answered 1),
    .call (.add (some 1) 0), .delete 1 (-1), .call (.start 0 (fun _ => .plenty)
      fun _ => ⟨0, 0, 0⟩)]).map State.misused = some true := by
  decide +kernel

/-! ### Where every opening gives a handle -/

/-- No device that is opened a second time is refused, and no object is deleted twice. -/
def Opening (s : State) : Act → Prop
  | .scan w => ∀ p ∈ s.attached, (w.replies p.id).opened ≠ Enumeration.LIBUSB_ERROR_ACCESS
  | .delete d _ => d ∉ s.deleted
  | _ => True

instance (s : State) (a : Act) : Decidable (Opening s a) :=
  match a with
  | .scan _ => inferInstanceAs (Decidable (∀ p ∈ s.attached, _))
  | .delete d _ => inferInstanceAs (Decidable (d ∉ s.deleted))
  | .plug _ _ | .unplug _ | .store _ _ | .call _ | .use _ => isTrue trivial

/-- Every object has a handle of its own, and only its handle is closed with it. -/
structure State.Own (s : State) : Prop extends s.Inv where
  distinct : ∀ d e, s.Alive d → s.Alive e → s.m_usb d = s.m_usb e → d = e
  closed : ∀ h, h ∈ s.handles.released ↔ ∃ d ∈ s.deleted, s.m_usb d = h

/-- What probing makes of the objects: nothing, or one more with the handle. -/
theorem objects_of_probe (hkeys : ∀ i, i ∈ s.m_deviceHandles ↔ (s.kept i).isSome)
    (h : probe w p s = some t) :
    t.deleted = s.deleted ∧ t.handles.released = s.handles.released ∧
      (((∀ d, d ∈ t.created ↔ d ∈ s.created) ∧ t.m_usb = s.m_usb) ∨
        ∃ d k, Opens w p ∧ d ∉ s.created ∧ (∀ e, e ∈ t.created ↔ e ∈ s.created ∨ e = d) ∧
          s.usb_handle w p = some k ∧ t.m_usb = Function.update s.m_usb d k) := by
  obtain ⟨handles, found, hprobe, hcases⟩ := probe_cases hkeys h
  have hnone : ∀ found, (∀ d fwver serial, found ≠ some (Session.Found.probed d fwver serial)) →
      ∀ e, e ∈ (s.place p handles found).created ↔ e ∈ s.created := by
    intro found hold e
    refine mem_created_place.trans (or_iff_left ?_)
    rintro ⟨fwver, serial, hfound⟩
    exact hold _ _ _ hfound
  rcases hcases with ⟨-, -, hold, rfl⟩ | ⟨k, htakes, -, husb, rfl⟩
  · refine ⟨rfl, ?_, .inl ⟨hnone found hold, rfl⟩⟩
    simp only
    split
    · exact released_opened
    · rfl
  · refine ⟨rfl, released_opened, ?_⟩
    rcases found with - | ⟨d⟩ | ⟨d, fwver, serial⟩
    · exact .inl ⟨hnone _ nofun, rfl⟩
    · exact .inl ⟨hnone _ nofun, rfl⟩
    · refine .inr ⟨d, k, htakes.1, ((probe_device_frame hprobe).2.2 _ _ _ rfl).2, fun e => ?_, husb,
        rfl⟩
      refine mem_created_place.trans (or_congr_right ⟨?_, ?_⟩)
      · rintro ⟨_, _, hfound⟩
        cases hfound
        rfl
      · rintro rfl
        exact ⟨_, _, rfl⟩

/-- A device that is not refused is ready. -/
theorem ready_of_opened (hopened : (w.replies p.id).opened ≠ Enumeration.LIBUSB_ERROR_ACCESS) :
    Ready w s p := fun hopens _ => .inl (hopens.2.2.resolve_right hopened)

/-- A device that is not refused gets a handle of its own. -/
theorem State.Own.probe (hs : s.Own)
    (hopened : (w.replies p.id).opened ≠ Enumeration.LIBUSB_ERROR_ACCESS)
    (h : probe w p s = some t) : t.Own := by
  have hinv := hs.toInv.probe (ready_of_opened hopened) h
  obtain ⟨hdeleted, hreleased, ⟨hcreated, hsame⟩ | ⟨d, k, hopens, hnew, hcreated, husb, hm_usb⟩⟩ :=
    objects_of_probe hs.keys h
  · refine ⟨hinv, fun d e hd he heq => ?_, fun k => ?_⟩
    · rw [hsame] at heq
      rw [State.Alive, hcreated, hdeleted] at hd he
      exact hs.distinct d e hd he heq
    · rw [hreleased, hdeleted, hsame]
      exact hs.closed k
  · have hk : k = s.handles.obtained := by
      rw [State.usb_handle, if_pos (hopens.2.2.resolve_right hopened)] at husb
      exact (Option.some.inj husb).symm
    have hfresh : ∀ e, s.Alive e → s.m_usb e ≠ k := fun e he heq =>
      Nat.ne_of_lt (hs.balanced.lt_obtained (hs.open_ e he)) (heq.trans hk)
    have halive : ∀ e, t.Alive e → e ≠ d → s.Alive e := fun e he hne =>
      ⟨((hcreated e).mp he.1).resolve_right hne, hdeleted ▸ he.2⟩
    refine ⟨hinv, fun e f he hf heq => ?_, fun k => ?_⟩
    · rw [hm_usb] at heq
      by_cases hed : e = d
      · by_cases hfd : f = d
        · rw [hed, hfd]
        · rw [hed, Function.update_self, Function.update_of_ne hfd] at heq
          exact absurd heq.symm (hfresh f (halive f hf hfd))
      · by_cases hfd : f = d
        · rw [hfd, Function.update_self, Function.update_of_ne hed] at heq
          exact absurd heq (hfresh e (halive e he hed))
        · rw [Function.update_of_ne hed, Function.update_of_ne hfd] at heq
          exact hs.distinct e f (halive e he hed) (halive f hf hfd) heq
    · rw [hreleased, hdeleted, hm_usb, hs.closed]
      refine exists_congr fun e => and_congr_right fun he => ?_
      have hne : e ≠ d := fun heq => hnew (heq ▸ (hs.gone e he).1)
      rw [Function.update_of_ne hne]

/-- So do the devices of a scan. -/
theorem State.Own.scanFrom {ps : List UsbDevice} (hs : s.Own)
    (hopened : ∀ q ∈ ps, (w.replies q.id).opened ≠ Enumeration.LIBUSB_ERROR_ACCESS)
    (h : scanFrom w ps s = some t) : t.Own := by
  induction ps generalizing s with
  | nil =>
      obtain rfl := Option.some.inj h
      exact hs
  | cons q ps ih =>
      obtain ⟨u, hu, hrest⟩ := Option.bind_eq_some_iff.mp h
      exact ih (hs.probe (hopened q List.mem_cons_self) hu)
        (fun r hr => hopened r (List.mem_cons_of_mem _ hr)) hrest

/-- Deleting an object closes its handle only. -/
theorem State.Own.delete (hs : s.Own) {d : ℕ} {release : ℤ} (hd : s.Alive d) :
    (UsbHandles.delete d release s).Own := by
  have hinv : (UsbHandles.delete d release s).Inv :=
    hs.toInv.delete hd fun e he hne heq => hne (hs.distinct e d he hd heq)
  have halive : ∀ e, (UsbHandles.delete d release s).Alive e → s.Alive e := fun e he =>
    ((alive_delete_iff hs.toInv).mp he).1
  refine ⟨hinv, fun e f he hf heq => hs.distinct e f (halive e he) (halive f hf) heq, fun k => ?_⟩
  · simp only [UsbHandles.delete, Ledger.release, List.mem_append, List.mem_cons, List.not_mem_nil,
      or_false, hs.closed]
    constructor
    · rintro (⟨e, he, heq⟩ | rfl)
      · exact ⟨e, .inr he, heq⟩
      · exact ⟨d, .inl rfl, rfl⟩
    · rintro ⟨e, rfl | he, heq⟩
      · exact .inr heq.symm
      · exact .inl ⟨e, he, heq⟩

/-- Such a run is careful. -/
theorem State.Own.careful (hs : s.Own) {a : Act} (hok : Opening s a)
    (h : machine.step s a = some t) : Careful s a := by
  cases a with
  | plug i p | unplug id | store id data | call a | use d => trivial
  | scan w => exact fun _ q hq => ready_of_opened (hok q hq)
  | delete d release =>
      obtain ⟨hd, -⟩ := delete_cases h
      exact ⟨hok, fun e he hne heq => hne (hs.distinct e d he ⟨hd, hok⟩ heq)⟩

/-- **The step lemma** for such runs. -/
theorem State.Own.step (hs : s.Own) {a : Act} (hok : Opening s a)
    (h : machine.step s a = some t) : t.Own := by
  have hinv := hs.toInv.step (hs.careful hok h) h
  -- the objects stay as they are
  have hsame : t.created = s.created → t.deleted = s.deleted → t.m_usb = s.m_usb →
      t.handles = s.handles → t.Own := by
    intro hcreated hdeleted hm_usb hhandles
    refine ⟨hinv, fun d e hd he heq => ?_, fun h => ?_⟩
    · rw [State.Alive, hcreated, hdeleted] at hd he
      rw [hm_usb] at heq
      exact hs.distinct d e hd he heq
    · rw [hhandles, hdeleted, hm_usb]
      exact hs.closed h
  cases a with
  | plug i p =>
      obtain ⟨e, he, rfl⟩ := Option.map_eq_some_iff.mp h
      simp only [Enumeration.machine] at he
      split at he
      · obtain rfl := Option.some.inj he
        exact hsame rfl rfl rfl rfl
      · cases he
  | unplug id | store id data =>
      obtain rfl := Option.some.inj h
      exact hsame rfl rfl rfl rfl
  | call a =>
      obtain ⟨-, e, -, hcreated, -, -, rfl⟩ := call_cases h
      exact hsame hcreated rfl rfl rfl
  | scan w =>
      have hrelisted : State.Own { s with m_available_devices := [] } :=
        ⟨hs.toInv.relisted, hs.distinct, hs.closed⟩
      simp only [machine, scan] at h
      split at h
      · obtain rfl := Option.some.inj h
        exact hrelisted
      · exact hrelisted.scanFrom hok h
  | use d =>
      obtain ⟨-, rfl⟩ := use_cases h
      exact hsame rfl rfl rfl rfl
  | delete d release =>
      obtain ⟨hd, rfl⟩ := delete_cases h
      exact hs.delete ⟨hd, hok⟩

/-- **Where no opening is refused** every object has an open handle of its own, and a handle stays
open as long as no object that has it is deleted: for ever, if `probe_device` made none, because a
member stood for the device or a string could not be read. The handles are in order unless a
deleted object is called. -/
theorem open_iff {as : List Act} (hopening : machine.Meets Opening init as)
    (hrun : machine.run init as = some s) :
    (∀ d, s.Alive d → s.m_usb d ∈ s.handles.owned) ∧
      (∀ d e, s.Alive d → s.Alive e → s.m_usb d = s.m_usb e → d = e) ∧
      (∀ h, h ∈ s.handles.owned ↔
        h < s.handles.obtained ∧ ∀ d ∈ s.deleted, s.m_usb d ≠ h) ∧
      s.handles.released.Nodup ∧ (machine.Meets Sparing init as → Safe s) := by
  have hinit : init.Own := by
    refine ⟨inv_init, fun d _ hd => absurd hd.1 List.not_mem_nil, fun h => ?_⟩
    exact iff_of_false List.not_mem_nil (by rintro ⟨d, hd, -⟩; cases hd)
  have hs : s.Own :=
    Machine.invariant_of_meets (fun _ _ _ hs hok hstep => hs.step hok hstep) hinit hopening hrun
  have hsparing : machine.Meets Sparing init as → s.misused = false := fun hsparing =>
    (Machine.invariant_of_meets
      (fun (s : State) _ _ (hs : s.Own ∧ s.misused = false) hok hstep => ⟨hs.1.step hok.1 hstep,
        hs.1.used_of_step ⟨hs.1.careful hok.1 hstep, hok.2⟩ hs.2 hstep⟩)
      ⟨hinit, rfl⟩ (hopening.and hsparing) hrun).2
  refine ⟨hs.open_, hs.distinct, fun h => ?_, hs.balanced.nodup.of_append_right,
    fun h => hs.safe (hsparing h)⟩
  have hmem : h ∈ s.handles.owned ∨ h ∈ s.handles.released ↔ h < s.handles.obtained := by
    rw [← List.mem_append, hs.balanced.mem_iff, List.mem_range]
  have hdisjoint : h ∈ s.handles.owned → h ∉ s.handles.released := fun howned =>
    hs.balanced.nodup.disjoint howned
  rw [hs.closed] at hmem hdisjoint
  constructor
  · intro howned
    exact ⟨hmem.mp (.inl howned), fun d hd heq => hdisjoint howned ⟨d, hd, heq⟩⟩
  · rintro ⟨hlt, hnone⟩
    exact (hmem.mpr hlt).resolve_right fun ⟨d, hd, heq⟩ => hnone d hd heq

/-- A board joins the session and is scanned again before it is deleted. -/
def scannedAgain : List Act :=
  [.plug 0 Enumeration.board, .scan (Enumeration.answered 1), .call (.add (some 1) 0),
    .scan (Enumeration.answered 2), .delete 1 0]

/-- The handle of the second scan stays open. -/
theorem open_iff_scannedAgain : ∃ s, machine.run init scannedAgain = some s ∧
    s.handles.obtained = 2 ∧ s.deleted = [1] ∧ s.m_usb 1 = 0 ∧
      (1 ∈ s.handles.owned ↔ 1 < s.handles.obtained ∧ ∀ d ∈ s.deleted, s.m_usb d ≠ 1) := by
  have hrun : (machine.run init scannedAgain).map
      (fun s => (s.handles.obtained, s.deleted, s.m_usb 1)) = some (2, [1], 0) := by
    decide +kernel
  obtain ⟨s, hs, hend⟩ := Option.map_eq_some_iff.mp hrun
  simp only [Prod.mk.injEq] at hend
  exact ⟨s, hs, hend.1, hend.2.1, hend.2.2, (open_iff (by decide +kernel) hs).2.2.1 1⟩

end UsbHandles

end Libsmu
