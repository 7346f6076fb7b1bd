import Libsmu.DeviceSet
import Mathlib.Data.List.ReduceOption

/-!
# Lifetimes of the Devices

The devices of a session are objects made by `probe_device`; `m_devices` and
`m_available_devices` hold pointers to them. `Session::flash_firmware` deletes the devices it
puts into SAM-BA mode. It calls `remove` before, whose result it does not look at, and it does
not touch `m_available_devices`.

An address stands here for one object for ever, so that a pointer to a deleted object is told
from a pointer to a new one at the same place. The devices that are flashed are taken one
after the other, in any order: what the threads do for different devices commutes.

## Main results

* `forceSamba_frame`, `mem_m_devices_forceSamba`: what putting devices into SAM-BA mode does.
* `Owned.step`: calls that release what they delete keep the devices owned.
* `safe_iff`: in a run no collection holds a deleted device and no device is deleted twice
  exactly when every call of `flash_firmware` releases what it deletes.
* `dangling`: `flash_firmware` for all available devices leaves their pointers behind.
-/

namespace Libsmu

namespace Lifetimes

open Session

/-- A session, with a record of the devices that were deleted. -/
structure State extends Session where
  /-- record: one entry for every `delete` -/
  deleted : List ℕ

/-- No devices. -/
def init : State where
  toSession := .init
  deleted := []

/-- The object was made and is not deleted. -/
def State.Alive (s : State) (d : ℕ) : Prop :=
  d ∈ s.created ∧ d ∉ s.deleted

instance (s : State) (d : ℕ) : Decidable (s.Alive d) :=
  inferInstanceAs (Decidable (_ ∧ _))

/-- **No dangling devices**: both collections hold live devices, and none was deleted
twice. -/
structure Safe (s : State) : Prop where
  devices : ∀ d ∈ s.m_devices, s.Alive d
  available : ∀ d ∈ s.m_available_devices, s.Alive d
  deleted : s.deleted.Nodup

/-! ### Flashing -/

/-- A call of `Session::flash_firmware`, and what it meets. -/
structure Flash where
  /-- the argument; pointers may be null -/
  devices : List (Option ℕ)
  /-- the file can be opened -/
  opened : Bool
  /-- the order in which the threads take the devices -/
  order : List (Option ℕ)
  /-- what the device's `release` returns -/
  release : ℕ → ℤ
  /-- what `scan_samba_devs` returns -/
  samba_devs : ℤ
  /-- the exception in `e_ptr` after the devices in SAM-BA mode are flashed -/
  e_ptr : Option String

/-- The devices to flash: all available ones if none are given. -/
def State.targets (s : State) (flash : Flash) : List (Option ℕ) :=
  if flash.devices.length = 0 then s.m_available_devices.map some else flash.devices

/-- The loop that forces the devices into SAM-BA mode: each is removed from the session, what
`remove` says being ignored, and deleted. -/
def forceSamba (release : ℕ → ℤ) : List (Option ℕ) → State → State
  | [], s => s
  | none :: ds, s => forceSamba release ds s
  | some d :: ds, s =>
      forceSamba release ds
        { toSession := (s.toSession.remove (some d) false (release d)).1
          deleted := d :: s.deleted }

/-- `Session::flash_firmware`. -/
def flash_firmware (flash : Flash) (s : State) : State × Except String ℤ :=
  if flash.opened = false then (s, .error "failed to open firmware file")
  else
    let devices := s.targets flash
    let s := forceSamba flash.release flash.order s
    if flash.samba_devs < 0 then
      (s, .error "failed to scan for devices in SAM-BA mode")
    else if flash.samba_devs = 0 then
      (s, .error "no devices found in SAM-BA mode")
    else if flash.samba_devs < devices.length then
      (s, .error "failed forcing devices into SAM-BA mode")
    else
      match flash.e_ptr with
      | some e => (s, .error e)
      | none => (s, .ok flash.samba_devs)

/-- A call of the session. -/
inductive Act
  | call (a : Session.Act)
  | destroy (device : Option ℕ)
  | flash_firmware (flash : Flash)

/-- The session as a machine. The devices handed over are alive. -/
def machine : Machine State Act where
  step s
    | .call a =>
        if ∀ d ∈ a.argument, s.Alive d then
          (Session.machine.step s.toSession a).map fun t => { s with toSession := t }
        else none
    | .destroy device =>
        if ∀ d ∈ device, s.Alive d then
          some { s with toSession := (s.toSession.destroy device).1 }
        else none
    | .flash_firmware flash =>
        if (∀ d ∈ flash.devices.reduceOption, s.Alive d) ∧ flash.order.Perm (s.targets flash) then
          some (Lifetimes.flash_firmware flash s).1
        else none

/-- `remove` takes a device out when the session is not active and the device lets go. -/
theorem remove_some_fst (d : ℕ) (release : ℤ) (s : Session) :
    (s.remove (some d) false release).1 =
      if s.m_active_devices = 0 ∧ release = 0 then { s with m_devices := s.m_devices.erase d }
      else s := by
  rw [Session.remove.eq_def]
  by_cases hactive : s.m_active_devices = 0
  · simp only [hactive, ne_eq, not_true_eq_false, if_false, Bool.false_eq_true, false_and,
      true_and]
    split
    · rfl
    · rfl
  · rw [if_pos hactive, if_neg fun h => hactive h.1]

/-- Putting devices into SAM-BA mode deletes all of them, and leaves the list of available
devices alone. -/
theorem forceSamba_frame (release : ℕ → ℤ) (ds : List (Option ℕ)) (s : State) :
    (forceSamba release ds s).created = s.created ∧
      (forceSamba release ds s).m_available_devices = s.m_available_devices ∧
      (forceSamba release ds s).deleted = ds.reduceOption.reverse ++ s.deleted := by
  induction ds generalizing s with
  | nil => exact ⟨rfl, rfl, rfl⟩
  | cons d ds ih =>
      cases d with
      | none =>
          rw [List.reduceOption_cons_of_none]
          exact ih s
      | some d =>
          obtain ⟨hcreated, havailable, hdeleted⟩ := ih
            { toSession := (s.toSession.remove (some d) false (release d)).1
              deleted := d :: s.deleted }
          rw [forceSamba, hcreated, havailable, hdeleted, remove_some_fst,
            List.reduceOption_cons_of_some, List.reverse_cons, List.append_assoc]
          split
          · exact ⟨rfl, rfl, rfl⟩
          · exact ⟨rfl, rfl, rfl⟩

/-- The devices that stay in the session: those not given, and those that `remove` refuses to
take out. -/
theorem mem_m_devices_forceSamba (release : ℕ → ℤ) (ds : List (Option ℕ)) {s : State}
    (hs : Sorted s.m_devices) :
    Sorted (forceSamba release ds s).m_devices ∧ ∀ d, d ∈ (forceSamba release ds s).m_devices ↔
      d ∈ s.m_devices ∧ (d ∈ ds.reduceOption → ¬(s.m_active_devices = 0 ∧ release d = 0)) := by
  induction ds generalizing s with
  | nil =>
      refine ⟨hs, fun d => ?_⟩
      rw [List.reduceOption_nil]
      exact ⟨fun hd => ⟨hd, fun hnil => by cases hnil⟩, fun hd => hd.1⟩
  | cons e ds ih =>
      cases e with
      | none =>
          rw [List.reduceOption_cons_of_none]
          exact ih hs
      | some e =>
          rw [forceSamba, remove_some_fst, List.reduceOption_cons_of_some]
          by_cases hremove : s.m_active_devices = 0 ∧ release e = 0
          · rw [if_pos hremove]
            have hnodup : s.m_devices.Nodup := hs.imp fun hlt => Nat.ne_of_lt hlt
            obtain ⟨hsorted, hmem⟩ := ih
              (s := ⟨{ s.toSession with m_devices := s.m_devices.erase e }, e :: s.deleted⟩)
              (hs.sublist List.erase_sublist)
            refine ⟨hsorted, fun d => ?_⟩
            rw [hmem d, hnodup.mem_erase_iff, List.mem_cons]
            constructor
            · rintro ⟨⟨hne, hd⟩, hds⟩
              exact ⟨hd, fun hmem => hds (hmem.resolve_left hne)⟩
            · rintro ⟨hd, hds⟩
              refine ⟨⟨?_, hd⟩, fun hmem => hds (.inr hmem)⟩
              rintro rfl
              exact hds (.inl rfl) hremove
          · rw [if_neg hremove]
            obtain ⟨hsorted, hmem⟩ := ih (s := ⟨s.toSession, e :: s.deleted⟩) hs
            refine ⟨hsorted, fun d => ?_⟩
            rw [hmem d, List.mem_cons]
            constructor
            · rintro ⟨hd, hds⟩
              refine ⟨hd, ?_⟩
              rintro (rfl | hmem)
              · exact hremove
              · exact hds hmem
            · rintro ⟨hd, hds⟩
              exact ⟨hd, fun hmem => hds (.inr hmem)⟩

theorem flash_firmware_fst (flash : Flash) (s : State) :
    (Lifetimes.flash_firmware flash s).1 =
      if flash.opened = false then s else forceSamba flash.release flash.order s := by
  rw [Lifetimes.flash_firmware]
  split
  · rfl
  · simp only
    split
    · rfl
    · split
      · rfl
      · split
        · rfl
        · cases flash.e_ptr with
          | none => rfl
          | some e => rfl

/-! ### Ownership -/

/-- The condition on the calls of `flash_firmware`: no device is given twice, none is on the
list of available devices, and those of the session can be removed from it: it is not active,
and they let go. -/
def Released (s : State) : Act → Prop
  | .flash_firmware flash =>
      flash.opened = true →
        (s.targets flash).reduceOption.Nodup ∧
          ∀ d ∈ (s.targets flash).reduceOption, d ∉ s.m_available_devices ∧
            (d ∈ s.m_devices → s.m_active_devices = 0 ∧ flash.release d = 0)
  | _ => True

instance (s : State) (a : Act) : Decidable (Released s a) :=
  match a with
  | .flash_firmware _ => inferInstanceAs (Decidable (_ → _ ∧ _))
  | .call _ | .destroy _ => isTrue trivial

/-- The invariant: the session is safe, `m_devices` is a set, and what was deleted was
made. -/
structure Owned (s : State) : Prop extends Safe s where
  sorted : Sorted s.m_devices
  made : s.deleted ⊆ s.created

theorem Owned.init : Owned init where
  devices d hd := by cases hd
  available d hd := by cases hd
  deleted := List.nodup_nil
  sorted := List.Pairwise.nil
  made := List.nil_subset _

/-- A call of the session that deletes nothing. -/
theorem Owned.call {s : State} (h : Owned s) {a : Session.Act} {t : Session}
    (hargument : ∀ d ∈ a.argument, s.Alive d)
    (hstep : Session.machine.step s.toSession a = some t) :
    Owned { s with toSession := t } := by
  have hsub : s.created ⊆ t.created :=
    (forall_of_step (P := fun _ => True) ⟨fun _ _ => trivial, fun _ _ => trivial⟩
      (fun _ _ => trivial) (fun _ _ _ => trivial) hstep).2
  have hlater : ∀ {d}, s.Alive d → d ∈ t.created ∧ d ∉ s.deleted :=
    fun hd => ⟨hsub hd.1, hd.2⟩
  have hall : AllDevices (fun d => d ∈ t.created ∧ d ∉ s.deleted) s.toSession :=
    ⟨fun d hd => hlater (h.devices d hd), fun d hd => hlater (h.available d hd)⟩
  obtain ⟨⟨hdevices, havailable⟩, -⟩ := forall_of_step hall
    (fun d hd => hlater (hargument d hd)) (fun d hd hnew => ⟨hd, fun hmem => hnew (h.made hmem)⟩)
    hstep
  exact ⟨⟨hdevices, havailable, h.deleted⟩, sorted_of_step h.sorted hstep,
    fun d hd => hsub (h.made hd)⟩

/-- `destroy` takes a device off the list. -/
theorem Owned.destroy {s : State} (h : Owned s) (device : Option ℕ) :
    Owned { s with toSession := (s.toSession.destroy device).1 } := by
  rw [Session.destroy.eq_def]
  split
  · exact h
  · cases device with
    | none => exact h
    | some d =>
        simp only
        split
        · refine ⟨⟨h.devices, fun e he => ?_, h.deleted⟩, h.sorted, h.made⟩
          exact h.available e (List.mem_of_mem_eraseP he)
        · exact h

/-- The devices that are flashed are alive. -/
theorem Owned.alive_of_target {s : State} (h : Owned s) {flash : Flash}
    (hdevices : ∀ d ∈ flash.devices.reduceOption, s.Alive d) {d : ℕ}
    (hd : d ∈ (s.targets flash).reduceOption) : s.Alive d := by
  rw [State.targets] at hd
  split at hd
  · obtain ⟨e, he, heq⟩ := List.mem_map.mp (List.reduceOption_mem_iff.mp hd)
    obtain rfl := Option.some.inj heq
    exact h.available e he
  · exact hdevices d hd

/-- **Flashing is safe exactly when it releases what it deletes.** -/
theorem Owned.forceSamba_iff {s : State} (h : Owned s) (flash : Flash)
    (hdevices : ∀ d ∈ flash.devices.reduceOption, s.Alive d)
    (horder : flash.order.Perm (s.targets flash)) :
    Safe (forceSamba flash.release flash.order s) ↔
      (s.targets flash).reduceOption.Nodup ∧
        ∀ d ∈ (s.targets flash).reduceOption, d ∉ s.m_available_devices ∧
          (d ∈ s.m_devices → s.m_active_devices = 0 ∧ flash.release d = 0) := by
  obtain ⟨hcreated, havailable, hdeleted⟩ := forceSamba_frame flash.release flash.order s
  obtain ⟨-, hmem⟩ := mem_m_devices_forceSamba flash.release flash.order h.sorted
  have hperm : flash.order.reduceOption.Perm (s.targets flash).reduceOption :=
    horder.filterMap id
  have halive : ∀ d, (forceSamba flash.release flash.order s).Alive d ↔
      s.Alive d ∧ d ∉ (s.targets flash).reduceOption := by
    intro d
    rw [State.Alive, State.Alive, hcreated, hdeleted, List.mem_append, List.mem_reverse,
      hperm.mem_iff, not_or, and_comm (a := d ∉ (s.targets flash).reduceOption), and_assoc]
  constructor
  · intro hsafe
    have hnodup := hsafe.deleted
    rw [hdeleted] at hnodup
    refine ⟨hperm.nodup_iff.mp (List.nodup_reverse.mp hnodup.of_append_left), fun d hd => ⟨?_, ?_⟩⟩
    · intro havail
      exact ((halive d).mp (hsafe.available d (havailable ▸ havail))).2 hd
    · intro hdev
      by_contra hkept
      have hstays := (hmem d).mpr ⟨hdev, fun _ => hkept⟩
      exact ((halive d).mp (hsafe.devices d hstays)).2 hd
  · rintro ⟨hnodup, hgone⟩
    refine ⟨fun d hd => ?_, fun d hd => ?_, ?_⟩
    · obtain ⟨hdev, hstays⟩ := (hmem d).mp hd
      refine (halive d).mpr ⟨h.devices d hdev, fun htarget => ?_⟩
      exact hstays (hperm.mem_iff.mpr htarget) ((hgone d htarget).2 hdev)
    · rw [havailable] at hd
      exact (halive d).mpr ⟨h.available d hd, fun htarget => (hgone d htarget).1 hd⟩
    · rw [hdeleted]
      have hreverse := List.nodup_reverse.mpr (hperm.nodup_iff.mpr hnodup)
      refine hreverse.append h.deleted fun d hd hold => ?_
      exact (h.alive_of_target hdevices (hperm.mem_iff.mp (List.mem_reverse.mp hd))).2 hold

/-- What is deleted while flashing was made. -/
theorem Owned.forceSamba_made {s : State} (h : Owned s) (flash : Flash)
    (hdevices : ∀ d ∈ flash.devices.reduceOption, s.Alive d)
    (horder : flash.order.Perm (s.targets flash)) :
    (forceSamba flash.release flash.order s).deleted ⊆
      (forceSamba flash.release flash.order s).created := by
  obtain ⟨hcreated, -, hdeleted⟩ := forceSamba_frame flash.release flash.order s
  rw [hcreated, hdeleted]
  intro d hd
  rcases List.mem_append.mp hd with hd | hd
  · have htarget := (horder.filterMap id).mem_iff.mp (List.mem_reverse.mp hd)
    exact (h.alive_of_target hdevices htarget).1
  · exact h.made hd

/-- A call that releases what it deletes keeps the devices owned. -/
theorem Owned.step {s t : State} {a : Act} (h : Owned s) (hreleased : Released s a)
    (hstep : machine.step s a = some t) : Owned t := by
  cases a with
  | call a =>
      simp only [machine] at hstep
      split at hstep
      · rename_i hargument
        obtain ⟨u, hu, rfl⟩ := Option.map_eq_some_iff.mp hstep
        exact h.call hargument hu
      · cases hstep
  | destroy device =>
      simp only [machine] at hstep
      split at hstep
      · obtain rfl := Option.some.inj hstep
        exact h.destroy device
      · cases hstep
  | flash_firmware flash =>
      simp only [machine] at hstep
      split at hstep
      · rename_i henabled
        obtain ⟨hdevices, horder⟩ := henabled
        obtain rfl := Option.some.inj hstep
        rw [flash_firmware_fst]
        split
        · exact h
        · rename_i hopened
          have hsafe := (h.forceSamba_iff flash hdevices horder).mpr
            (hreleased (Bool.eq_true_of_not_eq_false hopened))
          exact ⟨hsafe, (mem_m_devices_forceSamba _ _ h.sorted).1,
            h.forceSamba_made flash hdevices horder⟩
      · cases hstep

/-- A call that ends in a safe state releases what it deletes. -/
theorem Owned.released_of_safe {s t : State} {a : Act} (h : Owned s)
    (hstep : machine.step s a = some t) (hsafe : Safe t) : Released s a := by
  cases a with
  | call a => trivial
  | destroy device => trivial
  | flash_firmware flash =>
      simp only [machine] at hstep
      split at hstep
      · rename_i henabled
        obtain ⟨hdevices, horder⟩ := henabled
        obtain rfl := Option.some.inj hstep
        intro hopened
        rw [flash_firmware_fst, if_neg (by simp [hopened])] at hsafe
        exact (h.forceSamba_iff flash hdevices horder).mp hsafe
      · cases hstep

/-- **No dangling devices, exactly when every call of `flash_firmware` releases what it
deletes.** -/
theorem safe_iff {as : List Act} {t : State} (hrun : machine.run init as = some t) :
    (∀ bs u, bs <+: as → machine.run init bs = some u → Safe u) ↔
      machine.Meets Released init as := by
  have hiff := Machine.meets_iff_of_step (fun _ h => Owned.toSafe h)
    (fun _ _ _ h hok hstep => h.step hok hstep)
    (fun _ _ _ h hstep hsafe => h.released_of_safe hstep hsafe) .init hrun
  exact hiff.symm

/-- A device is found and added. -/
def adding : List Act :=
  [.call (.add_all (.ok [.probed 1 "2.17" "A"]) fun _ => 0)]

/-- The firmware of the given devices is replaced, and everything works. -/
def flashing (devices order : List (Option ℕ)) : Flash where
  devices := devices
  opened := true
  order := order
  release _ := 0
  samba_devs := 1
  e_ptr := none

/-- The device is taken off the list of available ones before it is flashed. -/
theorem safe_iff_destroyed : ∃ t,
    machine.run init (adding ++ [.destroy (some 1), .flash_firmware (flashing [some 1] [some 1])]) =
        some t ∧ t.deleted = [1] ∧ Safe t := by
  have hrun : (machine.run init
      (adding ++ [.destroy (some 1), .flash_firmware (flashing [some 1] [some 1])])).map
        State.deleted = some [1] := by
    decide +kernel
  obtain ⟨t, ht, hdeleted⟩ := Option.map_eq_some_iff.mp hrun
  exact ⟨t, ht, hdeleted, (safe_iff ht).mpr (by decide +kernel) _ t (List.prefix_refl _) ht⟩

/-- **A dangling device**: all available devices are flashed, and the list still holds
them. -/
theorem dangling : ∃ t,
    machine.run init (adding ++ [.flash_firmware (flashing [] [some 1])]) = some t ∧
      t.m_available_devices = [1] ∧ t.deleted = [1] ∧ ¬Safe t := by
  have hrun : (machine.run init (adding ++ [.flash_firmware (flashing [] [some 1])])).map
      (fun t => (t.m_available_devices, t.deleted)) = some ([1], [1]) := by
    decide +kernel
  obtain ⟨t, ht, hout⟩ := Option.map_eq_some_iff.mp hrun
  obtain ⟨havailable, hdeleted⟩ := Prod.mk.inj hout
  refine ⟨t, ht, havailable, hdeleted, fun hsafe => ?_⟩
  have halive := hsafe.available 1 (havailable ▸ List.mem_singleton_self 1)
  exact halive.2 (hdeleted ▸ List.mem_singleton_self 1)

end Lifetimes

end Libsmu
