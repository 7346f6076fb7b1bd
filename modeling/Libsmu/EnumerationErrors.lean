import Libsmu.DeviceControl

/-!
# Enumerations that Fail

`libusb_get_device_list` returns how many devices it lists, or a negative error. `scan` keeps
the result in an `int` and clears the list of known devices before it asks; `scan_samba_devs`
keeps it in an `unsigned int`, whose test for an error never holds, and goes through a list
that nothing has set.

## Main results

* `scanFrom_listed`, `sambaFrom_listed`: what the loops of the two do with a list.
* `scan_failed`, `scan_samba_devs_failed`: what becomes of an error.
* `reports_iff`: for which results each of them reports what it found and harms nothing.
-/

namespace Libsmu

namespace DeviceList

variable {dev obj σ : Type*}

/-! ### The code -/

/-- The result of `libusb_get_device_list`: an error, which is a negative `int`, or a list. -/
inductive Listing (dev : Type*)
  | failed (err : {e : ℤ // -2 ^ 31 ≤ e ∧ e < 0})
  | listed (devs : List dev)

namespace Listing

/-- What the call returns. -/
def ret : Listing dev → ℤ
  | failed err => err
  | listed devs => devs.length

/-- `usb_devs[i]`. A call that fails does not set the pointer. -/
def get (r : Listing dev) (i : ℕ) : Option dev :=
  match r with
  | failed _ => none
  | listed devs => devs[i]?

end Listing

/-- A number as an `int`. -/
def asInt (n : ℤ) : ℤ := n.bmod (2 ^ 32)

/-- A number as an `unsigned int`. -/
def asUnsigned (n : ℤ) : ℕ := (n % 2 ^ 32).toNat

/-- A session: the devices it knows, and what else `probe_device` works on. -/
structure Known (obj σ : Type*) where
  m_available_devices : List obj
  rest : σ

section Scan

variable (probe_device : dev → σ → Option obj × σ)

/-- The loop of `scan` from entry `i` on, for `k` entries. -/
def scanFrom (r : Listing dev) : ℕ → ℕ → Known obj σ → ℕ → Option (Known obj σ × ℕ)
  | _, 0, s, devices_found => some (s, devices_found)
  | i, k + 1, s, devices_found =>
    (r.get i).bind fun usb_dev =>
      match probe_device usb_dev s.rest with
      | (none, rest) => scanFrom r (i + 1) k { s with rest := rest } devices_found
      | (some d, rest) =>
        scanFrom r (i + 1) k ⟨s.m_available_devices ++ [d], rest⟩ (devices_found + 1)

/-- `Session::scan`. -/
def scan (r : Listing dev) (s : Known obj σ) : Option (Known obj σ × ℤ) :=
  let s := { s with m_available_devices := [] }
  let device_count := asInt r.ret
  if device_count < 0 then some (s, -libusb_to_errno device_count)
  else (scanFrom probe_device r 0 device_count.toNat s 0).map fun x => (x.1, x.2)

end Scan

/-- `SAMBA_DEVICES`. -/
def SAMBA_DEVICES : List (ℕ × ℕ) := [(0x03eb, 0x6124)]

section Samba

variable (samba_device_id : dev → ℕ × ℕ)

/-- The loop of `scan_samba_devs` from entry `i` on, for `k` entries. -/
def sambaFrom (r : Listing dev) : ℕ → ℕ → List dev → Option (List dev)
  | _, 0, samba_devs => some samba_devs
  | i, k + 1, samba_devs =>
    (r.get i).bind fun usb_dev =>
      sambaFrom r (i + 1) k
        (if SAMBA_DEVICES.contains (samba_device_id usb_dev) then samba_devs ++ [usb_dev]
          else samba_devs)

/-- `Session::scan_samba_devs`. -/
def scan_samba_devs (r : Listing dev) (samba_devs : List dev) : Option (List dev × ℤ) :=
  let device_count := asUnsigned r.ret
  if device_count < 0 then some (samba_devs, -libusb_to_errno device_count)
  else (sambaFrom samba_device_id r 0 device_count samba_devs).map fun devs =>
    (devs, asInt devs.length)

end Samba

/-! ### What they are to do -/

/-- A device in SAM-BA mode. -/
def isSamba (samba_device_id : dev → ℕ × ℕ) (usb_dev : dev) : Bool :=
  SAMBA_DEVICES.contains (samba_device_id usb_dev)

variable (probe_device : dev → σ → Option obj × σ) (samba_device_id : dev → ℕ × ℕ)

/-- **A scan that reports what it found**: a failure by its error, with the devices that were
known before, and otherwise the number of devices that are known now. -/
def ScanReports (r : Listing dev) (s : Known obj σ) : Prop :=
  match r with
  | .failed err => ∃ rest,
    scan probe_device r s = some (⟨s.m_available_devices, rest⟩, -libusb_to_errno err)
  | .listed _ => ∃ t, scan probe_device r s = some (t, t.m_available_devices.length)

/-- **A scan for SAM-BA that reports what it found**: a failure by its error, with the vector
that it was given, and otherwise the devices in that mode, in order, and their number. -/
def SambaReports (r : Listing dev) (samba_devs : List dev) : Prop :=
  match r with
  | .failed err =>
    scan_samba_devs samba_device_id r samba_devs = some (samba_devs, -libusb_to_errno err)
  | .listed devs =>
    scan_samba_devs samba_device_id r samba_devs =
      some (samba_devs ++ devs.filter (isSamba samba_device_id),
        ((devs.filter (isSamba samba_device_id)).length : ℤ))

/-- Where `scan` does so: with a failure no device was known, and the length of a list is not
negative as an `int`. -/
def ScanFits (r : Listing dev) (s : Known obj σ) : Prop :=
  match r with
  | .failed _ => s.m_available_devices = []
  | .listed devs => devs.length % 2 ^ 32 < 2 ^ 31

/-- Where `scan_samba_devs` does so: for a list without a device of that mode behind what is
left of its length, with as many as an `int` holds, and a vector that is empty. -/
def SambaFits (r : Listing dev) (samba_devs : List dev) : Prop :=
  match r with
  | .failed _ => False
  | .listed devs =>
    (∀ d ∈ devs.drop (devs.length % 2 ^ 32), isSamba samba_device_id d = false) ∧
      (devs.filter (isSamba samba_device_id)).length < 2 ^ 31 ∧ samba_devs.length % 2 ^ 32 = 0

/-! ### The loops -/

variable {probe_device samba_device_id} {devs : List dev}

variable (probe_device) in
/-- **Each device that is probed is counted.** -/
theorem scanFrom_listed (k : ℕ) : ∀ (i : ℕ) (s : Known obj σ) (n : ℕ), i + k ≤ devs.length →
    n = s.m_available_devices.length →
    ∃ t, scanFrom probe_device (.listed devs) i k s n = some (t, t.m_available_devices.length) := by
  induction k with
  | zero =>
      rintro i s n - rfl
      exact ⟨s, rfl⟩
  | succ k ih =>
      rintro i s n hi rfl
      have hget : (Listing.listed devs).get i = some devs[i] := List.getElem?_eq_getElem (by omega)
      rw [scanFrom, hget, Option.bind_some]
      rcases probe_device devs[i] s.rest with ⟨_ | d, rest⟩
      · exact ih _ _ _ (by omega) rfl
      · exact ih _ _ _ (by omega) (by simp)

/-- **Each device in SAM-BA mode is appended.** -/
theorem sambaFrom_listed (k : ℕ) : ∀ (i : ℕ) (acc : List dev), i + k ≤ devs.length →
    sambaFrom samba_device_id (.listed devs) i k acc =
      some (acc ++ ((devs.drop i).take k).filter (isSamba samba_device_id)) := by
  induction k with
  | zero => simp [sambaFrom]
  | succ k ih =>
      intro i acc hi
      have hlt : i < devs.length := by omega
      have hget : (Listing.listed devs).get i = some devs[i] := List.getElem?_eq_getElem hlt
      rw [sambaFrom, hget, Option.bind_some, ih _ _ (by omega), List.drop_eq_getElem_cons hlt,
        List.take_succ_cons, List.filter_cons]
      by_cases hsamba : SAMBA_DEVICES.contains (samba_device_id devs[i]) = true
      · have his : isSamba samba_device_id devs[i] = true := hsamba
        rw [if_pos hsamba, if_pos his, List.append_assoc, List.singleton_append]
      · have his : ¬isSamba samba_device_id devs[i] = true := hsamba
        rw [if_neg hsamba, if_neg his]

/-! ### The functions -/

theorem asInt_of_lt {n : ℤ} (hlo : -2 ^ 31 ≤ n) (hhi : n < 2 ^ 31) : asInt n = n :=
  Int.bmod_eq_of_le (by omega) (by omega)

/-- A length whose last 32 bits are a positive `int`. -/
theorem asInt_natCast {n : ℕ} (h : n % 2 ^ 32 < 2 ^ 31) : asInt n = (n % 2 ^ 32 : ℕ) := by
  rw [asInt, Int.bmod]
  split_ifs <;> omega

theorem asInt_natCast_neg {n : ℕ} (h : 2 ^ 31 ≤ n % 2 ^ 32) : asInt n < 0 := by
  rw [asInt, Int.bmod]
  split_ifs <;> omega

/-- The number of entries is that of the last ones where there were none before. -/
theorem asInt_add_eq_iff (n m : ℕ) : asInt (n + m : ℕ) = m ↔ m < 2 ^ 31 ∧ n % 2 ^ 32 = 0 := by
  rw [asInt, Int.bmod]
  split_ifs <;> omega

theorem scan_failed (err : {e : ℤ // -2 ^ 31 ≤ e ∧ e < 0}) (s : Known obj σ) :
    scan probe_device (.failed err) s = some (⟨[], s.rest⟩, -libusb_to_errno err) := by
  have hcount : asInt (Listing.failed err : Listing dev).ret = err :=
    asInt_of_lt err.2.1 (by have := err.2.2; simp only [Listing.ret]; omega)
  rw [scan]
  simp only [hcount]
  rw [if_pos err.2.2]

theorem scan_listed_of_lt (hlength : devs.length % 2 ^ 32 < 2 ^ 31) (s : Known obj σ) :
    ∃ t, scan probe_device (.listed devs) s = some (t, t.m_available_devices.length) := by
  have hle : 0 + devs.length % 2 ^ 32 ≤ devs.length := by
    rw [Nat.zero_add]
    exact Nat.mod_le _ _
  obtain ⟨t, ht⟩ := scanFrom_listed probe_device _ 0
    { s with m_available_devices := [] } 0 hle rfl
  refine ⟨t, ?_⟩
  rw [scan]
  simp only [Listing.ret, asInt_natCast hlength, Int.toNat_natCast]
  rw [if_neg (by omega), ht]
  rfl

variable (probe_device) in
theorem scan_listed_of_le (hlength : 2 ^ 31 ≤ devs.length % 2 ^ 32) (s : Known obj σ) :
    ∃ t n, scan probe_device (.listed devs) s = some (t, n) ∧ n < 0 := by
  have hneg := asInt_natCast_neg hlength
  refine ⟨{ s with m_available_devices := [] }, _, ?_, neg_lt_zero.2 (libusb_to_errno_pos hneg)⟩
  rw [scan]
  exact if_pos hneg

theorem scan_samba_devs_failed (err : {e : ℤ // -2 ^ 31 ≤ e ∧ e < 0}) (samba_devs : List dev) :
    scan_samba_devs samba_device_id (.failed err) samba_devs = none := by
  have hlo := err.2.1
  have hneg := err.2.2
  obtain ⟨k, hk⟩ : ∃ k, asUnsigned (Listing.failed err : Listing dev).ret = k + 1 := by
    refine Nat.exists_eq_add_one_of_ne_zero ?_
    rw [asUnsigned]
    simp only [Listing.ret]
    omega
  rw [scan_samba_devs]
  simp only [hk, sambaFrom, Listing.get]
  rfl

theorem scan_samba_devs_listed (samba_devs : List dev) :
    scan_samba_devs samba_device_id (.listed devs) samba_devs =
      some (samba_devs ++ (devs.take (devs.length % 2 ^ 32)).filter (isSamba samba_device_id),
        asInt (samba_devs ++
          (devs.take (devs.length % 2 ^ 32)).filter (isSamba samba_device_id)).length) := by
  have hcount : asUnsigned (Listing.listed devs).ret = devs.length % 2 ^ 32 := by
    rw [asUnsigned]
    simp only [Listing.ret]
    omega
  have hle : 0 + devs.length % 2 ^ 32 ≤ devs.length := by
    rw [Nat.zero_add]
    exact Nat.mod_le _ _
  rw [scan_samba_devs]
  simp only [hcount]
  rw [if_neg (Nat.not_lt_zero _), sambaFrom_listed _ _ _ hle]
  rfl

/-! ### Where they report what they found -/

theorem scanReports_iff (r : Listing dev) (s : Known obj σ) :
    ScanReports probe_device r s ↔ ScanFits r s := by
  cases r with
  | failed err =>
      simp only [ScanReports, scan_failed, ScanFits]
      constructor
      · rintro ⟨rest, h⟩
        injection h with h
        exact (congrArg (fun x => x.1.m_available_devices) h).symm
      · intro h
        exact ⟨s.rest, by rw [h]⟩
  | listed devs =>
      simp only [ScanReports, ScanFits]
      rcases Nat.lt_or_ge (devs.length % 2 ^ 32) (2 ^ 31) with hlt | hge
      · exact iff_of_true (scan_listed_of_lt hlt s) hlt
      · obtain ⟨t, n, hscan, hneg⟩ := scan_listed_of_le probe_device hge s
        refine iff_of_false ?_ hge.not_gt
        rintro ⟨u, hu⟩
        rw [hscan] at hu
        injection hu with hu
        have hn : n = u.m_available_devices.length := congrArg Prod.snd hu
        omega

/-- The entries that are looked at hold all devices of a kind. -/
theorem filter_take_eq_iff {p : dev → Bool} (n : ℕ) :
    (devs.take n).filter p = devs.filter p ↔ ∀ d ∈ devs.drop n, p d = false := by
  have hsplit : devs.filter p = (devs.take n).filter p ++ (devs.drop n).filter p := by
    rw [← List.filter_append, List.take_append_drop]
  rw [hsplit, List.self_eq_append_right, List.filter_eq_nil_iff]
  simp

theorem sambaReports_iff (r : Listing dev) (samba_devs : List dev) :
    SambaReports samba_device_id r samba_devs ↔ SambaFits samba_device_id r samba_devs := by
  cases r with
  | failed err => simp [SambaReports, SambaFits, scan_samba_devs_failed]
  | listed devs =>
      simp only [SambaReports, SambaFits, scan_samba_devs_listed, Option.some.injEq, Prod.mk.injEq,
        List.append_cancel_left_eq, filter_take_eq_iff]
      refine and_congr_right fun hall => ?_
      rw [(filter_take_eq_iff _).2 hall, List.length_append]
      exact asInt_add_eq_iff _ _

/-- **Enumerations that fail.** A scan loses the devices that were known, and a scan for SAM-BA
is never told; otherwise they go wrong only with lengths that their counters do not hold. -/
theorem reports_iff (probe_device : dev → σ → Option obj × σ) (samba_device_id : dev → ℕ × ℕ)
    (r : Listing dev) (s : Known obj σ) (samba_devs : List dev) :
    (ScanReports probe_device r s ↔ ScanFits r s) ∧
      (SambaReports samba_device_id r samba_devs ↔ SambaFits samba_device_id r samba_devs) :=
  ⟨scanReports_iff r s, sambaReports_iff r samba_devs⟩

/-- `LIBUSB_ERROR_NO_MEM`. -/
def LIBUSB_ERROR_NO_MEM : {e : ℤ // -2 ^ 31 ≤ e ∧ e < 0} := ⟨-11, by decide⟩

/-- **An enumeration without memory**: the scan for SAM-BA goes through a list that was not
made, and the scan forgets the device that it knew. -/
theorem enumeration_without_memory :
    scan_samba_devs (fun d : ℕ × ℕ => d) (.failed LIBUSB_ERROR_NO_MEM) [] = none ∧
      ¬SambaReports (fun d : ℕ × ℕ => d) (.failed LIBUSB_ERROR_NO_MEM) [] ∧
      ¬ScanReports (fun (d : ℕ) (u : Unit) => (some d, u)) (.failed LIBUSB_ERROR_NO_MEM)
        ⟨[5], ()⟩ := by
  refine ⟨scan_samba_devs_failed _ _, ?_, ?_⟩
  · rw [sambaReports_iff]
    exact id
  · rw [scanReports_iff]
    exact List.cons_ne_nil _ _

end DeviceList

end Libsmu
