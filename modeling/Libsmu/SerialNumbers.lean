import Libsmu.CalibrationFile
import Mathlib.Data.List.TakeWhile

/-!
# Serial Numbers

A device on the bus has the serial number it was built with, and may have been given another
one. `set_serial` sends 32 bytes behind a prefix, which the firmware keeps if the prefix is the
valid one; any other prefix makes it go back to the number it was built with. It reports the
bytes up to the first zero byte.

The bytes are read from the string's `c_str()`, past its end if it is shorter. A string
descriptor is read back into a buffer of 32 bytes, of which the last one is a zero byte, and
what is not ASCII is read as a question mark.

Bytes are characters here.

## Main results

* `string_descriptor_ascii_eq_self_iff`: what is read back is the serial number exactly when it
  is ASCII and fits the buffer.
* `serial_store_eq_iff`: the firmware reports what `set_serial` was given exactly when that has
  at most 32 bytes and no zero byte, whatever lies in memory behind it.
-/

namespace Libsmu

/-- `SUPPORTED_DEVICES`: the vendor and product of the boards. -/
def SUPPORTED_DEVICES : List (ℕ × ℕ) := [(0x0456, 0xcee2), (0x064b, 0x784c)]

/-- A device that is attached to the bus. -/
structure UsbDevice where
  /-- the `libusb_device` that stands for it -/
  id : ℕ
  /-- the number of its bus and its address there -/
  address : ℕ × ℕ
  /-- `idVendor` and `idProduct` -/
  device_id : ℕ × ℕ
  /-- the serial number it was built with -/
  builtin : List Char
  /-- the bytes that `set_serial` sent, if they are in use -/
  custom : Option (List Char)
  hwver : List Char
  fwver : List Char
  deriving DecidableEq

/-- The serial number that the firmware reports: the bytes up to the first zero byte. -/
def UsbDevice.serial (p : UsbDevice) : List Char := cString (p.custom.getD p.builtin)

/-- The 36 bytes of `serial_data`. -/
structure SerialData where
  prefixBytes : List ℕ
  bytes : List Char

/-- What `set_serial` sends; `memory` is what lies behind the end of the string. -/
def serial_data (serial : List Char) (memory : ℕ → Char) : SerialData where
  prefixBytes :=
    -- an invalid prefix resets the device to its built-in serial number
    if serial.length > 0 then [0x01, 0xee, 0x02, 0xdd] else [0xde, 0xad, 0xbe, 0xef]
  bytes := (serial ++ '\x00' :: (List.range 31).map memory).take 32

/-- The firmware takes what `set_serial` has sent. -/
def UsbDevice.store (data : SerialData) (p : UsbDevice) : UsbDevice :=
  { p with
    custom :=
      if data.prefixBytes = [0x01, 0xee, 0x02, 0xdd] then some data.bytes else none }

/-- The serial number that `set_serial` is asked for; the empty string stands for the one that
the device was built with. -/
def UsbDevice.requested (serial : List Char) (p : UsbDevice) : List Char :=
  if serial = [] then cString p.builtin else serial

/-- `libusb_get_string_descriptor_ascii` with a buffer of `length` bytes. -/
def string_descriptor_ascii (length : ℕ) (descriptor : List Char) : List Char :=
  (descriptor.take (length - 1)).map fun c => if c.toNat < 128 then c else '?'

variable {length : ℕ} {serial : List Char} {memory : ℕ → Char} {p : UsbDevice}

/-- **What is read back** is the serial number exactly when it is ASCII and fits the buffer. -/
theorem string_descriptor_ascii_eq_self_iff :
    string_descriptor_ascii length serial = serial ↔
      serial.length ≤ length - 1 ∧ ∀ c ∈ serial, c.toNat < 128 := by
  constructor
  · intro h
    have hlen : serial.length ≤ length - 1 := by
      have hlengths := congrArg List.length h
      rw [string_descriptor_ascii, List.length_map, List.length_take] at hlengths
      omega
    refine ⟨hlen, fun c hc => ?_⟩
    rw [string_descriptor_ascii, List.take_of_length_le hlen] at h
    have hsame : (if c.toNat < 128 then c else '?') = c := by
      have hid : ∀ x ∈ serial, (if x.toNat < 128 then x else '?') = id x :=
        List.map_inj_left.mp (h.trans (List.map_id serial).symm)
      exact hid c hc
    by_contra hbig
    rw [if_neg hbig] at hsame
    exact hbig (hsame ▸ by decide)
  · rintro ⟨hlen, hascii⟩
    rw [string_descriptor_ascii, List.take_of_length_le hlen]
    refine (List.map_congr_left fun c hc => ?_).trans (List.map_id serial)
    exact if_pos (hascii c hc)

/-- Nothing is read back of an empty serial number only. -/
theorem string_descriptor_ascii_eq_nil_iff (h : 1 < length) :
    string_descriptor_ascii length serial = [] ↔ serial = [] := by
  rw [string_descriptor_ascii, List.map_eq_nil_iff, List.take_eq_nil_iff]
  exact or_iff_right (by omega)

/-- **What the firmware reports** after `set_serial` of a string that is not empty. -/
theorem serial_store_eq_iff (hne : serial ≠ []) :
    (p.store (serial_data serial memory)).serial = serial ↔
      serial.length ≤ 32 ∧ ∀ c ∈ serial, c ≠ '\x00' := by
  have hstore : (p.store (serial_data serial memory)).serial =
      cString ((serial ++ '\x00' :: (List.range 31).map memory).take 32) := by
    have hlen := List.length_pos_iff.mpr hne
    simp only [UsbDevice.serial, UsbDevice.store, serial_data, if_pos hlen, if_true,
      Option.getD_some]
  rw [hstore]
  constructor
  · intro h
    refine ⟨?_, fun c hc => ?_⟩
    · rw [← h]
      exact ((List.takeWhile_sublist _).length_le).trans (List.length_take_le _ _)
    · rw [← h, cString] at hc
      have hpass := List.mem_takeWhile_imp hc
      exact of_decide_eq_true hpass
  · rintro ⟨hlen, hnonzero⟩
    rw [cString, List.take_append, List.take_of_length_le hlen,
      List.takeWhile_append_of_pos fun c hc => decide_eq_true (hnonzero c hc)]
    -- what follows the string begins with its zero byte, or is cut off
    cases 32 - serial.length with
    | zero => exact List.append_nil _
    | succ k => exact List.append_nil _

/-- `set_serial` of the empty string. -/
theorem serial_store_nil :
    (p.store (serial_data [] memory)).serial = cString p.builtin := by
  simp [UsbDevice.serial, UsbDevice.store, serial_data]

/-- The firmware reports what `set_serial` was asked for. -/
theorem serial_store_eq_requested_iff :
    (p.store (serial_data serial memory)).serial = p.requested serial ↔
      serial.length ≤ 32 ∧ ∀ c ∈ serial, c ≠ '\x00' := by
  by_cases hne : serial = []
  · subst hne
    rw [serial_store_nil, UsbDevice.requested, if_pos rfl]
    exact iff_of_true rfl ⟨Nat.zero_le _, fun c hc => absurd hc List.not_mem_nil⟩
  · rw [UsbDevice.requested, if_neg hne]
    exact serial_store_eq_iff hne

end Libsmu
