import Mathlib.Logic.Function.Basic
import Libsmu.Configure
import Libsmu.Lib.Counter
import Libsmu.Lib.Machine

/-!
# Sessions

A session keeps the sample rate in `m_sample_rate`; the timer period and the transfers that
go with it are kept by each device. `Session::configure` sets both, `Session::start` calls it
for an unconfigured session and otherwise runs the devices as they are.

Devices are objects at addresses, and `m_devices` is a set of addresses, which is walked in
their order. A call of the session is one step of `Session.machine`. The steps carry what the
outside world answers: the devices a scan finds, which memory there is, what the devices
return. What is left out of the calls changes nothing that a later one reads here.
-/

namespace Libsmu

/-- A call of a device's `run` by `Session::start`: the device as it was, and the rate of
the session. -/
structure Capture where
  device : Device
  m_sample_rate : ℤ
  deriving DecidableEq

/-- A session with the device objects there are. -/
structure Session where
  /-- the objects, by address -/
  heap : ℕ → Device
  /-- the addresses that hold an object -/
  created : List ℕ
  m_available_devices : List ℕ
  /-- in the order of the addresses, each once -/
  m_devices : List ℕ
  m_sample_rate : ℤ
  m_continuous : Bool
  /-- `unsigned` -/
  m_active_devices : ℕ
  /-- record: the calls of `run` so far -/
  captures : List Capture

namespace Session

/-- A session without devices. -/
def init : Session where
  heap _ := .new "" ""
  created := []
  m_available_devices := []
  m_devices := []
  m_sample_rate := 0
  m_continuous := false
  m_active_devices := 0
  captures := []

/-- `EBUSY`. -/
def EBUSY : ℤ := 16

/-- `ENODEV`. -/
def ENODEV : ℤ := 19

/-! ### Adding and removing devices -/

/-- A device that `probe_device` returns for a device on the bus. -/
inductive Found
  /-- the session has it already -/
  | existing (d : ℕ)
  /-- a new object, with what was read from the device -/
  | probed (d : ℕ) (fwver serial : String)
  deriving DecidableEq

/-- The addresses of the new objects. -/
def newObjects : List Found → List ℕ
  | [] => []
  | .existing _ :: found => newObjects found
  | .probed d _ _ :: found => d :: newObjects found

/-- A device that the session has already is in `m_devices`. -/
def Known (s : Session) : Found → Prop
  | .existing d => d ∈ s.m_devices
  | .probed _ _ _ => True

instance (s : Session) (f : Found) : Decidable (s.Known f) :=
  match f with
  | .existing d => inferInstanceAs (Decidable (d ∈ s.m_devices))
  | .probed _ _ _ => isTrue trivial

/-- What a scan can be answered: an error, or devices of the session and new objects where
there were none. -/
def Plausible (s : Session) : Except ℕ (List Found) → Prop
  | .error _ => True
  | .ok found =>
      (∀ f ∈ found, s.Known f) ∧ (newObjects found).Nodup ∧
        ∀ d ∈ newObjects found, d ∉ s.created

instance (s : Session) (bus : Except ℕ (List Found)) : Decidable (s.Plausible bus) :=
  match bus with
  | .error _ => isTrue trivial
  | .ok _ => inferInstanceAs (Decidable (_ ∧ _ ∧ _))

/-- Putting a device on the list of available ones. -/
def make_available (s : Session) : Found → Session
  | .existing d => { s with m_available_devices := s.m_available_devices ++ [d] }
  | .probed d fwver serial =>
      { s with
        heap := Function.update s.heap d (.new fwver serial)
        created := d :: s.created
        m_available_devices := s.m_available_devices ++ [d] }

/-- `Session::scan`, where the bus yields an error number or the devices. -/
def scan (bus : Except ℕ (List Found)) (s : Session) : Session × ℤ :=
  let s := { s with m_available_devices := [] }
  match bus with
  | .error errno => (s, -errno)
  | .ok found => (found.foldl make_available s, found.length)

/-- `std::set::insert`. -/
def insertAddress (d : ℕ) : List ℕ → List ℕ
  | [] => [d]
  | e :: es =>
      if d < e then d :: e :: es
      else if d = e then e :: es
      else e :: insertAddress d es

/-- Drop the first device with this serial number. -/
def eraseSerial (heap : ℕ → Device) (serial : String) (ds : List ℕ) : List ℕ :=
  ds.eraseP fun d => (heap d).m_serial = serial

/-- `Session::add`, where `claim` is what the device's `claim` returns. -/
def add (device : Option ℕ) (claim : ℤ) (s : Session) : Session × ℤ :=
  if s.m_active_devices ≠ 0 then (s, -EBUSY)
  else
    match device with
    | none => (s, -1)
    | some d =>
        if claim = 0 then
          let others := eraseSerial s.heap (s.heap d).m_serial s.m_devices
          ({ s with m_devices := insertAddress d others }, claim)
        else (s, claim)

/-- The loop of `Session::add_all`; `num_devices` were added before. -/
def addFrom (claims : ℕ → ℤ) : List ℕ → Session → ℕ → Session × ℤ
  | [], s, num_devices => (s, num_devices)
  | d :: ds, s, num_devices =>
      let r := s.add (some d) (claims d)
      if r.2 ≠ 0 then (r.1, if r.2 < 0 then r.2 else num_devices)
      else addFrom claims ds r.1 (num_devices + 1)

/-- `Session::add_all`. -/
def add_all (bus : Except ℕ (List Found)) (claims : ℕ → ℤ) (s : Session) : Session × ℤ :=
  if s.m_active_devices ≠ 0 then (s, -EBUSY)
  else
    let r := s.scan bus
    if r.2 < 0 then r else addFrom claims r.1.m_available_devices r.1 0

/-- `Session::remove`, where `release` is what the device's `release` returns. -/
def remove (device : Option ℕ) (detached : Bool) (release : ℤ) (s : Session) : Session × ℤ :=
  if s.m_active_devices ≠ 0 then (s, -EBUSY)
  else
    match device with
    | none => (s, -1)
    | some d =>
        let ret := if detached ∧ release = -ENODEV then 0 else release
        if ret = 0 then ({ s with m_devices := s.m_devices.erase d }, ret) else (s, ret)

/-- `Session::destroy`: the first available device with the serial number of the given one
is dropped. -/
def destroy (device : Option ℕ) (s : Session) : Session × ℤ :=
  if s.m_active_devices ≠ 0 then (s, -EBUSY)
  else
    match device with
    | none => (s, -ENODEV)
    | some d =>
        let serial := (s.heap d).m_serial
        if s.m_available_devices.any fun e => (s.heap e).m_serial = serial then
          ({ s with
              m_available_devices := eraseSerial s.heap serial s.m_available_devices }, 0)
        else (s, -ENODEV)

/-! ### Configuring and running -/

/-- The memory for the transfers of a device. -/
structure Transfers where
  ins : Memory
  outs : Memory

/-- Memory for both. -/
def Transfers.plenty : Transfers := ⟨.plenty, .plenty⟩

/-- Both collections get all their memory. -/
def Transfers.Granted (mem : Transfers) : Prop :=
  mem.ins.Grants 2 ∧ mem.outs.Grants 2

instance (mem : Transfers) : Decidable mem.Granted :=
  inferInstanceAs (Decidable (_ ∧ _))

/-- The loop of `Session::configure`; `ret` is what the device before returned. -/
def configureFrom (sampleRate : ℕ) (mem : ℕ → Transfers) :
    List ℕ → (ℕ → Device) → ℤ → (ℕ → Device) × ℤ
  | [], heap, ret => (heap, ret)
  | d :: ds, heap, _ =>
      let r := (heap d).configure sampleRate (mem d).ins (mem d).outs
      if r.2 < 0 then (Function.update heap d r.1, r.2)
      else configureFrom sampleRate mem ds (Function.update heap d r.1) r.2

/-- The rate to configure: 0 stands for the default of the first device. -/
def requested (s : Session) (sampleRate : ℕ) : ℕ :=
  match sampleRate, s.m_devices with
  | 0, d :: _ => (s.heap d).get_default_rate
  | sampleRate, _ => sampleRate

/-- `Session::configure`. -/
def configure (sampleRate : ℕ) (mem : ℕ → Transfers) (s : Session) : Session × ℤ :=
  if s.m_active_devices ≠ 0 then (s, -EBUSY)
  else if s.m_devices.length = 0 then (s, 0)
  else
    let r := configureFrom (s.requested sampleRate) mem s.m_devices s.heap 0
    if 0 < r.2 then ({ s with heap := r.1, m_sample_rate := r.2 }, r.2)
    else ({ s with heap := r.1 }, r.2)

/-- What a device returns from the calls of `Session::start`. -/
structure Answers where
  on : ℤ
  sync : ℤ
  run : ℤ

/-- The device is run: the calls before return 0. -/
def Answers.Runs (answers : Answers) (devices : ℕ) : Prop :=
  answers.on = 0 ∧ (1 < devices → answers.sync = 0)

instance (answers : Answers) (devices : ℕ) : Decidable (answers.Runs devices) :=
  inferInstanceAs (Decidable (_ ∧ _))

/-- The loop of `Session::start`. -/
def startFrom (answers : ℕ → Answers) : List ℕ → Session → Session × ℤ
  | [], s => (s, 0)
  | d :: ds, s =>
      if (answers d).on ≠ 0 then (s, (answers d).on)
      else if 1 < s.m_devices.length ∧ (answers d).sync ≠ 0 then (s, (answers d).sync)
      else
        let s := { s with captures := s.captures ++ [⟨s.heap d, s.m_sample_rate⟩] }
        if (answers d).run ≠ 0 then (s, (answers d).run)
        else startFrom answers ds
          { s with m_active_devices := Counter.add 32 s.m_active_devices 1 }

/-- `Session::start`. -/
def start (samples : ℕ) (mem : ℕ → Transfers) (answers : ℕ → Answers) (s : Session) :
    Session × ℤ :=
  let s := { s with m_continuous := decide (samples = 0) }
  let s := if s.m_sample_rate = 0 then (s.configure 0 mem).1 else s
  startFrom answers s.m_devices s

/-- `Session::end`, as far as it changes the session. -/
def end_ (s : Session) : Session := { s with m_continuous := false }

/-- `Session::run`. -/
def run (samples : ℕ) (mem : ℕ → Transfers) (answers : ℕ → Answers) (s : Session) : Session :=
  if 0 < samples ∧ s.m_continuous then s
  else
    let r := s.start samples mem answers
    if r.2 ≠ 0 then r.1 else r.1.end_

/-- A call of the session. -/
inductive Act
  | add (device : Option ℕ) (claim : ℤ)
  | add_all (bus : Except ℕ (List Found)) (claims : ℕ → ℤ)
  | remove (device : Option ℕ) (detached : Bool) (release : ℤ)
  | configure (sampleRate : ℕ) (mem : ℕ → Transfers)
  | start (samples : ℕ) (mem : ℕ → Transfers) (answers : ℕ → Answers)
  | run (samples : ℕ) (mem : ℕ → Transfers) (answers : ℕ → Answers)
  | end_
  | scan (bus : Except ℕ (List Found))
  /-- a device that was run calls `completion` on the USB thread -/
  | completion

/-- The session as a machine. Devices are handed over by their address. -/
def machine : Machine Session Act where
  step s
    | .add device claim =>
        if ∀ d ∈ device, d ∈ s.created then some (s.add device claim).1 else none
    | .add_all bus claims => if s.Plausible bus then some (s.add_all bus claims).1 else none
    | .remove device detached release => some (s.remove device detached release).1
    | .configure sampleRate mem => some (s.configure sampleRate mem).1
    | .start samples mem answers => some (s.start samples mem answers).1
    | .run samples mem answers => some (s.run samples mem answers)
    | .end_ => some s.end_
    | .scan bus => if s.Plausible bus then some (s.scan bus).1 else none
    | .completion =>
        if s.captures ≠ [] then
          some { s with m_active_devices := Counter.pred 32 s.m_active_devices }
        else none

end Session

end Libsmu
