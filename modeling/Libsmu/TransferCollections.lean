import Libsmu.Configure
import Libsmu.EnumerationErrors
import Libsmu.Lib.Ledger
import Libsmu.Lib.Machine
import Libsmu.LiveSession
import Mathlib.Data.List.ReduceOption

/-!
# Collections of Transfers

The class `Transfers` owns the transfers of one endpoint. `alloc` empties the collection and
obtains its transfers anew, as far as there is memory for them; `clear` frees them; and `failed`
is to free the one that could not be submitted and to remove it. The loop of `failed` runs only
while its index is zero, where it starts at the size of the collection. `cancel` asks libusb to
cancel the transfers in flight, but does so only while there is more than one.

A transfer is known by its number, in the order in which `libusb_alloc_transfer` returned them.
A run is a schedule of calls, from the new collection on. `ledger` forgets the order of the
collection and its `NULL`s, and leaves who owns what.

## Main results

* `alloc_ledger`, `failed_ledger`, `clear_ledger`: what the calls do to the ledger.
* `alloc_of_granted`: the collection that there is memory for.
* `balanced_of_run`: no run loses a transfer, or frees one twice.
* `freed_once_iff`: for which runs `failed` does what it is for, too.
* `cancels_all_iff`: for which collections `cancel` leaves no transfer running.
* `device_cancels_all`, `session_cancels_all`: the same for the two collections of a device, and
  for the devices of a session.
-/

namespace Libsmu

/-- A `Transfers`, and what was obtained and freed by it. -/
structure TransferList where
  /-- `none` is `NULL` -/
  m_transfers : List (Option ℕ)
  /-- how many transfers `libusb_alloc_transfer` returned -/
  obtained : ℕ
  /-- what `libusb_free_transfer` freed -/
  freed : List ℕ

namespace TransferList

/-! ### The code -/

/-- A new collection. -/
def new : TransferList := ⟨[], 0, []⟩

/-- `Transfers::clear`. Freeing `NULL` does nothing. -/
def clear (c : TransferList) : TransferList :=
  { c with m_transfers := [], freed := c.freed ++ c.m_transfers.reduceOption }

/-- The pointers to newly allocated entries, where the next transfer has the number `n`. -/
def pointers : ℕ → List Slot → List (Option ℕ)
  | _, [] => []
  | n, .null :: slots => none :: pointers n slots
  | n, .bufferless :: slots | n, .buffer _ :: slots => some n :: pointers (n + 1) slots

/-- `Transfers::alloc`: the collection, and the value returned. -/
def alloc (count : UInt32) (buf_size : ℕ) (mem : Memory) (c : TransferList) :
    TransferList × ℤ :=
  let r := Libsmu.alloc mem count.toNat buf_size
  let m_transfers := pointers c.obtained r.1
  ({ m_transfers
     obtained := c.obtained + m_transfers.reduceOption.length
     freed := c.clear.freed }, r.2)

/-- The body of the loop of `Transfers::failed` at index `i`, which may be outside of the
collection. -/
def failedAt (t i : ℕ) (c : TransferList) : Option TransferList :=
  c.m_transfers[i]?.map fun x =>
    if x = some t then
      { c with m_transfers := c.m_transfers.eraseIdx i, freed := c.freed ++ [t] }
    else c

/-- `Transfers::failed`. The loop runs while its index is zero, so once at most. -/
def failed (t : ℕ) (c : TransferList) : Option TransferList :=
  if DeviceList.asInt c.m_transfers.length = 0 then c.failedAt t 0 else some c

/-- The calls. -/
inductive Act
  | alloc (count : UInt32) (buf_size : ℕ) (mem : Memory)
  | failed (t : ℕ)
  | clear

/-- One call. -/
def step (c : TransferList) : Act → Option TransferList
  | .alloc count buf_size mem => some (c.alloc count buf_size mem).1
  | .failed t => c.failed t
  | .clear => some c.clear

/-- The machine of the calls. -/
def machine : Machine TransferList Act := ⟨step⟩

theorem step_failed (c : TransferList) (t : ℕ) : machine.step c (.failed t) = c.failed t := by
  simp only [machine, step]

/-! ### What it is for -/

/-- `failed` stays within the collection, and frees and removes the transfer if it is a
member. -/
def Removes (c : TransferList) (t : ℕ) : Prop :=
  ∃ c', c.failed t = some c' ∧ (some t ∈ c.m_transfers →
    c' = { c with m_transfers := c.m_transfers.erase (some t), freed := c.freed ++ [t] })

/-- What is promised of one call. -/
def AsPromised (c : TransferList) : Act → Prop
  | .failed t => c.Removes t
  | _ => True

/-- **What is promised of a run**: each call of `failed` removes what it is given, and with a
last `clear` every transfer that was obtained has been freed exactly once. -/
def FreedOnce (as : List Act) : Prop :=
  machine.Meets AsPromised new as ∧
    ∃ c, machine.run new (as ++ [.clear]) = some c ∧
      ∀ t, c.freed.count t = if t < c.obtained then 1 else 0

/-- The calls that go well: `failed` is called for a transfer that is no member, with others
in the collection. -/
def Harmless (c : TransferList) : Act → Prop
  | .failed t => c.m_transfers ≠ [] ∧ some t ∉ c.m_transfers
  | _ => True

/-- Who owns what. -/
def ledger (c : TransferList) : Ledger := ⟨c.obtained, c.m_transfers.reduceOption, c.freed⟩

/-! ### What the calls do -/

theorem clear_ledger (c : TransferList) : c.clear.ledger = c.ledger.releaseAll := rfl

/-- New transfers have the numbers that follow. -/
theorem pointers_reduceOption (n : ℕ) (slots : List Slot) :
    (pointers n slots).reduceOption = List.range' n (pointers n slots).reduceOption.length := by
  induction slots generalizing n with
  | nil => rfl
  | cons slot slots ih =>
      cases slot with
      | null => simpa only [pointers, List.reduceOption_cons_of_none] using ih n
      | bufferless =>
          rw [pointers, List.reduceOption_cons_of_some, List.length_cons, List.range'_succ, ← ih]
      | buffer size =>
          rw [pointers, List.reduceOption_cons_of_some, List.length_cons, List.range'_succ, ← ih]

/-- **Allocating** frees what there was, and obtains what there is. -/
theorem alloc_ledger (c : TransferList) (count : UInt32) (buf_size : ℕ) (mem : Memory) :
    ∃ k, (c.alloc count buf_size mem).1.ledger = c.ledger.releaseAll.acquire k := by
  refine ⟨_, Ledger.ext rfl ?_ rfl⟩
  exact (pointers_reduceOption c.obtained _).trans (List.nil_append _).symm

/-- **With all its memory**, a collection has the transfers it was asked for. -/
theorem alloc_of_granted {count : UInt32} {mem : Memory} (h : mem.Grants count.toNat)
    (buf_size : ℕ) (c : TransferList) :
    c.alloc count buf_size mem =
      (⟨(List.range' c.obtained count.toNat).map some, c.obtained + count.toNat,
        c.freed ++ c.m_transfers.reduceOption⟩, 0) := by
  have hpointers : ∀ k n : ℕ, pointers n (List.replicate k (.buffer buf_size)) =
      (List.range' n k).map some := by
    intro k
    induction k with
    | zero => exact fun n => rfl
    | succ k ih =>
        intro n
        rw [List.replicate_succ, pointers, ih, List.range'_succ, List.map_cons]
  rcases alloc_cases mem count.toNat buf_size with ⟨-, hret, hslots⟩ | ⟨hnot, -⟩
  · have hsome : ((List.range' c.obtained count.toNat).map some).reduceOption =
        List.range' c.obtained count.toNat := by
      rw [List.reduceOption, List.filterMap_map]
      exact List.filterMap_some
    simp only [alloc, hret, hslots, hpointers, hsome, List.length_range', clear]
  · exact absurd h hnot

/-- What `failed` frees, it removes. -/
theorem failed_ledger {c c' : TransferList} {t : ℕ} (h : c.failed t = some c') :
    c'.ledger = c.ledger ∨ t ∈ c.ledger.owned ∧ c'.ledger = c.ledger.release t := by
  rw [failed] at h
  split_ifs at h with hzero
  · obtain ⟨x, hx, hc'⟩ := Option.map_eq_some_iff.mp h
    obtain ⟨rest, hlist⟩ : ∃ rest, c.m_transfers = x :: rest := by
      rw [← List.head?_eq_getElem?] at hx
      exact List.head?_eq_some_iff.mp hx
    split_ifs at hc' with hmem
    · subst hmem hc'
      have howned : c.ledger.owned = t :: rest.reduceOption :=
        (congrArg List.reduceOption hlist).trans (List.reduceOption_cons_of_some t rest)
      refine .inr ⟨howned ▸ List.mem_cons_self, Ledger.ext rfl ?_ rfl⟩
      calc (c.m_transfers.eraseIdx 0).reduceOption
        _ = rest.reduceOption := by rw [hlist, List.eraseIdx_zero, List.tail_cons]
        _ = (t :: rest.reduceOption).erase t := (List.erase_cons_head t _).symm
        _ = c.ledger.owned.erase t := by rw [howned]
    · exact .inl (congrArg ledger hc'.symm)
  · exact .inl (congrArg ledger (Option.some.inj h).symm)

/-! ### Runs -/

theorem balanced_step {c c' : TransferList} {a : Act} (hc : c.ledger.Balanced)
    (h : machine.step c a = some c') : c'.ledger.Balanced := by
  cases a with
  | alloc count buf_size mem =>
      obtain rfl := Option.some.inj h
      obtain ⟨k, hk⟩ := c.alloc_ledger count buf_size mem
      rw [hk]
      exact hc.releaseAll.acquire k
  | failed t =>
      rw [step_failed] at h
      rcases failed_ledger h with heq | ⟨ht, heq⟩
      · rw [heq]
        exact hc
      · rw [heq]
        exact hc.release ht
  | clear =>
      obtain rfl : c.clear = c' := Option.some.inj h
      rw [clear_ledger]
      exact hc.releaseAll

/-- **No run loses a transfer**, or frees one twice: each is in the collection or was freed. -/
theorem balanced_of_run {c : TransferList} {as : List Act} (hrun : machine.run new as = some c) :
    c.ledger.Balanced := by
  have hnew : new.ledger.Balanced := Ledger.balanced_empty
  exact machine.invariant (fun _ _ _ hc h => balanced_step hc h) hnew hrun

/-- The size of the collection fits in an `unsigned`. -/
def Fits (c : TransferList) : Prop := c.m_transfers.length < 2 ^ 32

theorem length_pointers (n : ℕ) (slots : List Slot) :
    (pointers n slots).length = slots.length := by
  induction slots generalizing n with
  | nil => rfl
  | cons slot slots ih => cases slot <;> simp only [pointers, List.length_cons, ih]

/-- **What `failed` does**: nothing, but for an empty collection, which it reads outside of. -/
theorem failed_eq {c : TransferList} (hc : c.Fits) (t : ℕ) :
    c.failed t = if c.m_transfers = [] then none else some c := by
  rw [failed]
  split_ifs with hzero hnil hnil
  · rw [failedAt, hnil, List.getElem?_nil, Option.map_none]
  · have hdvd := Int.dvd_of_bmod_eq_zero hzero
    have hpos := List.length_pos_iff.mpr hnil
    have hlt : c.m_transfers.length < 2 ^ 32 := hc
    omega
  · exact absurd (by rw [hnil]; rfl) hzero
  · rfl

theorem removes_iff {c : TransferList} (hc : c.Fits) (t : ℕ) :
    c.Removes t ↔ c.m_transfers ≠ [] ∧ some t ∉ c.m_transfers := by
  rw [Removes, failed_eq hc]
  split_ifs with hnil
  · simp [hnil]
  · constructor
    · rintro ⟨c', hc', hmem⟩
      obtain rfl := Option.some.inj hc'
      refine ⟨hnil, fun ht => ?_⟩
      have hfreed : c.freed = c.freed ++ [t] := congrArg freed (hmem ht)
      simp at hfreed
    · rintro ⟨-, ht⟩
      exact ⟨c, rfl, fun hmem => absurd hmem ht⟩

theorem fits_new : new.Fits := Nat.two_pow_pos 32

theorem fits_step {c c' : TransferList} {a : Act} (hc : c.Fits)
    (h : machine.step c a = some c') : c'.Fits := by
  cases a with
  | alloc count buf_size mem =>
      obtain rfl : (c.alloc count buf_size mem).1 = c' := Option.some.inj h
      have hlen : (c.alloc count buf_size mem).1.m_transfers.length = count.toNat :=
        (length_pointers _ _).trans (length_allocFrom mem buf_size _ 0)
      exact hlen.trans_lt count.toNat_lt
  | failed t =>
      rw [step_failed, failed_eq hc] at h
      split_ifs at h with hnil
      exact Option.some.inj h ▸ hc
  | clear =>
      obtain rfl : c.clear = c' := Option.some.inj h
      exact Nat.two_pow_pos 32

theorem asPromised_iff {c : TransferList} (hc : c.Fits) (a : Act) :
    c.AsPromised a ↔ c.Harmless a := by
  cases a with
  | alloc => exact Iff.rfl
  | failed t => exact removes_iff hc t
  | clear => exact Iff.rfl

/-- A harmless call is possible. -/
theorem step_of_harmless {c : TransferList} {a : Act} (hc : c.Fits) (ha : c.Harmless a) :
    ∃ c', machine.step c a = some c' ∧ c'.Fits := by
  obtain ⟨c', h⟩ : ∃ c', machine.step c a = some c' := by
    cases a with
    | alloc count buf_size mem => exact ⟨_, rfl⟩
    | failed t => exact ⟨c, by rw [step_failed, failed_eq hc, if_neg ha.1]⟩
    | clear => exact ⟨_, rfl⟩
  exact ⟨c', h, fits_step hc h⟩

/-- **When the transfers are managed as promised**: exactly in the runs in which `failed` is
called for no member, and never on an empty collection. -/
theorem freed_once_iff (as : List Act) : FreedOnce as ↔ machine.Meets Harmless new as := by
  have hcongr : ∀ {c}, machine.run new as = some c →
      (machine.Meets AsPromised new as ↔ machine.Meets Harmless new as) :=
    machine.meets_congr (fun _ _ _ hc h => fits_step hc h)
      (fun _ a _ hc _ => asPromised_iff hc a) fits_new
  constructor
  · rintro ⟨hmeets, c, hrun, -⟩
    obtain ⟨c', hc', -⟩ := machine.run_concat_eq_some_iff.mp hrun
    exact (hcongr hc').mp hmeets
  · intro hmeets
    obtain ⟨c, hrun, -⟩ := Machine.exists_run_of_meets
      (fun _ _ hc ha => step_of_harmless hc ha) fits_new hmeets
    refine ⟨(hcongr hrun).mpr hmeets, c.clear,
      machine.run_concat_eq_some_iff.mpr ⟨c, hrun, rfl⟩, ?_⟩
    exact (balanced_of_run hrun).releaseAll.count_released rfl

/-- **A transfer that failed**, of two: it is still there, and was not freed. On an empty
collection there is no first entry to read. -/
theorem failed_member_stays :
    machine.run new [.alloc 2 16 .plenty, .failed 0] = some ⟨[some 0, some 1], 2, []⟩ ∧
      ¬FreedOnce [.alloc 2 16 .plenty, .failed 0] ∧ ¬FreedOnce [.failed 0] := by
  have halloc : machine.step new (.alloc 2 16 .plenty) = some ⟨[some 0, some 1], 2, []⟩ := rfl
  have hfits : Fits ⟨[some 0, some 1], 2, []⟩ := fits_step fits_new halloc
  refine ⟨?_, fun h => ?_, fun h => ?_⟩
  · rw [machine.run_cons, halloc, Option.bind_some, machine.run_singleton, step_failed,
      failed_eq hfits, if_neg (List.cons_ne_nil _ _)]
  · have hremoves := (h.1.2 _ halloc).1
    exact ((removes_iff hfits 0).mp hremoves).2 List.mem_cons_self
  · exact ((removes_iff fits_new 0).mp h.1.1).1 rfl

/-! ### Cancelling -/

section Cancel

variable {transfer : Type*} (libusb_cancel_transfer : transfer → ℤ)

/-- `LIBUSB_ERROR_NOT_FOUND`. -/
def LIBUSB_ERROR_NOT_FOUND : ℤ := -5

/-- `Transfers::cancel`: the transfers that it asks libusb to cancel, and what it returns. -/
def cancel (num_active : ℤ) : List transfer → List transfer × ℤ
  | [] => ([], 0)
  | i :: rest =>
    if 1 < num_active then
      let ret := libusb_cancel_transfer i
      -- abort if a transfer is not successfully cancelled
      if ret ≠ 0 ∧ ret ≠ LIBUSB_ERROR_NOT_FOUND then ([i], -libusb_to_errno ret)
      else
        let r := cancel num_active rest
        (i :: r.1, r.2)
    else cancel num_active rest

/-- The transfer is cancelled, or is not in flight any more. -/
def Settled (t : transfer) : Prop :=
  libusb_cancel_transfer t = 0 ∨ libusb_cancel_transfer t = LIBUSB_ERROR_NOT_FOUND

/-- **Cancelling leaves no transfer running**: if it returns 0, every transfer in flight is
requested to be cancelled, and settled by that; and a request that settles nothing makes it
return an error. -/
def CancelsAll (inFlight : transfer → Bool) (m_transfers : List transfer) : Prop :=
  let r := cancel libusb_cancel_transfer (m_transfers.countP inFlight) m_transfers
  (r.2 = 0 → ∀ t ∈ m_transfers, inFlight t = true →
      t ∈ r.1 ∧ Settled libusb_cancel_transfer t) ∧
    ∀ t ∈ r.1, ¬Settled libusb_cancel_transfer t → r.2 ≠ 0

variable {libusb_cancel_transfer} {num_active : ℤ} {m_transfers : List transfer}

/-- With one transfer in flight or none, nothing is requested. -/
theorem cancel_of_le (h : num_active ≤ 1) :
    cancel libusb_cancel_transfer num_active m_transfers = ([], 0) := by
  induction m_transfers with
  | nil => rfl
  | cons t rest ih => rw [cancel, if_neg h.not_gt, ih]

/-- An error is not 0 as an `errno` either. -/
theorem libusb_to_errno_ne_zero {ret : ℤ} (h : ret ≠ 0) : libusb_to_errno ret ≠ 0 := by
  rcases lt_or_gt_of_ne h with hneg | hpos
  · exact (libusb_to_errno_pos hneg).ne'
  · rwa [libusb_to_errno, if_pos hpos.le]

variable (libusb_cancel_transfer m_transfers) in
/-- With more of them, either every transfer is requested and settled, or one is not, which
ends the loop with an error. -/
theorem cancel_of_lt (h : 1 < num_active) :
    (cancel libusb_cancel_transfer num_active m_transfers = (m_transfers, 0) ∧
        ∀ t ∈ m_transfers, Settled libusb_cancel_transfer t) ∨
      (cancel libusb_cancel_transfer num_active m_transfers).2 ≠ 0 := by
  induction m_transfers with
  | nil => exact .inl ⟨rfl, fun t ht => absurd ht List.not_mem_nil⟩
  | cons t rest ih =>
      rw [cancel, if_pos h]
      by_cases ht : Settled libusb_cancel_transfer t
      · rw [if_neg (not_and_or.mpr (ht.imp not_not.mpr not_not.mpr))]
        rcases ih with ⟨heq, hall⟩ | hne
        · exact .inl ⟨by rw [heq], List.forall_mem_cons.mpr ⟨ht, hall⟩⟩
        · exact .inr hne
      · rw [if_pos (not_or.mp ht)]
        exact .inr (neg_ne_zero.mpr (libusb_to_errno_ne_zero (not_or.mp ht).1))

/-- Unless there is exactly one in flight, cancelling leaves none running. -/
theorem cancelsAll_of_ne {inFlight : transfer → Bool} (h : m_transfers.countP inFlight ≠ 1) :
    CancelsAll libusb_cancel_transfer inFlight m_transfers := by
  rcases Nat.lt_or_gt_of_ne h with hlt | hgt
  · have hnone := List.countP_eq_zero.mp (Nat.lt_one_iff.mp hlt)
    rw [CancelsAll, cancel_of_le (by omega)]
    exact ⟨fun _ t ht hflight => absurd hflight (hnone t ht),
      fun t ht => absurd ht List.not_mem_nil⟩
  · rw [CancelsAll]
    have hlt : (1 : ℤ) < m_transfers.countP inFlight := Int.ofNat_lt.mpr hgt
    rcases cancel_of_lt libusb_cancel_transfer m_transfers hlt with ⟨heq, hall⟩ | hne
    · rw [heq]
      exact ⟨fun _ t ht _ => ⟨ht, hall t ht⟩, fun t ht hnot => absurd (hall t ht) hnot⟩
    · exact ⟨fun hzero => absurd hzero hne, fun _ _ _ => hne⟩

variable (libusb_cancel_transfer m_transfers) in
/-- **When cancelling leaves no transfer running**: unless there is exactly one in flight. -/
theorem cancels_all_iff (inFlight : transfer → Bool) :
    CancelsAll libusb_cancel_transfer inFlight m_transfers ↔
      m_transfers.countP inFlight ≠ 1 := by
  refine ⟨fun h hone => ?_, cancelsAll_of_ne⟩
  obtain ⟨t, ht, hflight⟩ := List.countP_pos_iff.mp (hone ▸ Nat.one_pos)
  rw [CancelsAll, cancel_of_le (by omega)] at h
  exact List.not_mem_nil (h.1 rfl t ht hflight).1

/-- The second of two transfers is in flight and is not cancelled. -/
theorem one_in_flight_runs_on :
    cancel (fun _ : ℕ => 0) 1 [0, 1] = ([], 0) ∧ ¬CancelsAll (fun _ : ℕ => 0) (· == 1) [0, 1] := by
  have hnone : cancel (fun _ : ℕ => 0) 1 [0, 1] = ([], 0) := cancel_of_le le_rfl
  refine ⟨hnone, fun h => ?_⟩
  have hone : ([0, 1] : List ℕ).countP (· == 1) = 1 := rfl
  rw [CancelsAll, hone, Nat.cast_one, hnone] at h
  exact List.not_mem_nil (h.1 rfl 1 (List.mem_cons_of_mem 0 List.mem_cons_self) rfl).1

/-! ### Devices and the session -/

/-- The two collections of a device. -/
structure Endpoints (transfer : Type*) where
  m_in_transfers : List transfer
  m_out_transfers : List transfer

variable (libusb_cancel_transfer) (inFlight : transfer → Bool)

/-- `M1000_Device::cancel`: what it asks libusb to cancel, and what it returns. -/
def deviceCancel (dev : Endpoints transfer) : List transfer × ℤ :=
  let ret_in := cancel libusb_cancel_transfer (dev.m_in_transfers.countP inFlight)
    dev.m_in_transfers
  let ret_out := cancel libusb_cancel_transfer (dev.m_out_transfers.countP inFlight)
    dev.m_out_transfers
  (ret_in.1 ++ ret_out.1,
    if ret_in.2 ≠ ret_out.2 ∨ ret_in.2 ≠ 0 ∨ ret_out.2 ≠ 0 then -1 else 0)

/-- No collection of the device has exactly one transfer in flight. -/
def NoneAlone (dev : Endpoints transfer) : Prop :=
  dev.m_in_transfers.countP inFlight ≠ 1 ∧ dev.m_out_transfers.countP inFlight ≠ 1

variable {libusb_cancel_transfer inFlight}

theorem deviceCancel_eq_zero_iff {dev : Endpoints transfer} :
    (deviceCancel libusb_cancel_transfer inFlight dev).2 = 0 ↔
      (cancel libusb_cancel_transfer (dev.m_in_transfers.countP inFlight)
          dev.m_in_transfers).2 = 0 ∧
        (cancel libusb_cancel_transfer (dev.m_out_transfers.countP inFlight)
          dev.m_out_transfers).2 = 0 := by
  simp only [deviceCancel]
  split_ifs with hfailed
  · refine iff_of_false not_false ?_
    rintro ⟨hin, hout⟩
    omega
  · exact iff_of_true rfl ⟨by_contra fun hin => hfailed (.inr (.inl hin)),
      by_contra fun hout => hfailed (.inr (.inr hout))⟩

/-- **A device that cancels** leaves no transfer of either collection running, unless one of
them has exactly one in flight. -/
theorem device_cancels_all {dev : Endpoints transfer} (halone : NoneAlone inFlight dev)
    (hzero : (deviceCancel libusb_cancel_transfer inFlight dev).2 = 0) {t : transfer}
    (ht : t ∈ dev.m_in_transfers ++ dev.m_out_transfers) (hflight : inFlight t = true) :
    t ∈ (deviceCancel libusb_cancel_transfer inFlight dev).1 ∧
      Settled libusb_cancel_transfer t := by
  obtain ⟨hin, hout⟩ := deviceCancel_eq_zero_iff.mp hzero
  rcases List.mem_append.mp ht with hmem | hmem
  · obtain ⟨hreq, hsettled⟩ := (cancelsAll_of_ne halone.1).1 hin t hmem hflight
    exact ⟨List.mem_append_left _ hreq, hsettled⟩
  · obtain ⟨hreq, hsettled⟩ := (cancelsAll_of_ne halone.2).1 hout t hmem hflight
    exact ⟨List.mem_append_right _ hreq, hsettled⟩

/-- **A session that cancels** leaves no transfer of its devices running, on the same
condition. -/
theorem session_cancels_all {dev : ℕ → Endpoints transfer} {s : Live}
    (halone : ∀ d ∈ s.m_devices, NoneAlone inFlight (dev d))
    (hzero : (s.cancel fun d =>
      (deviceCancel libusb_cancel_transfer inFlight (dev d)).2).2 = 0)
    {d : ℕ} (hd : d ∈ s.m_devices) {t : transfer}
    (ht : t ∈ (dev d).m_in_transfers ++ (dev d).m_out_transfers) (hflight : inFlight t = true) :
    t ∈ (deviceCancel libusb_cancel_transfer inFlight (dev d)).1 ∧
      Settled libusb_cancel_transfer t :=
  device_cancels_all (halone d hd) (Live.cancelFrom_eq_zero_iff.mp hzero d hd) ht hflight

end Cancel

end TransferList

end Libsmu
