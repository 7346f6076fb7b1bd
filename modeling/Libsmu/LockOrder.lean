import Libsmu.Lib.Locks
import Libsmu.Lib.Machine
import Mathlib.Logic.Function.Basic

/-!
# The Order of Locks on Transfer Errors

A thread that handles a transfer of a device holds the `m_state` of that device: the USB
thread in `in_completion` and `out_completion`, a kickoff thread while it submits the first
transfers. When a submission or a transfer fails it calls `Session::handle_error`, which
takes `m_lock`, and there `Session::cancel`, which takes the `m_state` of one device after
another. So `m_state` comes before `m_lock` on the way in and behind it in `cancel`: while
one thread cancels, another one that holds a device still to be cancelled asks for `m_lock`,
and neither goes on. `Session::completion` takes `m_lock` in the same place.

There may be any number of devices and kickoff threads. The steps of a thread carry what
libusb and the device answer it. The thread of the user is left out: it asks for one of these
locks only while it holds none of them.

## Main results

* `Inv.step`: who holds a lock can be read off where its thread is.
* `no_cyclicWait`: no cyclic wait comes up in a run in which no thread asks for `m_lock` with
  a device that another one has still to cancel, and none begins to cancel while another one
  holds a device of the session and asks for `m_lock`.
* `Doomed.step`, `doomed_of_not_apart`: a step that breaks this rule leaves two threads that
  wait for ever, unless a device before fails to cancel.
* `cyclic_wait`: the USB thread handles a failing transfer of one device, and the kickoff
  thread of the other one a failing submission.
-/

namespace Libsmu.LockOrder

open Locks (Table RecursiveMutex)

/-- The threads that handle transfers. -/
inductive Thread
  | usb
  | kickoff (n : ℕ)
  deriving DecidableEq

/-- The locks: the one of the session and those of the devices. -/
inductive Lock
  | m_lock
  | m_state (d : ℕ)
  deriving DecidableEq

/-- What a thread has still to do with the `m_state` of its device held. -/
inductive Body
  /-- a kickoff thread submits so many IN and OUT transfers -/
  | kick (ins outs : ℕ)
  /-- the USB thread has a transfer that ended with this status -/
  | finished (status : ℤ)
  /-- it submits the transfer again -/
  | resubmit
  /-- it looks whether this was the last transfer of the device -/
  | tail
  | leave
  deriving DecidableEq

/-- Where a thread is. -/
inductive Pc
  | idle
  /-- it asks for the `m_state` of a device -/
  | locking (d : ℕ) (body : Body)
  | inside (d : ℕ) (body : Body)
  /-- in `handle_error`, asking for `m_lock` -/
  | error (d : ℕ) (status : ℤ) (next : Body)
  /-- in `handle_error`, with `m_lock` -/
  | handling (d : ℕ) (status : ℤ) (next : Body)
  /-- with `m_lock`, in `cancel` with these devices to go; it asks for the first one -/
  | cancel (d : ℕ) (devices : List ℕ) (next : Body)
  /-- in `cancel` of the device `e` -/
  | visiting (d e : ℕ) (devices : List ℕ) (next : Body)
  /-- in `completion`, asking for `m_lock` -/
  | completing (d : ℕ)
  deriving DecidableEq

/-- The locks, the cancellation and the threads. -/
structure State where
  m_cancellation : ℤ
  m_lock : Option Thread
  m_state : ℕ → RecursiveMutex Thread
  pc : Thread → Pc

/-- Before any transfer. -/
def State.init : State where
  m_cancellation := 0
  m_lock := none
  m_state _ := .free
  pc _ := .idle

/-- A thread moves on. -/
def State.goto (T : Thread) (pc : Pc) (s : State) : State :=
  { s with pc := Function.update s.pc T pc }

/-- What comes of submitting a transfer. -/
inductive Submission
  | accepted
  /-- libusb returns an error -/
  | refused (ret : ℤ)
  /-- there is nothing to submit, or no sample to send -/
  | unwanted
  deriving DecidableEq

/-- The steps of the threads. -/
inductive Act
  /-- a transfer of a device ends -/
  | event (d : ℕ) (status : ℤ)
  /-- `run` of a device makes a kickoff thread -/
  | kickoff (n d ins outs : ℕ)
  /-- `start` of the session -/
  | start
  /-- `cancel` by the user -/
  | cancelled
  /-- a thread is given the lock it asks for -/
  | take (T : Thread)
  | submit (T : Thread) (result : Submission)
  /-- a completion looks at the status, and whether the session is cancelled -/
  | check (T : Thread)
  /-- and then whether the device has no active transfer any more -/
  | last (T : Thread) (inactive : Bool)
  /-- `handle_error` looks whether to cancel -/
  | decide (T : Thread)
  /-- `cancel` of a device returns -/
  | visited (T : Thread) (ret : ℤ)
  /-- a thread gives `m_lock` back -/
  | release (T : Thread)
  /-- a thread is done with its device -/
  | leave (T : Thread)
  deriving DecidableEq

/-- Where a thread goes after a submission. -/
def submitted (d : ℕ) (result : Submission) : Body → Option Pc
  | .kick (ins + 1) outs =>
      match result with
      | .accepted => some (.inside d (.kick ins outs))
      | .refused ret => some (.error d ret (.kick 0 outs))
      | .unwanted => some (.inside d (.kick 0 outs))
  | .kick 0 (outs + 1) =>
      match result with
      | .accepted => some (.inside d (.kick 0 outs))
      | .refused ret => some (.error d ret (.kick 0 0))
      | .unwanted => some (.inside d (.kick 0 0))
  | .resubmit =>
      match result with
      | .accepted => some (.inside d .tail)
      | .refused ret => some (.error d ret .tail)
      | .unwanted => some (.inside d .tail)
  | .kick 0 0 | .finished _ | .tail | .leave => none

/-- `LIBUSB_TRANSFER_COMPLETED`. -/
def LIBUSB_TRANSFER_COMPLETED : ℤ := 0

/-- `LIBUSB_TRANSFER_CANCELLED`. -/
def LIBUSB_TRANSFER_CANCELLED : ℤ := 3

/-- Where a completion goes after looking at the status. -/
def checked (d : ℕ) (status m_cancellation : ℤ) : Pc :=
  if status = LIBUSB_TRANSFER_COMPLETED then
    if m_cancellation = 0 then .inside d .resubmit else .inside d .tail
  else if status ≠ LIBUSB_TRANSFER_CANCELLED then .error d status .tail
  else .inside d .tail

/-- The machine, for a session with these devices. -/
def machine (m_devices : List ℕ) : Machine State Act where
  step s
    | .event d status =>
        match s.pc .usb with
        | .idle => some (s.goto .usb (.locking d (.finished status)))
        | _ => none
    | .kickoff n d ins outs =>
        match s.pc (.kickoff n) with
        | .idle => some (s.goto (.kickoff n) (.locking d (.kick ins outs)))
        | _ => none
    | .start => some { s with m_cancellation := 0 }
    | .cancelled => some { s with m_cancellation := LIBUSB_TRANSFER_CANCELLED }
    | .take T =>
        match s.pc T with
        | .locking d body =>
            ((s.m_state d).lock T).map fun m =>
              State.goto T (.inside d body) { s with m_state := Function.update s.m_state d m }
        | .error d status next =>
            if s.m_lock = none then
              some (State.goto T (.handling d status next) { s with m_lock := some T })
            else none
        | .completing d =>
            if s.m_lock = none then
              some (State.goto T (.cancel d [] .leave) { s with m_lock := some T })
            else none
        | .cancel d (e :: devices) next =>
            ((s.m_state e).lock T).map fun m =>
              State.goto T (.visiting d e devices next)
                { s with m_state := Function.update s.m_state e m }
        | _ => none
    | .submit T result =>
        match s.pc T with
        | .inside d body => (submitted d result body).map fun pc => s.goto T pc
        | _ => none
    | .check T =>
        match s.pc T with
        | .inside d (.finished status) => some (s.goto T (checked d status s.m_cancellation))
        | _ => none
    | .last T inactive =>
        match s.pc T with
        | .inside d .tail =>
            if inactive = true ∧ s.m_cancellation = 0 then some (s.goto T (.completing d))
            else some (s.goto T (.inside d .leave))
        | _ => none
    | .decide T =>
        match s.pc T with
        | .handling d status next =>
            if s.m_cancellation = 0 ∧ status ≠ LIBUSB_TRANSFER_CANCELLED then
              some (State.goto T (.cancel d m_devices next)
                { s with m_cancellation := LIBUSB_TRANSFER_CANCELLED })
            else some (s.goto T (.cancel d [] next))
        | _ => none
    | .visited T ret =>
        match s.pc T with
        | .visiting d e devices next =>
            some (State.goto T (.cancel d (if ret ≠ 0 then [] else devices) next)
              { s with m_state := Function.update s.m_state e (s.m_state e).unlock })
        | _ => none
    | .release T =>
        match s.pc T with
        | .cancel d [] next => some (State.goto T (.inside d next) { s with m_lock := none })
        | _ => none
    | .leave T =>
        match s.pc T with
        | .inside d .leave | .inside d (.kick 0 0) =>
            some (State.goto T .idle
              { s with m_state := Function.update s.m_state d (s.m_state d).unlock })
        | _ => none

variable {m_devices : List ℕ} {s t : State} {T : Thread}

/-! ### Who holds and who asks -/

/-- A thread that is here holds `m_lock`. -/
def Pc.session : Pc → Bool
  | .handling _ _ _ | .cancel _ _ _ | .visiting _ _ _ _ => true
  | .idle | .locking _ _ | .inside _ _ | .error _ _ _ | .completing _ => false

/-- How often a thread that is here holds the `m_state` of the device `e`. -/
def Pc.depth (e : ℕ) : Pc → ℕ
  | .idle | .locking _ _ => 0
  | .inside d _ | .error d _ _ | .handling d _ _ | .cancel d _ _ | .completing d =>
      if d = e then 1 else 0
  | .visiting d e' _ _ => (if d = e then 1 else 0) + if e' = e then 1 else 0

/-- The lock that a thread that is here asks for. -/
def Pc.asks : Pc → Option Lock
  | .locking d _ => some (.m_state d)
  | .error _ _ _ | .completing _ => some .m_lock
  | .cancel _ (e :: _) _ => some (.m_state e)
  | .cancel _ [] _ | .idle | .inside _ _ | .handling _ _ _ | .visiting _ _ _ _ => none

/-- The devices that a thread that is here has still to cancel. -/
def Pc.toCancel : Pc → List ℕ
  | .cancel _ devices _ | .visiting _ _ devices _ => devices
  | .idle | .locking _ _ | .inside _ _ | .error _ _ _ | .handling _ _ _ | .completing _ => []

/-- Who holds and who asks for which lock. -/
def State.table (s : State) : Table Thread Lock where
  holds T
    | .m_lock => s.m_lock = some T
    | .m_state d => 0 < (s.m_state d).depth T
  asks T l := (s.pc T).asks = some l

/-- The thread that asks for `m_lock` after a step, with the device it holds. -/
def asking (s : State) : Act → Option (Thread × ℕ)
  | .submit T (.refused _) =>
      match s.pc T with
      | .inside d _ => some (T, d)
      | _ => none
  | .check T =>
      match s.pc T with
      | .inside d (.finished status) =>
          if status ≠ LIBUSB_TRANSFER_COMPLETED ∧ status ≠ LIBUSB_TRANSFER_CANCELLED then
            some (T, d)
          else none
      | _ => none
  | .last T inactive =>
      match s.pc T with
      | .inside d .tail => if inactive = true ∧ s.m_cancellation = 0 then some (T, d) else none
      | _ => none
  | _ => none

/-- The thread that goes on to cancel the devices of the session. -/
def cancelling (s : State) : Act → Option Thread
  | .decide T =>
      match s.pc T with
      | .handling _ status _ =>
          if s.m_cancellation = 0 ∧ status ≠ LIBUSB_TRANSFER_CANCELLED then some T else none
      | _ => none
  | _ => none

/-! ### What a step does -/

/-- What a step of `T` that takes it to `pc` does to the locks. -/
inductive Effect (s t : State) (T : Thread) (pc : Pc) : Prop
  | silent (lock : t.m_lock = s.m_lock) (state : t.m_state = s.m_state)
      (session : pc.session = (s.pc T).session) (depth : ∀ e, pc.depth e = (s.pc T).depth e)
  | acquire (lock : s.m_lock = none ∧ t.m_lock = some T) (state : t.m_state = s.m_state)
      (session : pc.session = true) (depth : ∀ e, pc.depth e = (s.pc T).depth e)
  | release (lock : t.m_lock = none) (state : t.m_state = s.m_state)
      (session : (s.pc T).session = true ∧ pc.session = false)
      (depth : ∀ e, pc.depth e = (s.pc T).depth e)
  | lock (d : ℕ) (m : RecursiveMutex Thread) (lock : t.m_lock = s.m_lock)
      (taken : (s.m_state d).lock T = some m) (state : t.m_state = Function.update s.m_state d m)
      (session : pc.session = (s.pc T).session)
      (depth : ∀ e, pc.depth e = (s.pc T).depth e + if d = e then 1 else 0)
  | unlock (d : ℕ) (lock : t.m_lock = s.m_lock)
      (state : t.m_state = Function.update s.m_state d (s.m_state d).unlock)
      (session : pc.session = (s.pc T).session)
      (depth : ∀ e, pc.depth e + (if d = e then 1 else 0) = (s.pc T).depth e)

/-- A step takes the thread `T` to `pc`. -/
structure Moves (m_devices : List ℕ) (s : State) (a : Act) (t : State) (T : Thread) (pc : Pc) :
    Prop where
  goto : t.pc = Function.update s.pc T pc
  effect : Effect s t T pc
  toCancel : pc.toCancel ⊆ (s.pc T).toCancel ∨
    cancelling s a = some T ∧ pc.toCancel = m_devices
  asks : pc.asks ≠ some .m_lock ∨
    ∃ d, asking s a = some (T, d) ∧ ∀ e, pc.depth e = if d = e then 1 else 0
  /-- the thread is given the lock that it asked for -/
  granted : ((s.pc T).asks = some .m_lock → s.m_lock = none) ∧
    ∀ d, (s.pc T).asks = some (.m_state d) → (s.m_state d).lock T ≠ none
  /-- what is to be cancelled remains to be, but for the device it comes to -/
  remains : (∀ ret, a = .visited T ret → ret = 0) → ∀ d ∈ (s.pc T).toCancel,
    (s.pc T).asks ≠ some (.m_state d) → d ∈ pc.toCancel

/-- A step that leaves the locks alone, from a place where no lock is asked for and nothing is
to be cancelled. -/
theorem Moves.goto_of_silent {a : Act} {pc₀ pc : Pc} (hpc : s.pc T = pc₀)
    (hfree : pc₀.asks = none ∧ pc₀.toCancel = []) (hsession : pc.session = pc₀.session)
    (hdepth : ∀ e, pc.depth e = pc₀.depth e) (htoCancel : pc.toCancel = [])
    (hasks : pc.asks ≠ some .m_lock ∨
      ∃ d, asking s a = some (T, d) ∧ ∀ e, pc.depth e = if d = e then 1 else 0) :
    Moves m_devices s a (s.goto T pc) T pc := by
  subst hpc
  exact
    { goto := rfl
      effect := .silent rfl rfl hsession hdepth
      toCancel := .inl (by rw [htoCancel]; exact List.nil_subset _)
      asks := hasks
      granted := by simp [hfree.1]
      remains := by simp [hfree.2] }

/-- A step that gets `m_lock`, with nothing to be cancelled. -/
theorem Moves.goto_of_acquire {a : Act} {pc₀ pc : Pc} (hpc : s.pc T = pc₀)
    (hfree : s.m_lock = none) (hasked : pc₀.asks = some .m_lock) (hnone : pc₀.toCancel = [])
    (hsession : pc.session = true) (hdepth : ∀ e, pc.depth e = pc₀.depth e)
    (htoCancel : pc.toCancel = []) (hasks : pc.asks ≠ some .m_lock) :
    Moves m_devices s a (State.goto T pc { s with m_lock := some T }) T pc := by
  subst hpc
  exact
    { goto := rfl
      effect := .acquire ⟨hfree, rfl⟩ rfl hsession hdepth
      toCancel := .inl (by rw [htoCancel]; exact List.nil_subset _)
      asks := .inl hasks
      granted := by simp [hasked, hfree]
      remains := by simp [hnone] }

/-- A step that gets the `m_state` it asked for, of a device that is then no more to be
cancelled. -/
theorem Moves.goto_of_lock {a : Act} {pc₀ pc : Pc} {d : ℕ} {m : RecursiveMutex Thread}
    (hpc : s.pc T = pc₀) (htaken : (s.m_state d).lock T = some m)
    (hasked : pc₀.asks = some (.m_state d)) (hsession : pc.session = pc₀.session)
    (hdepth : ∀ e, pc.depth e = pc₀.depth e + if d = e then 1 else 0)
    (hsub : pc.toCancel ⊆ pc₀.toCancel) (hrest : ∀ e ∈ pc₀.toCancel, e ≠ d → e ∈ pc.toCancel)
    (hasks : pc.asks ≠ some .m_lock) :
    Moves m_devices s a
      (State.goto T pc { s with m_state := Function.update s.m_state d m }) T pc := by
  subst hpc
  refine ⟨rfl, .lock d m rfl htaken rfl hsession hdepth, .inl hsub, .inl hasks, ⟨?_, ?_⟩, ?_⟩
  · rw [hasked]
    simp
  · intro e he
    rw [hasked] at he
    obtain rfl : d = e := by simpa using he
    rw [htaken]
    simp
  · rintro - e he hne
    refine hrest e he ?_
    rintro rfl
    exact hne hasked

/-- A step that gives a device back. -/
theorem Moves.goto_of_unlock {a : Act} {pc₀ pc : Pc} {d : ℕ} (hpc : s.pc T = pc₀)
    (hasked : pc₀.asks = none) (hsession : pc.session = pc₀.session)
    (hdepth : ∀ e, pc.depth e + (if d = e then 1 else 0) = pc₀.depth e)
    (hsub : pc.toCancel ⊆ pc₀.toCancel)
    (hrest : (∀ ret, a = .visited T ret → ret = 0) → pc₀.toCancel ⊆ pc.toCancel)
    (hasks : pc.asks ≠ some .m_lock) :
    Moves m_devices s a (State.goto T pc
      { s with m_state := Function.update s.m_state d (s.m_state d).unlock }) T pc := by
  subst hpc
  exact
    { goto := rfl
      effect := .unlock d rfl rfl hsession hdepth
      toCancel := .inl hsub
      asks := .inl hasks
      granted := by simp [hasked]
      remains := fun hok e he _ => hrest hok he }

/-- Where a submission leads: back to the device, or, refused, to asking for `m_lock`. -/
theorem submitted_cases {d : ℕ} {result : Submission} {body : Body} {pc : Pc}
    (h : submitted d result body = some pc) :
    ((∀ ret, result ≠ .refused ret) ∧ ∃ body', pc = .inside d body') ∨
      ∃ ret next, result = .refused ret ∧ pc = .error d ret next := by
  cases result with
  | accepted | unwanted =>
      refine .inl ⟨by simp, ?_⟩
      unfold submitted at h
      split at h <;> first | exact ⟨_, (Option.some.inj h).symm⟩ | cases h
  | refused ret =>
      refine .inr ⟨ret, ?_⟩
      unfold submitted at h
      split at h <;> first | exact ⟨_, rfl, (Option.some.inj h).symm⟩ | cases h

/-- Where looking at the status leads. -/
theorem checked_cases (d : ℕ) (status m_cancellation : ℤ) :
    (∃ body, checked d status m_cancellation = .inside d body) ∨
      (status ≠ LIBUSB_TRANSFER_COMPLETED ∧ status ≠ LIBUSB_TRANSFER_CANCELLED) ∧
        checked d status m_cancellation = .error d status .tail := by
  rw [checked]
  split
  · split
    · exact .inl ⟨_, rfl⟩
    · exact .inl ⟨_, rfl⟩
  · rename_i hcompleted
    split
    · rename_i hcancelled
      exact .inr ⟨⟨hcompleted, hcancelled⟩, rfl⟩
    · exact .inl ⟨_, rfl⟩

/-- In `cancel` no thread asks for `m_lock`. -/
theorem Pc.asks_cancel_ne (d : ℕ) (devices : List ℕ) (next : Body) :
    (Pc.cancel d devices next).asks ≠ some .m_lock := by
  cases devices with
  | nil => simp [Pc.asks]
  | cons e devices => simp [Pc.asks]

/-- A thread that is given a lock. -/
theorem moves_of_take (hstep : (machine m_devices).step s (.take T) = some t) :
    ∃ pc, Moves m_devices s (.take T) t T pc := by
  simp only [machine] at hstep
  split at hstep
  · rename_i d body hpc
    obtain ⟨m, hm, rfl⟩ := Option.map_eq_some_iff.mp hstep
    exact ⟨.inside d body, .goto_of_lock hpc hm rfl rfl (fun e => (Nat.zero_add _).symm)
      (List.nil_subset _) (fun e he => by cases he) (by simp [Pc.asks])⟩
  · rename_i d status next hpc
    split at hstep
    · rename_i hfree
      obtain rfl := Option.some.inj hstep
      exact ⟨.handling d status next, .goto_of_acquire hpc hfree rfl rfl rfl (fun _ => rfl) rfl
        (by simp [Pc.asks])⟩
    · cases hstep
  · rename_i d hpc
    split at hstep
    · rename_i hfree
      obtain rfl := Option.some.inj hstep
      exact ⟨.cancel d [] .leave, .goto_of_acquire hpc hfree rfl rfl rfl (fun _ => rfl) rfl
        (by simp [Pc.asks])⟩
    · cases hstep
  · rename_i d e devices next hpc
    obtain ⟨m, hm, rfl⟩ := Option.map_eq_some_iff.mp hstep
    exact ⟨.visiting d e devices next, .goto_of_lock hpc hm rfl rfl (fun _ => rfl)
      (List.subset_cons_self e devices)
      (fun f hf hne => (List.mem_cons.mp hf).resolve_left hne) (by simp [Pc.asks])⟩
  · cases hstep

/-- A thread in `handle_error` that has looked whether to cancel. -/
theorem moves_of_decide (hstep : (machine m_devices).step s (.decide T) = some t) :
    ∃ pc, Moves m_devices s (.decide T) t T pc := by
  simp only [machine] at hstep
  split at hstep
  · rename_i d status next hpc
    split at hstep
    · rename_i hcancels
      obtain rfl := Option.some.inj hstep
      refine ⟨.cancel d m_devices next, rfl, .silent rfl rfl (by rw [hpc]; rfl) ?_,
        .inr ⟨by simp only [cancelling, hpc, if_pos hcancels], rfl⟩,
        .inl (Pc.asks_cancel_ne d m_devices next), by simp [hpc, Pc.asks],
        by simp [hpc, Pc.toCancel]⟩
      rw [hpc]
      exact fun _ => rfl
    · obtain rfl := Option.some.inj hstep
      exact ⟨.cancel d [] next, .goto_of_silent hpc ⟨rfl, rfl⟩ rfl (fun _ => rfl) rfl
        (.inl (by simp [Pc.asks]))⟩
  · cases hstep

/-- A thread that comes back from `cancel` of a device, and goes on only if that worked. -/
theorem moves_of_visited {ret : ℤ}
    (hstep : (machine m_devices).step s (.visited T ret) = some t) :
    ∃ pc, Moves m_devices s (.visited T ret) t T pc := by
  simp only [machine] at hstep
  split at hstep
  · rename_i d e devices next hpc
    obtain rfl := Option.some.inj hstep
    refine ⟨_, .goto_of_unlock hpc rfl rfl (fun _ => rfl) ?_ (fun hok => ?_)
      (Pc.asks_cancel_ne d _ next)⟩
    · split
      · exact List.nil_subset _
      · exact List.Subset.refl _
    · rw [if_neg (not_not.mpr (hok ret rfl))]
      exact List.Subset.refl _
  · cases hstep

/-- A thread that gives `m_lock` back. -/
theorem moves_of_release (hstep : (machine m_devices).step s (.release T) = some t) :
    ∃ pc, Moves m_devices s (.release T) t T pc := by
  simp only [machine] at hstep
  split at hstep
  · rename_i d next hpc
    obtain rfl := Option.some.inj hstep
    refine ⟨.inside d next, rfl, .release rfl rfl ⟨by rw [hpc]; rfl, rfl⟩ ?_,
      .inl (List.nil_subset _), .inl (by simp [Pc.asks]), by simp [hpc, Pc.asks],
      by simp [hpc, Pc.toCancel]⟩
    rw [hpc]
    exact fun _ => rfl
  · cases hstep

/-- A thread that is done with its device. -/
theorem moves_of_leave (hstep : (machine m_devices).step s (.leave T) = some t) :
    ∃ pc, Moves m_devices s (.leave T) t T pc := by
  simp only [machine] at hstep
  split at hstep
  · rename_i d hpc
    obtain rfl := Option.some.inj hstep
    exact ⟨.idle, .goto_of_unlock hpc rfl rfl (fun _ => Nat.zero_add _) (List.nil_subset _)
      (fun _ => List.nil_subset _) (by simp [Pc.asks])⟩
  · rename_i d hpc
    obtain rfl := Option.some.inj hstep
    exact ⟨.idle, .goto_of_unlock hpc rfl rfl (fun _ => Nat.zero_add _) (List.nil_subset _)
      (fun _ => List.nil_subset _) (by simp [Pc.asks])⟩
  · cases hstep

/-- **What a step does**: it takes one thread on, or concerns no thread and no lock. -/
theorem step_cases {a : Act} (hstep : (machine m_devices).step s a = some t) :
    (∃ m_cancellation, t = { s with m_cancellation := m_cancellation }) ∨
      ∃ T pc, Moves m_devices s a t T pc := by
  cases a with
  | start => exact .inl ⟨0, (Option.some.inj hstep).symm⟩
  | cancelled => exact .inl ⟨_, (Option.some.inj hstep).symm⟩
  | take T => exact .inr ⟨T, moves_of_take hstep⟩
  | decide T => exact .inr ⟨T, moves_of_decide hstep⟩
  | visited T ret => exact .inr ⟨T, moves_of_visited hstep⟩
  | release T => exact .inr ⟨T, moves_of_release hstep⟩
  | leave T => exact .inr ⟨T, moves_of_leave hstep⟩
  | event d status =>
      simp only [machine] at hstep
      split at hstep
      · rename_i hpc
        obtain rfl := Option.some.inj hstep
        exact .inr ⟨.usb, _, .goto_of_silent hpc ⟨rfl, rfl⟩ rfl (fun _ => rfl) rfl
          (.inl (by simp [Pc.asks]))⟩
      · cases hstep
  | kickoff n d ins outs =>
      simp only [machine] at hstep
      split at hstep
      · rename_i hpc
        obtain rfl := Option.some.inj hstep
        exact .inr ⟨.kickoff n, _, .goto_of_silent hpc ⟨rfl, rfl⟩ rfl (fun _ => rfl) rfl
          (.inl (by simp [Pc.asks]))⟩
      · cases hstep
  | submit T result =>
      simp only [machine] at hstep
      split at hstep
      · rename_i d body hpc
        obtain ⟨pc, hpc', rfl⟩ := Option.map_eq_some_iff.mp hstep
        rcases submitted_cases hpc' with ⟨-, body', rfl⟩ | ⟨ret, next, rfl, rfl⟩
        · exact .inr ⟨T, _, .goto_of_silent hpc ⟨rfl, rfl⟩ rfl (fun _ => rfl) rfl
            (.inl (by simp [Pc.asks]))⟩
        · have hasking : asking s (.submit T (.refused ret)) = some (T, d) := by
            simp only [asking, hpc]
          exact .inr ⟨T, _, .goto_of_silent hpc ⟨rfl, rfl⟩ rfl (fun _ => rfl) rfl
            (.inr ⟨d, hasking, fun _ => rfl⟩)⟩
      · cases hstep
  | check T =>
      simp only [machine] at hstep
      split at hstep
      · rename_i d status hpc
        obtain rfl := Option.some.inj hstep
        rcases checked_cases d status s.m_cancellation with ⟨body, hbody⟩ | ⟨hfails, herror⟩
        · rw [hbody]
          exact .inr ⟨T, _, .goto_of_silent hpc ⟨rfl, rfl⟩ rfl (fun _ => rfl) rfl
            (.inl (by simp [Pc.asks]))⟩
        · rw [herror]
          have hasking : asking s (.check T) = some (T, d) := by
            simp only [asking, hpc, if_pos hfails]
          exact .inr ⟨T, _, .goto_of_silent hpc ⟨rfl, rfl⟩ rfl (fun _ => rfl) rfl
            (.inr ⟨d, hasking, fun _ => rfl⟩)⟩
      · cases hstep
  | last T inactive =>
      simp only [machine] at hstep
      split at hstep
      · rename_i d hpc
        split at hstep
        · rename_i hlast
          obtain rfl := Option.some.inj hstep
          have hasking : asking s (.last T inactive) = some (T, d) := by
            simp only [asking, hpc, if_pos hlast]
          exact .inr ⟨T, _, .goto_of_silent hpc ⟨rfl, rfl⟩ rfl (fun _ => rfl) rfl
            (.inr ⟨d, hasking, fun _ => rfl⟩)⟩
        · obtain rfl := Option.some.inj hstep
          exact .inr ⟨T, _, .goto_of_silent hpc ⟨rfl, rfl⟩ rfl (fun _ => rfl) rfl
            (.inl (by simp [Pc.asks]))⟩
      · cases hstep

/-! ### The locks and the threads agree -/

/-- **The locks and the threads agree**: a thread holds what it holds where it is. -/
structure Inv (s : State) : Prop where
  session : ∀ T, s.m_lock = some T ↔ (s.pc T).session = true
  state : ∀ T d, (s.m_state d).depth T = (s.pc T).depth d

theorem Inv.init : Inv .init where
  session _ := by simp [State.init, Pc.session]
  state _ _ := rfl

/-- Where a step leaves the threads. -/
theorem Moves.pc_self {a : Act} {pc : Pc} (h : Moves m_devices s a t T pc) : t.pc T = pc := by
  rw [h.goto, Function.update_self]

theorem Moves.pc_of_ne {a : Act} {pc : Pc} (h : Moves m_devices s a t T pc) {U : Thread}
    (hne : U ≠ T) : t.pc U = s.pc U := by
  rw [h.goto, Function.update_of_ne hne]

/-- The thread that takes a step holds what it holds where it comes to. -/
theorem Inv.self_of_effect (h : Inv s) {pc : Pc} (heffect : Effect s t T pc) :
    (t.m_lock = some T ↔ pc.session = true) ∧ ∀ d, (t.m_state d).depth T = pc.depth d := by
  cases heffect with
  | silent hlock hstate hsession hdepth =>
      rw [hlock, hstate, hsession, h.session]
      exact ⟨Iff.rfl, fun d => by rw [h.state, hdepth]⟩
  | acquire hlock hstate hsession hdepth =>
      rw [hlock.2, hstate, hsession]
      exact ⟨⟨fun _ => rfl, fun _ => rfl⟩, fun d => by rw [h.state, hdepth]⟩
  | release hlock hstate hsession hdepth =>
      rw [hlock, hstate, hsession.2]
      exact ⟨by simp, fun d => by rw [h.state, hdepth]⟩
  | lock d m hlock htaken hstate hsession hdepth =>
      rw [hlock, hstate, hsession, h.session]
      refine ⟨Iff.rfl, fun e => ?_⟩
      rw [hdepth, ← h.state]
      by_cases hde : d = e
      · subst hde
        rw [Function.update_self, if_pos rfl, RecursiveMutex.depth_lock_self htaken]
      · rw [Function.update_of_ne (Ne.symm hde), if_neg hde, Nat.add_zero]
  | unlock d hlock hstate hsession hdepth =>
      rw [hlock, hstate, hsession, h.session]
      refine ⟨Iff.rfl, fun e => ?_⟩
      have hheld := hdepth e
      rw [← h.state] at hheld
      by_cases hde : d = e
      · subst hde
        rw [if_pos rfl] at hheld
        rw [Function.update_self]
        have hunlock := RecursiveMutex.depth_unlock_self (T := T) (m := s.m_state d) (by omega)
        omega
      · rw [if_neg hde, Nat.add_zero] at hheld
        rw [Function.update_of_ne (Ne.symm hde), hheld]

/-- The other threads hold what they held. -/
theorem Inv.other_of_effect (h : Inv s) {pc : Pc} (heffect : Effect s t T pc) {U : Thread}
    (hU : U ≠ T) : (t.m_lock = some U ↔ s.m_lock = some U) ∧
      ∀ d, (t.m_state d).depth U = (s.m_state d).depth U := by
  cases heffect with
  | silent hlock hstate hsession hdepth =>
      rw [hlock, hstate]
      exact ⟨Iff.rfl, fun d => rfl⟩
  | acquire hlock hstate hsession hdepth =>
      rw [hlock.2, hlock.1, hstate]
      exact ⟨⟨fun heq => absurd (Option.some.inj heq).symm hU, fun heq => (by cases heq)⟩,
        fun d => rfl⟩
  | release hlock hstate hsession hdepth =>
      have hmine := (h.session T).mpr hsession.1
      rw [hlock, hmine, hstate]
      exact ⟨⟨fun heq => (by cases heq), fun heq => absurd (Option.some.inj heq).symm hU⟩,
        fun d => rfl⟩
  | lock d m hlock htaken hstate hsession hdepth =>
      rw [hlock, hstate]
      refine ⟨Iff.rfl, fun e => ?_⟩
      by_cases hde : d = e
      · subst hde
        rw [Function.update_self, RecursiveMutex.depth_lock_of_ne htaken hU]
      · rw [Function.update_of_ne (Ne.symm hde)]
  | unlock d hlock hstate hsession hdepth =>
      rw [hlock, hstate]
      refine ⟨Iff.rfl, fun e => ?_⟩
      by_cases hde : d = e
      · subst hde
        have hheld := hdepth d
        rw [if_pos rfl, ← h.state] at hheld
        rw [Function.update_self, RecursiveMutex.depth_unlock_of_ne (T := T) (by omega) hU]
      · rw [Function.update_of_ne (Ne.symm hde)]

/-- **The step lemma**: every step keeps the locks and the threads in agreement. -/
theorem Inv.step {a : Act} (h : Inv s) (hstep : (machine m_devices).step s a = some t) :
    Inv t := by
  rcases step_cases hstep with ⟨m_cancellation, rfl⟩ | ⟨T, pc, hmoves⟩
  · exact ⟨h.session, h.state⟩
  constructor
  · intro U
    by_cases hU : U = T
    · rw [hU, hmoves.pc_self]
      exact (h.self_of_effect hmoves.effect).1
    · rw [hmoves.pc_of_ne hU, (h.other_of_effect hmoves.effect hU).1]
      exact h.session U
  · intro U d
    by_cases hU : U = T
    · rw [hU, hmoves.pc_self]
      exact (h.self_of_effect hmoves.effect).2 d
    · rw [hmoves.pc_of_ne hU, (h.other_of_effect hmoves.effect hU).2]
      exact h.state U d

/-! ### Keeping apart -/

/-- A thread other than `T` that holds the device `e` does not ask for `m_lock`. -/
def Quiet (s : State) (T : Thread) (e : ℕ) : Prop :=
  match s.m_state e with
  | .free => True
  | .held U _ => U = T ∨ (s.pc U).asks ≠ some .m_lock

instance (s : State) (T : Thread) (e : ℕ) : Decidable (Quiet s T e) := by
  rw [Quiet]
  split
  · infer_instance
  · infer_instance

/-- **Keeping apart**: a thread does not ask for `m_lock` holding a device that another one
has still to cancel, and none begins to cancel while another one holds a device of the
session and asks for `m_lock`. -/
def Apart (m_devices : List ℕ) (s : State) (a : Act) : Prop :=
  (∀ x ∈ asking s a, ∀ H ∈ s.m_lock, H ≠ x.1 → x.2 ∉ (s.pc H).toCancel) ∧
    ∀ T ∈ cancelling s a, ∀ e ∈ m_devices, Quiet s T e

instance (m_devices : List ℕ) (s : State) (a : Act) : Decidable (Apart m_devices s a) :=
  inferInstanceAs (Decidable
    ((∀ x ∈ asking s a, ∀ H ∈ s.m_lock, H ≠ x.1 → x.2 ∉ (s.pc H).toCancel) ∧ _))

/-- **Clear**: no thread that another one will meet in `cancel` asks for `m_lock`. -/
def Clear (s : State) : Prop :=
  ∀ H U d, H ≠ U → d ∈ (s.pc H).toCancel → 0 < (s.pc U).depth d →
    (s.pc U).asks ≠ some .m_lock

theorem Clear.init : Clear .init := by
  intro H U d _ hd
  cases hd

/-- Only a thread with `m_lock` has devices to cancel. -/
theorem Pc.session_of_toCancel {pc : Pc} {d : ℕ} (h : d ∈ pc.toCancel) : pc.session = true := by
  cases pc with
  | cancel _ _ _ | visiting _ _ _ _ => rfl
  | idle | locking _ _ | inside _ _ | error _ _ _ | handling _ _ _ | completing _ => cases h

/-- A thread that holds a device does not ask for `m_lock` where it is quiet. -/
theorem Quiet.asks_ne {e : ℕ} (hinv : Inv s) (h : Quiet s T e) {U : Thread} (hne : U ≠ T)
    (hholds : 0 < (s.pc U).depth e) : (s.pc U).asks ≠ some .m_lock := by
  rw [← hinv.state] at hholds
  rw [Quiet] at h
  split at h
  · rename_i hfree
    rw [hfree] at hholds
    exact absurd hholds (Nat.lt_irrefl 0)
  · rename_i V n hheld
    have hV : 0 < (s.m_state e).depth V := by
      rw [hheld, RecursiveMutex.depth, if_pos rfl]
      exact Nat.succ_pos n
    obtain rfl := RecursiveMutex.eq_of_depth_pos hholds hV
    exact h.resolve_left hne

/-- Steps that keep apart keep clear. -/
theorem Clear.step {a : Act} (hinv : Inv s) (h : Clear s) (hok : Apart m_devices s a)
    (hstep : (machine m_devices).step s a = some t) : Clear t := by
  rcases step_cases hstep with ⟨m_cancellation, rfl⟩ | ⟨T, pc, hmoves⟩
  · exact h
  intro H U d hne hd hholds
  by_cases hU : U = T
  · subst hU
    rw [hmoves.pc_self] at hholds ⊢
    rw [hmoves.pc_of_ne hne] at hd
    rcases hmoves.asks with hasks | ⟨d', hasking, hdepth⟩
    · exact hasks
    · have hlock := (hinv.session H).mpr (Pc.session_of_toCancel hd)
      have hnot := hok.1 (U, d') hasking H hlock hne
      rw [hdepth] at hholds
      split at hholds
      · rename_i heq
        exact absurd (heq ▸ hd) hnot
      · exact absurd hholds (Nat.lt_irrefl 0)
  · rw [hmoves.pc_of_ne hU] at hholds ⊢
    by_cases hH : H = T
    · subst hH
      rw [hmoves.pc_self] at hd
      rcases hmoves.toCancel with hsub | ⟨hcancels, hall⟩
      · exact h H U d hne (hsub hd) hholds
      · exact (hok.2 H hcancels d (hall ▸ hd)).asks_ne hinv (Ne.symm hne) hholds
    · rw [hmoves.pc_of_ne hH] at hd
      exact h H U d hne hd hholds

/-! ### No cyclic wait -/

/-- A thread that holds a lock and asks for one asks for `m_lock`, or is in `cancel`. -/
theorem asks_cases {l l' : Lock} (hinv : Inv s) (hholds : s.table.holds T l)
    (hasks : s.table.asks T l') :
    l' = .m_lock ∨ ∃ e, l' = .m_state e ∧ e ∈ (s.pc T).toCancel := by
  have hasks' : (s.pc T).asks = some l' := hasks
  cases hpc : s.pc T with
  | locking d body =>
      -- a thread that is not inside a device holds nothing
      cases l with
      | m_lock =>
          have hsession := (hinv.session T).mp hholds
          rw [hpc] at hsession
          cases hsession
      | m_state e =>
          have hdepth : 0 < (s.m_state e).depth T := hholds
          rw [hinv.state, hpc] at hdepth
          exact absurd hdepth (Nat.lt_irrefl 0)
  | error d status next | completing d =>
      rw [hpc] at hasks'
      exact .inl (Option.some.inj hasks').symm
  | cancel d devices next =>
      rw [hpc] at hasks'
      cases devices with
      | nil => cases hasks'
      | cons e devices =>
          exact .inr ⟨e, (Option.some.inj hasks').symm, List.mem_cons_self⟩
  | idle | inside d body | handling d status next | visiting d e devices next =>
      rw [hpc] at hasks'
      cases hasks'

/-- **No cyclic wait** where the state is clear: a thread waits for `m_lock`, the thread that
holds it waits in `cancel` for a device, and the thread that holds that device does not wait
for `m_lock`. -/
theorem Clear.not_cyclicWait (hinv : Inv s) (h : Clear s) : ¬s.table.CyclicWait := by
  refine Table.not_cyclicWait_of_rank
    (fun T => if (s.pc T).asks = some .m_lock then 1 else 0) ?_
  rintro T U V ⟨l, hT⟩ ⟨hUT, m, hTasks, hU⟩ ⟨hVU, n, hUasks, hV⟩
  have hUcases := asks_cases hinv hU hUasks
  rcases asks_cases hinv hT hTasks with rfl | ⟨e, rfl, he⟩
  · rcases hUcases with rfl | ⟨f, rfl, -⟩
    · have hUlock : s.m_lock = some U := hU
      have hVlock : s.m_lock = some V := hV
      rw [hUlock] at hVlock
      exact absurd (Option.some.inj hVlock).symm hVU
    · have hTrank : (s.pc T).asks = some .m_lock := hTasks
      have hUrank : (s.pc U).asks = some (.m_state f) := hUasks
      simp [hTrank, hUrank]
  · have hdepth : 0 < (s.m_state e).depth U := hU
    rw [hinv.state] at hdepth
    have hnot := h T U e (Ne.symm hUT) he hdepth
    rcases hUcases with rfl | ⟨f, rfl, hf⟩
    · exact absurd hUasks hnot
    · have hTlock := (hinv.session T).mpr (Pc.session_of_toCancel he)
      have hUlock := (hinv.session U).mpr (Pc.session_of_toCancel hf)
      rw [hTlock] at hUlock
      exact absurd (Option.some.inj hUlock).symm hUT

/-- **No cyclic wait** in any run whose steps keep apart, for any devices and any threads. -/
theorem no_cyclicWait {as : List Act} (hok : (machine m_devices).Meets (Apart m_devices) .init as)
    (hrun : (machine m_devices).run .init as = some s) : ¬s.table.CyclicWait := by
  have hsteps : ∀ s a t, Inv s ∧ Clear s → Apart m_devices s a →
      (machine m_devices).step s a = some t → Inv t ∧ Clear t :=
    fun s a t hs hok hstep => ⟨hs.1.step hstep, hs.2.step hs.1 hok hstep⟩
  obtain ⟨hinv, hclear⟩ := Machine.invariant_of_meets hsteps ⟨Inv.init, Clear.init⟩ hok hrun
  exact hclear.not_cyclicWait hinv

/-! ### Two threads that do not keep apart -/

/-- **Doomed**: `H` has `m_lock` and a device still to cancel that `T` holds, which asks for
`m_lock`. -/
def Doomed (s : State) (H T : Thread) (d : ℕ) : Prop :=
  H ≠ T ∧ d ∈ (s.pc H).toCancel ∧ 0 < (s.pc T).depth d ∧ (s.pc T).asks = some .m_lock

/-- A step after which a thread asks for `m_lock` takes that thread there. -/
theorem asks_of_asking {a : Act} {d : ℕ} (hasking : asking s a = some (T, d))
    (hstep : (machine m_devices).step s a = some t) :
    ∃ pc, t.pc = Function.update s.pc T pc ∧ pc.asks = some .m_lock ∧ 0 < pc.depth d := by
  cases a with
  | submit U result =>
      cases result with
      | refused ret =>
          simp only [asking] at hasking
          split at hasking
          · rename_i d' body hpc
            obtain ⟨rfl, rfl⟩ := Prod.mk.inj (Option.some.inj hasking)
            simp only [machine, hpc] at hstep
            obtain ⟨pc, hpc', rfl⟩ := Option.map_eq_some_iff.mp hstep
            rcases submitted_cases hpc' with ⟨hne, -⟩ | ⟨ret', next, -, rfl⟩
            · exact absurd rfl (hne ret)
            · exact ⟨_, rfl, rfl, by simp [Pc.depth]⟩
          · cases hasking
      | accepted | unwanted => cases hasking
  | check U =>
      simp only [asking] at hasking
      split at hasking
      · rename_i d' status hpc
        split at hasking
        · rename_i hfails
          obtain ⟨rfl, rfl⟩ := Prod.mk.inj (Option.some.inj hasking)
          simp only [machine, hpc] at hstep
          obtain rfl := Option.some.inj hstep
          refine ⟨checked d' status s.m_cancellation, rfl, ?_⟩
          rw [checked, if_neg hfails.1, if_pos hfails.2]
          exact ⟨rfl, by simp [Pc.depth]⟩
        · cases hasking
      · cases hasking
  | last U inactive =>
      simp only [asking] at hasking
      split at hasking
      · rename_i d' hpc
        split at hasking
        · rename_i hlast
          obtain ⟨rfl, rfl⟩ := Prod.mk.inj (Option.some.inj hasking)
          simp only [machine, hpc, if_pos hlast] at hstep
          obtain rfl := Option.some.inj hstep
          exact ⟨.completing d', rfl, rfl, by simp [Pc.depth]⟩
        · cases hasking
      · cases hasking
  | event _ _ | kickoff _ _ _ _ | start | cancelled | take _ | decide _ | visited _ _
  | release _ | leave _ => cases hasking

/-- A step after which a thread cancels takes that thread there. -/
theorem toCancel_of_cancelling {a : Act} (hcancels : cancelling s a = some T)
    (hstep : (machine m_devices).step s a = some t) :
    ∃ pc, t.pc = Function.update s.pc T pc ∧ pc.toCancel = m_devices := by
  cases a with
  | decide U =>
      simp only [cancelling] at hcancels
      split at hcancels
      · rename_i d status next hpc
        split at hcancels
        · rename_i hgoes
          obtain rfl := Option.some.inj hcancels
          simp only [machine, hpc, if_pos hgoes] at hstep
          obtain rfl := Option.some.inj hstep
          exact ⟨.cancel d m_devices next, rfl, rfl⟩
        · cases hcancels
      · cases hcancels
  | event _ _ | kickoff _ _ _ _ | start | cancelled | take _ | submit _ _ | check _ | last _ _
  | visited _ _ | release _ | leave _ => cases hcancels

/-- **A step that does not keep apart** leads to a doomed state. -/
theorem doomed_of_not_apart {a : Act} (hinv : Inv s) (hnot : ¬Apart m_devices s a)
    (hstep : (machine m_devices).step s a = some t) : ∃ H T d, Doomed t H T d := by
  rcases not_and_or.mp hnot with hnot | hnot
  · push Not at hnot
    obtain ⟨⟨T, d⟩, hasking, H, -, hne, hd⟩ := hnot
    obtain ⟨pc, hgoto, hasks, hdepth⟩ := asks_of_asking hasking hstep
    refine ⟨H, T, d, hne, ?_, ?_, ?_⟩
    · rw [hgoto, Function.update_of_ne hne]
      exact hd
    · rw [hgoto, Function.update_self]
      exact hdepth
    · rw [hgoto, Function.update_self]
      exact hasks
  · push Not at hnot
    obtain ⟨H, hcancels, d, hd, hquiet⟩ := hnot
    obtain ⟨pc, hgoto, htoCancel⟩ := toCancel_of_cancelling hcancels hstep
    rw [Quiet] at hquiet
    split at hquiet
    · exact absurd trivial hquiet
    · rename_i T n hheld
      rw [not_or, not_not] at hquiet
      refine ⟨H, T, d, Ne.symm hquiet.1, ?_, ?_, ?_⟩
      · rw [hgoto, Function.update_self, htoCancel]
        exact hd
      · rw [hgoto, Function.update_of_ne hquiet.1, ← hinv.state, hheld, RecursiveMutex.depth,
          if_pos rfl]
        exact Nat.succ_pos n
      · rw [hgoto, Function.update_of_ne hquiet.1]
        exact hquiet.2

/-- **Doomed for ever**: neither thread ever goes on, unless the one in `cancel` is told by a
device that it failed to cancel. -/
theorem Doomed.step {a : Act} {H : Thread} {d : ℕ} (hinv : Inv s) (h : Doomed s H T d)
    (hok : ∀ ret, a = .visited H ret → ret = 0)
    (hstep : (machine m_devices).step s a = some t) : Doomed t H T d := by
  obtain ⟨hne, hd, hholds, hasks⟩ := h
  have hlock := (hinv.session H).mpr (Pc.session_of_toCancel hd)
  rcases step_cases hstep with ⟨m_cancellation, rfl⟩ | ⟨U, pc, hmoves⟩
  · exact ⟨hne, hd, hholds, hasks⟩
  -- the thread that asks for `m_lock` is not given it
  have hUT : T ≠ U := by
    rintro rfl
    have hfree := hmoves.granted.1 hasks
    rw [hlock] at hfree
    cases hfree
  refine ⟨hne, ?_, by rw [hmoves.pc_of_ne hUT]; exact hholds,
    by rw [hmoves.pc_of_ne hUT]; exact hasks⟩
  by_cases hUH : H = U
  · subst hUH
    rw [hmoves.pc_self]
    refine hmoves.remains hok d hd fun hnext => hmoves.granted.2 d hnext ?_
    rw [← hinv.state] at hholds
    exact RecursiveMutex.lock_of_held hholds (Ne.symm hne)
  · rw [hmoves.pc_of_ne hUH]
    exact hd

/-- A doomed pair waits for each other as soon as `H` comes to the device. -/
theorem Doomed.cyclicWait {H : Thread} {d : ℕ} (hinv : Inv s) (h : Doomed s H T d)
    (hnext : (s.pc H).asks = some (.m_state d)) : s.table.CyclicWait := by
  obtain ⟨hne, hd, hholds, hasks⟩ := h
  rw [← hinv.state] at hholds
  have hlock := (hinv.session H).mpr (Pc.session_of_toCancel hd)
  exact Table.cyclicWait_pair hne (l := .m_lock) (m := .m_state d) hlock hholds hnext hasks

/-! ### Two devices -/

/-- The kickoff thread of device 1 is done before a transfer of device 0 fails, and the USB
thread cancels both devices. -/
def inTurn : List Act :=
  [.kickoff 0 1 1 0, .take (.kickoff 0), .submit (.kickoff 0) .accepted, .leave (.kickoff 0),
    .event 0 1, .take .usb, .check .usb, .take .usb, .decide .usb, .take .usb, .visited .usb 0,
    .take .usb, .visited .usb 0, .release .usb]

/-- A run of two devices whose steps keep apart. -/
theorem no_cyclicWait_two : ∃ s,
    (machine [0, 1]).run .init inTurn = some s ∧ s.pc .usb = .inside 0 .tail ∧
      ¬s.table.CyclicWait := by
  have hok : (machine [0, 1]).Meets (Apart [0, 1]) .init inTurn := by decide +kernel
  have hrun : ((machine [0, 1]).run .init inTurn).map (fun s => s.pc .usb) =
      some (.inside 0 .tail) := by
    decide +kernel
  obtain ⟨s, hs, hpc⟩ := Option.map_eq_some_iff.mp hrun
  exact ⟨s, hs, hpc, no_cyclicWait hok hs⟩

/-- The same failure while the kickoff thread of device 1 fails to submit a transfer. -/
def atOnce : List Act :=
  [.kickoff 0 1 1 0, .take (.kickoff 0), .event 0 1, .take .usb, .check .usb,
    .submit (.kickoff 0) (.refused (-1)), .take .usb, .decide .usb, .take .usb, .visited .usb 0]

/-- **A cyclic wait**: the USB thread has `m_lock` and asks for device 1, whose kickoff thread
asks for `m_lock`. -/
theorem cyclic_wait : ∃ s, (machine [0, 1]).run .init atOnce = some s ∧ s.table.CyclicWait := by
  have hrun : ((machine [0, 1]).run .init atOnce).map
      (fun s => (s.m_lock, (s.m_state 1).depth (.kickoff 0), s.pc .usb, s.pc (.kickoff 0))) =
        some (some .usb, 1, .cancel 0 [1] .tail, .error 1 (-1) (.kick 0 0)) := by
    decide +kernel
  obtain ⟨s, hs, hout⟩ := Option.map_eq_some_iff.mp hrun
  simp only [Prod.mk.injEq] at hout
  obtain ⟨hlock, hstate, husb, hkickoff⟩ := hout
  have hlock' : s.table.holds .usb .m_lock := hlock
  have hholds : s.table.holds (.kickoff 0) (.m_state 1) := by
    have hpos : 0 < (s.m_state 1).depth (.kickoff 0) := by omega
    exact hpos
  have husb' : s.table.asks .usb (.m_state 1) := by
    rw [State.table]
    simp only [husb]
    rfl
  have hkickoff' : s.table.asks (.kickoff 0) .m_lock := by
    rw [State.table]
    simp only [hkickoff]
    rfl
  exact ⟨s, hs, Table.cyclicWait_pair (by decide) hlock' hholds husb' hkickoff'⟩

end Libsmu.LockOrder
