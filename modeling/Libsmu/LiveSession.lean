import Libsmu.DeviceControl
import Libsmu.DeviceSet

/-!
# Sessions with their Devices

`Session` keeps the books and is told what the devices return. A `Live` session has the
devices as well: `start` and `end` work on them by control transfers, and what these are
answered decides what the calls return.

A device streams from a `run` that returns 0 to the call of `completion` that its last
transfer makes; `streaming` records which ones do. Transfers are handled on other threads,
between the calls of the user and while `end` waits; `SessionCompletion` has those handled
while `start` is running.

## Main results

* `start_toSession`: forgetting the devices, `start` is `Session.start` with the answers
  that the devices give.
* `startFrom_cases`: the devices are started in order up to the first one that fails.
-/

namespace Libsmu

open Session (EBUSY ENODEV Transfers Answers)

/-- A session with its devices. -/
structure Live extends Session where
  board : ℕ → Board
  /-- 0 until a transfer fails or the session is cancelled -/
  m_cancellation : ℤ
  /-- record: the devices that were run and have not called `completion` since -/
  streaming : List ℕ

namespace Live

open Board (Launch Shutdown Outcome)

/-- A session without devices. -/
def init (fwver : ℕ → ℚ) : Live where
  toSession := .init
  board d := .new (fwver d)
  m_cancellation := 0
  streaming := []

/-! ### Starting -/

/-- The timer period of a device. -/
def m_sam_per (s : Session) (d : ℕ) : ℕ := (s.heap d).m_sam_per.toNat

/-- The devices of a session are synchronized if there are several. -/
def Synchronized (s : Session) : Bool := decide (1 < s.m_devices.length)

/-- What the calls of `start` return for each device. -/
def answers (env : ℕ → Launch) (samples : ℕ) (board : ℕ → Board) (s : Session) (d : ℕ) : Answers :=
  (board d).answers (env d) (Synchronized s) (m_sam_per s d) samples

/-- What the loop of `Session::start` does for a device before counting it. -/
def startOne (env : ℕ → Launch) (samples d : ℕ) (s : Live) : Live × ℤ :=
  let r := (s.board d).start (env d) (Synchronized s.toSession) (m_sam_per s.toSession d) samples
  ({ s with
      board := Function.update s.board d r.1
      captures :=
        if (answers env samples s.board s.toSession d).Runs s.m_devices.length then
          s.captures ++ [⟨s.heap d, s.m_sample_rate⟩]
        else s.captures }, r.2)

/-- A device that was run is counted. -/
def count (d : ℕ) (s : Live) : Live :=
  { s with
    m_active_devices := Counter.add 32 s.m_active_devices 1
    streaming := s.streaming ++ [d] }

/-- The loop of `Session::start`. -/
def startFrom (env : ℕ → Launch) (samples : ℕ) : List ℕ → Live → Live × ℤ
  | [], s => (s, 0)
  | d :: ds, s =>
      let r := s.startOne env samples d
      if r.2 ≠ 0 then r else startFrom env samples ds (r.1.count d)

/-- `Session::start` up to its loop. -/
def prepare (samples : ℕ) (mem : ℕ → Transfers) (s : Live) : Live :=
  let s : Live := { s with m_cancellation := 0, m_continuous := decide (samples = 0) }
  if s.m_sample_rate = 0 then { s with toSession := (s.toSession.configure 0 mem).1 } else s

/-- `Session::start`. -/
def start (samples : ℕ) (mem : ℕ → Transfers) (env : ℕ → Launch) (s : Live) : Live × ℤ :=
  startFrom env samples (s.prepare samples mem).m_devices (s.prepare samples mem)

/-! ### Stopping -/

/-- `LIBUSB_TRANSFER_CANCELLED`. -/
def LIBUSB_TRANSFER_CANCELLED : ℤ := 3

/-- The loop of `Session::cancel`: what the first device returns that fails to cancel its
transfers. -/
def cancelFrom (answers : ℕ → ℤ) : List ℕ → ℤ
  | [] => 0
  | d :: ds => if answers d ≠ 0 then answers d else cancelFrom answers ds

theorem cancelFrom_eq_zero_iff {answers : ℕ → ℤ} {ds : List ℕ} :
    cancelFrom answers ds = 0 ↔ ∀ d ∈ ds, answers d = 0 := by
  induction ds with
  | nil => simp [cancelFrom]
  | cons d ds ih =>
      rw [cancelFrom, List.forall_mem_cons]
      split_ifs with hd
      · exact iff_of_false hd fun h => hd h.1
      · rw [ih, and_iff_right (not_not.mp hd)]

/-- `Session::cancel`. -/
def cancel (answers : ℕ → ℤ) (s : Live) : Live × ℤ :=
  ({ s with m_cancellation := LIBUSB_TRANSFER_CANCELLED }, cancelFrom answers s.m_devices)

/-- `Session::handle_error`. -/
def handle_error (status : ℤ) (answers : ℕ → ℤ) (s : Live) : Live :=
  if s.m_cancellation = 0 ∧ status ≠ LIBUSB_TRANSFER_CANCELLED then
    (cancel answers { s with m_cancellation := status }).1
  else s

/-- `Session::completion`, called by a device that is streaming. -/
def completion (s : Live) (d : ℕ) : Live :=
  if d ∈ s.streaming then
    { s with
      m_active_devices := Counter.pred 32 s.m_active_devices
      streaming := s.streaming.erase d }
  else s

/-- `off` of a device. -/
def offOne (env : ℕ → Shutdown) (d : ℕ) (s : Live) : Live × Outcome :=
  let r := (s.board d).off (env d)
  ({ s with board := Function.update s.board d r.1 }, r.2)

/-- The loop of `Session::end`; `ret` is what it has to return so far. -/
def offFrom (env : ℕ → Shutdown) : List ℕ → Live → ℤ → Live × Outcome
  | [], s, ret => (s, .returned ret)
  | d :: ds, s, _ =>
      let r := s.offOne env d
      match r.2 with
      | .threw => r
      | .returned ret =>
          -- the device has already been detached
          if ret = -ENODEV then offFrom env ds r.1 0
          else if ret ≠ 0 then r
          else offFrom env ds r.1 ret

/-- What `end` meets with. -/
structure Ending where
  /-- what the devices return from `cancel` -/
  cancel : ℕ → ℤ
  /-- the devices that call `completion` while it waits -/
  completing : List ℕ
  off : ℕ → Shutdown

/-- `Session::end` up to its loop. -/
def wait (env : Ending) (s : Live) : Live :=
  -- cancel continuous sessions before ending them
  let s : Live :=
    if s.m_continuous then { (s.cancel env.cancel).1 with m_continuous := false } else s
  env.completing.foldl completion s

/-- `Session::end`. -/
def end_ (env : Ending) (s : Live) : Live × Outcome :=
  offFrom env.off (s.wait env).m_devices (s.wait env) 0

/-- `Session::run`. -/
def run (samples : ℕ) (mem : ℕ → Transfers) (env : ℕ → Launch) (ending : Ending) (s : Live) :
    Live × Outcome :=
  if 0 < samples ∧ s.m_continuous then (s, .returned (-EBUSY))
  else
    let r := s.start samples mem env
    if r.2 ≠ 0 then (r.1, .returned r.2) else r.1.end_ ending

/-- Memory for every device. -/
def plenty (_ : ℕ) : Transfers := .plenty

/-! ### Forgetting the devices -/

/-- What the loop of `start` gets from a device, by the answers it gives. -/
theorem startOne_snd (env : ℕ → Launch) (samples d : ℕ) (s : Live) :
    (s.startOne env samples d).2 =
      if (answers env samples s.board s.toSession d).on ≠ 0 then
        (answers env samples s.board s.toSession d).on
      else if 1 < s.m_devices.length ∧
          (answers env samples s.board s.toSession d).sync ≠ 0 then
        (answers env samples s.board s.toSession d).sync
      else (answers env samples s.board s.toSession d).run := by
  rw [startOne, Board.start_snd]
  refine if_congr Iff.rfl rfl (if_congr (and_congr_left' ?_) rfl rfl)
  exact decide_eq_true_iff

/-- The loop of `start`, without the devices, is that of `Session.start` with answers that
are those of the devices. -/
theorem startFrom_toSession {env : ℕ → Launch} {samples : ℕ} {ds : List ℕ} (hds : ds.Nodup)
    {s : Live} {a : ℕ → Answers} (ha : ∀ d ∈ ds, a d = answers env samples s.board s.toSession d) :
    Session.startFrom a ds s.toSession =
      ((startFrom env samples ds s).1.toSession, (startFrom env samples ds s).2) := by
  induction ds generalizing s with
  | nil => rfl
  | cons d ds ih =>
      obtain ⟨hd, hds⟩ := List.nodup_cons.mp hds
      have hsnd := startOne_snd env samples d s
      have hfst : (s.startOne env samples d).1.toSession =
          { s.toSession with
            captures :=
              if (answers env samples s.board s.toSession d).Runs s.m_devices.length then
                s.captures ++ [⟨s.heap d, s.m_sample_rate⟩]
              else s.captures } := rfl
      rw [Session.startFrom, startFrom, ha d List.mem_cons_self]
      by_cases hon : (answers env samples s.board s.toSession d).on = 0
      · by_cases hsync : 1 < s.m_devices.length ∧
            (answers env samples s.board s.toSession d).sync ≠ 0
        · have hnot : ¬(answers env samples s.board s.toSession d).Runs s.m_devices.length :=
            fun h => hsync.2 (h.2 hsync.1)
          rw [if_neg hnot] at hfst
          rw [if_neg (not_not.mpr hon), if_pos hsync] at hsnd ⊢
          rw [if_pos (hsnd ▸ hsync.2), hsnd, hfst]
        · have hruns : (answers env samples s.board s.toSession d).Runs s.m_devices.length :=
            ⟨hon, fun h => not_not.mp fun hne => hsync ⟨h, hne⟩⟩
          rw [if_pos hruns] at hfst
          rw [if_neg (not_not.mpr hon), if_neg hsync] at hsnd ⊢
          simp only [hsnd]
          by_cases hrun : (answers env samples s.board s.toSession d).run = 0
          · rw [if_neg (not_not.mpr hrun), if_neg (not_not.mpr hrun)]
            -- the devices to come are as they were
            have hrest := ih hds (s := (s.startOne env samples d).1.count d) fun e he => by
              have hne : e ≠ d := fun heq => hd (heq ▸ he)
              rw [ha e (List.mem_cons_of_mem d he), answers, answers, count, startOne]
              simp only [Function.update_of_ne hne]
              rfl
            rw [← hrest, count, hfst]
          · rw [if_pos hrun, if_pos hrun, hfst, hsnd]
      · have hnot : ¬(answers env samples s.board s.toSession d).Runs s.m_devices.length :=
          fun h => hon h.1
        rw [if_neg hnot] at hfst
        rw [if_pos hon] at hsnd ⊢
        rw [if_pos (hsnd ▸ hon), hsnd, hfst]

/-- What `start` changes before its loop. -/
theorem prepare_frame (samples : ℕ) (mem : ℕ → Transfers) (s : Live) :
    ∃ heap rate, s.prepare samples mem =
      { s with
        heap := heap
        m_sample_rate := rate
        m_cancellation := 0
        m_continuous := decide (samples = 0) } := by
  simp only [prepare]
  split
  · obtain ⟨heap, rate, heq⟩ := Session.configure_frame 0 mem
      { s.toSession with m_continuous := decide (samples = 0) }
    exact ⟨heap, rate, by rw [heq]⟩
  · exact ⟨s.heap, s.m_sample_rate, rfl⟩

/-- **Forgetting the devices**, `start` is `Session.start` with the answers they give. -/
theorem start_toSession (samples : ℕ) (mem : ℕ → Transfers) (env : ℕ → Launch) {s : Live}
    (hs : s.m_devices.Nodup) :
    s.toSession.start samples mem
        (answers env samples s.board (s.prepare samples mem).toSession) =
      ((s.start samples mem env).1.toSession, (s.start samples mem env).2) := by
  have hprepare : s.toSession.start samples mem
      (answers env samples s.board (s.prepare samples mem).toSession) =
        Session.startFrom (answers env samples s.board (s.prepare samples mem).toSession)
          (s.prepare samples mem).m_devices (s.prepare samples mem).toSession := by
    simp only [Session.start, prepare]
    split <;> rfl
  rw [hprepare, start]
  obtain ⟨heap, rate, heq⟩ := prepare_frame samples mem s
  have hboard : (s.prepare samples mem).board = s.board := by rw [heq]
  have hdevices : (s.prepare samples mem).m_devices = s.m_devices := by rw [heq]
  refine startFrom_toSession ?_ fun d _ => by rw [hboard]
  rw [hdevices]
  exact hs

/-! ### What the loops do -/

/-- The devices that a loop over `ds` starts: those before the first one that fails. -/
def started (env : ℕ → Launch) (s : Live) (ds : List ℕ) : List ℕ :=
  ds.takeWhile fun d => (env d).Works (Synchronized s.toSession) (s.board d)

/-- Only the devices in the list matter. -/
theorem started_congr {env : ℕ → Launch} {s t : Live} {ds : List ℕ}
    (hdevices : t.m_devices = s.m_devices) (hboard : ∀ d ∈ ds, t.board d = s.board d) :
    started env t ds = started env s ds := by
  induction ds with
  | nil => rfl
  | cons d ds ih =>
      have hrest := ih fun e he => hboard e (List.mem_cons_of_mem d he)
      have hworks : decide ((env d).Works (Synchronized t.toSession) (t.board d)) =
          decide ((env d).Works (Synchronized s.toSession) (s.board d)) := by
        rw [decide_eq_decide, Synchronized, Synchronized, hdevices, hboard d List.mem_cons_self]
      rw [started, List.takeWhile_cons, hworks]
      rw [started, started] at hrest
      rw [started, List.takeWhile_cons, hrest]

theorem mem_of_mem_started {env : ℕ → Launch} {s : Live} {ds : List ℕ} {d : ℕ}
    (h : d ∈ started env s ds) : d ∈ ds :=
  (List.takeWhile_sublist _).mem h

/-- **The loop of `start`** runs and counts the devices up to the first one that fails, and
starts their counters anew. It returns 0 exactly when none fails. -/
theorem startFrom_cases (env : ℕ → Launch) (samples : ℕ) {ds : List ℕ} (hds : ds.Nodup)
    (s : Live) :
    (∃ board captures, (startFrom env samples ds s).1 =
        { s with
          board := board
          captures := captures
          m_active_devices :=
            (fun n => Counter.add 32 n 1)^[(started env s ds).length] s.m_active_devices
          streaming := s.streaming ++ started env s ds } ∧
        ∀ d, (board d).counters =
          if d ∈ started env s ds then (samples, 0, 0, 0) else (s.board d).counters) ∧
      ((startFrom env samples ds s).2 = 0 ↔ started env s ds = ds) := by
  induction ds generalizing s with
  | nil =>
      refine ⟨⟨s.board, s.captures, ?_, fun d => rfl⟩, by simp [startFrom, started]⟩
      simp only [started, List.takeWhile_nil, List.append_nil]
      rfl
  | cons d ds ih =>
      obtain ⟨hd, hds⟩ := List.nodup_cons.mp hds
      rw [startFrom]
      rcases Board.start_cases (env d) (Synchronized s.toSession) (m_sam_per s.toSession d) samples
          (s.board d) with ⟨hworks, hret, hcounters⟩ | ⟨hworks, hret, hcounters⟩
      · have hsame : started env ((s.startOne env samples d).1.count d) ds = started env s ds :=
          started_congr rfl fun e he =>
            Function.update_of_ne (fun heq : e = d => hd (heq ▸ he)) _ _
        have hcons : started env s (d :: ds) = d :: started env s ds :=
          List.takeWhile_cons_of_pos (decide_eq_true hworks)
        have hsnd : ¬(s.startOne env samples d).2 ≠ 0 := not_not.mpr hret
        obtain ⟨⟨board, captures, heq, hboard⟩, hzero⟩ :=
          ih hds ((s.startOne env samples d).1.count d)
        simp only [if_neg hsnd]
        rw [hsame] at heq hboard hzero
        refine ⟨⟨board, captures, ?_, fun e => ?_⟩, ?_⟩
        · rw [heq, hcons, count, startOne, List.length_cons, Function.iterate_succ_apply]
          simp only [List.append_assoc, List.singleton_append]
        · rw [hboard e, hcons]
          by_cases hed : e = d
          · subst hed
            have hnot : e ∉ started env s ds := fun h => hd (mem_of_mem_started h)
            rw [if_neg hnot, if_pos List.mem_cons_self]
            simp only [count, startOne, Function.update_self]
            exact hcounters
          · simp only [List.mem_cons, hed, false_or, count, startOne,
              Function.update_of_ne hed]
        · rw [hzero, hcons, List.cons_inj_right]
      · have hnil : started env s (d :: ds) = [] :=
          List.takeWhile_cons_of_neg (by simpa using hworks)
        have hsnd : (s.startOne env samples d).2 ≠ 0 := hret
        simp only [if_pos hsnd, hnil]
        refine ⟨⟨(s.startOne env samples d).1.board, (s.startOne env samples d).1.captures, ?_,
          fun e => ?_⟩, ?_⟩
        · rw [List.append_nil]
          rfl
        · rw [if_neg List.not_mem_nil, startOne]
          by_cases hed : e = d
          · subst hed
            simp only [Function.update_self]
            exact hcounters
          · simp only [Function.update_of_ne hed]
        · simp [hsnd]

/-- **What `start` does** to a session whose devices are a set. -/
theorem start_cases (samples : ℕ) (mem : ℕ → Transfers) (env : ℕ → Launch) {s : Live}
    (hs : s.m_devices.Nodup) :
    (∃ heap rate board captures, (s.start samples mem env).1 =
        { s with
          heap := heap
          m_sample_rate := rate
          board := board
          captures := captures
          m_cancellation := 0
          m_continuous := decide (samples = 0)
          m_active_devices := (fun n => Counter.add 32 n 1)^[(started env s s.m_devices).length]
            s.m_active_devices
          streaming := s.streaming ++ started env s s.m_devices } ∧
        ∀ d, (board d).counters =
          if d ∈ started env s s.m_devices then (samples, 0, 0, 0) else (s.board d).counters) ∧
      ((s.start samples mem env).2 = 0 ↔ started env s s.m_devices = s.m_devices) := by
  obtain ⟨heap, rate, heq⟩ := prepare_frame samples mem s
  have hdevices : (s.prepare samples mem).m_devices = s.m_devices := by rw [heq]
  have hstarted : started env (s.prepare samples mem) s.m_devices = started env s s.m_devices :=
    started_congr hdevices fun d _ => by rw [heq]
  rw [start, hdevices]
  obtain ⟨⟨board, captures, hfst, hboard⟩, hsnd⟩ :=
    startFrom_cases env samples hs (s.prepare samples mem)
  rw [hstarted] at hfst hboard hsnd
  refine ⟨⟨heap, rate, board, captures, by rw [hfst, heq], fun d => ?_⟩, hsnd⟩
  rw [hboard d, heq]

/-- What `completion` does to the books. -/
theorem completion_toSession (s : Live) (d : ℕ) :
    (s.completion d).toSession =
      if d ∈ s.streaming then
        { s.toSession with m_active_devices := Counter.pred 32 s.m_active_devices }
      else s.toSession := by
  rw [completion]
  split
  · rfl
  · rfl

/-- `completion` leaves the devices as they are. -/
theorem completion_frame (s : Live) (d : ℕ) :
    (s.completion d).board = s.board ∧ (s.completion d).m_devices = s.m_devices := by
  rw [completion_toSession]
  constructor
  · rw [completion]
    split
    · rfl
    · rfl
  · split
    · rfl
    · rfl

/-- A device that completes streams no longer. -/
theorem completion_streaming (s : Live) (d : ℕ) :
    (s.completion d).streaming = s.streaming.erase d := by
  rw [completion]
  split
  · rfl
  · rename_i hd
    exact (List.erase_of_not_mem hd).symm

theorem completions_frame (ds : List ℕ) (s : Live) :
    (ds.foldl completion s).board = s.board ∧ (ds.foldl completion s).m_devices = s.m_devices := by
  induction ds generalizing s with
  | nil => exact ⟨rfl, rfl⟩
  | cons d ds ih =>
      obtain ⟨hboard, hdevices⟩ := completion_frame s d
      rw [List.foldl_cons, (ih _).1, (ih _).2, hboard, hdevices]
      exact ⟨rfl, rfl⟩

/-- Waiting leaves the devices as they are. -/
theorem wait_frame (env : Ending) (s : Live) :
    (s.wait env).board = s.board ∧ (s.wait env).m_devices = s.m_devices := by
  simp only [wait]
  split
  · obtain ⟨hboard, hdevices⟩ := completions_frame env.completing
      { (s.cancel env.cancel).1 with m_continuous := false }
    exact ⟨hboard, hdevices⟩
  · exact completions_frame env.completing s

/-- The loop of `end` changes the devices alone. -/
theorem offFrom_frame (env : ℕ → Shutdown) (ds : List ℕ) (s : Live) (ret : ℤ) :
    ∃ board, (offFrom env ds s ret).1 = { s with board := board } := by
  induction ds generalizing s ret with
  | nil => exact ⟨s.board, rfl⟩
  | cons d ds ih =>
      have hone : ∃ board, (s.offOne env d).1 = { s with board := board } := ⟨_, rfl⟩
      have hrest : ∀ ret, ∃ board, (offFrom env ds (s.offOne env d).1 ret).1 =
          { s with board := board } := by
        intro ret
        obtain ⟨board, heq⟩ := ih (s.offOne env d).1 ret
        exact ⟨board, heq⟩
      rw [offFrom]
      split
      · exact hone
      · split
        · exact hrest _
        · split
          · exact hone
          · exact hrest _

end Live

end Libsmu
